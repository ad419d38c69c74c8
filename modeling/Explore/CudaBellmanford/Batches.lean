import Explore.CudaBellmanford.Iterations
import Mathlib.Algebra.BigOperators.Fin
import Mathlib.Algebra.Order.Ring.Rat
import Mathlib.Tactic.NormNum
import Mathlib.Algebra.Order.BigOperators.Group.Finset

/-!
# Batches of iterations

A kernel takes boundedly many steps and is never stuck before it exits. A batch that
changes something in its last iteration has not made as many rounds as there are edges, so
there are boundedly many batches. After the last one a round changes nothing.
-/

namespace Explore.CudaBellmanford

open BellmanFord

variable {K : Type*} [Semiring K] [LinearOrder K] {launch : Launch K}
  {first : launch.graph.DeviceVector} {g g' : Grid launch} {lane : Fin launch.threads} {i : ℕ}

section Steps

/-- More steps than a thread takes in one iteration. -/
def Launch.iterationSteps (launch : Launch K) : ℕ :=
  2 * launch.graph.edges.length + launch.graph.vertices + 4

/-- More steps than a thread takes before it exits. -/
def Thread.left (launch : Launch K) (t : Thread launch.graph.vertices K) : ℕ :=
  let later := (launch.iters - (t.i + 1)) * launch.iterationSteps
  match t.pc with
  | .relax j => later + (2 * (launch.graph.edges.length - j) + launch.graph.vertices + 4)
  | .atomicMin j _ _ =>
      later + (2 * (launch.graph.edges.length - (j + launch.threads)) +
        launch.graph.vertices + 5)
  | .computed => later + (launch.graph.vertices + 3)
  | .copy j => later + (launch.graph.vertices - j + 2)
  | .copied => later + 1
  | .exited => 0

def Grid.left (g : Grid launch) : ℕ := ∑ lane, (g.thread lane).left launch

/-- More steps than the kernel takes. -/
def Launch.kernelSteps (launch : Launch K) : ℕ :=
  launch.threads * (launch.iters * launch.iterationSteps)

theorem Thread.left_loop_le (lane i : ℕ) :
    (Thread.loop _ K launch.iters lane i).left launch ≤
      (launch.iters - i) * launch.iterationSteps := by
  by_cases hi : i < launch.iters
  · have hsub : launch.iters - i = launch.iters - (i + 1) + 1 := by omega
    rw [hsub, Nat.add_mul, Nat.one_mul, Thread.loop, if_pos hi, Thread.left,
      Launch.iterationSteps]
    dsimp only
    omega
  · rw [Thread.loop, if_neg hi]
    exact Nat.zero_le _

theorem Grid.left_start_le (first newBest : launch.graph.DeviceVector) :
    (Grid.start launch first newBest).left ≤ launch.kernelSteps := by
  calc (Grid.start launch first newBest).left
      ≤ ∑ _lane : Fin launch.threads, launch.iters * launch.iterationSteps :=
        Finset.sum_le_sum fun lane _ => Thread.left_loop_le lane 0
    _ = launch.kernelSteps := by
        rw [Finset.sum_const, Finset.card_univ, Fintype.card_fin, smul_eq_mul,
          Launch.kernelSteps]

/-- A jump that brings one thread nearer to its exit does so with the grid. -/
theorem Grid.left_goto_lt {pc : Pc launch.graph.vertices K}
    (h : Thread.left launch ⟨(g.thread lane).i, pc⟩ < (g.thread lane).left launch) :
    (g.goto lane pc).left < g.left := by
  refine Finset.sum_lt_sum (fun other _ => ?_) ⟨lane, Finset.mem_univ lane, ?_⟩
  · by_cases heq : other = lane
    · subst heq
      simpa [Grid.goto] using h.le
    · simp [Grid.goto, heq]
  · simpa [Grid.goto] using h

theorem Grid.left_step_lt (hstep : g.step lane = some g') : g'.left < g.left := by
  have hthreads := launch.threads_pos
  rw [Grid.step] at hstep
  cases hat : (g.thread lane).pc with
  | relax j =>
      rw [hat] at hstep
      dsimp only at hstep
      cases hedge : launch.graph.edges[j]? with
      | none =>
          rw [hedge] at hstep
          obtain rfl := Option.some.inj hstep
          refine Grid.left_goto_lt ?_
          simp only [Thread.left, hat]
          omega
      | some edge =>
          obtain ⟨hj, -⟩ := List.getElem?_eq_some_iff.mp hedge
          rw [hedge] at hstep
          dsimp only at hstep
          split at hstep
          · obtain rfl := Option.some.inj hstep
            refine Grid.left_goto_lt ?_
            simp only [Thread.left, hat]
            omega
          · obtain rfl := Option.some.inj hstep
            refine Grid.left_goto_lt ?_
            simp only [Thread.left, hat]
            omega
  | atomicMin j v cand =>
      rw [hat] at hstep
      obtain rfl := Option.some.inj hstep
      refine Grid.left_goto_lt (g := g) ?_
      simp only [Thread.left, hat]
      omega
  | copy j =>
      rw [hat] at hstep
      dsimp only at hstep
      split at hstep
      · obtain rfl := Option.some.inj hstep
        refine Grid.left_goto_lt (g := g) ?_
        simp only [Thread.left, hat]
        omega
      · obtain rfl := Option.some.inj hstep
        refine Grid.left_goto_lt ?_
        simp only [Thread.left, hat]
        omega
  | computed => simp [hat] at hstep
  | copied => simp [hat] at hstep
  | exited => simp [hat] at hstep

/-- Passing a sync brings every thread nearer to its exit. -/
theorem Grid.left_sync_lt (hsync : g.sync = some g') : g'.left < g.left := by
  have hnonempty : (Finset.univ : Finset (Fin launch.threads)).Nonempty :=
    ⟨⟨0, launch.threads_pos⟩, Finset.mem_univ _⟩
  obtain ⟨hall, rfl⟩ | ⟨hall, rfl⟩ := Grid.sync_cases hsync
  · refine Finset.sum_lt_sum_of_nonempty hnonempty fun lane _ => ?_
    simp only [Grid.afterComputed]
    split
    · simp only [Thread.left, hall]
      omega
    · simp only [Thread.left, hall]
      omega
  · refine Finset.sum_lt_sum_of_nonempty hnonempty fun lane _ => ?_
    refine (Thread.left_loop_le lane _).trans_lt ?_
    simp only [Thread.left, hall]
    omega

theorem Grid.left_act_lt {action : GridAction launch.threads} (hact : g.act action = some g') :
    g'.left < g.left := by
  cases action with
  | step lane => exact Grid.left_step_lt hact
  | sync => exact Grid.left_sync_lt hact

/-- A kernel that has not exited takes another step. -/
theorem Launched.progress (h : Launched first g) (hrun : ¬∀ lane, (g.thread lane).pc = .exited) :
    ∃ action g', g.act action = some g' := by
  cases h with
  | relaxing i h =>
      by_cases hall : ∀ lane, (g.thread lane).pc = .computed
      · exact ⟨.sync, _, if_pos hall⟩
      · obtain ⟨lane, hlane⟩ := not_forall.mp hall
        have hpc := h.at_pc lane
        refine ⟨.step lane, Option.isSome_iff_exists.mp ?_⟩
        simp only [Grid.act, Grid.step]
        cases hat : (g.thread lane).pc with
        | relax j =>
            dsimp only
            split
            · split <;> rfl
            · rfl
        | atomicMin j v cand => rfl
        | computed => exact absurd hat hlane
        | copy j => exact absurd hpc (by rw [hat]; exact id)
        | copied => exact absurd hpc (by rw [hat]; exact id)
        | exited => exact absurd hpc (by rw [hat]; exact id)
  | copying i h =>
      by_cases hall : ∀ lane, (g.thread lane).pc = .copied
      · have hne : ¬∀ lane, (g.thread lane).pc = .computed := by
          intro hcomputed
          have := (hcomputed ⟨0, launch.threads_pos⟩).symm.trans (hall _)
          simp at this
        exact ⟨.sync, _, (if_neg hne).trans (if_pos hall)⟩
      · obtain ⟨lane, hlane⟩ := not_forall.mp hall
        have hpc := h.at_pc lane
        refine ⟨.step lane, Option.isSome_iff_exists.mp ?_⟩
        simp only [Grid.act, Grid.step]
        cases hat : (g.thread lane).pc with
        | copy j =>
            dsimp only
            split <;> rfl
        | copied => exact absurd hat hlane
        | relax j => exact absurd hpc (by rw [hat]; exact id)
        | atomicMin j v cand => exact absurd hpc (by rw [hat]; exact id)
        | computed => exact absurd hpc (by rw [hat]; exact id)
        | exited => exact absurd hpc (by rw [hat]; exact id)
  | exited h => exact absurd h.at_pc hrun

end Steps

section Batches

/-- The arrays before the first launch. -/
def Launch.initial (launch : Launch K) : launch.graph.DeviceVector :=
  BellmanFord.initial launch.graph.source (sentinel K)

/-- More steps than `doMain` takes. -/
def Launch.hostSteps (launch : Launch K) : ℕ :=
  (launch.graph.edges.length + 1) * (launch.kernelSteps + 1)

/-- `doMain` after `steps` steps. -/
inductive InLoop (launch : Launch K) (steps : ℕ) : Host launch → Prop
  /-- The kernel runs after `batches` batches that changed something. -/
  | running (batches : ℕ) (g : Grid launch)
      (launched : Launched (rounds launch.graph.edges (batches * launch.iters) launch.initial) g)
      (batches_le : batches ≤ launch.graph.edges.length)
      (steps_le : steps + g.left ≤ batches * (launch.kernelSteps + 1) + launch.kernelSteps) :
      InLoop launch steps (.running g)
  | done (k : ℕ)
      (fixed : relax launch.graph.edges (rounds launch.graph.edges k launch.initial) =
        rounds launch.graph.edges k launch.initial)
      (steps_le : steps ≤ launch.hostSteps) :
      InLoop launch steps (.done (rounds launch.graph.edges k launch.initial))

theorem InLoop.start (launch : Launch K) : InLoop launch 0 (.start launch) := by
  refine .running 0 _ ?_ (Nat.zero_le _) ?_
  · rw [Nat.zero_mul]
    exact .start _
  · rw [Nat.zero_add, Nat.zero_mul, Nat.zero_add]
    exact Grid.left_start_le _ _

theorem Launch.steps_le {launch : Launch K} {batches : ℕ}
    (hbatches : batches ≤ launch.graph.edges.length) :
    batches * (launch.kernelSteps + 1) + launch.kernelSteps + 1 ≤ launch.hostSteps := by
  rw [Launch.hostSteps, Nat.add_assoc, ← Nat.succ_mul]
  exact Nat.mul_le_mul_right _ (Nat.succ_le_succ hbatches)

theorem InLoop.steps_le_hostSteps {steps : ℕ} {host : Host launch} (h : InLoop launch steps host) :
    steps ≤ launch.hostSteps := by
  cases h with
  | running batches g launched batches_le steps_le =>
      have := Launch.steps_le batches_le
      omega
  | done k fixed steps_le => exact steps_le

variable [IsStrictOrderedRing K]

theorem Graph.sentinel_nonneg (graph : Graph K) : 0 ≤ sentinel K :=
  (weight_nonneg graph.cost_nonneg (List.Subset.refl _)).trans graph.total_lt.le

/-- After as many rounds as there are edges the arrays stay equal. -/
theorem Launch.rounds_stable (launch : Launch K) {k m : ℕ}
    (hk : launch.graph.edges.length ≤ k) (hm : launch.graph.edges.length ≤ m) :
    rounds launch.graph.edges k launch.initial = rounds launch.graph.edges m launch.initial :=
  (rounds_eq_rounds_length launch.graph.sentinel_nonneg launch.graph.cost_nonneg hk).trans
    (rounds_eq_rounds_length launch.graph.sentinel_nonneg launch.graph.cost_nonneg hm).symm

/-- The comparison either ends the loop at a fixed point or starts a batch with the values
of the last one. -/
theorem InLoop.compare {steps : ℕ} {host : Host launch} (h : InLoop launch steps (.running g))
    (hact : (Host.running g).act .compare = some host) : InLoop launch (steps + 1) host := by
  cases h with
  | running batches g launched batches_le steps_le =>
      rw [Host.act] at hact
      split at hact
      · rename_i hall
        have hexited : Exited (rounds launch.graph.edges (batches * launch.iters) launch.initial)
            g := by
          cases launched with
          | exited h => exact h
          | relaxing i h =>
              have hpc := h.at_pc ⟨0, launch.threads_pos⟩
              rw [hall] at hpc
              exact hpc.elim
          | copying i h =>
              have hpc := h.at_pc ⟨0, launch.threads_pos⟩
              rw [hall] at hpc
              exact hpc.elim
        obtain ⟨iters, hiters⟩ : ∃ iters, launch.iters = iters + 1 :=
          ⟨launch.iters - 1, (Nat.sub_add_cancel launch.iters_pos).symm⟩
        have hbest := hexited.best_eq
        have hnewBest := hexited.newBest_eq
        rw [rounds_rounds, hiters, Nat.add_sub_cancel] at hbest
        rw [rounds_rounds, hiters, Nat.add_right_comm] at hnewBest
        dsimp only at hact
        split at hact
        · rename_i hchanged
          obtain rfl := Option.some.inj hact
          have hfew : iters + batches * (iters + 1) < launch.graph.edges.length := by
            by_contra hmany
            refine hchanged fun v => ?_
            rw [hnewBest, hbest, launch.rounds_stable (by omega) (not_lt.mp hmany)]
          have hbatches : batches ≤ batches * (iters + 1) := Nat.le_mul_of_pos_right _ (by omega)
          refine .running (batches + 1) _ ?_ (by omega) ?_
          · rw [Nat.add_mul, Nat.one_mul, Nat.add_comm, hiters, Nat.add_right_comm, ← hnewBest]
            exact .start _
          · have := Grid.left_start_le g.newBest g.newBest
            rw [Nat.add_mul, Nat.one_mul]
            omega
        · rename_i hsame
          obtain rfl := Option.some.inj hact
          have heq : g.newBest = g.best := funext (not_not.mp hsame)
          rw [heq, hbest]
          refine .done _ ?_ ?_
          · rw [← rounds_succ, ← hnewBest, heq, hbest]
          · have := Launch.steps_le batches_le
            omega
      · simp at hact

theorem InLoop.act {steps : ℕ} {host host' : Host launch} (h : InLoop launch steps host)
    {action : HostAction launch.threads} (hact : host.act action = some host') :
    InLoop launch (steps + 1) host' := by
  cases action with
  | compare =>
      cases host with
      | running g => exact h.compare hact
      | done best => simp [Host.act] at hact
  | grid action =>
      cases h with
      | running batches g launched batches_le steps_le =>
          obtain ⟨g', hstep, rfl⟩ := Option.map_eq_some_iff.mp hact
          have := Grid.left_act_lt hstep
          exact .running batches g' (launched.act hstep) batches_le (by omega)
      | done k fixed steps_le => simp [Host.act] at hact

/-- Every schedule keeps the invariant. -/
theorem InLoop.run {steps : ℕ} {host host' : Host launch} (h : InLoop launch steps host)
    {actions : List (HostAction launch.threads)} (hrun : host.run actions = some host') :
    InLoop launch (steps + actions.length) host' := by
  induction actions generalizing host steps with
  | nil => exact Option.some.inj hrun ▸ h
  | cons action actions ih =>
      rw [Host.run, List.foldlM_cons] at hrun
      obtain ⟨mid, hact, hrest⟩ := Option.bind_eq_some_iff.mp hrun
      rw [List.length_cons, Nat.add_comm actions.length 1, ← Nat.add_assoc]
      exact ih (h.act hact) hrest

omit [IsStrictOrderedRing K] in
/-- `doMain` is never stuck before it has left its loop. -/
theorem InLoop.progress {steps : ℕ} (h : InLoop launch steps (.running g)) :
    ∃ action host, (Host.running g).act action = some host := by
  cases h with
  | running batches g launched batches_le steps_le =>
      by_cases hall : ∀ lane, (g.thread lane).pc = .exited
      · refine ⟨.compare, Option.isSome_iff_exists.mp ?_⟩
        rw [Host.act, if_pos hall]
        dsimp only
        split <;> rfl
      · obtain ⟨action, g', hact⟩ := launched.progress hall
        exact ⟨.grid action, .running g', Option.map_eq_some_iff.mpr ⟨g', hact, rfl⟩⟩

/-- The kernel and the loop around it, for every schedule. Whenever all threads are at the
first sync of an iteration, `newBest` is one round of relaxations of `best`, which holds
what the iterations before have computed. On exit the arrays are the last two iterates. The
loop makes boundedly many steps, is never stuck, and leaves the distances from vertex 0 in
`best`. -/
theorem newBest_batch_shortest (launch : Launch K) :
    (∀ (first : launch.graph.DeviceVector) actions g,
      (Grid.start launch first first).run actions = some g →
        ((∀ lane, (g.thread lane).pc = .computed) →
          ∃ i < launch.iters, (∀ lane, (g.thread lane).i = i) ∧
            g.best = rounds launch.graph.edges i first ∧
            ∀ v, g.newBest v = (candidates launch.graph.edges g.best v).foldl min (g.best v)) ∧
        ((∀ lane, (g.thread lane).pc = .exited) →
          g.newBest = rounds launch.graph.edges launch.iters first ∧
          g.best = rounds launch.graph.edges (launch.iters - 1) first)) ∧
    ∃ bound, ∀ actions host, (Host.start launch).run actions = some host →
      actions.length ≤ bound ∧
      match host with
      | .running _ => ∃ action host', host.act action = some host'
      | .done best => ∀ v,
          IsDistance launch.graph.edges launch.graph.source (sentinel K) v (best v) := by
  refine ⟨fun first actions g hrun => ?_, launch.hostSteps, fun actions host hrun => ?_⟩
  · let lane : Fin launch.threads := ⟨0, launch.threads_pos⟩
    cases (Launched.start first).run hrun with
    | relaxing i h =>
        refine ⟨fun hall => ⟨i, h.i_lt, h.at_i, h.best_eq, congrFun (h.newBest_eq hall)⟩,
          fun hall => ?_⟩
        have hpc := h.at_pc lane
        rw [hall lane] at hpc
        exact hpc.elim
    | copying i h =>
        have hpc := h.at_pc lane
        refine ⟨fun hall => ?_, fun hall => ?_⟩
        · rw [hall lane] at hpc
          exact hpc.elim
        · rw [hall lane] at hpc
          exact hpc.elim
    | exited h =>
        refine ⟨fun hall => ?_, fun _ => ⟨h.newBest_eq, h.best_eq⟩⟩
        have := (h.at_pc lane).symm.trans (hall lane)
        simp at this
  · have hloop := (InLoop.start launch).run hrun
    rw [Nat.zero_add] at hloop
    refine ⟨hloop.steps_le_hostSteps, ?_⟩
    cases hloop with
    | running batches g launched batches_le steps_le =>
        exact (InLoop.running batches g launched batches_le steps_le).progress
    | done k fixed steps_le =>
        exact isDistance_of_fixed launch.graph.cost_nonneg launch.graph.total_lt fixed

/-- Three vertices with a detour that is shorter, two threads and batches of two. -/
def sample : Launch ℚ where
  graph :=
    { vertices := 3
      edges := [⟨0, 1, 5⟩, ⟨0, 2, 1⟩, ⟨2, 1, 2⟩]
      vertices_pos := by decide
      cost_nonneg := by decide
      total_lt := by norm_num [weight, sentinel] }
  iters := 2
  threads := 2
  iters_pos := by decide
  threads_pos := by decide

theorem newBest_batch_shortest_sample :
    ∃ bound, ∀ actions host, (Host.start sample).run actions = some host →
      actions.length ≤ bound := by
  obtain ⟨-, bound, hbound⟩ := newBest_batch_shortest sample
  exact ⟨bound, fun actions host hrun => (hbound actions host hrun).1⟩

end Batches

end Explore.CudaBellmanford
