import Explore.CudaBellmanford.Kernel

/-!
# What an iteration of the kernel computes

While the threads relax, `newBest` lies between the values of a whole round and `best`, and
each thread has relaxed the edges before its index. So at the sync `newBest` is the round,
whatever the guards have read. While the threads copy, only `best` changes.
-/

namespace Explore.CudaBellmanford

open BellmanFord

variable {K : Type*} [Semiring K] [LinearOrder K] {launch : Launch K}
  {first : launch.graph.DeviceVector} {g g' : Grid launch} {lane : Fin launch.threads} {i : ℕ}

/-- The edges that `lane` meets below index `n` are relaxed. -/
def Relaxed (best newBest : launch.graph.DeviceVector) (lane : Fin launch.threads) (n : ℕ) :
    Prop :=
  ∀ j < n, j % launch.threads = lane → ∀ edge, launch.graph.edges[j]? = some edge →
    newBest edge.v ≤ best edge.u + edge.c

/-- The elements that `lane` meets below index `n` are copied. -/
def Copied (best newBest : launch.graph.DeviceVector) (lane : Fin launch.threads) (n : ℕ) :
    Prop :=
  ∀ v : Fin launch.graph.vertices, v < n → v % launch.threads = lane → best v = newBest v

/-- A thread between the start of an iteration and its first sync. -/
def RelaxingAt (best newBest : launch.graph.DeviceVector) (lane : Fin launch.threads) :
    Pc launch.graph.vertices K → Prop
  | .relax j => j % launch.threads = lane ∧ Relaxed best newBest lane j
  | .atomicMin j v cand => j % launch.threads = lane ∧ Relaxed best newBest lane j ∧
      ∃ edge, launch.graph.edges[j]? = some edge ∧ v = edge.v ∧ cand = best edge.u + edge.c
  | .computed => Relaxed best newBest lane launch.graph.edges.length
  | .copy _ | .copied | .exited => False

/-- A thread between the two syncs of iteration `i`. -/
def CopyingAt (best newBest : launch.graph.DeviceVector) (i : ℕ) (lane : Fin launch.threads) :
    Pc launch.graph.vertices K → Prop
  | .copy j => i + 1 < launch.iters ∧ j % launch.threads = lane ∧ Copied best newBest lane j
  | .copied => i + 1 < launch.iters → Copied best newBest lane launch.graph.vertices
  | .relax _ | .atomicMin .. | .computed | .exited => False

/-- Iteration `i` relaxes the edges. -/
structure Relaxing (first : launch.graph.DeviceVector) (i : ℕ) (g : Grid launch) : Prop where
  i_lt : i < launch.iters
  best_eq : g.best = rounds launch.graph.edges i first
  relax_le : ∀ v, relax launch.graph.edges g.best v ≤ g.newBest v
  le_best : ∀ v, g.newBest v ≤ g.best v
  at_i : ∀ lane, (g.thread lane).i = i
  at_pc : ∀ lane, RelaxingAt g.best g.newBest lane (g.thread lane).pc

/-- Iteration `i` copies, unless it is the last one. -/
structure Copying (first : launch.graph.DeviceVector) (i : ℕ) (g : Grid launch) : Prop where
  i_lt : i < launch.iters
  newBest_eq : g.newBest = rounds launch.graph.edges (i + 1) first
  best_eq : i + 1 = launch.iters → g.best = rounds launch.graph.edges i first
  at_i : ∀ lane, (g.thread lane).i = i
  at_pc : ∀ lane, CopyingAt g.best g.newBest i lane (g.thread lane).pc

/-- The invariant on exit. -/
structure Exited (first : launch.graph.DeviceVector) (g : Grid launch) : Prop where
  newBest_eq : g.newBest = rounds launch.graph.edges launch.iters first
  best_eq : g.best = rounds launch.graph.edges (launch.iters - 1) first
  at_pc : ∀ lane, (g.thread lane).pc = .exited

/-- A kernel that was launched with `first` in both arrays. -/
inductive Launched (first : launch.graph.DeviceVector) (g : Grid launch) : Prop
  | relaxing (i : ℕ) (h : Relaxing first i g)
  | copying (i : ℕ) (h : Copying first i g)
  | exited (h : Exited first g)

section Goto

variable (g) (lane) (pc : Pc launch.graph.vertices K)

@[simp] theorem Grid.goto_best : (g.goto lane pc).best = g.best := rfl

@[simp] theorem Grid.goto_newBest : (g.goto lane pc).newBest = g.newBest := rfl

@[simp] theorem Grid.goto_i (other : Fin launch.threads) :
    ((g.goto lane pc).thread other).i = (g.thread other).i := by
  by_cases heq : other = lane
  · subst heq
    simp [Grid.goto]
  · simp [Grid.goto, heq]

variable {g lane pc}

/-- What holds of the position of each thread after one of them jumps. -/
theorem Grid.forall_goto_pc {P : Fin launch.threads → Pc launch.graph.vertices K → Prop}
    (hlane : P lane pc) (hothers : ∀ other, P other (g.thread other).pc)
    (other : Fin launch.threads) : P other ((g.goto lane pc).thread other).pc := by
  by_cases heq : other = lane
  · subst heq
    simpa [Grid.goto] using hlane
  · simpa [Grid.goto, heq] using hothers other

end Goto

section Relax

variable {best newBest newBest' : launch.graph.DeviceVector}

theorem Relaxed.zero : Relaxed best newBest lane 0 := fun _ hj => absurd hj (Nat.not_lt_zero _)

/-- Lowering `newBest` undoes no relaxation. -/
theorem Relaxed.lower {n : ℕ} (h : Relaxed best newBest lane n)
    (hle : ∀ v, newBest' v ≤ newBest v) : Relaxed best newBest' lane n :=
  fun j hj hlane edge hedge => (hle edge.v).trans (h j hj hlane edge hedge)

theorem RelaxingAt.lower {pc : Pc launch.graph.vertices K} (h : RelaxingAt best newBest lane pc)
    (hle : ∀ v, newBest' v ≤ newBest v) : RelaxingAt best newBest' lane pc := by
  cases pc with
  | relax j => exact ⟨h.1, h.2.lower hle⟩
  | atomicMin j v cand => exact ⟨h.1, h.2.1.lower hle, h.2.2⟩
  | computed => exact Relaxed.lower h hle
  | copy j => exact h
  | copied => exact h
  | exited => exact h

/-- Indices of one residue below `j + threads` are those below `j`, and `j`. -/
theorem lt_or_eq_of_mod_eq {j k threads : ℕ} (hk : k < j + threads)
    (hmod : k % threads = j % threads) : k < j ∨ k = j := by
  obtain hlt | hle := Nat.lt_or_ge k j
  · exact Or.inl hlt
  · have hzero := Nat.sub_mod_eq_zero_of_mod_eq hmod
    rw [Nat.mod_eq_of_lt (by omega)] at hzero
    exact Or.inr (by omega)

/-- The loop over edges goes on after edge `j`. -/
theorem Relaxed.next {j : ℕ} (h : Relaxed best newBest lane j) (hlane : j % launch.threads = lane)
    (hj : ∀ edge, launch.graph.edges[j]? = some edge →
      newBest edge.v ≤ best edge.u + edge.c) :
    RelaxingAt best newBest lane (.relax (j + launch.threads)) := by
  refine ⟨by rw [Nat.add_mod_right, hlane], fun k hk hmod edge hedge => ?_⟩
  obtain hlt | rfl := lt_or_eq_of_mod_eq hk (hmod.trans hlane.symm)
  · exact h k hlt hmod edge hedge
  · exact hj edge hedge

theorem Relaxing.goto (h : Relaxing first i g) {pc : Pc launch.graph.vertices K}
    (hpc : RelaxingAt g.best g.newBest lane pc) : Relaxing first i (g.goto lane pc) :=
  { h with
    at_i := fun other => (g.goto_i lane pc other).trans (h.at_i other)
    at_pc := Grid.forall_goto_pc (P := RelaxingAt g.best g.newBest) hpc h.at_pc }

/-- A step of a thread keeps the invariant of the relaxations. -/
theorem Relaxing.step (h : Relaxing first i g) (hstep : g.step lane = some g') :
    Relaxing first i g' := by
  have hpc := h.at_pc lane
  rw [Grid.step] at hstep
  cases hat : (g.thread lane).pc with
  | relax j =>
      rw [hat] at hstep hpc
      obtain ⟨hmod, hrelaxed⟩ := hpc
      dsimp only at hstep
      cases hedge : launch.graph.edges[j]? with
      | none =>
          rw [hedge] at hstep
          obtain rfl := Option.some.inj hstep
          refine h.goto fun k hk => hrelaxed k (hk.trans_le ?_)
          exact List.getElem?_eq_none_iff.mp hedge
      | some edge =>
          rw [hedge] at hstep
          dsimp only at hstep
          by_cases hguard : g.best edge.u + edge.c < g.newBest edge.v
          · rw [if_pos hguard] at hstep
            obtain rfl := Option.some.inj hstep
            exact h.goto ⟨hmod, hrelaxed, edge, hedge, rfl, rfl⟩
          · rw [if_neg hguard] at hstep
            obtain rfl := Option.some.inj hstep
            refine h.goto (hrelaxed.next hmod fun edge' hedge' => ?_)
            obtain rfl := Option.some.inj (hedge.symm.trans hedge')
            exact not_lt.mp hguard
  | atomicMin j v cand =>
      rw [hat] at hstep hpc
      obtain ⟨hmod, hrelaxed, edge, hedge, rfl, rfl⟩ := hpc
      obtain rfl := Option.some.inj hstep
      have hlower : ∀ v, Function.update g.newBest edge.v
          (min (g.newBest edge.v) (g.best edge.u + edge.c)) v ≤ g.newBest v := by
        refine (Function.forall_update_iff _ fun v x => x ≤ g.newBest v).mpr
          ⟨min_le_left _ _, fun _ _ => le_rfl⟩
      refine
        { i_lt := h.i_lt
          best_eq := h.best_eq
          relax_le := (Function.forall_update_iff _ fun v x =>
            relax launch.graph.edges g.best v ≤ x).mpr
              ⟨le_min (h.relax_le edge.v) (relax_le_of_mem (List.mem_of_getElem? hedge)),
                fun v _ => h.relax_le v⟩
          le_best := fun v => (hlower v).trans (h.le_best v)
          at_i := fun other => (g.goto_i lane _ other).trans (h.at_i other)
          at_pc := Grid.forall_goto_pc (P := RelaxingAt g.best _)
            ((hrelaxed.lower hlower).next hmod fun edge' hedge' => ?_)
            fun other => (h.at_pc other).lower hlower }
      obtain rfl := Option.some.inj (hedge.symm.trans hedge')
      rw [Function.update_self]
      exact min_le_right _ _
  | computed => simp [hat] at hstep
  | copy j =>
      rw [hat] at hpc
      exact hpc.elim
  | copied =>
      rw [hat] at hpc
      exact hpc.elim
  | exited =>
      rw [hat] at hpc
      exact hpc.elim

/-- When all threads have come to the first sync, `newBest` is one round. -/
theorem Relaxing.newBest_eq (h : Relaxing first i g)
    (hall : ∀ lane, (g.thread lane).pc = .computed) :
    g.newBest = relax launch.graph.edges g.best := by
  funext v
  refine le_antisymm (le_relax_iff.mpr ⟨h.le_best v, fun edge hedge hv => ?_⟩) (h.relax_le v)
  obtain ⟨j, hj, hget⟩ := List.mem_iff_getElem.mp hedge
  let lane : Fin launch.threads := ⟨j % launch.threads, Nat.mod_lt j launch.threads_pos⟩
  have hrelaxed := h.at_pc lane
  rw [hall lane] at hrelaxed
  exact hv ▸ hrelaxed j hj rfl edge (List.getElem?_eq_some_iff.mpr ⟨hj, hget⟩)

end Relax

section Copy

variable {best best' newBest : launch.graph.DeviceVector}

/-- Copying more elements undoes no copy. -/
theorem CopyingAt.copyMore {pc : Pc launch.graph.vertices K}
    (h : CopyingAt best newBest i lane pc)
    (hcopy : ∀ v, best v = newBest v → best' v = newBest v) :
    CopyingAt best' newBest i lane pc := by
  cases pc with
  | relax j => exact h
  | atomicMin j v cand => exact h
  | computed => exact h
  | copy j => exact ⟨h.1, h.2.1, fun v hv hmod => hcopy v (h.2.2 v hv hmod)⟩
  | copied => exact fun hi v hv hmod => hcopy v (h hi v hv hmod)
  | exited => exact h

/-- A step of a thread keeps the invariant of the copies. -/
theorem Copying.step (h : Copying first i g) (hstep : g.step lane = some g') :
    Copying first i g' := by
  have hpc := h.at_pc lane
  rw [Grid.step] at hstep
  cases hat : (g.thread lane).pc with
  | copy j =>
      rw [hat] at hstep hpc
      obtain ⟨hi, hmod, hcopied⟩ := hpc
      dsimp only at hstep
      by_cases hj : j < launch.graph.vertices
      · rw [dif_pos hj] at hstep
        obtain rfl := Option.some.inj hstep
        have hcopy : ∀ v, g.best v = g.newBest v →
            Function.update g.best ⟨j, hj⟩ (g.newBest ⟨j, hj⟩) v = g.newBest v := by
          intro v hv
          by_cases heq : v = ⟨j, hj⟩
          · rw [heq, Function.update_self]
          · rw [Function.update_of_ne heq, hv]
        refine
          { i_lt := h.i_lt
            newBest_eq := h.newBest_eq
            best_eq := fun hlast => absurd hi (by omega)
            at_i := fun other => (g.goto_i lane _ other).trans (h.at_i other)
            at_pc := Grid.forall_goto_pc (P := CopyingAt _ g.newBest i)
              ⟨hi, by rw [Nat.add_mod_right, hmod], fun v hv hvmod => ?_⟩
              fun other => (h.at_pc other).copyMore hcopy }
        obtain hlt | heq := lt_or_eq_of_mod_eq hv (hvmod.trans hmod.symm)
        · exact hcopy v (hcopied v hlt hvmod)
        · obtain rfl : v = ⟨j, hj⟩ := Fin.ext heq
          exact Function.update_self _ _ _
      · rw [dif_neg hj] at hstep
        obtain rfl := Option.some.inj hstep
        exact
          { h with
            at_i := fun other => (g.goto_i lane _ other).trans (h.at_i other)
            at_pc := Grid.forall_goto_pc (P := CopyingAt g.best g.newBest i)
              (fun _ v hv => hcopied v (hv.trans_le (not_lt.mp hj))) h.at_pc }
  | relax j =>
      rw [hat] at hpc
      exact hpc.elim
  | atomicMin j v cand =>
      rw [hat] at hpc
      exact hpc.elim
  | computed =>
      rw [hat] at hpc
      exact hpc.elim
  | copied => simp [hat] at hstep
  | exited =>
      rw [hat] at hpc
      exact hpc.elim

/-- When all threads have come to the second sync of an iteration that is not the last one,
the arrays are equal. -/
theorem Copying.best_eq_newBest (h : Copying first i g) (hi : i + 1 < launch.iters)
    (hall : ∀ lane, (g.thread lane).pc = .copied) : g.best = g.newBest := by
  funext v
  let lane : Fin launch.threads := ⟨v % launch.threads, Nat.mod_lt v launch.threads_pos⟩
  have hcopied := h.at_pc lane
  rw [hall lane] at hcopied
  exact hcopied hi v v.isLt rfl

end Copy

section Sync

/-- An iteration starts with equal arrays. -/
theorem Launched.loop (hi : i ≤ launch.iters)
    (hnewBest : g.newBest = rounds launch.graph.edges i first)
    (hbest : i < launch.iters → g.best = g.newBest)
    (hlast : i = launch.iters → g.best = rounds launch.graph.edges (i - 1) first)
    (hthread : g.thread = fun lane => .loop _ K launch.iters lane i) : Launched first g := by
  obtain hlt | rfl := Nat.lt_or_eq_of_le hi
  · have hsame := hbest hlt
    refine .relaxing i
      { i_lt := hlt
        best_eq := hsame.trans hnewBest
        relax_le := fun v => hsame ▸ relax_le
        le_best := fun v => le_of_eq (congrFun hsame v).symm
        at_i := fun lane => ?_
        at_pc := fun lane => ?_ }
    · simp only [hthread, Thread.loop, if_pos hlt]
    · simp only [hthread, Thread.loop, if_pos hlt]
      have hlane := Nat.mod_eq_of_lt lane.isLt
      refine ⟨hlane, fun j hj hmod => ?_⟩
      rw [Nat.mod_eq_of_lt (hj.trans lane.isLt)] at hmod
      exact absurd hmod (Nat.ne_of_lt hj)
  · refine .exited ⟨hnewBest, hlast rfl, fun lane => ?_⟩
    simp only [hthread, Thread.loop, if_neg (Nat.lt_irrefl _)]

/-- A kernel that starts with equal arrays. -/
theorem Launched.start (first : launch.graph.DeviceVector) :
    Launched first (.start launch first first) :=
  .loop (Nat.zero_le _) rfl (fun _ => rfl) (fun h => absurd h launch.iters_pos.ne) rfl

/-- No sync is passed while a thread is elsewhere. -/
theorem Grid.sync_cases (hsync : g.sync = some g') :
    ((∀ lane, (g.thread lane).pc = .computed) ∧ g' = { g with thread := g.afterComputed }) ∨
      ((∀ lane, (g.thread lane).pc = .copied) ∧ g' = { g with
        thread := fun lane => .loop _ K launch.iters lane ((g.thread lane).i + 1) }) := by
  rw [Grid.sync] at hsync
  split at hsync
  · exact Or.inl ⟨‹_›, (Option.some.inj hsync).symm⟩
  · split at hsync
    · exact Or.inr ⟨‹_›, (Option.some.inj hsync).symm⟩
    · exact absurd hsync (by simp)

theorem Relaxing.sync (h : Relaxing first i g) (hsync : g.sync = some g') :
    Copying first i g' := by
  let lane : Fin launch.threads := ⟨0, launch.threads_pos⟩
  obtain ⟨hall, rfl⟩ | ⟨hall, -⟩ := Grid.sync_cases hsync
  · refine
      { i_lt := h.i_lt
        newBest_eq := by
          rw [h.newBest_eq hall, h.best_eq, rounds_succ]
        best_eq := fun _ => h.best_eq
        at_i := fun lane => ?_
        at_pc := fun lane => ?_ }
    · simp only [Grid.afterComputed, h.at_i lane]
      split <;> rfl
    · simp only [Grid.afterComputed, h.at_i lane]
      split
      · refine ⟨‹_›, Nat.mod_eq_of_lt lane.isLt, fun v hv hmod => ?_⟩
        rw [Nat.mod_eq_of_lt (hv.trans lane.isLt)] at hmod
        exact absurd hmod (Nat.ne_of_lt hv)
      · exact fun hi => absurd hi ‹_›
  · have hpc := h.at_pc lane
    rw [hall lane] at hpc
    exact hpc.elim

theorem Copying.sync (h : Copying first i g) (hsync : g.sync = some g') :
    Launched first g' := by
  let lane : Fin launch.threads := ⟨0, launch.threads_pos⟩
  obtain ⟨hall, -⟩ | ⟨hall, rfl⟩ := Grid.sync_cases hsync
  · have hpc := h.at_pc lane
    rw [hall lane] at hpc
    exact hpc.elim
  · refine .loop h.i_lt h.newBest_eq (fun hi => h.best_eq_newBest hi hall) h.best_eq ?_
    funext lane
    simp only [h.at_i lane]

theorem Launched.act (h : Launched first g) {action : GridAction launch.threads}
    (hact : g.act action = some g') : Launched first g' := by
  cases action with
  | step lane =>
      cases h with
      | relaxing i h => exact .relaxing i (h.step hact)
      | copying i h => exact .copying i (h.step hact)
      | exited h => simp [Grid.act, Grid.step, h.at_pc lane] at hact
  | sync =>
      cases h with
      | relaxing i h => exact .copying i (h.sync hact)
      | copying i h => exact h.sync hact
      | exited h =>
          obtain ⟨hall, -⟩ | ⟨hall, -⟩ := Grid.sync_cases hact
          · exact absurd ((h.at_pc ⟨0, launch.threads_pos⟩).symm.trans (hall _)) (by simp)
          · exact absurd ((h.at_pc ⟨0, launch.threads_pos⟩).symm.trans (hall _)) (by simp)

/-- Every schedule keeps the invariant. -/
theorem Launched.run (h : Launched first g) {actions : List (GridAction launch.threads)}
    (hrun : g.run actions = some g') : Launched first g' := by
  induction actions generalizing g with
  | nil => exact Option.some.inj hrun ▸ h
  | cons action actions ih =>
      rw [Grid.run, List.foldlM_cons] at hrun
      obtain ⟨mid, hact, hrest⟩ := Option.bind_eq_some_iff.mp hrun
      exact ih (h.act hact) hrest

end Sync

end Explore.CudaBellmanford
