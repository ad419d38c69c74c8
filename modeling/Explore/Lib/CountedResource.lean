import Mathlib.Algebra.BigOperators.Group.List.Basic
import Mathlib.Algebra.GroupWithZero.Nat
import Mathlib.Data.List.Count
import Mathlib.Data.List.Nodup
import Mathlib.Logic.Function.Basic

/-!
# Resources that are shared by counting

Threads share resources by two counters for each. Before a task a thread increments the
first counter of every resource that the task uses, and sets the resource up if the
counter is 1 then. After the task it decrements the second counter, and tears the
resource down if this one is 0. The threads interleave in any way. The second counter
starts at a value fixed beforehand: the resource is torn down if and only if that is the
number of tasks that use it.
-/

namespace Explore.CountedResource

/-- What a thread does in one step. -/
inductive Action (ρ τ : Type)
  | acquire (r : ρ)
  | setUp (r : ρ)
  | body (t : τ)
  | release (r : ρ)
  | tearDown (r : ρ)
  deriving DecidableEq, Repr

/-- What can be observed of a run. -/
inductive Event (ρ τ ω : Type)
  | setUp (r : ρ)
  | finished (t : τ) (outcome : ω)
  | tearDown (r : ρ)
  deriving DecidableEq, Repr

/-- A task with the resources it uses, the outermost first. -/
structure Job (ρ τ : Type) where
  task : τ
  resources : List ρ
  deriving DecidableEq, Repr

variable {ρ τ ω : Type}

/-- The steps of a job. The resources are released whatever the outcome. -/
def work (t : τ) : List ρ → List (Action ρ τ)
  | [] => [.body t]
  | r :: rs => .acquire r :: (work t rs ++ [.release r])

/-- The counters, what the threads still have to do, and the events so far. -/
structure State (ρ τ ω : Type) where
  acquired : ρ → ℤ
  remaining : ρ → ℤ
  threads : List (List (Action ρ τ))
  log : List (Event ρ τ ω)

def State.initial (preset : ρ → ℤ) (jobs : List (Job ρ τ)) : State ρ τ ω :=
  ⟨fun _ => 0, preset, jobs.map fun job => work job.task job.resources, []⟩

/-- What an action does: the counters, what the thread has to do next, and an event. -/
structure Effect (ρ τ ω : Type) where
  acquired : ρ → ℤ
  remaining : ρ → ℤ
  next : List (Action ρ τ)
  events : List (Event ρ τ ω)

variable [DecidableEq ρ]

def State.effect (outcome : τ → ω) (s : State ρ τ ω) : Action ρ τ → Effect ρ τ ω
  | .acquire r => ⟨Function.update s.acquired r (s.acquired r + 1), s.remaining,
      if s.acquired r + 1 = 1 then [.setUp r] else [], []⟩
  | .setUp r => ⟨s.acquired, s.remaining, [], [.setUp r]⟩
  | .body t => ⟨s.acquired, s.remaining, [], [.finished t (outcome t)]⟩
  | .release r => ⟨s.acquired, Function.update s.remaining r (s.remaining r - 1),
      if s.remaining r - 1 = 0 then [.tearDown r] else [], []⟩
  | .tearDown r => ⟨s.acquired, s.remaining, [], [.tearDown r]⟩

/-- A step of thread `i`. -/
def State.step (outcome : τ → ω) (s : State ρ τ ω) (i : ℕ) : Option (State ρ τ ω) :=
  match s.threads[i]? with
  | some (a :: rest) =>
      let e := s.effect outcome a
      some ⟨e.acquired, e.remaining, s.threads.set i (e.next ++ rest), s.log ++ e.events⟩
  | _ => none

/-- A run is given by the threads that take its steps. -/
def State.run (outcome : τ → ω) (s : State ρ τ ω) (schedule : List ℕ) : Option (State ρ τ ω) :=
  schedule.foldlM (State.step outcome) s

/-- All threads are done. -/
def State.Complete (s : State ρ τ ω) : Prop := ∀ thread ∈ s.threads, thread = []

instance [DecidableEq τ] (s : State ρ τ ω) : Decidable s.Complete :=
  inferInstanceAs (Decidable (∀ thread ∈ s.threads, thread = []))

section Steps

omit [DecidableEq ρ]

/-- Replacing the list at one place of a list of lists. -/
theorem exists_flatten_perm {α : Type} {xss : List (List α)} {i : ℕ} {xs : List α}
    (h : xss[i]? = some xs) :
    ∃ others, xss.flatten.Perm (xs ++ others) ∧
      ∀ ys, (xss.set i ys).flatten.Perm (ys ++ others) := by
  obtain ⟨hi, rfl⟩ := List.getElem?_eq_some_iff.mp h
  have hperm (before ys after : List α) :
      (before ++ (ys ++ after)).Perm (ys ++ (before ++ after)) := by
    rw [← List.append_assoc, ← List.append_assoc]
    exact List.perm_append_comm.append_right after
  refine ⟨(xss.take i).flatten ++ (xss.drop (i + 1)).flatten, ?_, fun ys => ?_⟩
  · conv_lhs => rw [← List.take_append_drop i xss, List.drop_eq_getElem_cons hi]
    rw [List.flatten_append, List.flatten_cons]
    exact hperm ..
  · rw [List.set_eq_take_append_cons_drop, if_pos hi, List.flatten_append, List.flatten_cons]
    exact hperm ..

end Steps

/-- How often an action is still to be done. -/
def State.pending [DecidableEq τ] (s : State ρ τ ω) (a : Action ρ τ) : ℕ :=
  s.threads.flatten.count a

/-- How many jobs use a resource. -/
def users (jobs : List (Job ρ τ)) (r : ρ) : ℕ := jobs.countP fun job => r ∈ job.resources

variable [DecidableEq τ] [DecidableEq ω] {outcome : τ → ω} {s s' : State ρ τ ω} {i : ℕ}
  {preset : ρ → ℤ} {jobs : List (Job ρ τ)}

omit [DecidableEq ω] in
/-- What a step does. -/
theorem step_cases (h : s.step outcome i = some s') :
    ∃ a rest, s.threads[i]? = some (a :: rest) ∧
      s'.acquired = (s.effect outcome a).acquired ∧
      s'.remaining = (s.effect outcome a).remaining ∧
      s'.threads = s.threads.set i ((s.effect outcome a).next ++ rest) ∧
      s'.log = s.log ++ (s.effect outcome a).events ∧
      ∀ b, s'.pending b + [a].count b = s.pending b + (s.effect outcome a).next.count b := by
  rw [State.step] at h
  split at h
  · rename_i a rest hthread
    obtain rfl := Option.some.inj h
    refine ⟨a, rest, hthread, rfl, rfl, rfl, rfl, fun b => ?_⟩
    obtain ⟨others, hperm, hset⟩ := exists_flatten_perm hthread
    rw [State.pending, State.pending, hperm.count_eq, (hset _).count_eq, List.count_append,
      List.count_append, List.count_append, List.count_cons, List.count_cons]
    simp only [List.count_nil]
    omega
  · cases h

section Counters

/-- The counters say how many jobs have passed them, and each of the two crossings sets up
or tears down once. -/
structure Counted (preset : ρ → ℤ) (jobs : List (Job ρ τ)) (s : State ρ τ ω) (r : ρ) : Prop where
  acquired : s.acquired r + s.pending (.acquire r) = users jobs r
  acquired_nonneg : 0 ≤ s.acquired r
  remaining : s.remaining r + users jobs r = preset r + s.pending (.release r)
  remaining_le : s.remaining r ≤ preset r
  setUps : s.log.count (.setUp r) + s.pending (.setUp r) = if 1 ≤ s.acquired r then 1 else 0
  tearDowns : s.log.count (.tearDown r) + s.pending (.tearDown r) =
    if 0 < preset r ∧ s.remaining r ≤ 0 then 1 else 0

theorem count_work (t : τ) (rs : List ρ) (r : ρ) :
    (work t rs).count (.acquire r) = rs.count r ∧ (work t rs).count (.release r) = rs.count r ∧
      (work t rs).count (.setUp r) = 0 ∧ (work t rs).count (.tearDown r) = 0 := by
  induction rs with
  | nil => simp [work]
  | cons first rs ih =>
      obtain ⟨hacquire, hrelease, hsetUp, htearDown⟩ := ih
      simp only [work, List.count_cons, List.count_append, List.count_nil, hacquire, hrelease,
        hsetUp, htearDown]
      by_cases hr : first = r
      · subst hr
        simp
      · simp [hr]

theorem count_flatten_work (nodup : ∀ job ∈ jobs, job.resources.Nodup) {a : ρ → Action ρ τ}
    (count : ∀ (t : τ) (rs : List ρ) (r : ρ), (work t rs).count (a r) = rs.count r) (r : ρ) :
    (jobs.map fun job => work job.task job.resources).flatten.count (a r) = users jobs r := by
  induction jobs with
  | nil => rfl
  | cons job jobs ih =>
      have hjob : job.resources.count r = if r ∈ job.resources then 1 else 0 := by
        split
        · rename_i hmem
          exact List.count_eq_one_of_mem (nodup job List.mem_cons_self) hmem
        · rename_i hmem
          exact List.count_eq_zero.mpr hmem
      rw [List.map_cons, List.flatten_cons, List.count_append, count,
        ih fun other hother => nodup other (List.mem_cons_of_mem _ hother), users, users,
        List.countP_cons, hjob, Nat.add_comm]
      simp

omit [DecidableEq ω] in
theorem pending_initial_eq_zero {a : Action ρ τ} (h : ∀ t rs, (work t rs).count a = 0) :
    (State.initial preset jobs : State ρ τ ω).pending a = 0 := by
  rw [State.pending, List.count_eq_zero, List.mem_flatten]
  rintro ⟨thread, hthread, ha⟩
  obtain ⟨job, -, rfl⟩ := List.mem_map.mp hthread
  exact List.count_eq_zero.mp (h job.task job.resources) ha

theorem counted_initial (nodup : ∀ job ∈ jobs, job.resources.Nodup) (r : ρ) :
    Counted preset jobs (State.initial preset jobs : State ρ τ ω) r := by
  have hacquire : (State.initial preset jobs : State ρ τ ω).pending (.acquire r) = users jobs r :=
    count_flatten_work nodup (fun t rs r => (count_work t rs r).1) r
  have hrelease : (State.initial preset jobs : State ρ τ ω).pending (.release r) = users jobs r :=
    count_flatten_work nodup (fun t rs r => (count_work t rs r).2.1) r
  refine ⟨?_, Int.le_refl _, ?_, Int.le_refl _, ?_, ?_⟩
  · rw [hacquire]
    exact Int.zero_add _
  · rw [hrelease]
    rfl
  · rw [pending_initial_eq_zero fun t rs => (count_work t rs r).2.2.1]
    rfl
  · rw [pending_initial_eq_zero fun t rs => (count_work t rs r).2.2.2, if_neg]
    · rfl
    · rintro ⟨hpos, hle⟩
      exact absurd hle (Int.not_le.mpr hpos)

/-- Setting up and tearing down move an action from the threads to the log. -/
theorem Counted.congr {r : ρ} (counted : Counted preset jobs s r)
    (acquired : s'.acquired r = s.acquired r) (remaining : s'.remaining r = s.remaining r)
    (acquire : s'.pending (.acquire r) = s.pending (.acquire r))
    (release : s'.pending (.release r) = s.pending (.release r))
    (setUps : s'.log.count (.setUp r) + s'.pending (.setUp r) =
      s.log.count (.setUp r) + s.pending (.setUp r))
    (tearDowns : s'.log.count (.tearDown r) + s'.pending (.tearDown r) =
      s.log.count (.tearDown r) + s.pending (.tearDown r)) : Counted preset jobs s' r where
  acquired := by rw [acquired, acquire, counted.acquired]
  acquired_nonneg := acquired ▸ counted.acquired_nonneg
  remaining := by rw [remaining, release, counted.remaining]
  remaining_le := remaining ▸ counted.remaining_le
  setUps := by rw [setUps, counted.setUps, acquired]
  tearDowns := by rw [tearDowns, counted.tearDowns, remaining]

/-- A step keeps the counts of every resource. -/
theorem Counted.step {r : ρ} (counted : Counted preset jobs s r) (h : s.step outcome i = some s') :
    Counted preset jobs s' r := by
  obtain ⟨a, rest, -, hacq, hrem, -, hlog, hpending⟩ := step_cases h
  have hacqr := congrFun hacq r
  have hremr := congrFun hrem r
  have hA := hpending (.acquire r)
  have hR := hpending (.release r)
  have hS := hpending (.setUp r)
  have hT := hpending (.tearDown r)
  have hlogS := congrArg (List.count (.setUp r)) hlog
  have hlogT := congrArg (List.count (.tearDown r)) hlog
  cases a with
  | acquire x =>
      by_cases hx : x = r
      · obtain ⟨hacquired, hnonneg, hremaining, hle, hsetUps, htearDowns⟩ := counted
        subst hx
        by_cases hone : s.acquired x + 1 = 1 <;>
          simp [State.effect, hone] at hA hR hS hT hlogS hlogT hacqr hremr
        · rw [if_neg (by omega)] at hsetUps
          refine ⟨by omega, by omega, by omega, by omega, ?_, ?_⟩
          · rw [if_pos (by omega)]
            omega
          · rw [hremr]
            omega
        · refine ⟨by omega, by omega, by omega, by omega, ?_, ?_⟩
          · rw [if_pos (by omega)] at hsetUps ⊢
            omega
          · rw [hremr]
            omega
      · have hne : r ≠ x := Ne.symm hx
        by_cases hone : s.acquired x + 1 = 1 <;>
          simp [State.effect, hone, hx, hne] at hA hR hS hT hlogS hlogT hacqr hremr <;>
          exact counted.congr hacqr hremr (by omega) (by omega) (by omega) (by omega)
  | release x =>
      by_cases hx : x = r
      · obtain ⟨hacquired, hnonneg, hremaining, hle, hsetUps, htearDowns⟩ := counted
        subst hx
        by_cases hzero : s.remaining x - 1 = 0 <;>
          simp [State.effect, hzero] at hA hR hS hT hlogS hlogT hacqr hremr
        · rw [if_neg (by omega)] at htearDowns
          refine ⟨by omega, by omega, by omega, by omega, ?_, ?_⟩
          · rw [hacqr]
            omega
          · rw [if_pos (by omega)]
            omega
        · refine ⟨by omega, by omega, by omega, by omega, ?_, ?_⟩
          · rw [hacqr]
            omega
          · have hsame : (0 < preset x ∧ s'.remaining x ≤ 0) ↔
                (0 < preset x ∧ s.remaining x ≤ 0) := by omega
            rw [hlogT, hT, htearDowns]
            simp only [hsame]
      · have hne : r ≠ x := Ne.symm hx
        by_cases hzero : s.remaining x - 1 = 0 <;>
          simp [State.effect, hzero, hx, hne] at hA hR hS hT hlogS hlogT hacqr hremr <;>
          exact counted.congr hacqr hremr (by omega) (by omega) (by omega) (by omega)
  | setUp x | tearDown x =>
      by_cases hx : x = r <;>
        simp [State.effect, hx] at hA hR hS hT hlogS hlogT hacqr hremr <;>
        exact counted.congr hacqr hremr (by omega) (by omega) (by omega) (by omega)
  | body t =>
      simp [State.effect] at hA hR hS hT hlogS hlogT hacqr hremr
      exact counted.congr hacqr hremr (by omega) (by omega) (by omega) (by omega)

end Counters

section Order

/-- A thread releases nothing before its task, and its task is still to come, with the
releases of its resources, or finished. -/
structure ThreadInv (log : List (Event ρ τ ω)) (job : Job ρ τ) (thread : List (Action ρ τ)) :
    Prop where
  releases_last : thread.Pairwise fun a b => ∀ r t, a = .release r → b ≠ .body t
  task : (.body job.task ∈ thread ∧ ∀ r ∈ job.resources, .release r ∈ thread) ∨
    ∃ o, .finished job.task o ∈ log

/-- Every job that uses the resource has finished. -/
def FinishedUsers (jobs : List (Job ρ τ)) (r : ρ) (log : List (Event ρ τ ω)) : Prop :=
  ∀ job ∈ jobs, r ∈ job.resources → ∃ o, .finished job.task o ∈ log

/-- A resource that is about to be torn down has no user left, and neither has one that
has been torn down. -/
structure Inv (preset : ρ → ℤ) (jobs : List (Job ρ τ)) (s : State ρ τ ω) (r : ρ) : Prop where
  counted : Counted preset jobs s r
  threads : List.Forall₂ (ThreadInv s.log) jobs s.threads
  closed : 0 < s.pending (.tearDown r) → FinishedUsers jobs r s.log
  ordered : ∀ n, s.log[n]? = some (.tearDown r) → FinishedUsers jobs r (s.log.take n)

omit [DecidableEq ρ] [DecidableEq τ] [DecidableEq ω]

theorem FinishedUsers.mono {r : ρ} {log log' : List (Event ρ τ ω)} (h : FinishedUsers jobs r log)
    (hsub : log ⊆ log') : FinishedUsers jobs r log' := by
  intro job hjob hr
  obtain ⟨o, ho⟩ := h job hjob hr
  exact ⟨o, hsub ho⟩

theorem ThreadInv.mono {log log' : List (Event ρ τ ω)} {job : Job ρ τ} {thread : List (Action ρ τ)}
    (h : ThreadInv log job thread) (hsub : log ⊆ log') : ThreadInv log' job thread where
  releases_last := h.releases_last
  task := h.task.imp_right fun ⟨o, ho⟩ => ⟨o, hsub ho⟩

theorem threadInv_work (t : τ) (rs : List ρ) :
    (work t rs).Pairwise (fun a b => ∀ r t', a = .release r → b ≠ .body t') ∧
      .body t ∈ work t rs ∧ ∀ r ∈ rs, .release r ∈ work t rs := by
  induction rs with
  | nil => simp [work]
  | cons first rs ih =>
      obtain ⟨hpairwise, hbody, hreleases⟩ := ih
      refine ⟨?_, ?_, ?_⟩
      · rw [work, List.pairwise_cons, List.pairwise_append]
        refine ⟨?_, hpairwise, List.pairwise_singleton _ _, ?_⟩
        · intro b _ r t' hrelease
          cases hrelease
        · intro a _ b hb r t' _
          rw [List.mem_singleton.mp hb]
          exact nofun
      · rw [work]
        exact List.mem_cons_of_mem _ (List.mem_append_left _ hbody)
      · intro r hr
        rw [work]
        refine List.mem_cons_of_mem _ ?_
        obtain rfl | hr := List.mem_cons.mp hr
        · exact List.mem_append_right _ (List.mem_singleton.mpr rfl)
        · exact List.mem_append_left _ (hreleases r hr)

variable [DecidableEq ρ]

/-- The thread that takes a step stays in order. -/
theorem ThreadInv.step {job : Job ρ τ} {a : Action ρ τ} {rest : List (Action ρ τ)}
    (h : ThreadInv s.log job (a :: rest)) :
    ThreadInv (s.log ++ (s.effect outcome a).events) job ((s.effect outcome a).next ++ rest) := by
  obtain ⟨hpairwise, htask⟩ := h
  obtain ⟨hhead, hrest⟩ := List.pairwise_cons.mp hpairwise
  -- What a step adds to the thread sets up or tears down.
  have hnext : ∀ b ∈ (s.effect outcome a).next, ∀ r, b ≠ .release r := by
    intro b hb r
    cases a <;> simp only [State.effect, List.not_mem_nil] at hb <;>
      · split at hb
        · rw [List.mem_singleton.mp hb]
          exact nofun
        · cases hb
  refine ⟨?_, ?_⟩
  · refine List.pairwise_append.mpr ⟨?_, hrest, ?_⟩
    · exact List.pairwise_of_forall_mem_list fun b hb _ _ r _ hrelease =>
        absurd hrelease (hnext b hb r)
    · exact fun b hb _ _ r _ hrelease => absurd hrelease (hnext b hb r)
  obtain ⟨hbody, hreleases⟩ | ⟨o, ho⟩ := htask
  · by_cases hfinish : a = .body job.task
    · subst hfinish
      exact Or.inr ⟨_, List.mem_append_right _ (List.mem_singleton.mpr rfl)⟩
    have hlater : .body job.task ∈ rest := (List.mem_cons.mp hbody).resolve_left (Ne.symm hfinish)
    refine Or.inl ⟨List.mem_append_right _ hlater, fun r hr => List.mem_append_right _ ?_⟩
    refine (List.mem_cons.mp (hreleases r hr)).resolve_left fun hrelease => ?_
    exact hhead _ hlater r job.task hrelease.symm rfl
  · exact Or.inr ⟨o, List.mem_append_left _ ho⟩

/-- Only a release that brings the counter to 0 tears down next. -/
theorem remaining_of_tearDown_mem_next {r : ρ} {a : Action ρ τ}
    (h : .tearDown r ∈ (s.effect outcome a).next) : (s.effect outcome a).remaining r = 0 := by
  cases a with
  | release x =>
      simp only [State.effect] at h ⊢
      split at h
      · rename_i hzero
        obtain rfl := Action.tearDown.inj (List.mem_singleton.mp h)
        rw [Function.update_self, hzero]
      · cases h
  | acquire x =>
      simp only [State.effect] at h
      split at h
      · cases List.mem_singleton.mp h
      · cases h
  | setUp | body | tearDown => cases h

theorem eq_of_tearDown_mem_events {r : ρ} {a : Action ρ τ}
    (h : .tearDown r ∈ (s.effect outcome a).events) : a = .tearDown r := by
  cases a with
  | tearDown x => rw [Event.tearDown.inj (List.mem_singleton.mp h)]
  | setUp | body => cases List.mem_singleton.mp h
  | acquire | release => cases h

variable [DecidableEq τ]

/-- With all releases done every user has finished. -/
theorem finishedUsers_of_released {r : ρ}
    (threads : List.Forall₂ (ThreadInv s.log) jobs s.threads)
    (released : s.pending (.release r) = 0) : FinishedUsers jobs r s.log := by
  intro job hjob hr
  obtain ⟨i, hi, rfl⟩ := List.getElem_of_mem hjob
  have hthread : i < s.threads.length := threads.length_eq ▸ hi
  obtain ⟨-, hreleases⟩ | hfinished := (threads.get hi hthread).task
  · refine absurd (List.mem_flatten.mpr ⟨_, List.getElem_mem hthread, hreleases r hr⟩) ?_
    exact List.count_eq_zero.mp released
  · exact hfinished

variable [DecidableEq ω]

theorem inv_initial (nodup : ∀ job ∈ jobs, job.resources.Nodup) (r : ρ) :
    Inv preset jobs (State.initial preset jobs : State ρ τ ω) r where
  counted := counted_initial nodup r
  threads := by
    rw [State.initial, List.forall₂_map_right_iff, List.forall₂_same]
    intro job _
    obtain ⟨hpairwise, hbody, hreleases⟩ := threadInv_work job.task job.resources
    exact ⟨hpairwise, Or.inl ⟨hbody, hreleases⟩⟩
  closed hpending := by
    rw [pending_initial_eq_zero fun t rs => (count_work t rs r).2.2.2] at hpending
    cases hpending
  ordered n h := by
    rw [State.initial, List.getElem?_nil] at h
    cases h

/-- A step keeps the invariant of a resource whose counter starts high enough. -/
theorem Inv.step {r : ρ} (inv : Inv preset jobs s r) (enough : users jobs r ≤ preset r)
    (h : s.step outcome i = some s') : Inv preset jobs s' r := by
  have hcounted := inv.counted.step h
  obtain ⟨a, rest, hthread, -, hremaining, hthreads, hlog, hpending⟩ := step_cases h
  have hsub : s.log ⊆ s'.log := hlog ▸ List.subset_append_left _ _
  have hinvs : List.Forall₂ (ThreadInv s'.log) jobs s'.threads := by
    obtain ⟨hi, hhead⟩ := List.getElem?_eq_some_iff.mp hthread
    rw [List.forall₂_iff_get]
    have hlength := inv.threads.length_eq
    refine ⟨by rw [hlength, hthreads, List.length_set], fun k hk hk' => ?_⟩
    have hkthreads : k < s.threads.length := hlength ▸ hk
    have hold := inv.threads.get hk hkthreads
    simp only [List.get_eq_getElem, hthreads, List.getElem_set] at hold ⊢
    split
    · rename_i heq
      subst heq
      rw [hhead] at hold
      exact hlog ▸ hold.step
    · exact hold.mono hsub
  have hclosed : 0 < s'.pending (.tearDown r) → FinishedUsers jobs r s'.log := by
    intro hpos
    by_cases hbefore : 0 < s.pending (.tearDown r)
    · exact (inv.closed hbefore).mono hsub
    -- The step has brought the counter to 0: no release is left.
    have hnew : .tearDown r ∈ (s.effect outcome a).next := by
      rw [← List.count_pos_iff]
      have := hpending (.tearDown r)
      omega
    have hzero : s'.remaining r = 0 := by
      rw [hremaining]
      exact remaining_of_tearDown_mem_next hnew
    refine finishedUsers_of_released hinvs ?_
    have := hcounted.remaining
    omega
  refine ⟨hcounted, hinvs, hclosed, fun n hn => ?_⟩
  by_cases hold : n < s.log.length
  · rw [hlog, List.getElem?_append_left hold] at hn
    rw [hlog, List.take_append_of_le_length (Nat.le_of_lt hold)]
    exact inv.ordered n hn
  · -- A teardown that happens in this step was about to happen.
    rw [hlog, List.getElem?_append_right (Nat.le_of_not_lt hold)] at hn
    have ha := eq_of_tearDown_mem_events (List.mem_of_getElem? hn)
    have hbefore : 0 < s.pending (.tearDown r) := by
      have := hpending (.tearDown r)
      rw [ha] at this
      simp only [State.effect, List.count_singleton_self, List.count_nil] at this
      omega
    refine (inv.closed hbefore).mono ?_
    rw [hlog, List.take_append]
    rw [List.take_of_length_le (Nat.le_of_not_lt hold)]
    exact List.subset_append_left _ _

theorem Inv.run {r : ρ} {schedule : List ℕ} (inv : Inv preset jobs s r)
    (enough : users jobs r ≤ preset r) (h : s.run outcome schedule = some s') :
    Inv preset jobs s' r := by
  induction schedule generalizing s with
  | nil =>
      obtain rfl := Option.some.inj h
      exact inv
  | cons i schedule ih =>
      rw [State.run, List.foldlM_cons] at h
      obtain ⟨mid, hmid, h⟩ := Option.bind_eq_some_iff.mp h
      exact ih (inv.step enough hmid) h

end Order

section Runs

/-- How many steps an action takes, with the one that it may add. -/
def weight : Action ρ τ → ℕ
  | .acquire _ | .release _ => 2
  | .setUp _ | .body _ | .tearDown _ => 1

omit [DecidableEq τ] [DecidableEq ω] in
/-- A thread that has something to do can take a step, and less is left after it. -/
theorem exists_step {i : ℕ} {a : Action ρ τ} {rest : List (Action ρ τ)} (outcome : τ → ω)
    (h : s.threads[i]? = some (a :: rest)) :
    ∃ s', s.step outcome i = some s' ∧
      (s'.threads.flatten.map weight).sum < (s.threads.flatten.map weight).sum := by
  obtain ⟨others, hperm, hset⟩ := exists_flatten_perm h
  have hstep : s.step outcome i = some ⟨(s.effect outcome a).acquired,
      (s.effect outcome a).remaining, s.threads.set i ((s.effect outcome a).next ++ rest),
      s.log ++ (s.effect outcome a).events⟩ := by
    rw [State.step, h]
  refine ⟨_, hstep, ?_⟩
  have hless : ((s.effect outcome a).next.map weight).sum < weight a := by
    cases a with
    | acquire | release =>
        simp only [State.effect]
        split <;> simp [weight]
    | setUp | body | tearDown => simp [State.effect, weight]
  rw [((hset _).map weight).sum_eq, (hperm.map weight).sum_eq]
  simp only [List.map_append, List.map_cons, List.sum_append, List.sum_cons]
  omega

omit [DecidableEq τ] [DecidableEq ω] in
/-- Every state has a run that completes it. -/
theorem exists_complete_run (outcome : τ → ω) (s : State ρ τ ω) :
    ∃ schedule s', s.run outcome schedule = some s' ∧ s'.Complete := by
  induction hleft : (s.threads.flatten.map weight).sum using Nat.strongRecOn
    generalizing s with
  | ind left ih =>
      by_cases hcomplete : s.Complete
      · exact ⟨[], s, rfl, hcomplete⟩
      simp only [State.Complete, not_forall] at hcomplete
      obtain ⟨thread, hthread, hne⟩ := hcomplete
      obtain ⟨i, hi⟩ := List.getElem?_of_mem hthread
      obtain ⟨a, rest, rfl⟩ := List.exists_cons_of_ne_nil hne
      obtain ⟨mid, hmid, hless⟩ := exists_step outcome hi
      obtain ⟨schedule, s', hrun, hcomplete⟩ := ih _ (hleft ▸ hless) mid rfl
      refine ⟨i :: schedule, s', ?_, hcomplete⟩
      rw [State.run, List.foldlM_cons, hmid]
      exact hrun

/-- Each resource that a job uses is set up once and torn down once, after the last job
that uses it has finished. -/
def OnceEach (jobs : List (Job ρ τ)) (log : List (Event ρ τ ω)) : Prop :=
  ∀ r, 0 < users jobs r → log.count (.setUp r) = 1 ∧ log.count (.tearDown r) = 1 ∧
    ∀ n, log[n]? = some (.tearDown r) → FinishedUsers jobs r (log.take n)

/-- At the end every resource that is used has been set up once, and torn down if its
counter started at the number of its users. -/
theorem counts_of_complete {r : ρ} (inv : Inv preset jobs s r) (complete : s.Complete)
    (enough : users jobs r ≤ preset r) :
    s.log.count (.setUp r) = (if 0 < users jobs r then 1 else 0) ∧
      s.log.count (.tearDown r) =
        if 0 < users jobs r ∧ preset r = users jobs r then 1 else 0 := by
  have hpending (a : Action ρ τ) : s.pending a = 0 := by
    rw [State.pending, List.flatten_eq_nil_iff.mpr complete, List.count_nil]
  obtain ⟨hacquired, -, hremaining, -, hsetUps, htearDowns⟩ := inv.counted
  simp only [hpending] at hacquired hremaining hsetUps htearDowns
  refine ⟨?_, ?_⟩
  · rw [Nat.add_zero] at hsetUps
    rw [hsetUps]
    exact if_congr (by omega) rfl rfl
  · rw [Nat.add_zero] at htearDowns
    rw [htearDowns]
    exact if_congr (by omega) rfl rfl

/-- Threads that do `jobs` give each resource the use that the tasks in `wanted` want of it,
whatever the interleaving, if and only if its counter starts at the number of its users. -/
theorem onceEach_iff {wanted : List (Job ρ τ)} (nodup : ∀ job ∈ jobs, job.resources.Nodup)
    (enough : ∀ r, 0 < users wanted r → users jobs r ≤ preset r)
    (covers : ∀ r, preset r = users jobs r → ∀ job ∈ wanted, r ∈ job.resources →
      ∃ other ∈ jobs, other.task = job.task ∧ r ∈ other.resources) (outcome : τ → ω) :
    (∀ (schedule : List ℕ) (s : State ρ τ ω),
      (State.initial preset jobs).run outcome schedule = some s → s.Complete →
        OnceEach wanted s.log) ↔
      ∀ r, 0 < users wanted r → preset r = users jobs r := by
  refine ⟨fun h r used => ?_, fun h schedule s hrun hcomplete r used => ?_⟩
  · obtain ⟨schedule, s, hrun, hcomplete⟩ :=
      exists_complete_run outcome (State.initial preset jobs : State ρ τ ω)
    have inv := (inv_initial nodup r).run (enough r used) hrun
    obtain ⟨-, htearDown⟩ := counts_of_complete inv hcomplete (enough r used)
    by_contra hne
    rw [if_neg fun hboth => hne hboth.2] at htearDown
    have := (h schedule s hrun hcomplete r used).2.1
    omega
  · have hcovers := covers r (h r used)
    have hjobs : 0 < users jobs r := by
      obtain ⟨job, hjob, hr⟩ := List.countP_pos_iff.mp used
      obtain ⟨other, hother, -, hr⟩ := hcovers job hjob (of_decide_eq_true hr)
      exact List.countP_pos_iff.mpr ⟨other, hother, decide_eq_true hr⟩
    have inv := (inv_initial nodup r).run (enough r used) hrun
    obtain ⟨hsetUp, htearDown⟩ := counts_of_complete inv hcomplete (enough r used)
    rw [if_pos hjobs] at hsetUp
    rw [if_pos ⟨hjobs, h r used⟩] at htearDown
    refine ⟨hsetUp, htearDown, fun n hn job hjob hr => ?_⟩
    obtain ⟨other, hother, htask, hr⟩ := hcovers job hjob hr
    exact htask ▸ inv.ordered n hn other hother hr

end Runs

end Explore.CountedResource
