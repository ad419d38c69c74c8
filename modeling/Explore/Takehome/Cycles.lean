import Explore.Takehome.PackerLoops
import Mathlib.Data.List.Pairwise

/-!
# The cycles of the packer

`take` serves the engines one after the other and splits instructions on the way; what it
has taken stays free until all engines are served. Then it retires what it took. So a cycle
first replaces pending instructions by pieces and then issues some that nothing blocks.
-/

namespace Explore.Takehome

open Pending GreedyWorkPacker Relation

variable {env : PackerEnv} {ok : Prop} {extra : InstrMeta → InstrMeta → Prop}
  {start : List InstrMeta × List InstrMeta} {nodes pending : List InstrMeta}
  {st₀ st : GreedyWorkPacker}

/-- The slots of an engine issue the instructions `done`. -/
structure Serves (env : PackerEnv) (entry : Engine × List SerializedInstruction)
    (done : List InstrMeta) : Prop where
  insts : List.Forall₂ (fun x inst => instOf env x = some inst) done entry.2
  engine : ∀ x ∈ done, x.lin.engine = entry.1
  limit : done.length ≤ SLOT_LIMITS entry.1

/-- The bundle of a cycle issues what the cycle retires. -/
def GreedyWorkPacker.Cycle.IssuesAll (env : PackerEnv) (cycle : Cycle) : Prop :=
  ∃ parts, List.Forall₂ (Serves env) cycle.insts parts ∧ cycle.toRetire = parts.flatten

/-- The instructions `done` leave the pending ones one after the other, each when nothing
blocks it. -/
inductive Issues : List InstrMeta → List InstrMeta → List InstrMeta → Prop
  | nil {pending : List InstrMeta} : Issues pending [] pending
  | cons {before rest done pending' : List InstrMeta} {x : InstrMeta}
      (ready : ¬ Blocked InstrMeta.after (before ++ x :: rest) x.instid)
      (others : Issues (before ++ rest) done pending') :
      Issues (before ++ x :: rest) (x :: done) pending'

theorem Issues.sublist {pending done pending' : List InstrMeta}
    (h : Issues pending done pending') : pending'.Sublist pending := by
  induction h with
  | nil => exact .refl _
  | cons _ _ ih => exact ih.trans ((List.Sublist.refl _).append (List.sublist_cons_self _ _))

section Obtain

/-- The instructions of an engine that a cycle takes. -/
def taking (st : GreedyWorkPacker) (engine : Engine) : List InstrMeta :=
  (st.free.filter fun imeta => imeta.lin.engine = engine).take (SLOT_LIMITS engine)

theorem taking_sublist (st : GreedyWorkPacker) (engine : Engine) :
    (taking st engine).Sublist st.free :=
  (List.take_sublist _ _).trans List.filter_sublist

theorem engine_of_mem_taking {engine : Engine} {x : InstrMeta} (hx : x ∈ taking st engine) :
    x.lin.engine = engine := by
  simpa using (List.mem_filter.mp (List.mem_of_mem_take hx)).2

theorem obtainForEngine_meets (inv : Inv env ok extra nodes pending st) (engine : Engine) :
    Meets ok (st.obtainForEngine env engine (SLOT_LIMITS engine)) fun result =>
      result.2 = taking st engine ∧ Serves env (engine, result.1) result.2 := by
  refine (Meets.mapM (P := fun x inst => instOf env x = some inst) fun x hx => ?_).bind
    fun insts hinsts => ⟨rfl, hinsts, fun x hx => engine_of_mem_taking hx, ?_⟩
  · have hfree := (taking_sublist st engine).subset hx
    obtain ⟨inst, hinst, -⟩ := (inv.good x (inv.ready_of_mem_free hfree).1).inst
    exact .of_some hinst hinst
  · exact List.length_take_le _ _

end Obtain

section Gather

/-- Nothing that is free at `st₀` is left for the engines served so far. -/
def Served (st₀ : GreedyWorkPacker) (engines : List Engine) (toRetire : List InstrMeta) : Prop :=
  ∀ engine ∈ engines, taking st₀ engine ⊆ toRetire

/-- A cycle that has served `engines`. -/
structure Gathered (env : PackerEnv) (engines : List Engine) (cycle : Cycle) : Prop where
  issues : cycle.IssuesAll env
  order : cycle.insts.map Prod.fst = engines
  distinct : cycle.toRetire.Nodup
  engine : ∀ x ∈ cycle.toRetire, x.lin.engine ∈ engines

/-- A cycle that has served `engines`, from `st₀` on. -/
structure Gathers (env : PackerEnv) (ok : Prop) (extra : InstrMeta → InstrMeta → Prop)
    (start : List InstrMeta × List InstrMeta) (st₀ : GreedyWorkPacker) (engines : List Engine)
    (acc : GreedyWorkPacker × Cycle) : Prop where
  gathered : Gathered env engines acc.2
  after : AfterSplits env ok extra (Served st₀ engines acc.2.toRetire) start st₀ acc.2.toRetire
    acc.1

variable {engines : List Engine} {engine : Engine} {cycle : Cycle}

/-- The slots of one more engine. -/
theorem Gathered.append (h : Gathered env engines cycle) (fresh : engine ∉ engines)
    (nodup : st.free.Nodup) {cur : List SerializedInstruction}
    (serves : Serves env (engine, cur) (taking st engine)) (rewritten : List InstrMeta) :
    Gathered env (engines ++ [engine]) ⟨cycle.insts ++ [(engine, cur)],
      cycle.toRetire ++ taking st engine, rewritten⟩ := by
  obtain ⟨parts, hparts, hretire⟩ := h.issues
  refine ⟨⟨parts ++ [taking st engine], List.rel_append hparts (.cons serves .nil), ?_⟩, ?_, ?_, ?_⟩
  · simp [hretire]
  · simp [h.order]
  · refine List.nodup_append.mpr ⟨h.distinct, nodup.sublist (taking_sublist st engine), ?_⟩
    rintro x hx y hy rfl
    exact fresh (engine_of_mem_taking hy ▸ h.engine x hx)
  · intro x hx
    rcases List.mem_append.mp hx with hx | hx
    · exact List.mem_append_left _ (h.engine x hx)
    · exact List.mem_append_right _ (List.mem_singleton.mpr (engine_of_mem_taking hx))

/-- What is taken for one more engine is kept, too. -/
theorem AfterSplits.append {taken : List InstrMeta}
    (h : AfterSplits env ok extra (Served st₀ engines taken) start st₀ taken st) :
    AfterSplits env ok extra (Served st₀ (engines ++ [engine]) (taken ++ taking st engine)) start
      st₀ (taken ++ taking st engine) st := by
  obtain ⟨nodes, pending, hsplits, inv, hprogress⟩ := h.splits
  refine ⟨⟨nodes, pending, hsplits, inv, hprogress.imp_left ?_⟩, h.nextBatchTid, fun y hy => ?_⟩
  · rintro ⟨rfl, hserved⟩
    refine ⟨rfl, fun engine' hengine x hx => ?_⟩
    rcases List.mem_append.mp hengine with hengine | hengine
    · exact List.mem_append_left _ (hserved engine' hengine hx)
    · obtain rfl := List.mem_singleton.mp hengine
      exact List.mem_append_right _ hx
  · rcases List.mem_append.mp hy with hy | hy
    · exact h.kept y hy
    · exact (taking_sublist st engine).subset hy

/-- The part of `take` about one engine. -/
theorem takeEngine_meets (hextra : Extra extra) {acc : GreedyWorkPacker × Cycle}
    (h : Gathers env ok extra start st₀ engines acc) (fresh : engine ∉ engines) :
    Meets ok (takeEngine env acc engine)
      (Gathers env ok extra start st₀ (engines ++ [engine])) := by
  obtain ⟨st, cycle⟩ := acc
  obtain ⟨_, _, -, inv, -⟩ := h.after.splits
  refine (obtainForEngine_meets inv engine).bind ?_
  rintro ⟨cur, -⟩ -
  dsimp only
  refine Meets.ite_bind (Q := AfterSplits env ok extra (Served st₀ engines cycle.toRetire) start
    st₀ cycle.toRetire) ?_ fun st₁ h₁ => ?_
  · split
    · exact splitValuIntoAlu_meets hextra _ h.after
    · exact h.after
  refine Meets.ite_bind (Q := fun result => AfterSplits env ok extra
    (Served st₀ engines cycle.toRetire) start st₀ cycle.toRetire result.1) ?_ ?_
  · split
    · exact splitAddIntoImm_meets hextra _ h₁
    · exact h₁
  rintro ⟨st₂, rewritten⟩ h₂
  obtain ⟨_, _, -, inv₂, -⟩ := h₂.splits
  refine (obtainForEngine_meets inv₂ engine).bind ?_
  rintro ⟨cur, done⟩ ⟨rfl, hserves⟩
  exact ⟨h.gathered.append fresh h₂.free_nodup hserves _, h₂.append⟩

end Gather

section Gate

/-- How many of the threads `groups` have nothing pending. -/
def finished (groups : List ℤ) (pending : List InstrMeta) : ℕ :=
  groups.countP fun t => ∀ x ∈ pending, x.tid ≠ t

/-- For each thread that is finished one more may start. -/
def Gate (env : PackerEnv) (groups : List ℤ) (pending : List InstrMeta) (st : GreedyWorkPacker) :
    Prop :=
  (env.numThreads : ℤ) ≤ st.nextBatchTid ∨
    (env.concThreads : ℤ) + finished groups pending ≤ st.nextBatchTid

variable {groups : List ℤ} {before rest : List InstrMeta} {x : InstrMeta} {st' : GreedyWorkPacker}

/-- At most the thread of an instruction is finished with it. -/
theorem finished_le (nodup : groups.Nodup) : finished groups (before ++ rest) ≤
    finished groups (before ++ x :: rest) +
      if ∀ y ∈ before ++ rest, y.tid ≠ x.tid then 1 else 0 := by
  have hold (t : ℤ) : (∀ y ∈ before ++ x :: rest, y.tid ≠ t) ↔
      (∀ y ∈ before ++ rest, y.tid ≠ t) ∧ x.tid ≠ t := by
    simp only [List.mem_append, List.mem_cons]
    constructor
    · exact fun h => ⟨fun y hy => h y (hy.imp_right .inr), h x (.inr (.inl rfl))⟩
    · rintro ⟨hrest, hx⟩ y (hy | rfl | hy)
      · exact hrest y (.inl hy)
      · exact hx
      · exact hrest y (.inr hy)
  simp only [finished, hold]
  induction groups with
  | nil => exact Nat.zero_le _
  | cons t groups ih =>
      obtain ⟨hfresh, hnodup⟩ := List.nodup_cons.mp nodup
      have hrest := ih hnodup
      by_cases ht : x.tid = t
      · subst ht
        have hsame : groups.countP (fun t => decide (∀ y ∈ before ++ rest, y.tid ≠ t)) =
            groups.countP fun t => decide ((∀ y ∈ before ++ rest, y.tid ≠ t) ∧ x.tid ≠ t) := by
          refine List.countP_congr fun t ht => ?_
          have hne : x.tid ≠ t := fun heq => hfresh (heq ▸ ht)
          simp [hne]
        rw [List.countP_cons, List.countP_cons, hsame]
        split <;> simp_all
      · simp only [List.countP_cons, ht, ne_eq, not_false_eq_true, and_true] at hrest ⊢
        omega

/-- A retirement keeps the gate open far enough. -/
theorem Gate.retire (h : Gate env groups (before ++ x :: rest) st) (nodup : groups.Nodup)
    (inv : Inv env ok extra nodes (before ++ x :: rest) st) (hx : x ∈ st.free)
    (next : st'.nextBatchTid = if ((st.free ++ st.frontier).countP fun y => y.tid = x.tid) = 1 ∧
      st.nextBatchTid < env.numThreads then st.nextBatchTid + 1 else st.nextBatchTid) :
    Gate env groups (before ++ rest) st' := by
  have hle := @finished_le groups before rest x nodup
  have hone (hlast : ∀ y ∈ before ++ rest, y.tid ≠ x.tid) :
      ((st.free ++ st.frontier).countP fun y => y.tid = x.tid) = 1 := by
    rw [← List.count_eq_one_of_mem inv.nodup (List.mem_append_left _ hx)]
    refine List.countP_congr fun y hy => ?_
    have hpending := (inv.mem_ready.mp (List.mem_append.mp hy)).1
    have heq : y.tid = x.tid → y = x := by
      intro htid
      rcases List.mem_append.mp hpending with hy | hy
      · exact absurd htid (hlast y (List.mem_append_left _ hy))
      · obtain rfl | hy := List.mem_cons.mp hy
        · rfl
        · exact absurd htid (hlast y (List.mem_append_right _ hy))
    simp only [decide_eq_true_eq, beq_iff_eq]
    exact ⟨heq, fun h => h ▸ rfl⟩
  rw [Gate] at h ⊢
  rw [next]
  by_cases hlast : ∀ y ∈ before ++ rest, y.tid ≠ x.tid
  · rw [if_pos hlast] at hle
    rw [hone hlast]
    split <;> omega
  · rw [if_neg hlast] at hle
    split <;> omega

theorem Pieces.exists_tid {clen : ℕ} {pieces new : List InstrMeta}
    (h : Pieces env clen x pieces new) : ∃ p ∈ pieces, p.tid = x.tid := by
  have hlane (piece : Fin 8 → LogicalInstruction) : ∃ p ∈ lanesOf x piece, p.tid = x.tid :=
    ⟨_, mem_lanesOf.mpr ⟨0, rfl⟩, rfl⟩
  cases h with
  | valu | broadcast | vectorImm => exact hlane _
  | scalarImm => exact ⟨_, List.mem_singleton_self _, rfl⟩
  | multiplyAdd =>
      exact ⟨_, List.mem_append_left _ (List.mem_map.mpr ⟨0, List.mem_finRange 0, rfl⟩), rfl⟩

/-- No thread is finished by a split. -/
theorem finished_le_of_splits {p q : List InstrMeta × List InstrMeta}
    (h : ReflTransGen (SplitStep env) p q) : finished groups q.2 ≤ finished groups p.2 := by
  induction h with
  | refl => exact Nat.le_refl _
  | tail _ step ih =>
      refine Nat.le_trans (List.countP_mono_left fun t _ ht => ?_) ih
      simp only [decide_eq_true_eq] at ht ⊢
      obtain ⟨-, split⟩ := step
      obtain ⟨piece, hpiece, htid⟩ := split.exists_tid
      intro y hy heq
      simp only [List.mem_append, List.mem_cons] at hy
      rcases hy with hy | rfl | hy
      · exact ht y (by simp [hy]) heq
      · exact ht piece (by simp [hpiece]) (htid.trans heq)
      · exact ht y (by simp [hy]) heq

end Gate

section Take

variable {done pending' : List InstrMeta}

theorem Issues.weight_eq (h : Issues pending done pending') :
    weight pending' + weight done = weight pending := by
  induction h with
  | nil => rfl
  | cons _ _ ih =>
      simp only [weight_append, weight_cons] at ih ⊢
      omega

/-- What is free is retired one after the other. -/
theorem retireAll_meets (inv : Inv env ok extra nodes pending st) (free : ∀ x ∈ done, x ∈ st.free)
    (distinct : done.Nodup) :
    Meets ok (done.foldlM (retire env) st) fun st' => ∃ pending',
      Issues pending done pending' ∧ Inv env ok extra nodes pending' st' ∧
      ∀ groups : List ℤ, groups.Nodup → Gate env groups pending st →
        Gate env groups pending' st' := by
  induction done generalizing pending st with
  | nil => exact ⟨pending, .nil, inv, fun _ _ h => h⟩
  | cons x done ih =>
      obtain ⟨hx, hdone⟩ := List.nodup_cons.mp distinct
      have hfree := free x List.mem_cons_self
      obtain ⟨hpending, hready⟩ := inv.ready_of_mem_free hfree
      obtain ⟨before, rest, rfl⟩ := List.append_of_mem hpending
      rw [List.foldlM_cons]
      refine (retire_meets inv hfree).bind ?_
      rintro st₁ ⟨inv₁, hkept, hnext⟩
      have hfree₁ : ∀ y ∈ done, y ∈ st₁.free := fun y hy =>
        hkept y (free y (List.mem_cons_of_mem x hy)) fun heq => hx (heq ▸ hy)
      refine (ih inv₁ hfree₁ hdone).mono ?_
      rintro st₂ ⟨pending', hissues, inv₂, hgate⟩
      exact ⟨pending', .cons hready hissues, inv₂, fun groups nodup h =>
        hgate groups nodup (h.retire nodup inv hfree hnext)⟩

/-- What a cycle does to the pending instructions. -/
structure Took (env : PackerEnv) (ok : Prop) (extra : InstrMeta → InstrMeta → Prop)
    (nodes pending : List InstrMeta) (st : GreedyWorkPacker)
    (result : GreedyWorkPacker × Cycle) : Prop where
  gathered : Gathered env EX_UNITS result.2
  apart : result.2.toRetire.Pairwise fun x y => ¬ Conflict env extra x y
  steps : ∃ nodes' mid pending', ReflTransGen (SplitStep env) (nodes, pending) (nodes', mid) ∧
    Issues mid result.2.toRetire pending' ∧ Inv env ok extra nodes' pending' result.1 ∧
    (st.free ≠ [] → weight pending' < weight pending) ∧
    ∀ groups : List ℤ, groups.Nodup → Gate env groups pending st →
      Gate env groups pending' result.1

theorem Extra.conflict_symm (hextra : Extra extra) {x y : InstrMeta} (h : Conflict env extra x y) :
    Conflict env extra y x := h.symm hextra.symm

/-- Free instructions do not conflict. -/
theorem Inv.apart_free (hextra : Extra extra) (inv : Inv env ok extra nodes pending st)
    {x y : InstrMeta} (hx : x ∈ st.free) (hy : y ∈ st.free) (hne : x ≠ y) :
    ¬ Conflict env extra x y := by
  have hready := inv.order.pairwise_ready
    (List.filter_sublist (p := fun z => z.instid ∉ pending.flatMap InstrMeta.after)) fun z hz => by
      simpa [Blocked] using (List.mem_filter.mp hz).2
  have hmem {z : InstrMeta} (hz : z ∈ st.free) :
      z ∈ pending.filter fun z => z.instid ∉ pending.flatMap InstrMeta.after :=
    inv.tracks.ready.mem_iff.mp (List.mem_append_left _ hz)
  have : Std.Symm fun a b => ¬ Conflict env extra a b :=
    ⟨fun a b h h' => h (hextra.conflict_symm h')⟩
  exact hready.forall (hmem hx) (hmem hy) hne

/-- A cycle that finds something free issues an instruction or makes the rest lighter. -/
theorem weight_lt_of_issues {mid : List InstrMeta} (issues : Issues mid done pending')
    (free : st.free ≠ [])
    (progress : Served st EX_UNITS done ∨ weight mid < weight pending)
    (le : weight mid ≤ weight pending) : weight pending' < weight pending := by
  have hweight := issues.weight_eq
  rcases progress with hserved | hlt
  · obtain ⟨x, hx⟩ := List.exists_mem_of_ne_nil _ free
    have htaking : taking st x.lin.engine ≠ [] := by
      have hfilter : x ∈ st.free.filter fun y => y.lin.engine = x.lin.engine := by simp [hx]
      have hlimit : SLOT_LIMITS x.lin.engine ≠ 0 := by cases x.lin.engine <;> decide
      rw [taking, Ne, List.take_eq_nil_iff, not_or]
      exact ⟨hlimit, List.ne_nil_of_mem hfilter⟩
    obtain ⟨y, hy⟩ := List.exists_mem_of_ne_nil _ htaking
    have hengine : x.lin.engine ∈ EX_UNITS := by cases x.lin.engine <;> decide
    obtain ⟨front, back, rfl⟩ := List.append_of_mem (hserved _ hengine hy)
    have hpos := Inst.weight_pos y.lin
    simp only [weight_append, weight_cons] at hweight
    omega
  · omega

theorem take_meets (hextra : Extra extra) (inv : Inv env ok extra nodes pending st) :
    Meets ok (st.take env) (Took env ok extra nodes pending st) := by
  have hstart : Gathers env ok extra (nodes, pending) st [] (st, ⟨[], [], []⟩) :=
    ⟨⟨⟨[], .nil, rfl⟩, rfl, .nil, List.forall_mem_nil _⟩,
      .refl inv (List.forall_mem_nil _) (List.forall_mem_nil _)⟩
  refine (Meets.foldlM (fun todo acc => ∃ engines, engines ++ todo = EX_UNITS ∧
    Gathers env ok extra (nodes, pending) st engines acc) (fun engine todo acc => ?_) EX_UNITS
    (st, ⟨[], [], []⟩) ⟨[], rfl, hstart⟩).bind ?_
  · rintro ⟨engines, hengines, hgathers⟩
    have hnodup : EX_UNITS.Nodup := by decide
    have hfresh : engine ∉ engines := fun hmem =>
      (List.nodup_append.mp (hengines ▸ hnodup)).2.2 engine hmem engine List.mem_cons_self rfl
    refine (takeEngine_meets hextra hgathers hfresh).mono fun acc' h => ⟨_, ?_, h⟩
    rw [List.append_assoc]
    exact hengines
  rintro ⟨st₁, cycle⟩ ⟨engines, hengines, gathered, after⟩
  obtain rfl : engines = EX_UNITS := by rw [← hengines, List.append_nil]
  obtain ⟨nodes', mid, hsplits, inv₁, hprogress⟩ := after.splits
  have hle := weight_le_of_splits hsplits
  refine (retireAll_meets inv₁ after.kept gathered.distinct).bind ?_
  rintro st' ⟨pending', hissues, inv', hgate⟩
  refine ⟨gathered, gathered.distinct.pairwise_of_forall_ne fun x hx y hy hne => ?_,
    nodes', mid, pending', hsplits, hissues, inv', fun hfree => ?_, fun groups nodup hopen => ?_⟩
  · exact inv₁.apart_free hextra (after.kept x hx) (after.kept y hy) hne
  · exact weight_lt_of_issues hissues hfree (hprogress.imp_left And.right) hle
  · refine hgate groups nodup (hopen.imp (fun h => ?_) fun h => ?_)
    · rwa [after.nextBatchTid]
    · have hle : finished groups mid ≤ finished groups pending := finished_le_of_splits hsplits
      rw [after.nextBatchTid]
      change (env.concThreads : ℤ) + finished groups pending ≤ st.nextBatchTid at h
      omega

end Take

section Rounds

theorem foldlM_eq_self {α σ : Type} {f : σ → α → Option σ} {s : σ} {xs : List α}
    (h : ∀ x ∈ xs, f s x = some s) : xs.foldlM f s = some s := by
  induction xs with
  | nil => rfl
  | cons x xs ih =>
      rw [List.foldlM_cons, h x List.mem_cons_self]
      exact ih fun y hy => h y (List.mem_cons_of_mem x hy)

/-- `have_more` moves nothing, since `__retire` already did. -/
theorem Inv.haveMore_eq (inv : Inv env ok extra nodes pending st) :
    st.haveMore env = some (st, decide (st.free ≠ [])) := by
  have hfall : st.fallDownToFree env = some st := foldlM_eq_self fun x hx =>
    if_neg (not_lt.mpr (inv.frontier_ge x hx))
  rw [haveMore]
  by_cases hfree : st.free = []
  · rw [if_neg (by simp [hfree])]
    split
    · rw [hfall]
      simp [hfree]
    · simp [hfree]
  · rw [if_pos (List.length_pos_iff.mpr hfree)]
    simp [hfree]

/-- Cycles one after the other, on the nodes and the pending instructions. -/
inductive Schedule (env : PackerEnv) :
    List InstrMeta × List InstrMeta → List Cycle → List InstrMeta × List InstrMeta → Prop
  | nil {p : List InstrMeta × List InstrMeta} : Schedule env p [] p
  | cons {p q : List InstrMeta × List InstrMeta} {nodes mid pending : List InstrMeta}
      {cycle : Cycle} {cycles : List Cycle}
      (splits : ReflTransGen (SplitStep env) p (nodes, mid))
      (issues : Issues mid cycle.toRetire pending)
      (others : Schedule env (nodes, pending) cycles q) : Schedule env p (cycle :: cycles) q

/-- What holds of a run of the packer. -/
structure Ran (env : PackerEnv) (ok : Prop) (extra : InstrMeta → InstrMeta → Prop)
    (nodes pending : List InstrMeta) (st : GreedyWorkPacker) (n : ℕ)
    (result : GreedyWorkPacker × List Cycle) : Prop where
  gathered : ∀ cycle ∈ result.2, Gathered env EX_UNITS cycle
  apart : ∀ cycle ∈ result.2, cycle.toRetire.Pairwise fun x y => ¬ Conflict env extra x y
  steps : ∃ nodes' pending', Schedule env (nodes, pending) result.2 (nodes', pending') ∧
    Inv env ok extra nodes' pending' result.1 ∧ (weight pending < n → result.1.free = []) ∧
    ∀ groups : List ℤ, groups.Nodup → Gate env groups pending st →
      Gate env groups pending' result.1

theorem rounds_meets (hextra : Extra extra) (n : ℕ) (inv : Inv env ok extra nodes pending st) :
    Meets ok (rounds env n st) (Ran env ok extra nodes pending st n) := by
  induction n generalizing nodes pending st with
  | zero =>
      exact ⟨List.forall_mem_nil _, List.forall_mem_nil _, nodes, pending, .nil, inv,
        fun h => absurd h (Nat.not_lt_zero _), fun _ _ h => h⟩
  | succ n ih =>
      rw [rounds, inv.haveMore_eq]
      simp only [Option.bind_eq_bind, Option.bind_some, decide_eq_true_eq]
      by_cases hfree : st.free = []
      · rw [if_neg (not_not.mpr hfree)]
        exact ⟨List.forall_mem_nil _, List.forall_mem_nil _, nodes, pending, .nil, inv,
          fun _ => hfree, fun _ _ h => h⟩
      rw [if_pos hfree]
      refine (take_meets hextra inv).bind ?_
      rintro ⟨st₁, cycle⟩ ⟨gathered, apart, nodes₁, mid, pending₁, hsplits, hissues, inv₁, hlt,
        hgate⟩
      refine (ih inv₁).bind ?_
      rintro ⟨st₂, cycles⟩ ⟨gathered', apart', nodes₂, pending₂, hschedule, inv₂, hend, hgate'⟩
      refine ⟨List.forall_mem_cons.mpr ⟨gathered, gathered'⟩,
        List.forall_mem_cons.mpr ⟨apart, apart'⟩, nodes₂, pending₂,
        .cons hsplits hissues hschedule, inv₂, fun hn => hend ?_, fun groups nodup hopen =>
          hgate' groups nodup (hgate groups nodup hopen)⟩
      have := hlt hfree
      omega

end Rounds

end Explore.Takehome
