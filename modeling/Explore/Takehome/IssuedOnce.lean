import Explore.Takehome.Bundles
import Explore.Takehome.Reordering

/-!
# No instruction is lost

What the packer has issued and what is pending are together the instructions of the list,
each as itself or expanded into pieces. The pending instructions stay in program order, so the
first of them is ready: the packer stops early only when it waits for a thread that may not
start. One more thread may start whenever one is finished, but a thread without instructions
never finishes, so more than `conc_threads` of them before another thread can keep it out.
-/

namespace Explore.Takehome

open Pending GreedyWorkPacker Relation

section Expansion

/-- One instruction of a list is replaced by its pieces. -/
inductive Replaces (env : PackerEnv) : List InstrMeta → List InstrMeta → Prop
  | intro {before rest pieces new : List InstrMeta} {clen : ℕ} {x : InstrMeta}
      (split : Pieces env clen x pieces new) :
      Replaces env (before ++ x :: rest) (before ++ pieces ++ rest)

/-- The instruction itself, its rewriting as `add_imm`, or a complete set of its pieces, each
of which may be rewritten in turn. -/
def Expands (env : PackerEnv) (x : InstrMeta) (part : List InstrMeta) : Prop :=
  ReflTransGen (Replaces env) [x] part

/-- What is issued and what is pending are the instructions of the list, each once. -/
def Ledger (env : PackerEnv) (imetas issued pending : List InstrMeta) : Prop :=
  ∃ parts, List.Forall₂ (Expands env) imetas parts ∧ (issued ++ pending).Perm parts.flatten

variable {env : PackerEnv} {imetas issued pending pending' done : List InstrMeta}
  {p q : List InstrMeta × List InstrMeta} {cycles : List Cycle}

theorem forall₂_replace {α β : Type} {R : α → β → Prop} {xs : List α} {front back : List β}
    {b b' : β} (h : List.Forall₂ R xs (front ++ b :: back)) (hb : ∀ a, R a b → R a b') :
    List.Forall₂ R xs (front ++ b' :: back) := by
  induction front generalizing xs with
  | nil =>
      obtain ⟨a, as, ha, has, rfl⟩ := List.forall₂_cons_right_iff.mp h
      exact .cons (hb a ha) has
  | cons c front ih =>
      obtain ⟨a, as, ha, has, rfl⟩ := List.forall₂_cons_right_iff.mp h
      exact .cons ha (ih has)

/-- The same replacement in both of two lists that are permutations. -/
theorem perm_replace {α : Type} {x : α} {before rest left right : List α} (pieces : List α)
    (h : (before ++ x :: rest).Perm (left ++ x :: right)) :
    (before ++ pieces ++ rest).Perm (left ++ pieces ++ right) := by
  have hrest : (before ++ rest).Perm (left ++ right) :=
    (List.perm_middle.symm.trans (h.trans List.perm_middle)).cons_inv
  have hfront (as bs : List α) : (as ++ pieces ++ bs).Perm (pieces ++ (as ++ bs)) := by
    rw [← List.append_assoc]
    exact List.perm_append_comm.append_right bs
  exact (hfront before rest).trans ((hrest.append_left pieces).trans (hfront left right).symm)

theorem Ledger.refl (env : PackerEnv) (imetas : List InstrMeta) : Ledger env imetas [] imetas := by
  refine ⟨imetas.map fun x => [x], ?_, ?_⟩
  · exact List.forall₂_map_right_iff.mpr (List.forall₂_same.mpr fun x _ => .refl)
  · rw [List.nil_append, ← List.flatMap_def]
    simp

/-- A replacement of a pending instruction happens in the part that it belongs to. -/
theorem Ledger.splitStep (h : Ledger env imetas issued p.2) (step : SplitStep env p q) :
    Ledger env imetas issued q.2 := by
  obtain ⟨-, split⟩ := step
  rename_i nodes before rest pieces new x
  obtain ⟨parts, hparts, hperm⟩ := h
  have hx : x ∈ parts.flatten := hperm.mem_iff.mp (by simp)
  obtain ⟨part, hpart, hmem⟩ := List.mem_flatten.mp hx
  obtain ⟨front, back, rfl⟩ := List.append_of_mem hpart
  obtain ⟨left, right, rfl⟩ := List.append_of_mem hmem
  refine ⟨front ++ (left ++ pieces ++ right) :: back,
    forall₂_replace hparts fun y hy => hy.tail (.intro split), ?_⟩
  have h : (issued ++ before ++ x :: rest).Perm
      (front.flatten ++ left ++ x :: (right ++ back.flatten)) := by
    simpa using hperm
  simpa using perm_replace pieces h

theorem Ledger.splits (h : Ledger env imetas issued p.2)
    (steps : ReflTransGen (SplitStep env) p q) : Ledger env imetas issued q.2 := by
  induction steps with
  | refl => exact h
  | tail _ step ih => exact ih.splitStep step

theorem Issues.perm (h : Issues pending done pending') : pending.Perm (done ++ pending') := by
  induction h with
  | nil => exact .refl _
  | cons _ _ ih => exact List.perm_middle.trans (ih.cons _)

theorem Ledger.issues (h : Ledger env imetas issued pending)
    (issues : Issues pending done pending') : Ledger env imetas (issued ++ done) pending' := by
  obtain ⟨parts, hparts, hperm⟩ := h
  refine ⟨parts, hparts, ?_⟩
  rw [List.append_assoc]
  exact (issues.perm.symm.append_left issued).trans hperm

/-- What the cycles issue leaves the pending instructions, each once. -/
theorem Ledger.schedule (h : Ledger env imetas issued p.2) (schedule : Schedule env p cycles q) :
    Ledger env imetas (issued ++ cycles.flatMap Cycle.toRetire) q.2 := by
  induction schedule generalizing issued with
  | nil => simpa using h
  | cons splits issues _ ih =>
      rw [List.flatMap_cons, ← List.append_assoc]
      exact ih ((h.splits splits).issues issues)

end Expansion

section Sequence

/-- The pending instructions are in program order: nothing unlocks itself or what comes before,
and the threads come one after the other. -/
structure InSequence (nodes : ℕ) (pending : List InstrMeta) : Prop where
  forward : pending.Pairwise fun x y => x.instid ∉ y.after
  self : ∀ x ∈ pending, x.instid ∉ x.after
  id_lt : ∀ x ∈ pending, x.instid < nodes
  after_lt : ∀ x ∈ pending, ∀ k ∈ x.after, k < nodes
  tids : pending.Pairwise fun x y => x.tid ≤ y.tid

variable {env : PackerEnv} {p q : List InstrMeta × List InstrMeta} {cycles : List Cycle}
  {pending pending' done pieces new : List InstrMeta} {x : InstrMeta} {clen nodes : ℕ}

/-- A piece of `x` has the place of `x` or is a new node, and unlocks what `x` does or a new
node. -/
structure InPlace (clen more : ℕ) (x piece : InstrMeta) : Prop where
  tid : piece.tid = x.tid
  instid : piece.instid = x.instid ∨ clen ≤ piece.instid ∧ piece.instid < clen + more
  after : ∀ k ∈ piece.after, k ∈ x.after ∨ clen ≤ k ∧ k < clen + more

theorem Pieces.inPlace (h : Pieces env clen x pieces new) :
    ∀ piece ∈ pieces, InPlace clen new.length x piece := by
  have hlanes (f : Fin 8 → LogicalInstruction) (n : ℕ) :
      ∀ piece ∈ lanesOf x f, InPlace clen n x piece := by
    intro piece hpiece
    obtain ⟨i, rfl⟩ := mem_lanesOf.mp hpiece
    exact ⟨rfl, .inl rfl, fun k hk => .inl hk⟩
  cases h with
  | valu | broadcast | vectorImm => exact hlanes _ _
  | scalarImm =>
      intro piece hpiece
      obtain rfl := List.mem_singleton.mp hpiece
      exact ⟨rfl, .inl rfl, fun k hk => .inl hk⟩
  | multiplyAdd =>
      intro piece hpiece
      have hlength (dest c : LogicalRegister) : (addHalves x clen dest c).length = 8 := by
        simp [addHalves]
      rw [hlength]
      rcases List.mem_append.mp hpiece with hpiece | hpiece
      · obtain ⟨i, -, rfl⟩ := List.mem_map.mp hpiece
        refine ⟨rfl, .inl rfl, fun k hk => .inr ?_⟩
        obtain rfl := List.mem_singleton.mp hk
        omega
      · obtain ⟨i, -, rfl⟩ := List.mem_map.mp hpiece
        exact ⟨rfl, .inr ⟨Nat.le_add_right _ _, by dsimp only; omega⟩, fun k hk => .inl hk⟩

/-- The pieces of an instruction belong to its thread. -/
theorem Expands.tid {part : List InstrMeta} (h : Expands env x part) :
    ∀ y ∈ part, y.tid = x.tid := by
  induction h with
  | refl =>
      intro y hy
      rw [List.mem_singleton.mp hy]
  | tail _ step ih =>
      obtain ⟨split⟩ := step
      intro y hy
      simp only [List.mem_append] at hy
      rcases hy with (hy | hy) | hy
      · exact ih y (by simp [hy])
      · rw [(split.inPlace y hy).tid]
        exact ih _ (by simp)
      · exact ih y (by simp [hy])

theorem Ledger.exists_tid {imetas issued : List InstrMeta}
    (h : Ledger env imetas issued pending) (hx : x ∈ pending) : ∃ y ∈ imetas, y.tid = x.tid := by
  obtain ⟨parts, hparts, hperm⟩ := h
  have hx : x ∈ parts.flatten := hperm.mem_iff.mp (List.mem_append_right _ hx)
  obtain ⟨part, hpart, hmem⟩ := List.mem_flatten.mp hx
  obtain ⟨k, hk, rfl⟩ := List.getElem_of_mem hpart
  have hlength := hparts.length_eq
  exact ⟨imetas[k], List.getElem_mem _, ((hparts.get (hlength ▸ hk) hk).tid x hmem).symm⟩

/-- The pieces of an instruction do not unlock each other backwards. -/
theorem Pieces.forward (h : Pieces env clen x pieces new) (self : x.instid ∉ x.after)
    (id_lt : x.instid < clen) (after_lt : ∀ k ∈ x.after, k < clen) :
    (pieces.Pairwise fun a b => a.instid ∉ b.after) ∧
    ∀ piece ∈ pieces, piece.instid ∉ piece.after := by
  have hlanes (f : Fin 8 → LogicalInstruction) :
      ((lanesOf x f).Pairwise fun a b => a.instid ∉ b.after) ∧
        ∀ piece ∈ lanesOf x f, piece.instid ∉ piece.after := by
    refine ⟨List.pairwise_map.mpr (List.pairwise_of_forall fun i j => self), fun piece hpiece => ?_⟩
    obtain ⟨i, rfl⟩ := mem_lanesOf.mp hpiece
    exact self
  cases h with
  | valu | broadcast | vectorImm => exact hlanes _
  | scalarImm =>
      exact ⟨List.pairwise_singleton _ _, fun piece hpiece => by
        obtain rfl := List.mem_singleton.mp hpiece
        exact self⟩
  | multiplyAdd =>
      refine ⟨List.pairwise_append.mpr ⟨?_, ?_, ?_⟩, fun piece hpiece => ?_⟩
      · refine List.pairwise_map.mpr (List.pairwise_of_forall fun i j => ?_)
        simp only [List.mem_singleton]
        omega
      · refine List.pairwise_map.mpr (List.pairwise_of_forall fun i j hmem => ?_)
        have hlt := after_lt _ hmem
        dsimp only at hlt
        omega
      · intro a ha b hb
        obtain ⟨i, -, rfl⟩ := List.mem_map.mp ha
        obtain ⟨j, -, rfl⟩ := List.mem_map.mp hb
        exact self
      · rcases List.mem_append.mp hpiece with hpiece | hpiece
        · obtain ⟨i, -, rfl⟩ := List.mem_map.mp hpiece
          simp only [List.mem_singleton]
          omega
        · obtain ⟨i, -, rfl⟩ := List.mem_map.mp hpiece
          intro hmem
          have hlt := after_lt _ hmem
          dsimp only at hlt
          omega

theorem InSequence.splitStep (h : InSequence p.1.length p.2) (step : SplitStep env p q) :
    InSequence q.1.length q.2 := by
  obtain ⟨-, split⟩ := step
  rename_i nodes before rest pieces new x
  have hx : x ∈ before ++ x :: rest := by simp
  have hold : ∀ y, y ∈ before ∨ y ∈ rest → y ∈ before ++ x :: rest := by
    rintro y (hy | hy) <;> simp [hy]
  have hplace := split.inPlace
  obtain ⟨hforward, hself⟩ := split.forward (h.self x hx) (h.id_lt x hx) (h.after_lt x hx)
  obtain ⟨hbefore, hrest, hcross⟩ := List.pairwise_append.mp h.forward
  obtain ⟨hxrest, hrest⟩ := List.pairwise_cons.mp hrest
  obtain ⟨hbefore', hrest', hcross'⟩ := List.pairwise_append.mp h.tids
  obtain ⟨hxrest', hrest'⟩ := List.pairwise_cons.mp hrest'
  have hmem {P : InstrMeta → Prop} (hold : ∀ y, y ∈ before ∨ y ∈ rest → P y)
      (hpieces : ∀ y ∈ pieces, P y) : ∀ y ∈ before ++ pieces ++ rest, P y := by
    intro y hy
    simp only [List.mem_append] at hy
    rcases hy with (hy | hy) | hy
    · exact hold y (.inl hy)
    · exact hpieces y hy
    · exact hold y (.inr hy)
  refine ⟨?_, hmem (fun y hy => h.self y (hold y hy)) hself, hmem (fun y hy => ?_) fun y hy => ?_,
    hmem (fun y hy k hk => ?_) fun y hy k hk => ?_, ?_⟩
  · refine List.pairwise_append.mpr ⟨List.pairwise_append.mpr ⟨hbefore, hforward, ?_⟩, hrest, ?_⟩
    · intro a ha piece hpiece hmem
      rcases (hplace piece hpiece).after _ hmem with hafter | hnew
      · exact hcross a ha x List.mem_cons_self hafter
      · exact absurd (h.id_lt a (hold a (.inl ha))) (not_lt.mpr hnew.1)
    · intro a ha b hb
      rcases List.mem_append.mp ha with ha | ha
      · exact hcross a ha b (List.mem_cons_of_mem x hb)
      · intro hafter
        rcases (hplace a ha).instid with heq | hnew
        · exact hxrest b hb (heq ▸ hafter)
        · exact absurd (h.after_lt b (hold b (.inr hb)) _ hafter) (not_lt.mpr hnew.1)
  · have := h.id_lt y (hold y hy)
    rw [List.length_append]
    exact Nat.lt_add_right _ this
  · have := h.id_lt x hx
    rw [List.length_append]
    rcases (hplace y hy).instid with heq | hnew
    · change x.instid < nodes.length at this
      omega
    · exact hnew.2
  · have := h.after_lt y (hold y hy) k hk
    rw [List.length_append]
    exact Nat.lt_add_right _ this
  · rw [List.length_append]
    rcases (hplace y hy).after k hk with hafter | hnew
    · exact Nat.lt_add_right _ (h.after_lt x hx k hafter)
    · exact hnew.2
  · refine List.pairwise_append.mpr ⟨List.pairwise_append.mpr ⟨hbefore', ?_, ?_⟩, hrest', ?_⟩
    · refine List.pairwise_iff_getElem.mpr fun i j hi hj _ => ?_
      rw [(hplace _ (List.getElem_mem hi)).tid, (hplace _ (List.getElem_mem hj)).tid]
    · intro a ha piece hpiece
      rw [(hplace piece hpiece).tid]
      exact hcross' a ha x List.mem_cons_self
    · intro a ha b hb
      rcases List.mem_append.mp ha with ha | ha
      · exact hcross' a ha b (List.mem_cons_of_mem x hb)
      · rw [(hplace a ha).tid]
        exact hxrest' b hb

theorem InSequence.splits (h : InSequence p.1.length p.2)
    (steps : ReflTransGen (SplitStep env) p q) : InSequence q.1.length q.2 := by
  induction steps with
  | refl => exact h
  | tail _ step ih => exact ih.splitStep step

theorem InSequence.issues (h : InSequence nodes pending) (issues : Issues pending done pending') :
    InSequence nodes pending' := by
  have hsub := issues.sublist
  exact ⟨h.forward.sublist hsub, fun y hy => h.self y (hsub.subset hy),
    fun y hy => h.id_lt y (hsub.subset hy), fun y hy => h.after_lt y (hsub.subset hy),
    h.tids.sublist hsub⟩

theorem InSequence.schedule (h : InSequence p.1.length p.2) (schedule : Schedule env p cycles q) :
    InSequence q.1.length q.2 := by
  induction schedule with
  | nil => exact h
  | cons splits issues _ ih => exact ih ((h.splits splits).issues issues)

/-- The first pending instruction is ready. -/
theorem InSequence.ready_head (h : InSequence nodes (x :: pending)) :
    ¬ Blocked InstrMeta.after (x :: pending) x.instid := by
  intro hblocked
  obtain ⟨y, hy, hmem⟩ := List.mem_flatMap.mp hblocked
  obtain rfl | hy := List.mem_cons.mp hy
  · exact h.self y List.mem_cons_self hmem
  · exact (List.pairwise_cons.mp h.forward).1 y hy hmem

end Sequence

section Threads

variable {ss ss' : ScratchSpace} {graph : InstrGraph} {numThreads concThreads : ℕ}
  {imetas : List InstrMeta}

/-- The threads of the program order. -/
theorem tids_programOrder (graph : InstrGraph) (numThreads : ℕ)
    (tidmetas : List (ℕ × LogicalInstruction)) (moreglobal : List LogicalInstruction) :
    let entries := programOrder graph numThreads tidmetas moreglobal
    (∀ entry ∈ entries, -1 ≤ entry.2.1 ∧ entry.2.1 < numThreads) ∧
      entries.Pairwise fun a b => a.2.1 ≤ b.2.1 := by
  intro entries
  have hglobal : ∀ entry ∈ (moreglobal ++ graph.globalimetas).map
      (fun linst => (linst, (-1 : ℤ), (-1 : ℤ))), entry.2.1 = -1 := by
    intro entry hentry
    obtain ⟨linst, -, rfl⟩ := List.mem_map.mp hentry
    rfl
  have hthread (tid : ℕ) : ∀ entry ∈ (threadInsts graph tidmetas tid).zipIdx.map
      (fun entry => (entry.1, (tid : ℤ), (entry.2 : ℤ))), entry.2.1 = tid := by
    intro entry hentry
    obtain ⟨numbered, -, rfl⟩ := List.mem_map.mp hentry
    rfl
  refine ⟨fun entry hentry => ?_, List.pairwise_append.mpr ⟨?_, ?_, ?_⟩⟩
  · rcases List.mem_append.mp hentry with hentry | hentry
    · rw [hglobal entry hentry]
      omega
    · obtain ⟨tid, htid, hentry⟩ := List.mem_flatMap.mp hentry
      rw [hthread tid entry hentry]
      have := List.mem_range.mp htid
      omega
  · refine List.pairwise_iff_getElem.mpr fun i j hi hj _ => ?_
    rw [hglobal _ (List.getElem_mem hi), hglobal _ (List.getElem_mem hj)]
  · refine List.pairwise_flatMap.mpr ⟨fun tid _ => ?_, ?_⟩
    · refine List.pairwise_iff_getElem.mpr fun i j hi hj _ => ?_
      rw [hthread tid _ (List.getElem_mem hi), hthread tid _ (List.getElem_mem hj)]
    · refine List.pairwise_lt_range.imp fun {s t} hst a ha b hb => ?_
      rw [hthread s a ha, hthread t b hb]
      omega
  · intro a ha b hb
    obtain ⟨tid, -, hb⟩ := List.mem_flatMap.mp hb
    rw [hglobal a ha, hthread tid b hb]
    omega

theorem tids_of_getWork (h : getWork ss graph numThreads concThreads = some (ss', imetas)) :
    (∀ x ∈ imetas, -1 ≤ x.tid ∧ x.tid < numThreads) ∧ imetas.Pairwise fun x y => x.tid ≤ y.tid := by
  obtain ⟨tidmetas, moreglobal, accesses, -, -, rfl⟩ := getWork_eq_some h
  obtain ⟨hrange, hsorted⟩ := tids_programOrder graph numThreads tidmetas moreglobal
  refine ⟨fun x hx => ?_, List.pairwise_map.mpr ?_⟩
  · obtain ⟨entry, hentry, rfl⟩ := List.mem_map.mp hx
    exact hrange entry.1 (List.fst_mem_of_mem_zipIdx hentry)
  · refine List.pairwise_iff_getElem.mpr fun i j hi hj hij => ?_
    simp only [List.getElem_zipIdx]
    exact List.pairwise_iff_getElem.mp hsorted i j _ _ hij

/-- The list of `get_work` is in sequence. -/
theorem Assembled.inSequence (assembled : Assembled ss concThreads imetas)
    (tids : imetas.Pairwise fun x y => x.tid ≤ y.tid) : InSequence imetas.length imetas where
  forward := assembled.respectsAfter
  self x hx hmem := Nat.lt_irrefl _ (assembled.after_lt x hx _ hmem).1
  id_lt x hx := by
    obtain ⟨k, hk, rfl⟩ := List.getElem_of_mem hx
    rwa [assembled.instid k _ (List.getElem?_eq_getElem hk)]
  after_lt x hx k hk := (assembled.after_lt x hx k hk).2
  tids := tids

end Threads

section Completion

/-- The loop ends, and every instruction of the list has been issued once; nothing is left. -/
def Completes (env : PackerEnv) (imetas : List InstrMeta) : Prop :=
  ∃ st₀ n st cycles, GreedyWorkPacker.new env imetas = some st₀ ∧
    rounds env n st₀ = some (st, cycles) ∧ st.haveMore env = some (st, false) ∧
    (∀ cycle ∈ cycles, cycle.IssuesAll env) ∧
    Ledger env imetas (cycles.flatMap Cycle.toRetire) [] ∧
    st.free = [] ∧ st.frontier = [] ∧ ∀ count ∈ st.incount, count = 0

/-- `have_more` never finds `free` empty while something is in `frontier`. -/
def NeverStalls (env : PackerEnv) (imetas : List InstrMeta) : Prop :=
  ∀ st₀ n st cycles, GreedyWorkPacker.new env imetas = some st₀ →
    rounds env n st₀ = some (st, cycles) → st.free = [] → st.frontier = []

/-- Before each thread that has an instruction, at most `concThreads` of the earlier ones, with
the global instructions as thread -1, have none. -/
def FewEmpty (concThreads : ℕ) (imetas : List InstrMeta) : Prop :=
  ∀ x ∈ imetas, ((List.range (x.tid + 1).toNat).filter fun k : ℕ =>
    ∀ y ∈ imetas, y.tid ≠ (k : ℤ) - 1).length ≤ concThreads

instance (concThreads : ℕ) (imetas : List InstrMeta) : Decidable (FewEmpty concThreads imetas) :=
  inferInstanceAs (Decidable (∀ x ∈ imetas, _))

variable {env : PackerEnv} {ok : Prop} {extra : InstrMeta → InstrMeta → Prop}
  {imetas nodes pending : List InstrMeta} {st₀ st : GreedyWorkPacker} {n : ℕ}
  {cycles : List Cycle}

/-- More rounds than needed change nothing. -/
theorem rounds_of_le (run : rounds env n st₀ = some (st, cycles))
    (stop : st.haveMore env = some (st, false)) {m : ℕ} (hm : n ≤ m) :
    rounds env m st₀ = some (st, cycles) := by
  induction n generalizing st₀ cycles m with
  | zero =>
      obtain ⟨rfl, rfl⟩ := Prod.mk.inj (Option.some.inj run)
      cases m with
      | zero => rfl
      | succ m =>
          rw [rounds, stop]
          rfl
  | succ n ih =>
      obtain ⟨k, rfl⟩ : ∃ k, m = k + 1 := ⟨m - 1, by omega⟩
      rw [rounds] at run ⊢
      obtain ⟨⟨st₁, more⟩, hmore, run⟩ := Option.bind_eq_some_iff.mp run
      rw [hmore]
      cases more with
      | false => exact run
      | true =>
          obtain ⟨⟨st₂, cycle⟩, htake, run⟩ := Option.bind_eq_some_iff.mp run
          obtain ⟨⟨st₃, others⟩, hrest, hret⟩ := Option.bind_eq_some_iff.mp run
          obtain ⟨rfl, rfl⟩ := Prod.mk.inj (Option.some.inj hret)
          simp only [Option.bind_eq_bind, Option.bind_some, if_true, htake,
            ih hrest (by omega : n ≤ k)]
          rfl

/-- When nothing is ready, nothing is pending. -/
theorem Inv.pending_nil (inv : Inv env ok extra nodes pending st)
    (sequence : InSequence nodes.length pending) (free : st.free = [])
    (frontier : st.frontier = []) : pending = [] := by
  cases pending with
  | nil => rfl
  | cons x pending =>
      have hready := inv.mem_ready.mpr ⟨List.mem_cons_self, sequence.ready_head⟩
      rw [free, frontier] at hready
      rcases hready with h | h <;> cases h

/-- A thread that waits at the end waits for threads without instructions. -/
theorem not_fewEmpty {x : InstrMeta}
    (gate : ∀ groups : List ℤ, groups.Nodup → Gate env groups imetas st₀ →
      Gate env groups pending st)
    (start : st₀.nextBatchTid = env.concThreads) (hx : ∃ y ∈ imetas, y.tid = x.tid)
    (hrange : -1 ≤ x.tid ∧ x.tid < env.numThreads) (waits : st.nextBatchTid ≤ x.tid)
    (first : ∀ y ∈ pending, x.tid ≤ y.tid) : ¬ FewEmpty env.concThreads imetas := by
  intro hfew
  let before := List.range (x.tid + 1).toNat
  let empty := fun k : ℕ => decide (∀ y ∈ imetas, y.tid ≠ (k : ℤ) - 1)
  let groups := (before.filter fun k => !empty k).map fun k : ℕ => (k : ℤ) - 1
  have hnodup : groups.Nodup := by
    refine List.Nodup.map (fun a b hab => ?_) (List.nodup_range.filter _)
    have hab : (a : ℤ) - 1 = b - 1 := hab
    omega
  have hfinished : finished groups pending = groups.length := by
    refine List.countP_eq_length.mpr fun t ht => ?_
    obtain ⟨k, hk, rfl⟩ := List.mem_map.mp ht
    have hlt := List.mem_range.mp (List.mem_filter.mp hk).1
    refine decide_eq_true fun y hy heq => ?_
    have := first y hy
    omega
  have hstart : finished groups imetas = 0 := by
    refine List.countP_eq_zero.mpr fun t ht => ?_
    obtain ⟨k, hk, rfl⟩ := List.mem_map.mp ht
    simpa [empty] using (List.mem_filter.mp hk).2
  have hlength : groups.length + (before.filter empty).length = (x.tid + 1).toNat := by
    have := List.length_eq_length_filter_add (l := before) empty
    rw [List.length_range] at this
    rw [List.length_map]
    omega
  obtain ⟨y, hy, htid⟩ := hx
  have hcount := hfew y hy
  rw [htid] at hcount
  have hgate := gate groups hnodup (.inr (by rw [hstart, start]; exact le_of_eq (Int.add_zero _)))
  rcases hgate with hgate | hgate
  · omega
  · rw [hfinished] at hgate
    change (before.filter empty).length ≤ env.concThreads at hcount
    omega

end Completion

section Packer

variable {env : PackerEnv} {program : Program} {threads slots n : ℕ} {irp : IRPipeline}
  {imetas nodes pending : List InstrMeta} {ok : Prop} {extra : InstrMeta → InstrMeta → Prop}
  {st₀ st : GreedyWorkPacker} {cycles : List Cycle}

/-- The whole run of the packer. -/
theorem exists_run (accepted : programToIrp program threads slots = some irp)
    (work : getWork irp.ss irp.graph env.numThreads env.concThreads = some (env.ss, imetas))
    (num : env.numThreads ≤ 100) (short : ∀ x ∈ imetas, x.instidInThread < 100000) :
    ∃ st₀ n st cycles nodes pending, GreedyWorkPacker.new env imetas = some st₀ ∧
      rounds env n st₀ = some (st, cycles) ∧ st.free = [] ∧
      st₀.nextBatchTid = env.concThreads ∧
      Inv env True (fun _ _ => False) imetas imetas st₀ ∧
      Inv env True (fun _ _ => False) nodes pending st ∧ InSequence nodes.length pending ∧
      (∀ cycle ∈ cycles, cycle.IssuesAll env) ∧
      Ledger env imetas (cycles.flatMap Cycle.toRetire) pending ∧
      ∀ groups : List ℤ, groups.Nodup → Gate env groups imetas st₀ →
      Gate env groups pending st := by
  have typed := wellTyped_of_programToIrp accepted
  have assembled := assembled_of_getWork typed.fits work
  obtain ⟨hrange, hsorted⟩ := tids_of_getWork work
  have good : ∀ x ∈ imetas, Good env True x :=
    good_of_getWork typed work (fun _ x hx _ => short x hx) fun _ x hx => by
      have := hrange x hx
      rw [INFINITE_SET, decide_eq_true_eq]
      omega
  have order : InOrder env (fun _ _ => False) imetas imetas :=
    assembled.inOrder fun _ _ _ _ _ _ _ => False.elim
  obtain ⟨st₀, hnew, inv, hnext⟩ := (new_meets assembled good order).exists_of_ok trivial
  have hextra : Extra fun _ _ => False := ⟨fun _ _ => id, fun _ _ => False.elim⟩
  obtain ⟨⟨st, cycles⟩, hrounds, ran⟩ :=
    (rounds_meets hextra (weight imetas + 1) inv).exists_of_ok trivial
  obtain ⟨nodes, pending, hschedule, inv', hend, hgate⟩ := ran.steps
  exact ⟨st₀, _, st, cycles, nodes, pending, hnew, hrounds, hend (Nat.lt_succ_self _), hnext, inv,
    inv', (assembled.inSequence hsorted).schedule hschedule,
    fun cycle hcycle => (ran.gathered cycle hcycle).issues,
    (Ledger.refl env imetas).schedule hschedule,
    hgate⟩

/-- The loop stops when `free` is empty. -/
theorem haveMore_of_free_nil (inv : Inv env ok extra nodes pending st) (hfree : st.free = []) :
    st.haveMore env = some (st, false) := by
  rw [inv.haveMore_eq]
  simp [hfree]

/-- When every thread may start in time, nothing is left in `frontier`. -/
theorem frontier_nil_of_fewEmpty
    (work : getWork irp.ss irp.graph env.numThreads env.concThreads = some (env.ss, imetas))
    (next : st₀.nextBatchTid = env.concThreads) (inv : Inv env ok extra nodes pending st)
    (sequence : InSequence nodes.length pending)
    (ledger : Ledger env imetas (cycles.flatMap Cycle.toRetire) pending)
    (gate : ∀ groups : List ℤ, groups.Nodup → Gate env groups imetas st₀ →
      Gate env groups pending st)
    (few : FewEmpty env.concThreads imetas) (free : st.free = []) : st.frontier = [] := by
  by_contra hne
  obtain ⟨y, hy⟩ := List.exists_mem_of_ne_nil _ hne
  have hpending := (inv.mem_ready.mp (.inr hy)).1
  cases pending with
  | nil => cases hpending
  | cons x pending =>
      have hready := inv.mem_ready.mpr ⟨List.mem_cons_self, sequence.ready_head⟩
      rw [free] at hready
      have hwaits := inv.frontier_ge x (hready.resolve_left List.not_mem_nil)
      obtain ⟨y, hy, htid⟩ := ledger.exists_tid List.mem_cons_self
      have hrange := (tids_of_getWork work).1 y hy
      rw [htid] at hrange
      refine not_fewEmpty gate next ⟨y, hy, htid⟩ hrange hwaits (fun z hz => ?_) few
      obtain rfl | hz := List.mem_cons.mp hz
      · exact le_refl _
      · exact (List.pairwise_cons.mp sequence.tids).1 z hz

/-- The packer issues every instruction of the list exactly once, unless it finds `free` empty
while instructions of threads that may not start are in `frontier`. That never happens when
before each thread with instructions at most `conc_threads` threads have none. -/
theorem issuedOnce (accepted : programToIrp program threads slots = some irp)
    (work : getWork irp.ss irp.graph env.numThreads env.concThreads = some (env.ss, imetas))
    (num : env.numThreads ≤ 100) (short : ∀ x ∈ imetas, x.instidInThread < 100000) :
    (Completes env imetas ↔ NeverStalls env imetas) ∧
      (FewEmpty env.concThreads imetas → Completes env imetas) := by
  obtain ⟨st₀, n, st, cycles, nodes, pending, hnew, hrun, hfree, hnext, inv₀, inv, hsequence,
    hissues, hledger, hgate⟩ := exists_run accepted work num short
  have hcompletes (hfrontier : st.frontier = []) : Completes env imetas := by
    obtain rfl := inv.pending_nil hsequence hfree hfrontier
    refine ⟨st₀, n, st, cycles, hnew, hrun, haveMore_of_free_nil inv hfree, hissues, hledger, hfree,
      hfrontier, fun count hcount => ?_⟩
    obtain ⟨k, hk, rfl⟩ := List.getElem_of_mem hcount
    have hzero := inv.tracks.incount k (inv.tracks.length ▸ hk)
    rw [List.getElem?_eq_getElem hk] at hzero
    exact Option.some.inj hzero
  refine ⟨⟨?_, fun never => hcompletes (never st₀ n st cycles hnew hrun hfree)⟩, fun hfew => ?_⟩
  · rintro ⟨st₁, n₁, st₂, cycles₂, hnew₁, hrun₁, hstop₁, -, -, -, hfrontier, -⟩
      st₃ n₃ st₄ cycles₄ hnew₃ hrun₃ hfree₄
    obtain rfl := Option.some.inj (hnew.symm.trans hnew₁)
    obtain rfl := Option.some.inj (hnew.symm.trans hnew₃)
    have hextra : Extra fun _ _ => False := ⟨fun _ _ => id, fun _ _ => False.elim⟩
    obtain ⟨_, _, -, inv₄, -⟩ := ((rounds_meets hextra n₃ inv₀).of_eq_some hrun₃).steps
    have h₁ := rounds_of_le hrun₁ hstop₁ (Nat.le_max_left n₁ n₃)
    have h₃ := rounds_of_le hrun₃ (haveMore_of_free_nil inv₄ hfree₄) (Nat.le_max_right n₁ n₃)
    obtain ⟨rfl, -⟩ := Prod.mk.inj (Option.some.inj (h₁.symm.trans h₃))
    exact hfrontier
  · exact hcompletes (frontier_nil_of_fewEmpty work hnext inv hsequence hledger hgate hfew hfree)

theorem issuedOnce_fused : ∃ irp ss imetas, programToIrp fused 8 8 = some irp ∧
    getWork irp.ss irp.graph 8 8 = some (ss, imetas) ∧ imetas.length = 17 ∧
    Completes (packerFor 8 ss) imetas := by
  have hcheck : ((programToIrp fused 8 8).bind fun irp => getWork irp.ss irp.graph 8 8).any
      fun work => decide (work.2.length = 17 ∧ FewEmpty 8 work.2 ∧
        ∀ x ∈ work.2, x.instidInThread < 100000) := by
    decide +kernel
  obtain ⟨⟨ss, imetas⟩, hwork, hcheck⟩ := (Option.any_eq_true ..).mp hcheck
  obtain ⟨hlength, hfew, hshort⟩ := of_decide_eq_true hcheck
  obtain ⟨irp, hirp, hwork⟩ := Option.bind_eq_some_iff.mp hwork
  have hnum : (packerFor 8 ss).numThreads ≤ 100 := by
    change 8 ≤ 100
    decide
  exact ⟨irp, ss, imetas, hirp, hwork, hlength,
    (@issuedOnce (packerFor 8 ss) fused 8 8 irp imetas hirp hwork hnum hshort).2 hfew⟩

/-- Three threads of which only the last has an instruction of its own. -/
def late : Program where
  globalStmts := []
  threadStmts := [.tidIfElse [⟨.numberString false [2], .numberString false [3]⟩]
    [[.plain (.variableDefinition .register "x" (.intConstant (.numberString false [3])))]]]

/-- One thread at a time, and the packer never gets to the last one. -/
example : ((programToIrp late 3 3).bind fun irp => getWork irp.ss irp.graph 3 1).any fun work =>
    let env : PackerEnv := { packerFor 1 work.1 with numThreads := 3 }
    (GreedyWorkPacker.new env work.2).any fun st₀ => (rounds env 5 st₀).any fun result =>
      decide (result.1.free = [] ∧ result.1.frontier ≠ []) := by
  decide +kernel

end Packer

end Explore.Takehome
