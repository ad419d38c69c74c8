import Explore.Takehome.PackerSplits

/-!
# The loops of the packer

`__split_valu_into_alu` and `__split_add_into_imm` loop over `free` while they change it.
What they have not come to yet stays free, and so does what is already taken for the
bundle, since they leave that alone. Every replacement makes the pending instructions
lighter, so that a cycle that replaces nothing can be told from one that does.
-/

namespace Explore.Takehome

open Pending GreedyWorkPacker Relation

section Weight

/-- More than the weight of all pieces together. -/
def Inst.weight {α : Type} : Inst α → ℕ
  | .valu .. | .multiplyAdd .. | .vbroadcast .. => 33
  | .alu .. => 2
  | _ => 1

def weight : List InstrMeta → ℕ
  | [] => 0
  | x :: xs => x.lin.weight + weight xs

variable {env : PackerEnv} {clen : ℕ} {x : InstrMeta} {pieces new : List InstrMeta}

@[simp] theorem weight_cons (x : InstrMeta) (xs : List InstrMeta) :
    weight (x :: xs) = x.lin.weight + weight xs := rfl

@[simp] theorem weight_append (xs ys : List InstrMeta) :
    weight (xs ++ ys) = weight xs + weight ys := by
  induction xs with
  | nil => exact (Nat.zero_add _).symm
  | cons x xs ih => rw [List.cons_append, weight_cons, weight_cons, ih, Nat.add_assoc]

theorem weight_map {ι : Type} (n : ℕ) {f : ι → InstrMeta} (h : ∀ i, (f i).lin.weight = n)
    (is : List ι) : weight (is.map f) = is.length * n := by
  induction is with
  | nil => exact (Nat.zero_mul n).symm
  | cons i is ih => rw [List.map_cons, weight_cons, h i, ih, List.length_cons, Nat.succ_mul,
    Nat.add_comm]

theorem Inst.weight_pos (lin : LogicalInstruction) : 0 < lin.weight := by
  cases lin <;> simp [weight]

/-- Pieces are lighter than the whole. -/
theorem Pieces.weight_lt (h : Pieces env clen x pieces new) : weight pieces < x.lin.weight := by
  have hlength : (List.finRange 8).length = 8 := List.length_finRange
  cases h with
  | valu lin =>
      rw [lin, lanesOf, weight_map 2 fun _ => rfl, hlength]
      exact show 8 * 2 < 33 by decide
  | broadcast lin _ =>
      rw [lin, lanesOf, weight_map 2 fun _ => rfl, hlength]
      exact show 8 * 2 < 33 by decide
  | vectorImm lin _ =>
      rw [lin, lanesOf, weight_map 1 fun _ => rfl, hlength]
      exact show 8 * 1 < 33 by decide
  | scalarImm lin _ =>
      rw [lin]
      exact Nat.lt_succ_self 1
  | multiplyAdd lin _ =>
      rw [lin, mulHalves, addHalves, weight_append, weight_map 2 fun _ => rfl,
        weight_map 2 fun _ => rfl, hlength]
      exact show 8 * 2 + 8 * 2 < 33 by decide

theorem SplitStep.weight_lt {p q : List InstrMeta × List InstrMeta} (h : SplitStep env p q) :
    weight q.2 < weight p.2 := by
  obtain ⟨-, split⟩ := h
  have := split.weight_lt
  simp only [weight_append, weight_cons]
  omega

theorem weight_le_of_splits {p q : List InstrMeta × List InstrMeta}
    (h : ReflTransGen (SplitStep env) p q) : weight q.2 ≤ weight p.2 := by
  induction h with
  | refl => exact Nat.le_refl _
  | tail _ step ih => exact step.weight_lt.le.trans ih

end Weight

variable {env : PackerEnv} {ok idle : Prop} {extra : InstrMeta → InstrMeta → Prop}
  {start : List InstrMeta × List InstrMeta} {st₀ st st' : GreedyWorkPacker} {x : InstrMeta}
  {kept kept' taken todo others : List InstrMeta}

/-- The state `st` comes from `st₀`, whose pending instructions are `start`, by splits; what
is `kept` is free. If nothing is split, `idle` holds. -/
structure AfterSplits (env : PackerEnv) (ok : Prop) (extra : InstrMeta → InstrMeta → Prop)
    (idle : Prop) (start : List InstrMeta × List InstrMeta) (st₀ : GreedyWorkPacker)
    (kept : List InstrMeta)
    (st : GreedyWorkPacker) : Prop where
  splits : ∃ nodes pending, ReflTransGen (SplitStep env) start (nodes, pending) ∧
    Inv env ok extra nodes pending st ∧ (st = st₀ ∧ idle ∨ weight pending < weight start.2)
  nextBatchTid : st.nextBatchTid = st₀.nextBatchTid
  kept : ∀ y ∈ kept, y ∈ st.free

namespace AfterSplits

theorem refl (inv : Inv env ok extra start.1 start.2 st₀) (hidle : idle)
    (free : ∀ y ∈ kept, y ∈ st₀.free) : AfterSplits env ok extra idle start st₀ kept st₀ :=
  ⟨⟨start.1, start.2, .refl, inv, .inl ⟨rfl, hidle⟩⟩, rfl, free⟩

theorem mono (h : AfterSplits env ok extra idle start st₀ kept st) (sub : ∀ y ∈ kept', y ∈ kept) :
    AfterSplits env ok extra idle start st₀ kept' st :=
  ⟨h.splits, h.nextBatchTid, fun y hy => h.kept y (sub y hy)⟩

/-- One more split, of an instruction that is kept no longer. -/
theorem step (h : AfterSplits env ok extra idle start st₀ kept st) {o : Option GreedyWorkPacker}
    (spec : ∀ nodes pending, Inv env ok extra nodes pending st →
      Meets ok o (SplitPost env ok extra nodes pending st x))
    (sub : ∀ y ∈ kept', y ∈ kept ∧ y ≠ x) :
    Meets ok o (AfterSplits env ok extra idle start st₀ kept') := by
  obtain ⟨nodes, pending, hsplits, inv, -⟩ := h.splits
  refine (spec nodes pending inv).mono ?_
  rintro st' ⟨nodes', pending', hstep, inv', hnext, hkept⟩
  refine ⟨⟨nodes', pending', hsplits.tail hstep, inv', .inr ?_⟩, hnext.trans h.nextBatchTid,
    fun y hy => hkept y (h.kept y (sub y hy).1) (sub y hy).2⟩
  exact hstep.weight_lt.trans_le (weight_le_of_splits hsplits)

/-- One more split, or none. -/
theorem stepOrNot (h : AfterSplits env ok extra idle start st₀ kept st)
    {o : Option (GreedyWorkPacker × Bool)}
    (spec : ∀ nodes pending, Inv env ok extra nodes pending st →
      Meets ok o (SplitOrNot env ok extra nodes pending st x))
    (sub : ∀ y ∈ kept', y ∈ kept ∧ y ≠ x) :
    Meets ok o fun result => AfterSplits env ok extra idle start st₀ kept' result.1 := by
  obtain ⟨nodes, pending, hsplits, inv, -⟩ := h.splits
  refine (spec nodes pending inv).mono ?_
  rintro ⟨st', split⟩ (heq | ⟨-, nodes', pending', hstep, inv', hnext, hkept⟩)
  · obtain ⟨rfl, -⟩ := Prod.mk.inj heq
    exact h.mono fun y hy => (sub y hy).1
  · refine ⟨⟨nodes', pending', hsplits.tail hstep, inv', .inr ?_⟩, hnext.trans h.nextBatchTid,
      fun y hy => hkept y (h.kept y (sub y hy).1) (sub y hy).2⟩
    exact hstep.weight_lt.trans_le (weight_le_of_splits hsplits)

theorem free_nodup (h : AfterSplits env ok extra idle start st₀ kept st) : st.free.Nodup := by
  obtain ⟨nodes, pending, -, inv, -⟩ := h.splits
  exact (List.nodup_append.mp inv.nodup).1

end AfterSplits

section Deferred

/-- What a loop over instructions that are not taken keeps. -/
structure Waiting (env : PackerEnv) (ok : Prop) (extra : InstrMeta → InstrMeta → Prop)
    (idle : Prop) (start : List InstrMeta × List InstrMeta) (st₀ : GreedyWorkPacker)
    (taken waiting : List InstrMeta) (st : GreedyWorkPacker) : Prop where
  after : AfterSplits env ok extra idle start st₀ (taken ++ waiting) st
  distinct : waiting.Nodup

theorem Waiting.skip (h : Waiting env ok extra idle start st₀ taken (x :: todo) st) :
    Waiting env ok extra idle start st₀ taken todo st := by
  refine ⟨h.after.mono fun y hy => ?_, (List.nodup_cons.mp h.distinct).2⟩
  rcases List.mem_append.mp hy with hy | hy
  · exact List.mem_append_left _ hy
  · exact List.mem_append_right _ (List.mem_cons_of_mem x hy)

theorem Waiting.perm (h : Waiting env ok extra idle start st₀ taken todo st)
    (perm : others.Perm todo) : Waiting env ok extra idle start st₀ taken others st := by
  refine ⟨h.after.mono fun y hy => ?_, perm.nodup_iff.mpr h.distinct⟩
  rcases List.mem_append.mp hy with hy | hy
  · exact List.mem_append_left _ hy
  · exact List.mem_append_right _ (perm.mem_iff.mp hy)

theorem Waiting.free (h : Waiting env ok extra idle start st₀ taken (x :: todo) st) : x ∈ st.free :=
  h.after.kept x (List.mem_append_right _ List.mem_cons_self)

/-- What is kept when the next instruction is split. -/
theorem Waiting.sub (h : Waiting env ok extra idle start st₀ taken (x :: todo) st)
    (hx : x ∉ taken) :
    ∀ y ∈ taken ++ todo, y ∈ taken ++ x :: todo ∧ y ≠ x := by
  intro y hy
  rcases List.mem_append.mp hy with hy | hy
  · exact ⟨List.mem_append_left _ hy, fun heq => hx (heq ▸ hy)⟩
  · exact ⟨List.mem_append_right _ (List.mem_cons_of_mem x hy),
      fun heq => (List.nodup_cons.mp h.distinct).1 (heq ▸ hy)⟩

/-- A loop over what was put off. -/
theorem splitDeferred_meets {toSplit : ℕ}
    {splitOne : GreedyWorkPacker → InstrMeta → Option (GreedyWorkPacker × Bool)}
    (spec : ∀ x ∈ todo, ∀ st nodes pending, Inv env ok extra nodes pending st → x ∈ st.free →
      Meets ok (splitOne st x) (SplitOrNot env ok extra nodes pending st x))
    (untaken : ∀ x ∈ todo, x ∉ taken) {acc : GreedyWorkPacker × ℕ}
    (h : Waiting env ok extra idle start st₀ taken (todo ++ others) acc.1) :
    Meets ok (todo.foldlM (splitDeferred toSplit splitOne) acc) fun acc' =>
      Waiting env ok extra idle start st₀ taken others acc'.1 := by
  refine (Meets.foldlM (fun rest acc' => (∀ x ∈ rest, x ∈ todo) ∧
    Waiting env ok extra idle start st₀ taken (rest ++ others) acc'.1)
    (fun x rest acc' => ?_) todo acc
    ⟨fun _ hx => hx, h⟩).mono fun acc' h' => (List.nil_append others) ▸ h'.2
  rintro ⟨hrest, hwaiting⟩
  have hrest' : ∀ y ∈ rest, y ∈ todo := fun y hy => hrest y (List.mem_cons_of_mem x hy)
  have hx : x ∈ todo := hrest x List.mem_cons_self
  rw [List.cons_append] at hwaiting
  rw [splitDeferred]
  split
  · exact ⟨hrest', hwaiting.skip⟩
  · refine (hwaiting.after.stepOrNot (fun nodes pending inv =>
      spec x hx acc'.1 nodes pending inv hwaiting.free) (hwaiting.sub (untaken x hx))).bind ?_
    rintro ⟨st', split⟩ hafter
    exact ⟨hrest', hafter, (List.nodup_cons.mp hwaiting.distinct).2⟩

end Deferred

section SplitValu

/-- The invariant of the loop of `__split_valu_into_alu`. -/
structure Visiting (env : PackerEnv) (ok : Prop) (extra : InstrMeta → InstrMeta → Prop)
    (idle : Prop) (start : List InstrMeta × List InstrMeta) (st₀ : GreedyWorkPacker)
    (taken todo : List InstrMeta) (loop : SplitLoop) : Prop where
  waiting : Waiting env ok extra idle start st₀ taken
    (loop.mulAdds ++ loop.broadcasts ++ todo) loop.st
  mulAdds : ∀ y ∈ loop.mulAdds, y ∉ taken ∧ ∃ dest a b c, y.lin = .multiplyAdd dest a b c
  broadcasts : ∀ y ∈ loop.broadcasts, y ∉ taken ∧ ∃ dest src, y.lin = .vbroadcast dest src

/-- What is visited is free and comes once. -/
theorem waiting_visits (h : AfterSplits env ok extra idle start st₀ taken st) :
    Waiting env ok extra idle start st₀ taken (env.visits st.free) st := by
  have hsub := env.visits_subperm st.free
  refine ⟨⟨h.splits, h.nextBatchTid, fun y hy => ?_⟩, ?_⟩
  · rcases List.mem_append.mp hy with hy | hy
    · exact h.kept y hy
    · exact hsub.subset hy
  · obtain ⟨visited, hperm, hsublist⟩ := hsub
    exact hperm.nodup_iff.mp (h.free_nodup.sublist hsublist)

theorem splitVisit_meets (hextra : Extra extra) {toSplit : ℕ} {loop : SplitLoop}
    (h : Visiting env ok extra idle start st₀ taken (x :: todo) loop) :
    Meets ok (splitVisit env toSplit taken loop x) fun loop' =>
      Visiting env ok extra idle start st₀ taken todo loop' := by
  have hnext : Waiting env ok extra idle start st₀ taken
      (x :: (loop.mulAdds ++ loop.broadcasts ++ todo)) loop.st :=
    h.waiting.perm List.perm_middle.symm
  have hskip : Visiting env ok extra idle start st₀ taken todo loop :=
    ⟨hnext.skip, h.mulAdds, h.broadcasts⟩
  rw [splitVisit]
  split
  · exact hskip
  split
  · exact hskip
  rename_i htaken
  obtain ⟨hengine, hx⟩ : x.lin.engine = .valu ∧ x ∉ taken := by simpa using htaken
  split
  · rename_i dest a b c lin
    refine ⟨hnext.perm ?_, fun y hy => ?_, h.broadcasts⟩
    · simp
    · rcases List.mem_append.mp hy with hy | hy
      · exact h.mulAdds y hy
      · obtain rfl := List.mem_singleton.mp hy
        exact ⟨hx, dest, a, b, c, lin⟩
  · rename_i dest src lin
    refine ⟨hnext.perm ?_, h.mulAdds, fun y hy => ?_⟩
    · rw [← List.append_assoc]
      exact (List.perm_append_singleton x _).append_right todo
    · rcases List.mem_append.mp hy with hy | hy
      · exact h.broadcasts y hy
      · obtain rfl := List.mem_singleton.mp hy
        exact ⟨hx, dest, src, lin⟩
  · rename_i hmul hbroadcast
    obtain ⟨op, dest, a, b, lin⟩ : ∃ op dest a b, x.lin = .valu op dest a b := by
      cases hlin : x.lin with
      | valu op dest a b => exact ⟨op, dest, a, b, rfl⟩
      | multiplyAdd dest a b c => exact absurd hlin (hmul dest a b c)
      | vbroadcast dest src => exact absurd hlin (hbroadcast dest src)
      | _ => simp [hlin, Inst.engine] at hengine
    refine (hnext.after.step (fun nodes pending inv =>
      splitOneFreeValuToAlu_meets hextra inv hnext.free lin) (hnext.sub hx)).bind fun st' h' => ?_
    exact ⟨⟨h', (List.nodup_cons.mp hnext.distinct).2⟩, h.mulAdds, h.broadcasts⟩

/-- `__split_valu_into_alu` leaves alone what is taken for the bundle. -/
theorem splitValuIntoAlu_meets (hextra : Extra extra) (aluSlots : ℕ)
    (h : AfterSplits env ok extra idle start st₀ taken st) :
    Meets ok (st.splitValuIntoAlu env aluSlots taken)
      (AfterSplits env ok extra idle start st₀ taken) := by
  refine (Meets.foldlM (Visiting env ok extra idle start st₀ taken)
    (fun x todo loop => splitVisit_meets hextra) (env.visits st.free) ⟨st, 0, [], []⟩
    ⟨waiting_visits h, List.forall_mem_nil _, List.forall_mem_nil _⟩).bind fun loop hloop => ?_
  have hwaiting : Waiting env ok extra idle start st₀ taken
      (loop.broadcasts ++ (loop.mulAdds ++ []))
      loop.st := hloop.waiting.perm (by simpa using List.perm_append_comm)
  refine (splitDeferred_meets (fun x hx st nodes pending inv hfree => ?_)
    (fun x hx => (hloop.broadcasts x hx).1) hwaiting).bind
    fun acc hacc => ?_
  · obtain ⟨-, dest, src, lin⟩ := hloop.broadcasts x hx
    exact splitOneFreeBroadcast_meets hextra inv hfree lin
  refine (splitDeferred_meets (fun x hx st nodes pending inv hfree => ?_)
    (fun x hx => (hloop.mulAdds x hx).1) hacc).bind fun acc' hacc' => ?_
  · obtain ⟨-, dest, a, b, c, lin⟩ := hloop.mulAdds x hx
    exact splitOneFreeMultiplyAdd_meets hextra inv hfree lin
  · exact hacc'.after.mono fun y hy => List.mem_append_left [] hy

end SplitValu

section SplitImm

theorem immVisit_meets (hextra : Extra extra) {toSplit : ℕ} {loop : ImmLoop}
    (h : Waiting env ok extra idle start st₀ taken (x :: todo) loop.st) :
    Meets ok (immVisit env toSplit taken loop x) fun loop' =>
      Waiting env ok extra idle start st₀ taken todo loop'.st := by
  rw [immVisit]
  split
  · exact h.skip
  split
  · exact h.skip
  rename_i hx
  split
  · rename_i imm
    refine (h.after.stepOrNot (fun nodes pending inv =>
      splitOneVectorImmAdd_meets hextra inv h.free imm) (h.sub hx)).bind ?_
    rintro ⟨st', replaced⟩ h'
    exact ⟨h', (List.nodup_cons.mp h.distinct).2⟩
  split
  · rename_i imm
    refine (h.after.step (fun nodes pending inv =>
      convertOneScalarImmAdd_meets hextra inv h.free imm) (h.sub hx)).bind fun st' h' => ?_
    exact ⟨h', (List.nodup_cons.mp h.distinct).2⟩
  · exact h.skip

/-- `__split_add_into_imm` leaves alone what is taken for the bundle. -/
theorem splitAddIntoImm_meets (hextra : Extra extra) (flowSlots : ℕ)
    (h : AfterSplits env ok extra idle start st₀ taken st) :
    Meets ok (st.splitAddIntoImm env flowSlots taken) fun result =>
      AfterSplits env ok extra idle start st₀ taken result.1 := by
  refine (Meets.foldlM (fun todo (loop : ImmLoop) =>
    Waiting env ok extra idle start st₀ taken todo loop.st)
    (fun x todo loop => immVisit_meets hextra) (env.visits st.free) ⟨st, 0, []⟩
    (waiting_visits h)).bind fun loop hloop => ?_
  exact hloop.after.mono fun y hy => List.mem_append_left [] hy

end SplitImm

end Explore.Takehome
