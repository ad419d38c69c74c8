import Explore.Takehome.Branches

/-!
# What lowering guarantees

Lowering a statement only adds variables to the scratch space, and the instructions that it
adds are typed: vector instructions name whole vectors, scalar ones single words, and each
operand is marked as read or written as the instruction uses it.
-/

namespace Explore.Takehome

section Extends

/-- Every variable keeps its block while others are added. -/
structure ScratchSpace.Extends (ss ss' : ScratchSpace) : Prop where
  varMeta : ∀ name vm, ss.varMetaOf name = some vm → ss'.varMetaOf name = some vm
  size : ss.scratchPtr ≤ ss'.scratchPtr

namespace ScratchSpace

variable {ss ss' ss'' : ScratchSpace} {name : ScratchName} {length slots : ℕ}

theorem Extends.refl (ss : ScratchSpace) : ss.Extends ss := ⟨fun _ _ => id, Nat.le_refl _⟩

theorem Extends.trans (h : ss.Extends ss') (h' : ss'.Extends ss'') : ss.Extends ss'' :=
  ⟨fun name vm hvm => h'.varMeta name vm (h.varMeta name vm hvm), h.size.trans h'.size⟩

/-- An allocation puts a block for a new name at the end. -/
theorem allocScratch_eq_some (h : ss.allocScratch name length slots = some ss') :
    ss.varMetaOf name = none ∧ ss'.varMeta = ⟨name, ss.scratchPtr, length, slots⟩ :: ss.varMeta ∧
      ss'.scratchPtr = ss.scratchPtr + slots * length := by
  unfold allocScratch at h
  split at h
  · simp at h
  · rename_i hfresh
    split at h
    · obtain rfl := Option.some.inj h
      exact ⟨hfresh, rfl, rfl⟩
    · simp at h

theorem allocScratch_isSome : (ss.allocScratch name length slots).isSome ↔
    ss.varMetaOf name = none ∧ ss.scratchPtr + slots * length ≤ SCRATCH_SIZE := by
  unfold allocScratch
  split
  · rename_i vm hvm
    simp [hvm]
  · rename_i hfresh
    split
    · rename_i hfits
      simpa [hfresh] using hfits
    · rename_i hfull
      simpa [hfresh] using hfull

theorem varMetaOf_allocScratch (h : ss.allocScratch name length slots = some ss') :
    ss'.varMetaOf name = some ⟨name, ss.scratchPtr, length, slots⟩ := by
  obtain ⟨-, hmeta, -⟩ := allocScratch_eq_some h
  rw [varMetaOf, hmeta]
  exact List.find?_cons_of_pos (by simp)

theorem varMetaOf_allocScratch_of_ne (h : ss.allocScratch name length slots = some ss')
    {other : ScratchName} (hne : other ≠ name) : ss'.varMetaOf other = ss.varMetaOf other := by
  obtain ⟨-, hmeta, -⟩ := allocScratch_eq_some h
  rw [varMetaOf, hmeta]
  exact List.find?_cons_of_neg (by simpa using hne.symm)

theorem allocScratch_extends (h : ss.allocScratch name length slots = some ss') :
    ss.Extends ss' := by
  obtain ⟨hfresh, -, hsize⟩ := allocScratch_eq_some h
  refine ⟨fun other vm hvm => ?_, by omega⟩
  rw [varMetaOf_allocScratch_of_ne h]
  · exact hvm
  · rintro rfl
    rw [hfresh] at hvm
    simp at hvm

/-- The register of a constant, new or not. -/
theorem allocConst_spec {v : ℤ} {isVector firstTime : Bool}
    (h : ss.allocConst v isVector = some (ss', firstTime)) : ss.Extends ss' ∧
      ss'.hasVariable (.const v isVector) = true := by
  unfold allocConst at h
  split at h
  · rename_i hhas
    obtain ⟨rfl, -⟩ := Prod.mk.inj (Option.some.inj h)
    exact ⟨.refl _, hhas⟩
  · obtain ⟨ss₁, halloc, heq⟩ := Option.map_eq_some_iff.mp h
    obtain ⟨rfl, -⟩ := Prod.mk.inj heq
    exact ⟨allocScratch_extends halloc, by rw [hasVariable, varMetaOf_allocScratch halloc]; rfl⟩

end ScratchSpace

end Extends

section Blocks

/-- Every block is a word or a vector for each slot, with one slot or `slots`. The register of
a constant has one slot, and its length is that of its name. -/
structure VariableMeta.Shaped (slots : ℕ) (vm : VariableMeta) : Prop where
  length : vm.length = 1 ∨ vm.length = VLEN
  slots : vm.slots = 1 ∨ vm.slots = slots
  const : ∀ v isVector, vm.name = .const v isVector →
    vm.slots = 1 ∧ vm.length = if isVector then VLEN else 1

def ScratchSpace.Shaped (slots : ℕ) (ss : ScratchSpace) : Prop :=
  ∀ vm ∈ ss.varMeta, vm.Shaped slots

variable {ss ss' : ScratchSpace} {slots : ℕ}

theorem ScratchSpace.Shaped.of_varMetaOf (h : ss.Shaped slots) {name : ScratchName}
    {vm : VariableMeta} (hvm : ss.varMetaOf name = some vm) : vm.Shaped slots :=
  h vm (List.mem_of_find?_eq_some hvm)

theorem ScratchSpace.Shaped.allocScratch (h : ss.Shaped slots) {name : ScratchName} {length n : ℕ}
    (halloc : ss.allocScratch name length n = some ss')
    (hnew : VariableMeta.Shaped slots ⟨name, ss.scratchPtr, length, n⟩) : ss'.Shaped slots := by
  obtain ⟨-, hmeta, -⟩ := allocScratch_eq_some halloc
  intro vm hvm
  rw [hmeta] at hvm
  obtain rfl | hvm := List.mem_cons.mp hvm
  · exact hnew
  · exact h vm hvm

theorem ScratchSpace.Shaped.allocConst (h : ss.Shaped slots) {v : ℤ} {isVector firstTime : Bool}
    (halloc : ss.allocConst v isVector = some (ss', firstTime)) : ss'.Shaped slots := by
  unfold ScratchSpace.allocConst at halloc
  split at halloc
  · obtain ⟨rfl, -⟩ := Prod.mk.inj (Option.some.inj halloc)
    exact h
  · obtain ⟨ss₁, hscratch, heq⟩ := Option.map_eq_some_iff.mp halloc
    obtain ⟨rfl, -⟩ := Prod.mk.inj heq
    refine h.allocScratch hscratch ⟨?_, Or.inl rfl, fun v' isVector' hname => ?_⟩
    · cases isVector
      · exact Or.inl rfl
      · exact Or.inr rfl
    · obtain ⟨rfl, rfl⟩ := ScratchName.const.inj hname
      exact ⟨rfl, rfl⟩

theorem registerVariable_spec (h : ss.Shaped slots) {varType : VarType} {n : ℕ} {name : String}
    (hn : n = 1 ∨ n = slots) (hreg : registerVariable ss varType n name = some ss') :
    ss.Extends ss' ∧ ss'.Shaped slots := by
  have hconst (length : ℕ) : ∀ v isVector,
      (⟨.var name, ss.scratchPtr, length, n⟩ : VariableMeta).name = .const v isVector →
        n = 1 ∧ length = if isVector then VLEN else 1 := by simp
  cases varType with
  | register =>
      exact ⟨ScratchSpace.allocScratch_extends hreg,
        h.allocScratch hreg ⟨Or.inl rfl, hn, hconst 1⟩⟩
  | registers =>
      exact ⟨ScratchSpace.allocScratch_extends hreg,
        h.allocScratch hreg ⟨Or.inr rfl, hn, hconst VLEN⟩⟩

end Blocks

section Typed

/-- An operand for a whole vector. -/
def VectorOp (ss : ScratchSpace) (isRead : Bool) (op : LogicalOp) : Prop :=
  ∃ name vm, op = .reg ⟨name, .vector, isRead⟩ ∧ ss.varMetaOf name = some vm ∧
    vm.isVector = true

/-- An operand for a word, which is the first one of its variable unless that is a vector. -/
def WordOp (ss : ScratchSpace) (isRead : Bool) (op : LogicalOp) : Prop :=
  ∃ name offset vm, op = .reg ⟨name, .word offset, isRead⟩ ∧ ss.varMetaOf name = some vm ∧
    (offset ≠ 0 → vm.isVector = true)

/-- The operands fit the instruction. -/
inductive Typed (ss : ScratchSpace) : LogicalInstruction → Prop
  | alu {op : AluOp} {dest a b : LogicalOp} : WordOp ss false dest → WordOp ss true a →
      WordOp ss true b → Typed ss (.alu op dest a b)
  | vselect {dest cond a b : LogicalOp} : VectorOp ss false dest → VectorOp ss true cond →
      VectorOp ss true a → VectorOp ss true b → Typed ss (.vselect dest cond a b)
  | const {dest : LogicalOp} {val : ℤ} : WordOp ss false dest → Typed ss (.const dest val)
  | load {dest addr : LogicalOp} : WordOp ss false dest → WordOp ss true addr →
      Typed ss (.load dest addr)
  | vload {dest addr : LogicalOp} : VectorOp ss false dest → WordOp ss true addr →
      Typed ss (.vload dest addr)
  | store {addr src : LogicalOp} : WordOp ss true addr → WordOp ss false src →
      Typed ss (.store addr src)
  | vstore {addr src : LogicalOp} : WordOp ss true addr → VectorOp ss false src →
      Typed ss (.vstore addr src)
  | valu {op : AluOp} {dest a b : LogicalOp} : VectorOp ss false dest → VectorOp ss true a →
      VectorOp ss true b → Typed ss (.valu op dest a b)
  | multiplyAdd {dest a b c : LogicalOp} : VectorOp ss false dest → VectorOp ss true a →
      VectorOp ss true b → VectorOp ss true c → Typed ss (.multiplyAdd dest a b c)
  | vbroadcast {dest src : LogicalOp} : VectorOp ss false dest → WordOp ss true src →
      Typed ss (.vbroadcast dest src)

variable {ss ss' : ScratchSpace} {isRead : Bool} {op : LogicalOp} {linst : LogicalInstruction}

theorem VectorOp.mono (h : VectorOp ss isRead op) (hext : ss.Extends ss') :
    VectorOp ss' isRead op := by
  obtain ⟨name, vm, rfl, hvm, hvec⟩ := h
  exact ⟨name, vm, rfl, hext.varMeta name vm hvm, hvec⟩

theorem WordOp.mono (h : WordOp ss isRead op) (hext : ss.Extends ss') : WordOp ss' isRead op := by
  obtain ⟨name, offset, vm, rfl, hvm, hvec⟩ := h
  exact ⟨name, offset, vm, rfl, hext.varMeta name vm hvm, hvec⟩

theorem Typed.mono (h : Typed ss linst) (hext : ss.Extends ss') : Typed ss' linst := by
  cases h with
  | alu hd ha hb => exact .alu (hd.mono hext) (ha.mono hext) (hb.mono hext)
  | vselect hd hc ha hb =>
      exact .vselect (hd.mono hext) (hc.mono hext) (ha.mono hext) (hb.mono hext)
  | const hd => exact .const (hd.mono hext)
  | load hd ha => exact .load (hd.mono hext) (ha.mono hext)
  | vload hd ha => exact .vload (hd.mono hext) (ha.mono hext)
  | store ha hs => exact .store (ha.mono hext) (hs.mono hext)
  | vstore ha hs => exact .vstore (ha.mono hext) (hs.mono hext)
  | valu hd ha hb => exact .valu (hd.mono hext) (ha.mono hext) (hb.mono hext)
  | multiplyAdd hd ha hb hc =>
      exact .multiplyAdd (hd.mono hext) (ha.mono hext) (hb.mono hext) (hc.mono hext)
  | vbroadcast hd hs => exact .vbroadcast (hd.mono hext) (hs.mono hext)

/-- An operand for a variable or a constant of the given kind. -/
def WholeOp (ss : ScratchSpace) (isVector isRead : Bool) (op : LogicalOp) : Prop :=
  if isVector then VectorOp ss isRead op else WordOp ss isRead op

theorem WholeOp.mono {isVector : Bool} (h : WholeOp ss isVector isRead op) (hext : ss.Extends ss') :
    WholeOp ss' isVector isRead op := by
  cases isVector
  · exact WordOp.mono h hext
  · exact VectorOp.mono h hext

theorem wholeOp_of_varMetaOf {name : ScratchName} {vm : VariableMeta} {isVector : Bool}
    (hvm : ss.varMetaOf name = some vm) (hvec : vm.isVector = isVector) (isRead : Bool) :
    WholeOp ss isVector isRead (wholeVariable name isVector isRead) := by
  cases isVector
  · exact ⟨name, 0, vm, rfl, hvm, by simp⟩
  · exact ⟨name, vm, rfl, hvm, hvec⟩

end Typed

namespace Lowered

theorem of_guard {p : Prop} [Decidable p] {u : Unit} (h : guard p = some u) : p := by
  by_contra hp
  simp [hp] at h

/-- A state of lowering whose setup is typed. -/
structure Sound (slots : ℕ) (st : Lowered) : Prop where
  shaped : st.ss.Shaped slots
  setup : ∀ linst ∈ st.setup, Typed st.ss linst

/-- What a step of lowering keeps. -/
structure Step (slots : ℕ) (st st' : Lowered) : Prop where
  extends_ : st.ss.Extends st'.ss
  sound : Sound slots st'

variable {slots : ℕ} {st st' st'' : Lowered} {op : LogicalOp}

theorem Step.refl (h : Sound slots st) : Step slots st st := ⟨.refl _, h⟩

theorem Step.trans (h : Step slots st st') (h' : Step slots st' st'') : Step slots st st'' :=
  ⟨h.extends_.trans h'.extends_, h'.sound⟩

theorem constSetup_typed {ss : ScratchSpace} (h : ss.Shaped slots) {v : ℤ} {isVector : Bool}
    (hhas : ss.hasVariable (.const v isVector) = true) :
    ∀ linst ∈ constSetup v isVector, Typed ss linst := by
  obtain ⟨vm, hvm⟩ := Option.isSome_iff_exists.mp hhas
  obtain ⟨-, hlength⟩ := (h.of_varMetaOf hvm).const v isVector (ScratchSpace.name_of_varMetaOf hvm)
  have hword (isRead : Bool) : WordOp ss isRead (scalarWithinVector (.const v isVector) 0 isRead) :=
    ⟨_, 0, vm, rfl, hvm, by simp⟩
  intro linst hlinst
  cases isVector with
  | false =>
      obtain rfl := List.mem_singleton.mp hlinst
      exact .const (hword false)
  | true =>
      have hvec : vm.isVector = true := by
        rw [VariableMeta.isVector, hlength]
        rfl
      obtain rfl | hlinst := List.mem_cons.mp hlinst
      · exact .const (hword false)
      · obtain rfl := List.mem_singleton.mp hlinst
        exact .vbroadcast ⟨_, vm, rfl, hvm, hvec⟩ (hword true)

theorem handleConst_spec (h : Sound slots st) {v : ℤ} {isVector : Bool}
    (heq : st.handleConst v isVector = some (st', op)) :
    Step slots st st' ∧ WholeOp st'.ss isVector true op := by
  obtain ⟨⟨ss, firstTime⟩, halloc, hret⟩ := Option.bind_eq_some_iff.mp heq
  obtain ⟨rfl, rfl⟩ := Prod.mk.inj (Option.some.inj hret)
  obtain ⟨hext, hhas⟩ := ScratchSpace.allocConst_spec halloc
  have hshaped := h.shaped.allocConst halloc
  obtain ⟨vm, hvm⟩ := Option.isSome_iff_exists.mp hhas
  obtain ⟨-, hlength⟩ :=
    (hshaped.of_varMetaOf hvm).const v isVector (ScratchSpace.name_of_varMetaOf hvm)
  refine ⟨⟨hext, hshaped, fun linst hlinst => ?_⟩, wholeOp_of_varMetaOf hvm ?_ true⟩
  · cases firstTime with
    | false => exact (h.setup linst hlinst).mono hext
    | true =>
        obtain hlinst | hlinst := List.mem_append.mp hlinst
        · exact (h.setup linst hlinst).mono hext
        · exact constSetup_typed hshaped hhas linst hlinst
  · rw [VariableMeta.isVector, hlength]
    cases isVector <;> rfl

theorem checkIsVector_spec {name : String} {isVector : Bool}
    (heq : st.checkIsVector name isVector = some ()) :
    ∃ vm, st.ss.varMetaOf (.var name) = some vm ∧ vm.isVector = isVector := by
  obtain ⟨vm, hvm, hguard⟩ := Option.bind_eq_some_iff.mp heq
  refine ⟨vm, hvm, ?_⟩
  by_contra hne
  simp [hne] at hguard

theorem readVariable_spec {name : String} {isVector : Bool}
    (heq : st.readVariable name isVector = some op) : WholeOp st.ss isVector true op := by
  obtain ⟨_, hcheck, hret⟩ := Option.bind_eq_some_iff.mp heq
  obtain rfl := Option.some.inj hret
  obtain ⟨vm, hvm, hvec⟩ := checkIsVector_spec hcheck
  exact wholeOp_of_varMetaOf hvm hvec true

theorem addrOf_spec (h : Sound slots st) {original : VarOrConstant} {isVector : Bool}
    (heq : st.addrOf original isVector = some (st', op)) :
    Step slots st st' ∧ WholeOp st'.ss isVector true op := by
  cases original with
  | var name =>
      obtain ⟨op', hread, hret⟩ := Option.bind_eq_some_iff.mp heq
      obtain ⟨rfl, rfl⟩ := Prod.mk.inj (Option.some.inj hret)
      exact ⟨.refl h, readVariable_spec hread⟩
  | const intconst => exact handleConst_spec h heq

theorem wordOf_spec {rname : String} {index : Option IntConstantExpr}
    (heq : st.wordOf rname index = some op) : WordOp st.ss true op := by
  obtain ⟨vm, hvm, heq⟩ := Option.bind_eq_some_iff.mp heq
  dsimp only at heq
  split at heq
  · rename_i hvec
    split at heq
    · obtain rfl := Option.some.inj heq
      exact ⟨_, _, vm, rfl, hvm, fun _ => hvec⟩
    · simp at heq
  · obtain ⟨_, -, hret⟩ := Option.bind_eq_some_iff.mp heq
    obtain rfl := Option.some.inj hret
    exact ⟨_, 0, vm, rfl, hvm, by simp⟩

/-- The instructions of a statement, with the state after it. -/
abbrev Adds (slots : ℕ) (st st' : Lowered) (instrs : List LogicalInstruction) : Prop :=
  Step slots st st' ∧ ∀ linst ∈ instrs, Typed st'.ss linst

theorem adds_single (h : Step slots st st') {linst : LogicalInstruction} (ht : Typed st'.ss linst) :
    Adds slots st st' [linst] := by
  refine ⟨h, fun linst' hmem => ?_⟩
  rw [List.mem_singleton.mp hmem]
  exact ht

theorem handleSelect_spec (h : Sound slots st) {lname : String} {vm : VariableMeta}
    (hvm : st.ss.varMetaOf (.var lname) = some vm) (hvec : vm.isVector = true) {cond : Condition}
    {ifTrue ifFalse : VarOrConstant} {instrs : List LogicalInstruction}
    (heq : st.handleSelect lname cond ifTrue ifFalse = some (st', instrs)) :
    Adds slots st st' instrs := by
  have hdest : VectorOp st.ss false (wholeVariable (.var lname) true false) :=
    ⟨_, vm, rfl, hvm, hvec⟩
  cases cond with
  | var name =>
      obtain ⟨caddr, hcaddr, heq⟩ := Option.bind_eq_some_iff.mp heq
      obtain ⟨⟨st₁, lbranch⟩, htrue, heq⟩ := Option.bind_eq_some_iff.mp heq
      obtain ⟨⟨st₂, rbranch⟩, hfalse, hret⟩ := Option.bind_eq_some_iff.mp heq
      obtain ⟨rfl, rfl⟩ := Prod.mk.inj (Option.some.inj hret)
      obtain ⟨hstep₁, hlbranch⟩ := addrOf_spec h htrue
      obtain ⟨hstep₂, hrbranch⟩ := addrOf_spec hstep₁.sound hfalse
      have hstep := hstep₁.trans hstep₂
      have hcond : VectorOp st.ss true caddr := readVariable_spec hcaddr
      exact adds_single hstep (.vselect (hdest.mono hstep.extends_) (hcond.mono hstep.extends_)
        (VectorOp.mono hlbranch hstep₂.extends_) hrbranch)
  | cmp left op right =>
      obtain ⟨⟨st₁, l1addr⟩, hleft, heq⟩ := Option.bind_eq_some_iff.mp heq
      obtain ⟨⟨st₂, r1addr⟩, hright, heq⟩ := Option.bind_eq_some_iff.mp heq
      obtain ⟨caddr, hcaddr, heq⟩ := Option.bind_eq_some_iff.mp heq
      obtain ⟨⟨st₃, lbranch⟩, htrue, heq⟩ := Option.bind_eq_some_iff.mp heq
      obtain ⟨⟨st₄, rbranch⟩, hfalse, heq⟩ := Option.bind_eq_some_iff.mp heq
      obtain ⟨_, -, hret⟩ := Option.bind_eq_some_iff.mp heq
      obtain ⟨rfl, rfl⟩ := Prod.mk.inj (Option.some.inj hret)
      obtain ⟨hstep₁, hl1⟩ := addrOf_spec h hleft
      obtain ⟨hstep₂, hr1⟩ := addrOf_spec hstep₁.sound hright
      obtain ⟨hstep₃, hlbranch⟩ := addrOf_spec hstep₂.sound htrue
      obtain ⟨hstep₄, hrbranch⟩ := addrOf_spec hstep₃.sound hfalse
      have hlast := hstep₃.trans hstep₄
      have hstep := (hstep₁.trans hstep₂).trans hlast
      have hcond : VectorOp st₂.ss true caddr := readVariable_spec hcaddr
      refine ⟨hstep, fun linst hlinst => ?_⟩
      obtain rfl | hlinst := List.mem_cons.mp hlinst
      · exact .valu (hdest.mono hstep.extends_)
          (VectorOp.mono hl1 (hstep₂.trans hlast).extends_) (VectorOp.mono hr1 hlast.extends_)
      · obtain rfl := List.mem_singleton.mp hlinst
        exact .vselect (hdest.mono hstep.extends_) (hcond.mono hlast.extends_)
          (VectorOp.mono hlbranch hstep₄.extends_) hrbranch

/-- The words of two vectors, one after the other. -/
theorem loads_typed {ss : ScratchSpace} {lname rname : String} {lvm rvm : VariableMeta}
    (hl : ss.varMetaOf (.var lname) = some lvm) (hlvec : lvm.isVector = true)
    (hr : ss.varMetaOf (.var rname) = some rvm) (hrvec : rvm.isVector = true) :
    ∀ linst ∈ (List.finRange 8).map fun i => Inst.load (scalarWithinVector (.var lname) i false)
      (scalarWithinVector (.var rname) i true), Typed ss linst := by
  intro linst hlinst
  obtain ⟨i, -, rfl⟩ := List.mem_map.mp hlinst
  exact .load ⟨_, i, lvm, rfl, hl, fun _ => hlvec⟩ ⟨_, i, rvm, rfl, hr, fun _ => hrvec⟩

theorem handleVariableAssignment_spec (h : Sound slots st) {lname : String} {rvalue : ValueExpr}
    {instrs : List LogicalInstruction}
    (heq : st.handleVariableAssignment lname rvalue = some (st', instrs)) :
    Adds slots st st' instrs := by
  obtain ⟨vm, hvm, heq⟩ := Option.bind_eq_some_iff.mp heq
  have hdest : WholeOp st.ss vm.isVector false (wholeVariable (.var lname) vm.isVector false) :=
    wholeOp_of_varMetaOf hvm rfl false
  cases rvalue with
  | derefIndividualWords rname =>
      obtain ⟨_, hguard, heq⟩ := Option.bind_eq_some_iff.mp heq
      obtain ⟨_, hcheck, hret⟩ := Option.bind_eq_some_iff.mp heq
      obtain ⟨rfl, rfl⟩ := Prod.mk.inj (Option.some.inj hret)
      obtain ⟨rvm, hrvm, hrvec⟩ := checkIsVector_spec hcheck
      exact ⟨.refl h, loads_typed hvm (of_guard hguard) hrvm hrvec⟩
  | derefVariable rname =>
      obtain ⟨addr, haddr, hret⟩ := Option.bind_eq_some_iff.mp heq
      obtain ⟨rfl, rfl⟩ := Prod.mk.inj (Option.some.inj hret)
      refine adds_single (.refl h) ?_
      cases hvec : vm.isVector with
      | false =>
          rw [hvec] at hdest
          exact .load hdest (readVariable_spec haddr)
      | true =>
          rw [hvec] at hdest
          exact .vload hdest (readVariable_spec haddr)
  | derefConstant intconst =>
      obtain ⟨⟨st₁, addr⟩, hconst, hret⟩ := Option.bind_eq_some_iff.mp heq
      obtain ⟨rfl, rfl⟩ := Prod.mk.inj (Option.some.inj hret)
      obtain ⟨hstep, haddr⟩ := handleConst_spec h hconst
      have hdest := hdest.mono hstep.extends_
      refine adds_single hstep ?_
      cases hvec : vm.isVector with
      | false =>
          rw [hvec] at hdest
          exact .load hdest haddr
      | true =>
          rw [hvec] at hdest
          exact .vload hdest haddr
  | binOp left op right =>
      obtain ⟨⟨st₁, r1⟩, hleft, heq⟩ := Option.bind_eq_some_iff.mp heq
      obtain ⟨⟨st₂, r2⟩, hright, hret⟩ := Option.bind_eq_some_iff.mp heq
      obtain ⟨rfl, rfl⟩ := Prod.mk.inj (Option.some.inj hret)
      obtain ⟨hstep₁, hr1⟩ := addrOf_spec h hleft
      obtain ⟨hstep₂, hr2⟩ := addrOf_spec hstep₁.sound hright
      have hdest := hdest.mono (hstep₁.trans hstep₂).extends_
      have hr1 := hr1.mono hstep₂.extends_
      refine adds_single (hstep₁.trans hstep₂) ?_
      cases hvec : vm.isVector with
      | false =>
          rw [hvec] at hdest hr1 hr2
          exact .alu hdest hr1 hr2
      | true =>
          rw [hvec] at hdest hr1 hr2
          exact .valu hdest hr1 hr2
  | multAdd factor1 factor2 add =>
      obtain ⟨_, hguard, heq⟩ := Option.bind_eq_some_iff.mp heq
      obtain ⟨r1, hread, heq⟩ := Option.bind_eq_some_iff.mp heq
      obtain ⟨⟨st₁, r2⟩, hfactor2, heq⟩ := Option.bind_eq_some_iff.mp heq
      obtain ⟨⟨st₂, r3⟩, hadd, hret⟩ := Option.bind_eq_some_iff.mp heq
      obtain ⟨rfl, rfl⟩ := Prod.mk.inj (Option.some.inj hret)
      obtain ⟨hstep₁, hr2⟩ := addrOf_spec h hfactor2
      obtain ⟨hstep₂, hr3⟩ := addrOf_spec hstep₁.sound hadd
      have hstep := hstep₁.trans hstep₂
      have hr1 : VectorOp st.ss true r1 := readVariable_spec hread
      rw [of_guard hguard] at hdest ⊢
      exact adds_single hstep (.multiplyAdd (VectorOp.mono hdest hstep.extends_)
        (hr1.mono hstep.extends_) (VectorOp.mono hr2 hstep₂.extends_) hr3)
  | select cond ifTrue ifFalse =>
      obtain ⟨_, hguard, heq⟩ := Option.bind_eq_some_iff.mp heq
      exact handleSelect_spec h hvm (of_guard hguard) heq
  | intConstant intconst =>
      dsimp only at heq
      split at heq
      · rename_i hvec
        obtain ⟨⟨st₁, src⟩, hconst, hret⟩ := Option.bind_eq_some_iff.mp heq
        obtain ⟨rfl, rfl⟩ := Prod.mk.inj (Option.some.inj hret)
        obtain ⟨hstep, hsrc⟩ := handleConst_spec h hconst
        rw [hvec] at hdest ⊢
        exact adds_single hstep (.vbroadcast (VectorOp.mono hdest hstep.extends_) hsrc)
      · rename_i hvec
        obtain ⟨rfl, rfl⟩ := Prod.mk.inj (Option.some.inj heq)
        rw [Bool.eq_false_iff.mpr hvec] at hdest ⊢
        exact adds_single (.refl h) (.const hdest)
  | «variable» rname index =>
      obtain ⟨rhs, hrhs, hret⟩ := Option.bind_eq_some_iff.mp heq
      obtain ⟨rfl, rfl⟩ := Prod.mk.inj (Option.some.inj hret)
      have hrhs := wordOf_spec hrhs
      refine adds_single (.refl h) ?_
      cases hvec : vm.isVector with
      | false =>
          rw [hvec] at hdest
          exact .alu hdest hrhs hrhs
      | true =>
          rw [hvec] at hdest
          exact .vbroadcast hdest hrhs

theorem handleStoreMemory_spec (h : Sound slots st) {lname : String} {value : ValueExpr}
    {instrs : List LogicalInstruction}
    (heq : st.handleStoreMemory lname value = some (st', instrs)) :
    Adds slots st st' instrs := by
  cases value with
  | «variable» rname index =>
      obtain ⟨vm, hvm, heq⟩ := Option.bind_eq_some_iff.mp heq
      obtain ⟨addr, haddr, hret⟩ := Option.bind_eq_some_iff.mp heq
      obtain ⟨rfl, rfl⟩ := Prod.mk.inj (Option.some.inj hret)
      have hsrc := wholeOp_of_varMetaOf hvm rfl false
      refine adds_single (.refl h) ?_
      cases hvec : vm.isVector with
      | false =>
          rw [hvec] at hsrc
          exact .store (readVariable_spec haddr) hsrc
      | true =>
          rw [hvec] at hsrc
          exact .vstore (readVariable_spec haddr) hsrc
  | _ => simp [handleStoreMemory] at heq

end Lowered

section Statements

variable {slots n : ℕ} {ss ss' : ScratchSpace}

theorem foldlM_registerVariable_spec (h : ss.Shaped slots) {varType : VarType} {names : List String}
    (hn : n = 1 ∨ n = slots)
    (heq : names.foldlM (registerVariable · varType n) ss = some ss') :
    ss.Extends ss' ∧ ss'.Shaped slots := by
  induction names generalizing ss with
  | nil =>
      obtain rfl := Option.some.inj heq
      exact ⟨.refl _, h⟩
  | cons name names ih =>
      rw [List.foldlM_cons] at heq
      obtain ⟨ss₁, hreg, hrest⟩ := Option.bind_eq_some_iff.mp heq
      obtain ⟨hext₁, hshaped₁⟩ := registerVariable_spec h hn hreg
      obtain ⟨hext₂, hshaped₂⟩ := ih hshaped₁ hrest
      exact ⟨hext₁.trans hext₂, hshaped₂⟩

/-- A plain statement adds typed instructions. -/
theorem lowerPlain_spec (h : ss.Shaped slots) {stmt : PlainStmt} {lowered : Lowered}
    {instrs : List LogicalInstruction} (hn : n = 1 ∨ n = slots)
    (heq : lowerPlain ss n stmt = some (lowered, instrs)) :
    ss.Extends lowered.ss ∧ lowered.Sound slots ∧ ∀ linst ∈ instrs, Typed lowered.ss linst := by
  have hsound {ss : ScratchSpace} (h : ss.Shaped slots) : Lowered.Sound slots ⟨ss, []⟩ :=
    ⟨h, List.forall_mem_nil _⟩
  cases stmt with
  | variableDeclaration varType name otherNames =>
      obtain ⟨ss₁, hreg, hret⟩ := Option.bind_eq_some_iff.mp heq
      obtain ⟨rfl, rfl⟩ := Prod.mk.inj (Option.some.inj hret)
      obtain ⟨hext, hshaped⟩ := foldlM_registerVariable_spec h hn hreg
      exact ⟨hext, hsound hshaped, List.forall_mem_nil _⟩
  | variableDefinition varType name value =>
      obtain ⟨ss₁, hreg, hassign⟩ := Option.bind_eq_some_iff.mp heq
      obtain ⟨hext, hshaped⟩ := registerVariable_spec h hn hreg
      obtain ⟨hstep, htyped⟩ := Lowered.handleVariableAssignment_spec (hsound hshaped) hassign
      exact ⟨hext.trans hstep.extends_, hstep.sound, htyped⟩
  | loadVariable name value =>
      obtain ⟨hstep, htyped⟩ := Lowered.handleVariableAssignment_spec (hsound h) heq
      exact ⟨hstep.extends_, hstep.sound, htyped⟩
  | storeMemory name value =>
      obtain ⟨hstep, htyped⟩ := Lowered.handleStoreMemory_spec (hsound h) heq
      exact ⟨hstep.extends_, hstep.sound, htyped⟩
  | pause =>
      obtain ⟨rfl, rfl⟩ := Prod.mk.inj (Option.some.inj heq)
      exact ⟨.refl _, hsound h, List.forall_mem_nil _⟩

end Statements

section Programs

/-- All instructions of a graph are typed, over blocks of the right shape. -/
structure WellTyped (slots : ℕ) (st : ScratchSpace × InstrGraph) : Prop where
  shaped : st.1.Shaped slots
  globalimetas : ∀ linst ∈ st.2.globalimetas, Typed st.1 linst
  imetas : ∀ entry ∈ st.2.imetas, Typed st.1 entry.1

variable {slots : ℕ} {st st' : ScratchSpace × InstrGraph} {irp irp' : IRPipeline}

theorem WellTyped.lowerTagged (h : WellTyped slots st) {tagged : PlainStmt × TidSet}
    (heq : lowerTagged slots st tagged = some st') : WellTyped slots st' := by
  obtain ⟨⟨lowered, instrs⟩, hlower, hret⟩ := Option.bind_eq_some_iff.mp heq
  obtain rfl := Option.some.inj hret
  obtain ⟨hext, hsound, hinstrs⟩ := lowerPlain_spec h.shaped (Or.inr rfl) hlower
  refine ⟨hsound.shaped, fun linst hlinst => ?_, fun entry hentry => ?_⟩
  · obtain hlinst | hlinst := List.mem_append.mp hlinst
    · exact (h.globalimetas linst hlinst).mono hext
    · exact hsound.setup linst hlinst
  · obtain hentry | hentry := List.mem_append.mp hentry
    · exact (h.imetas entry hentry).mono hext
    · obtain ⟨linst, hlinst, rfl⟩ := List.mem_map.mp hentry
      exact hinstrs linst hlinst

theorem WellTyped.foldlM_lowerTagged {xs : List (PlainStmt × TidSet)} (h : WellTyped slots st)
    (heq : xs.foldlM (Takehome.lowerTagged slots) st = some st') : WellTyped slots st' := by
  induction xs generalizing st with
  | nil =>
      obtain rfl := Option.some.inj heq
      exact h
  | cons tagged xs ih =>
      rw [List.foldlM_cons] at heq
      obtain ⟨mid, hstep, hrest⟩ := Option.bind_eq_some_iff.mp heq
      exact ih (h.lowerTagged hstep) hrest

theorem WellTyped.handlePlain {concThreads : ℕ} (h : WellTyped slots irp.core) {stmt : PlainStmt}
    (heq : irp.handlePlain concThreads true stmt = some irp') : WellTyped slots irp'.core := by
  obtain ⟨⟨lowered, instrs⟩, hlower, hret⟩ := Option.bind_eq_some_iff.mp heq
  obtain rfl := Option.some.inj hret
  obtain ⟨hext, hsound, hinstrs⟩ := lowerPlain_spec h.shaped (Or.inl rfl) hlower
  rw [IRPipeline.foldl_add_global, IRPipeline.foldl_add_global]
  refine ⟨hsound.shaped, fun linst hlinst => ?_, fun entry hentry => ?_⟩
  · obtain hlinst | hlinst := List.mem_append.mp hlinst
    · obtain hlinst | hlinst := List.mem_append.mp hlinst
      · exact (h.globalimetas linst hlinst).mono hext
      · exact hsound.setup linst hlinst
    · exact hinstrs linst hlinst
  · exact (h.imetas entry hentry).mono hext

theorem WellTyped.foldlM_handlePlain {concThreads : ℕ} {stmts : List PlainStmt}
    (h : WellTyped slots irp.core)
    (heq : stmts.foldlM (IRPipeline.handlePlain concThreads true) irp = some irp') :
    WellTyped slots irp'.core := by
  induction stmts generalizing irp with
  | nil =>
      obtain rfl := Option.some.inj heq
      exact h
  | cons stmt stmts ih =>
      rw [List.foldlM_cons] at heq
      obtain ⟨mid, hstep, hrest⟩ := Option.bind_eq_some_iff.mp heq
      exact ih (h.handlePlain hstep) hrest

theorem wellTyped_new : WellTyped slots IRPipeline.new.core :=
  ⟨List.forall_mem_nil _, List.forall_mem_nil _, List.forall_mem_nil _⟩

/-- A program is lowered in two phases: the global statements, then the plain statements of the
threads, each for the set in force. -/
theorem map_core_programToIrp (program : Program) (numThreads concThreads : ℕ) :
    (programToIrp program numThreads concThreads).map IRPipeline.core =
      (program.globalStmts.foldlM (IRPipeline.handlePlain concThreads true) .new).bind fun irp =>
        (inForceStmts numThreads INFINITE_SET program.threadStmts).foldlM (lowerTagged concThreads)
          irp.core := by
  unfold programToIrp
  cases hglobal : program.globalStmts.foldlM (IRPipeline.handlePlain concThreads true) .new with
  | none => rfl
  | some irp =>
      obtain ⟨-, hcontext⟩ := foldlM_handlePlain_global hglobal
      obtain ⟨context, heq⟩ := irp.handleStmts_eq numThreads concThreads program.threadStmts
      rw [IRPipeline.inForce, hcontext] at heq
      change (irp.handleStmts numThreads concThreads program.threadStmts).map IRPipeline.core = _
      rw [heq, Option.map_map]
      exact Option.map_id'

/-- An accepted program is lowered to typed instructions. -/
theorem wellTyped_of_programToIrp {program : Program} {numThreads concThreads : ℕ}
    (accepted : programToIrp program numThreads concThreads = some irp) :
    WellTyped concThreads irp.core := by
  have hcore := map_core_programToIrp program numThreads concThreads
  rw [accepted, Option.map_some] at hcore
  obtain ⟨irp₀, hglobal, hthread⟩ := Option.bind_eq_some_iff.mp hcore.symm
  exact (wellTyped_new.foldlM_handlePlain hglobal).foldlM_lowerTagged hthread

end Programs

end Explore.Takehome
