import Explore.Lib.Capacity
import Explore.Takehome.Typing

/-!
# Lowering with more slots

A program lowered for several concurrent threads has the same blocks as for one, except that a
variable of the threads has a slot for each of them. So lowering for several threads adds the
same instructions as for one, or runs out of scratch space.
-/

namespace Explore.Takehome

open Capacity

def VariableMeta.key (vm : VariableMeta) : ScratchName × ℕ := (vm.name, vm.length)

/-- The same variables in the same order, in `extra` more words. -/
structure SameBlocks (extra : ℕ) (one many : ScratchSpace) : Prop where
  keys : many.varMeta.map VariableMeta.key = one.varMeta.map VariableMeta.key
  size : many.scratchPtr = one.scratchPtr + extra

namespace SameBlocks

variable {extra : ℕ} {one many one' many' : ScratchSpace}

theorem refl (ss : ScratchSpace) : SameBlocks 0 ss ss := ⟨rfl, rfl⟩

/-- The length of a variable is a function of the keys. -/
theorem length_varMetaOf (ss : ScratchSpace) (name : ScratchName) :
    (ss.varMetaOf name).map VariableMeta.length =
      ((ss.varMeta.map VariableMeta.key).find? fun key => key.1 = name).map Prod.snd := by
  rw [List.find?_map, Option.map_map]
  rfl

theorem varMetaOf_eq_none (h : SameBlocks extra one many) {name : ScratchName}
    (hnone : one.varMetaOf name = none) : many.varMetaOf name = none := by
  have hlength := length_varMetaOf many name
  rw [h.keys, ← length_varMetaOf one name, hnone] at hlength
  exact Option.map_eq_none_iff.mp hlength

theorem varMetaOf_eq_some (h : SameBlocks extra one many) {name : ScratchName} {vm : VariableMeta}
    (hsome : one.varMetaOf name = some vm) :
    ∃ vm', many.varMetaOf name = some vm' ∧ vm'.isVector = vm.isVector := by
  have hlengths := length_varMetaOf many name
  rw [h.keys, ← length_varMetaOf one name, hsome] at hlengths
  obtain ⟨vm', hmany, hlength⟩ := Option.map_eq_some_iff.mp hlengths
  refine ⟨vm', hmany, ?_⟩
  rw [VariableMeta.isVector, VariableMeta.isVector, hlength]

theorem hasVariable (h : SameBlocks extra one many) (name : ScratchName) :
    many.hasVariable name = one.hasVariable name := by
  unfold ScratchSpace.hasVariable
  cases hone : one.varMetaOf name with
  | none => rw [h.varMetaOf_eq_none hone]
  | some vm =>
      obtain ⟨vm', hmany, -⟩ := h.varMetaOf_eq_some hone
      rw [hmany]
      rfl

/-- A new block of `slots` slots in the one, and of a slot in the other. -/
theorem allocScratch (h : SameBlocks extra one many) {name : ScratchName} {length slots : ℕ}
    (hslots : 1 ≤ slots) (hone : one.allocScratch name length 1 = some one')
    (hmany : many.allocScratch name length slots = some many') :
    SameBlocks (extra + (slots - 1) * length) one' many' := by
  obtain ⟨-, hmeta, hsize⟩ := ScratchSpace.allocScratch_eq_some hone
  obtain ⟨-, hmeta', hsize'⟩ := ScratchSpace.allocScratch_eq_some hmany
  obtain ⟨more, rfl⟩ := Nat.exists_eq_add_of_le' hslots
  refine ⟨?_, ?_⟩
  · rw [hmeta, hmeta', List.map_cons, List.map_cons, h.keys]
    rfl
  · rw [hsize, hsize', h.size, Nat.add_sub_cancel, Nat.add_mul]
    omega

end SameBlocks

namespace SameBlocks

variable {extra : ℕ} {ss : ScratchSpace} {m : Option ScratchSpace}

/-- The same allocation for one slot and for `slots`. -/
theorem fits_allocScratch
    (h : Fits SCRATCH_SIZE ScratchSpace.size (SameBlocks extra) extra ss m) {name : ScratchName}
    {length slots : ℕ} (hslots : 1 ≤ slots) {ss' : ScratchSpace}
    (hone : ss.allocScratch name length 1 = some ss') :
    Fits SCRATCH_SIZE ScratchSpace.size (SameBlocks (extra + (slots - 1) * length))
      (extra + (slots - 1) * length) ss' (m.bind (·.allocScratch name length slots)) := by
  obtain ⟨hfresh, -, hsize⟩ := ScratchSpace.allocScratch_eq_some hone
  obtain ⟨many, rfl, hsame⟩ | ⟨rfl, hover⟩ := h
  · cases hmany : many.allocScratch name length slots with
    | some many' => exact Or.inl ⟨many', hmany, hsame.allocScratch hslots hone hmany⟩
    | none =>
        refine Or.inr ⟨hmany, ?_⟩
        by_contra hfits
        have hsome : (many.allocScratch name length slots).isSome := by
          refine ScratchSpace.allocScratch_isSome.mpr ⟨hsame.varMetaOf_eq_none hfresh, ?_⟩
          obtain ⟨more, rfl⟩ := Nat.exists_eq_add_of_le' hslots
          rw [ScratchSpace.size, Nat.add_sub_cancel] at hfits
          rw [hsame.size, Nat.add_mul]
          omega
        rw [hmany] at hsome
        simp at hsome
  · refine Or.inr ⟨rfl, ?_⟩
    rw [ScratchSpace.size] at hover ⊢
    omega

theorem follows_allocConst
    (h : Fits SCRATCH_SIZE ScratchSpace.size (SameBlocks extra) extra ss m) (v : ℤ)
    (isVector : Bool) :
    Follows SCRATCH_SIZE ScratchSpace.size (SameBlocks extra) extra ss (ss.allocConst v isVector)
      (m.bind (·.allocConst v isVector)) := by
  intro ss' firstTime heq
  refine ⟨(ScratchSpace.allocConst_spec heq).1.size, ?_⟩
  unfold ScratchSpace.allocConst at heq
  split at heq
  · rename_i hhas
    obtain ⟨rfl, rfl⟩ := Prod.mk.inj (Option.some.inj heq)
    refine ⟨m, ?_, h⟩
    obtain ⟨many, rfl, hsame⟩ | ⟨rfl, -⟩ := h
    · exact if_pos ((hsame.hasVariable _).trans hhas)
    · rfl
  · rename_i hhas
    obtain ⟨ss₁, hscratch, hpair⟩ := Option.map_eq_some_iff.mp heq
    obtain ⟨rfl, rfl⟩ := Prod.mk.inj hpair
    have hfits := fits_allocScratch h (Nat.le_refl 1) hscratch
    rw [Nat.sub_self, Nat.zero_mul, Nat.add_zero] at hfits
    refine ⟨_, ?_, hfits⟩
    obtain ⟨many, rfl, hsame⟩ | ⟨rfl, -⟩ := h
    · exact if_neg fun hhas' => hhas ((hsame.hasVariable _).symm.trans hhas')
    · rfl

end SameBlocks

namespace Lowered

/-- Two states of lowering with the same blocks and the same setup. -/
structure Along (extra : ℕ) (st st' : Lowered) : Prop where
  blocks : SameBlocks extra st.ss st'.ss
  setup : st'.setup = st.setup

/-- The words in use. -/
def used (st : Lowered) : ℕ := st.ss.size

/-- The state for several slots that corresponds to `st`. -/
abbrev Fit (extra : ℕ) (st : Lowered) (m : Option Lowered) : Prop :=
  Fits SCRATCH_SIZE used (Along extra) extra st m

/-- Lowering for several slots does what it does for one. -/
abbrev Follow {α : Type} (extra : ℕ) (st : Lowered) (one many : Option (Lowered × α)) : Prop :=
  Follows SCRATCH_SIZE used (Along extra) extra st one many

variable {extra : ℕ} {st st' : Lowered} {m : Option Lowered}

theorem Along.checkIsVector (h : Along extra st st') (name : String) (expectVector : Bool) :
    st'.checkIsVector name expectVector = st.checkIsVector name expectVector := by
  unfold Lowered.checkIsVector
  cases hone : st.ss.varMetaOf (.var name) with
  | none => rw [h.blocks.varMetaOf_eq_none hone]
  | some vm =>
      obtain ⟨vm', hmany, hkind⟩ := h.blocks.varMetaOf_eq_some hone
      simp only [hmany, Option.bind_eq_bind, Option.bind_some]
      rw [hkind]

theorem Along.readVariable (h : Along extra st st') (name : String) (isVector : Bool) :
    st'.readVariable name isVector = st.readVariable name isVector := by
  unfold Lowered.readVariable
  rw [h.checkIsVector]

theorem Along.wordOf (h : Along extra st st') (rname : String) (index : Option IntConstantExpr) :
    st'.wordOf rname index = st.wordOf rname index := by
  unfold Lowered.wordOf
  cases hone : st.ss.varMetaOf (.var rname) with
  | none => rw [h.blocks.varMetaOf_eq_none hone]
  | some vm =>
      obtain ⟨vm', hmany, hkind⟩ := h.blocks.varMetaOf_eq_some hone
      simp only [hmany, Option.bind_eq_bind, Option.bind_some]
      rw [hkind]

/-- A step that depends on a declaration through its kind only. -/
theorem follows_kind {α : Type} {f : VariableMeta → Option (Lowered × α)}
    {g : Lowered → VariableMeta → Option (Lowered × α)} (h : Fit extra st m) (name : String)
    (hg : ∀ st' vm vm', vm'.isVector = vm.isVector → g st' vm' = g st' vm)
    (next : ∀ vm, st.ss.varMetaOf (.var name) = some vm →
      Follow extra st (f vm) (m.bind fun st' => g st' vm)) :
    Follow extra st ((st.ss.varMetaOf (.var name)).bind f)
      (m.bind fun st' => (st'.ss.varMetaOf (.var name)).bind (g st')) := by
  cases hone : st.ss.varMetaOf (.var name) with
  | none => exact .none _
  | some vm =>
      have hnext := next vm hone
      obtain ⟨st', rfl, hst'⟩ | ⟨rfl, -⟩ := h
      · obtain ⟨vm', hmany, hkind⟩ := hst'.blocks.varMetaOf_eq_some hone
        rw [Option.bind_some, Option.bind_some, hmany, Option.bind_some, hg st' vm vm' hkind]
        exact hnext
      · exact hnext

/-- A constant takes the same words however many slots the threads have. -/
theorem follows_handleConst (h : Fit extra st m) (v : ℤ) (isVector : Bool) :
    Follow extra st (st.handleConst v isVector) (m.bind (·.handleConst v isVector)) := by
  intro st₁ op heq
  obtain ⟨⟨ss, firstTime⟩, halloc, hret⟩ := Option.bind_eq_some_iff.mp heq
  obtain ⟨rfl, rfl⟩ := Prod.mk.inj (Option.some.inj hret)
  obtain ⟨st', rfl, hst'⟩ | ⟨rfl, hover⟩ := h
  · obtain ⟨hle, many, hmany, hfits⟩ :=
      SameBlocks.follows_allocConst (m := some st'.ss) (Or.inl ⟨_, rfl, hst'.blocks⟩) v isVector
        ss firstTime halloc
    rw [Option.bind_some] at hmany
    refine ⟨hle, many.map fun ss =>
      ⟨ss, if firstTime then st.setup ++ constSetup v isVector else st.setup⟩, ?_, ?_⟩
    · rw [Option.bind_some, handleConst, hmany, hst'.setup]
      cases many <;> rfl
    · obtain ⟨ss', rfl, hsame⟩ | ⟨rfl, hover⟩ := hfits
      · exact Or.inl ⟨_, rfl, hsame, rfl⟩
      · exact Or.inr ⟨rfl, hover⟩
  · have hle := (ScratchSpace.allocConst_spec halloc).1.size
    refine ⟨hle, none, rfl, Or.inr ⟨rfl, ?_⟩⟩
    exact Nat.lt_of_lt_of_le hover (Nat.add_le_add_right hle extra)

theorem follows_addrOf (h : Fit extra st m) (original : VarOrConstant) (expectVector : Bool) :
    Follow extra st (st.addrOf original expectVector)
    (m.bind (·.addrOf original expectVector)) := by
  cases original with
  | var name =>
      refine .read h (fun st' hst' => hst'.readVariable name expectVector) fun addr _ => ?_
      exact .pure h addr
  | const intconst => exact follows_handleConst h intconst.toInt expectVector

theorem follows_handleSelect (h : Fit extra st m) (lname : String) (cond : Condition)
    (ifTrue ifFalse : VarOrConstant) :
    Follow extra st (st.handleSelect lname cond ifTrue ifFalse)
      (m.bind (·.handleSelect lname cond ifTrue ifFalse)) := by
  cases cond with
  | var name =>
      refine .read h (fun st' hst' => hst'.readVariable name true) fun caddr _ => ?_
      refine (follows_addrOf h ifTrue true).bind fun st₁ lbranch m₁ h₁ => ?_
      refine (follows_addrOf h₁ ifFalse true).bind fun st₂ rbranch m₂ h₂ => ?_
      exact .pure h₂ _
  | cmp left op right =>
      refine (follows_addrOf h left true).bind fun st₁ l1addr m₁ h₁ => ?_
      refine (follows_addrOf h₁ right true).bind fun st₂ r1addr m₂ h₂ => ?_
      refine .read h₂ (fun st' hst' => hst'.readVariable lname true) fun caddr _ => ?_
      refine (follows_addrOf h₂ ifTrue true).bind fun st₃ lbranch m₃ h₃ => ?_
      refine (follows_addrOf h₃ ifFalse true).bind fun st₄ rbranch m₄ h₄ => ?_
      refine .check fun _ _ => ?_
      exact .pure h₄ _

theorem follows_handleVariableAssignment (h : Fit extra st m) (lname : String)
    (rvalue : ValueExpr) :
    Follow extra st (st.handleVariableAssignment lname rvalue)
      (m.bind (·.handleVariableAssignment lname rvalue)) := by
  refine follows_kind h lname (fun st' vm vm' hkind => by simp only [hkind]) fun vm hvm => ?_
  generalize vm.isVector = isVector
  cases rvalue with
  | derefIndividualWords rname =>
      refine .check fun _ _ => ?_
      refine .read h (fun st' hst' => hst'.checkIsVector rname true) fun _ _ => ?_
      exact .pure h _
  | derefVariable rname =>
      refine .read h (fun st' hst' => hst'.readVariable rname false) fun addr _ => ?_
      exact .pure h _
  | derefConstant intconst =>
      refine (follows_handleConst h intconst.toInt false).bind fun st₁ addr m₁ h₁ => ?_
      exact .pure h₁ _
  | binOp left op right =>
      refine (follows_addrOf h left isVector).bind fun st₁ r1 m₁ h₁ => ?_
      refine (follows_addrOf h₁ right isVector).bind fun st₂ r2 m₂ h₂ => ?_
      exact .pure h₂ _
  | multAdd factor1 factor2 add =>
      refine .check fun _ _ => ?_
      refine .read h (fun st' hst' => hst'.readVariable factor1 true) fun r1 _ => ?_
      refine (follows_addrOf h factor2 true).bind fun st₁ r2 m₁ h₁ => ?_
      refine (follows_addrOf h₁ add true).bind fun st₂ r3 m₂ h₂ => ?_
      exact .pure h₂ _
  | select cond ifTrue ifFalse =>
      refine .check fun _ _ => ?_
      exact follows_handleSelect h lname cond ifTrue ifFalse
  | intConstant intconst =>
      cases isVector with
      | true =>
          refine (follows_handleConst h intconst.toInt false).bind fun st₁ src m₁ h₁ => ?_
          exact .pure h₁ _
      | false => exact .pure h _
  | «variable» rname index =>
      refine .read h (fun st' hst' => hst'.wordOf rname index) fun rhs _ => ?_
      exact .pure h _

theorem follows_handleStoreMemory (h : Fit extra st m) (lname : String) (value : ValueExpr) :
    Follow extra st (st.handleStoreMemory lname value)
    (m.bind (·.handleStoreMemory lname value)) := by
  cases value with
  | «variable» rname index =>
      refine follows_kind h rname (fun st' vm vm' hkind => by simp only [hkind]) fun vm hvm => ?_
      refine .read h (fun st' hst' => hst'.readVariable lname false) fun addr _ => ?_
      exact .pure h _
  | _ => exact .none _

end Lowered

section Statements

/-- The words that a variable of this type takes in each slot. -/
def VarType.length : VarType → ℕ
  | .register => 1
  | .registers => VLEN

/-- The words that a statement declares in each slot. -/
def PlainStmt.declaredWords : PlainStmt → ℕ
  | .variableDeclaration varType _ otherNames => (otherNames.length + 1) * varType.length
  | .variableDefinition varType _ _ => varType.length
  | _ => 0

variable {extra slots : ℕ} {ss ss' : ScratchSpace} {m : Option ScratchSpace}

/-- The scratch space for several slots that corresponds to `ss`. -/
abbrev ScratchSpace.Fit (extra : ℕ) (ss : ScratchSpace) (m : Option ScratchSpace) : Prop :=
  Fits SCRATCH_SIZE ScratchSpace.size (SameBlocks extra) extra ss m

theorem fits_registerVariable (h : ss.Fit extra m) (hslots : 1 ≤ slots) {varType : VarType}
    {name : String} (hone : registerVariable ss varType 1 name = some ss') :
    ss'.Fit (extra + (slots - 1) * varType.length)
      (m.bind (registerVariable · varType slots name)) := by
  cases varType with
  | register => exact SameBlocks.fits_allocScratch h hslots hone
  | registers => exact SameBlocks.fits_allocScratch h hslots hone

theorem fits_foldlM_registerVariable (h : ss.Fit extra m) (hslots : 1 ≤ slots) {varType : VarType}
    {names : List String} (hone : names.foldlM (registerVariable · varType 1) ss = some ss') :
    ss'.Fit (extra + (slots - 1) * (names.length * varType.length))
      (m.bind fun ss => names.foldlM (registerVariable · varType slots) ss) := by
  induction names generalizing ss m extra with
  | nil =>
      obtain rfl := Option.some.inj hone
      simpa using h
  | cons name names ih =>
      rw [List.foldlM_cons] at hone
      obtain ⟨ss₁, hreg, hrest⟩ := Option.bind_eq_some_iff.mp hone
      have hih := ih (fits_registerVariable h hslots hreg) hrest
      rw [Option.bind_assoc, Nat.add_assoc, ← Nat.mul_add, Nat.add_comm varType.length,
        ← Nat.succ_mul] at hih
      exact hih

/-- A state at the start of a statement. -/
theorem Lowered.fit_start (h : ss.Fit extra m) :
    Lowered.Fit extra ⟨ss, []⟩ (m.map fun ss => ⟨ss, []⟩) := by
  obtain ⟨many, rfl, hsame⟩ | ⟨rfl, hover⟩ := h
  · exact Or.inl ⟨_, rfl, hsame, rfl⟩
  · exact Or.inr ⟨rfl, hover⟩

/-- A statement lowered for several slots adds the same instructions, if it fits. -/
theorem lowerPlain_follows (h : ss.Fit extra m) (hslots : 1 ≤ slots) {stmt : PlainStmt}
    {lowered : Lowered} {instrs : List LogicalInstruction}
    (hone : lowerPlain ss 1 stmt = some (lowered, instrs)) :
    ∃ many, m.bind (lowerPlain · slots stmt) = many.map (·, instrs) ∧
      Lowered.Fit (extra + (slots - 1) * stmt.declaredWords) lowered many := by
  cases stmt with
  | variableDeclaration varType name otherNames =>
      obtain ⟨ss₁, hreg, hret⟩ := Option.bind_eq_some_iff.mp hone
      obtain ⟨rfl, rfl⟩ := Prod.mk.inj (Option.some.inj hret)
      refine ⟨_, ?_, Lowered.fit_start (fits_foldlM_registerVariable h hslots hreg)⟩
      rw [Option.map_map, Option.map_bind]
      simp only [Function.comp_def, Option.map_eq_bind]
      rfl
  | variableDefinition varType name value =>
      obtain ⟨ss₁, hreg, hassign⟩ := Option.bind_eq_some_iff.mp hone
      have hstart := Lowered.fit_start (fits_registerVariable h hslots hreg)
      obtain ⟨-, many, hmany, hfits⟩ :=
        Lowered.follows_handleVariableAssignment hstart name value lowered instrs hassign
      refine ⟨many, ?_, hfits⟩
      rw [← hmany, Option.bind_map, Option.bind_assoc]
      rfl
  | loadVariable name value =>
      obtain ⟨-, many, hmany, hfits⟩ :=
        Lowered.follows_handleVariableAssignment
          (Lowered.fit_start h) name value lowered instrs hone
      refine ⟨many, ?_, hfits⟩
      rw [← hmany, Option.bind_map]
      rfl
  | storeMemory name value =>
      obtain ⟨-, many, hmany, hfits⟩ :=
        Lowered.follows_handleStoreMemory (Lowered.fit_start h) name value lowered instrs hone
      refine ⟨many, ?_, hfits⟩
      rw [← hmany, Option.bind_map]
      rfl
  | pause =>
      obtain ⟨rfl, rfl⟩ := Prod.mk.inj (Option.some.inj hone)
      refine ⟨_, ?_, Lowered.fit_start h⟩
      cases m <;> rfl

end Statements

end Explore.Takehome
