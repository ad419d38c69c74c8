import Explore.Takehome.Meaning
import Explore.Takehome.Start

/-!
# Machines that agree with an interpretation

A machine agrees with a state of the interpretation, in a slot, when each variable that holds
something has those words there, the memory is the same, and the constants that are set up are
in their registers. An assignment gives new words to one variable and keeps the others, since
their blocks are disjoint.
-/

namespace Explore.Takehome

section Blocks

variable {ss : ScratchSpace} {slot : ℤ} {name name' : ScratchName} {vm vm' : VariableMeta}
  {m m' m'' : Machine} {a addr i : ℕ}

theorem mem_words : a ∈ vm.words ↔ vm.addr ≤ a ∧ a < vm.addr + vm.size := by
  rw [VariableMeta.words, List.mem_range'_1]

theorem notMem_words (hvm : ss.varMetaOf name = some vm) (hvm' : ss.varMetaOf name' = some vm')
    (hne : name ≠ name') (ha : a ∈ vm.words) : a ∉ vm'.words := by
  have hne' : vm.name ≠ vm'.name := by
    rw [ScratchSpace.name_of_varMetaOf hvm, ScratchSpace.name_of_varMetaOf hvm']
    exact hne
  have hdisjoint := layout_disjoint ss.layout (List.mem_of_find?_eq_some hvm)
    (List.mem_of_find?_eq_some hvm') hne'
  rw [mem_words] at ha ⊢
  omega

theorem mem_words_of_addrOf (haddr : vm.addrOf slot = some addr) (hi : i < vm.length) :
    addr + i ∈ vm.words := by
  have hblock := addrOf_mem_block haddr
  rw [mem_words]
  omega

/-- The words of the variables of a program in a slot. -/
def SlotWord (ss : ScratchSpace) (slot : ℤ) (a : ℕ) : Prop :=
  ∃ name vm addr i, ss.varMetaOf (.var name) = some vm ∧ vm.addrOf slot = some addr ∧
    i < vm.length ∧ a = addr + i

/-- The words of the registers of constants. -/
def ConstWord (ss : ScratchSpace) (a : ℕ) : Prop :=
  ∃ v isVector vm, ss.varMetaOf (.const v isVector) = some vm ∧ a ∈ vm.words

/-- Only some words of the scratch space have changed. -/
structure ChangesOnly (changed : ℕ → Prop) (m m' : Machine) : Prop where
  length : m'.scratch.length = m.scratch.length
  other : ∀ a, ¬ changed a → m'.scratch[a]? = m.scratch[a]?

theorem ChangesOnly.refl (changed : ℕ → Prop) (m : Machine) : ChangesOnly changed m m :=
  ⟨rfl, fun _ _ => rfl⟩

theorem ChangesOnly.trans {changed : ℕ → Prop} (h : ChangesOnly changed m m')
    (h' : ChangesOnly changed m' m'') : ChangesOnly changed m m'' :=
  ⟨h'.length.trans h.length, fun a ha => (h'.other a ha).trans (h.other a ha)⟩

theorem ChangesOnly.mono {changed changed' : ℕ → Prop} (h : ChangesOnly changed m m')
    (sub : ∀ a, changed a → changed' a) : ChangesOnly changed' m m' :=
  ⟨h.length, fun a ha => h.other a fun hc => ha (sub a hc)⟩

/-- The registers of the constants hold them. -/
def ConstsHold (ss : ScratchSpace) (m : Machine) : Prop :=
  ∀ v isVector vm, ss.varMetaOf (.const v isVector) = some vm →
    ∀ a ∈ vm.words, m.scratch[a]? = some (word v)

theorem ConstsHold.kept (h : ConstsHold ss m) (changes : ChangesOnly (SlotWord ss slot) m m') :
    ConstsHold ss m' := by
  intro v isVector vm hvm a ha
  rw [changes.other a ?_]
  · exact h v isVector vm hvm a ha
  · rintro ⟨name, vm', addr, i, hvm', haddr, hi, rfl⟩
    apply notMem_words hvm hvm' ScratchName.noConfusion ha
    exact mem_words_of_addrOf haddr hi

/-- A variable whose block is the same has the same words. -/
theorem wordsOf_congr {name : String} (hvm : ss.varMetaOf (.var name) = some vm)
    (same : ∀ a ∈ vm.words, m'.scratch[a]? = m.scratch[a]?) :
    m'.wordsOf ss slot name = m.wordsOf ss slot name := by
  simp only [Machine.wordsOf, hvm, Option.bind_eq_bind, Option.bind_some]
  cases haddr : vm.addrOf slot with
  | none => rfl
  | some addr =>
      apply mapM_congr
      intro i hi
      exact same _ (mem_words_of_addrOf haddr (List.mem_range.mp hi))

theorem wordsOf_kept {name : String} (changes : ChangesOnly (ConstWord ss) m m') :
    m'.wordsOf ss slot name = m.wordsOf ss slot name := by
  cases hvm : ss.varMetaOf (.var name) with
  | none => simp [Machine.wordsOf, hvm]
  | some vm =>
      apply wordsOf_congr hvm
      intro a ha
      apply changes.other
      rintro ⟨v, isVector, vm', hvm', ha'⟩
      exact notMem_words hvm hvm' ScratchName.noConfusion ha ha'

end Blocks

/-- The machine has, in a slot, what the interpretation says, and the constants of `ss₀`. -/
structure Agrees (ss₀ ss : ScratchSpace) (slot : ℤ) (s : State) (m : Machine) : Prop where
  length : m.scratch.length = SCRATCH_SIZE
  mem : m.mem = s.mem
  vars : ∀ name ws, s.store name = some ws → m.wordsOf ss slot name = some ws
  consts : ConstsHold ss₀ m

section Agrees

variable {ss₀ ss : ScratchSpace} {slot : ℤ} {slots : ℕ} {s : State} {m m' : Machine} {x : String}
  {vm : VariableMeta} {addr : ℕ} {ws : List Word}

theorem wordsOf_put (hvm : ss.varMetaOf (.var x) = some vm) (haddr : vm.addrOf slot = some addr)
    (hws : ws.length = vm.length) (hput : m.put (fun i => .scratch (addr + i)) ws = some m') :
    m'.wordsOf ss slot x = some ws := by
  have hread := @mapM_range_eq _ (fun i => m'.scratch[addr + i]?) ws fun i hi => by
    have hget := read_put (scratch_inj addr) hput i
    rwa [if_pos hi] at hget
  simp only [Machine.wordsOf, hvm, haddr, Option.bind_eq_bind, Option.bind_some]
  rw [← hws, hread]

/-- A variable gets new words, and the machine agrees with the assignment. -/
theorem Agrees.set (h : Agrees ss₀ ss slot s m) (hext : ss₀.Extends ss)
    (hvm₀ : ss₀.varMetaOf (.var x) = some vm) (haddr : vm.addrOf slot = some addr)
    (hws : ws.length = vm.length) :
    ∃ m', m.put (fun i => .scratch (addr + i)) ws = some m' ∧ Agrees ss₀ ss slot (s.set x ws) m' ∧
      ChangesOnly (SlotWord ss₀ slot) m m' := by
  have hvm := hext.varMeta _ _ hvm₀
  have hfits := addrOf_add_length_le hvm haddr
  obtain ⟨m', hput, hmem, hlength, hget⟩ :=
    @exists_put_scratch addr m ws (by rw [h.length, hws]; exact hfits)
  have changes : ChangesOnly (SlotWord ss₀ slot) m m' := by
    refine ⟨hlength, fun a ha => ?_⟩
    rw [hget, if_neg]
    rintro ⟨hle, hlt⟩
    obtain ⟨i, rfl⟩ := Nat.exists_eq_add_of_le hle
    exact ha ⟨x, vm, addr, i, hvm₀, haddr, by omega, rfl⟩
  refine ⟨m', hput, ⟨hlength.trans h.length, hmem.trans h.mem, fun name ws' hstore => ?_,
    h.consts.kept changes⟩, changes⟩
  rw [State.store_set] at hstore
  split at hstore
  · rename_i heq
    subst heq
    obtain rfl := Option.some.inj hstore
    exact wordsOf_put hvm haddr hws hput
  · rename_i hne
    have hold := h.vars name ws' hstore
    obtain ⟨vm', -, hvm', -⟩ := exists_of_wordsOf h.length hold
    rw [← hold]
    apply wordsOf_congr hvm'
    intro a ha
    rw [hget, if_neg]
    rintro ⟨hle, hlt⟩
    obtain ⟨i, rfl⟩ := Nat.exists_eq_add_of_le hle
    have hnames : ScratchName.var name ≠ .var x := fun heq => hne (ScratchName.var.inj heq)
    exact notMem_words hvm' hvm hnames ha (mem_words_of_addrOf haddr (by omega))

end Agrees

section Setup

variable {ss₀ ss : ScratchSpace} {slot : ℤ} {slots : ℕ} {m : Machine}

/-- The instructions that set up a constant give it to its register. -/
theorem execAll_constSetup (shaped : ss.Shaped slots) {v : ℤ} {isVector : Bool} {vm : VariableMeta}
    (hvm : ss.varMetaOf (.const v isVector) = some vm) (hlength : m.scratch.length = SCRATCH_SIZE) :
    ∃ m', m.execAll ss slot (Lowered.constSetup v isVector) = some m' ∧ m'.mem = m.mem ∧
      ChangesOnly (· ∈ vm.words) m m' ∧ ∀ a ∈ vm.words, m'.scratch[a]? = some (word v) := by
  obtain ⟨hone, hlen⟩ := (shaped.of_varMetaOf hvm).const v isVector
    (ScratchSpace.name_of_varMetaOf hvm)
  have hsize : vm.size = vm.length := by rw [VariableMeta.size, hone, Nat.one_mul]
  have haddr : vm.addrOf slot = some vm.addr := by rw [VariableMeta.addrOf, if_pos hone]
  have hfits := addrOf_add_length_le hvm haddr
  have hword (isRead : Bool) :
      (scalarWithinVector (.const v isVector) 0 isRead).addrOf ss slot = some vm.addr := by
    simp [scalarWithinVector, LogicalOp.addrOf, LogicalRegister.addrOf, LogicalRegister.offset,
      hvm, haddr]
  have hpos : 0 < vm.length := by
    rw [hlen]
    cases isVector <;> decide
  obtain ⟨m₁, hput, hmem, hlength₁, hget⟩ :=
    @exists_put_scratch vm.addr m [word v] (by rw [hlength, List.length_singleton]; omega)
  have hconst : (toSerialized ss slot
      (.const (scalarWithinVector (.const v isVector) 0 false) v)).bind m.exec = some m₁ := by
    simp only [toSerialized, Inst.mapM, hword, Option.pure_def, Option.bind_eq_bind,
      Option.bind_some]
    rw [exec_const, hput]
  rw [List.length_singleton] at hget
  have hfirst : m₁.scratch[vm.addr]? = some (word v) := by
    rw [hget, if_pos (by omega), Nat.sub_self]
    rfl
  rw [Lowered.constSetup, execAll_cons, hconst, Option.bind_some]
  cases isVector with
  | false =>
      refine ⟨m₁, rfl, hmem, ⟨hlength₁, fun a ha => ?_⟩, fun a ha => ?_⟩
      · rw [hget, if_neg]
        rw [mem_words, hsize] at ha
        omega
      · have hone : vm.length = 1 := hlen
        rw [mem_words, hsize, hone] at ha
        obtain rfl : a = vm.addr := by omega
        exact hfirst
  | true =>
      have hvlen : vm.length = VLEN := hlen
      obtain ⟨m₂, hput₂, hmem₂, hlength₂, hget₂⟩ :=
        @exists_put_scratch vm.addr m₁ (List.replicate VLEN (word v)) (by
          rw [hlength₁, hlength, List.length_replicate, ← hvlen]
          exact hfits)
      rw [List.length_replicate, ← hvlen] at hget₂
      have hdest : (wholeVariable (.const v true) true false).addrOf ss slot = some vm.addr :=
        (addrOf_whole hvm true false).trans haddr
      refine ⟨m₂, ?_, hmem₂.trans hmem, ⟨hlength₂.trans hlength₁, fun a ha => ?_⟩, fun a ha => ?_⟩
      · rw [if_pos rfl, execAll_single]
        simp only [toSerialized, Inst.mapM, hword, hdest, Option.pure_def, Option.bind_eq_bind,
          Option.bind_some]
        rw [exec_vbroadcast hfirst, hput₂]
      · rw [mem_words, hsize] at ha
        rw [hget₂, if_neg ha, hget, if_neg (by omega)]
      · rw [mem_words, hsize] at ha
        rw [hget₂, if_pos ha, hvlen, List.getElem?_replicate_of_lt (by omega)]

/-- A relation between states of lowering that the setup of a constant keeps. -/
structure Accumulates (R : Lowered → Lowered → Prop) : Prop where
  refl : ∀ st, R st st
  trans : ∀ st st' st'', R st st' → R st' st'' → R st st''
  const : ∀ st st' v isVector op, st.handleConst v isVector = some (st', op) → R st st'

namespace Accumulates

variable {R : Lowered → Lowered → Prop} {st st' : Lowered}

theorem addrOf (acc : Accumulates R) {original : VarOrConstant} {isVector : Bool} {op : LogicalOp}
    (h : st.addrOf original isVector = some (st', op)) : R st st' := by
  cases original with
  | var name =>
      obtain ⟨op', -, hret⟩ := Option.bind_eq_some_iff.mp h
      obtain ⟨rfl, -⟩ := Prod.mk.inj (Option.some.inj hret)
      exact acc.refl st
  | const intconst => exact acc.const _ _ _ _ _ h

theorem handleSelect (acc : Accumulates R) {lname : String} {cond : Condition}
    {ifTrue ifFalse : VarOrConstant} {instrs : List LogicalInstruction}
    (h : st.handleSelect lname cond ifTrue ifFalse = some (st', instrs)) : R st st' := by
  cases cond with
  | var name =>
      obtain ⟨caddr, -, h⟩ := Option.bind_eq_some_iff.mp h
      obtain ⟨⟨st₁, lbranch⟩, hl, h⟩ := Option.bind_eq_some_iff.mp h
      obtain ⟨⟨st₂, rbranch⟩, hr, hret⟩ := Option.bind_eq_some_iff.mp h
      obtain ⟨rfl, -⟩ := Prod.mk.inj (Option.some.inj hret)
      exact acc.trans _ _ _ (acc.addrOf hl) (acc.addrOf hr)
  | cmp left op right =>
      obtain ⟨⟨st₁, l1⟩, h1, h⟩ := Option.bind_eq_some_iff.mp h
      obtain ⟨⟨st₂, r1⟩, h2, h⟩ := Option.bind_eq_some_iff.mp h
      obtain ⟨caddr, -, h⟩ := Option.bind_eq_some_iff.mp h
      obtain ⟨⟨st₃, lbranch⟩, hl, h⟩ := Option.bind_eq_some_iff.mp h
      obtain ⟨⟨st₄, rbranch⟩, hr, h⟩ := Option.bind_eq_some_iff.mp h
      obtain ⟨_, -, hret⟩ := Option.bind_eq_some_iff.mp h
      obtain ⟨rfl, -⟩ := Prod.mk.inj (Option.some.inj hret)
      have hcond := acc.trans _ _ _ (acc.addrOf h1) (acc.addrOf h2)
      have hbranches := acc.trans _ _ _ (acc.addrOf hl) (acc.addrOf hr)
      exact acc.trans _ _ _ hcond hbranches

/-- An assignment changes the state of lowering by setting up constants only. -/
theorem handleVariableAssignment (acc : Accumulates R) {lname : String} {rvalue : ValueExpr}
    {instrs : List LogicalInstruction}
    (h : st.handleVariableAssignment lname rvalue = some (st', instrs)) : R st st' := by
  obtain ⟨vm, -, h⟩ := Option.bind_eq_some_iff.mp h
  cases rvalue with
  | derefIndividualWords rname =>
      obtain ⟨_, -, h⟩ := Option.bind_eq_some_iff.mp h
      obtain ⟨_, -, hret⟩ := Option.bind_eq_some_iff.mp h
      obtain ⟨rfl, -⟩ := Prod.mk.inj (Option.some.inj hret)
      exact acc.refl st
  | derefVariable rname =>
      obtain ⟨addr, -, hret⟩ := Option.bind_eq_some_iff.mp h
      obtain ⟨rfl, -⟩ := Prod.mk.inj (Option.some.inj hret)
      exact acc.refl st
  | derefConstant intconst =>
      obtain ⟨⟨st₁, addr⟩, hconst, hret⟩ := Option.bind_eq_some_iff.mp h
      obtain ⟨rfl, -⟩ := Prod.mk.inj (Option.some.inj hret)
      exact acc.const _ _ _ _ _ hconst
  | binOp left op right =>
      obtain ⟨⟨st₁, r1⟩, h1, h⟩ := Option.bind_eq_some_iff.mp h
      obtain ⟨⟨st₂, r2⟩, h2, hret⟩ := Option.bind_eq_some_iff.mp h
      obtain ⟨rfl, -⟩ := Prod.mk.inj (Option.some.inj hret)
      exact acc.trans _ _ _ (acc.addrOf h1) (acc.addrOf h2)
  | multAdd factor1 factor2 add =>
      obtain ⟨_, -, h⟩ := Option.bind_eq_some_iff.mp h
      obtain ⟨r1, -, h⟩ := Option.bind_eq_some_iff.mp h
      obtain ⟨⟨st₁, r2⟩, h2, h⟩ := Option.bind_eq_some_iff.mp h
      obtain ⟨⟨st₂, r3⟩, h3, hret⟩ := Option.bind_eq_some_iff.mp h
      obtain ⟨rfl, -⟩ := Prod.mk.inj (Option.some.inj hret)
      exact acc.trans _ _ _ (acc.addrOf h2) (acc.addrOf h3)
  | select cond ifTrue ifFalse =>
      obtain ⟨_, -, h⟩ := Option.bind_eq_some_iff.mp h
      exact acc.handleSelect h
  | intConstant intconst =>
      dsimp only at h
      split at h
      · obtain ⟨⟨st₁, src⟩, hconst, hret⟩ := Option.bind_eq_some_iff.mp h
        obtain ⟨rfl, -⟩ := Prod.mk.inj (Option.some.inj hret)
        exact acc.const _ _ _ _ _ hconst
      · obtain ⟨rfl, -⟩ := Prod.mk.inj (Option.some.inj h)
        exact acc.refl st
  | «variable» rname index =>
      obtain ⟨rhs, -, hret⟩ := Option.bind_eq_some_iff.mp h
      obtain ⟨rfl, -⟩ := Prod.mk.inj (Option.some.inj hret)
      exact acc.refl st

theorem handleStoreMemory (acc : Accumulates R) {lname : String} {value : ValueExpr}
    {instrs : List LogicalInstruction}
    (h : st.handleStoreMemory lname value = some (st', instrs)) : R st st' := by
  cases value with
  | «variable» rname index =>
      obtain ⟨vm, -, h⟩ := Option.bind_eq_some_iff.mp h
      obtain ⟨addr, -, hret⟩ := Option.bind_eq_some_iff.mp h
      obtain ⟨rfl, -⟩ := Prod.mk.inj (Option.some.inj hret)
      exact acc.refl st
  | _ => cases h

end Accumulates

/-- The setup that a step of lowering adds gives their values to the constants that it adds, and
changes the registers of constants only. -/
structure Prepares (st st' : Lowered) (extra : List LogicalInstruction) : Prop where
  extends_ : st.ss.Extends st'.ss
  setup : st'.setup = st.setup ++ extra
  ends : ∀ (ss : ScratchSpace) (slots : ℕ) (slot : ℤ) (m : Machine), st'.ss.Extends ss →
    ss.Shaped slots → m.scratch.length = SCRATCH_SIZE → ConstsHold st.ss m →
      ∃ m', m.execAll ss slot extra = some m' ∧ m'.mem = m.mem ∧
        ChangesOnly (ConstWord ss) m m' ∧ ConstsHold st'.ss m'

theorem prepares_handleConst {st st' : Lowered} {v : ℤ} {isVector : Bool} {op : LogicalOp}
    (h : st.handleConst v isVector = some (st', op)) : ∃ extra, Prepares st st' extra := by
  obtain ⟨⟨ss₁, firstTime⟩, halloc, hret⟩ := Option.bind_eq_some_iff.mp h
  obtain ⟨rfl, -⟩ := Prod.mk.inj (Option.some.inj hret)
  obtain ⟨hext₁, hhas⟩ := ScratchSpace.allocConst_spec halloc
  obtain ⟨vm, hvm⟩ := Option.isSome_iff_exists.mp hhas
  rw [ScratchSpace.allocConst] at halloc
  split at halloc
  · obtain ⟨rfl, rfl⟩ := Prod.mk.inj (Option.some.inj halloc)
    refine ⟨[], .refl _, (List.append_nil _).symm, fun ss slots slot m _ _ _ hconsts => ?_⟩
    exact ⟨m, rfl, rfl, .refl _ m, hconsts⟩
  · obtain ⟨ss₂, hscratch, heq⟩ := Option.map_eq_some_iff.mp halloc
    obtain ⟨rfl, rfl⟩ := Prod.mk.inj heq
    refine ⟨Lowered.constSetup v isVector, hext₁, rfl,
      fun ss slots slot m hext shaped hlength hconsts => ?_⟩
    have hvm' := hext.varMeta _ _ hvm
    obtain ⟨m', hrun, hmem, changes, hnew⟩ := execAll_constSetup shaped hvm' hlength
    refine ⟨m', hrun, hmem, changes.mono fun a ha => ⟨v, isVector, vm, hvm', ha⟩, ?_⟩
    intro v' isVector' vm' hfound a ha
    by_cases hname : ScratchName.const v' isVector' = .const v isVector
    · obtain ⟨rfl, rfl⟩ := ScratchName.const.inj hname
      obtain rfl := Option.some.inj (hvm.symm.trans hfound)
      exact hnew a ha
    · have hold := hfound
      rw [ScratchSpace.varMetaOf_allocScratch_of_ne hscratch hname] at hold
      rw [changes.other a (notMem_words (hext.varMeta _ _ hfound) hvm' hname ha)]
      exact hconsts v' isVector' vm' hold a ha

theorem accumulates_prepares : Accumulates fun st st' => ∃ extra, Prepares st st' extra where
  refl st := ⟨[], .refl _, (List.append_nil _).symm, fun _ _ _ m _ _ _ hconsts =>
    ⟨m, rfl, rfl, .refl _ m, hconsts⟩⟩
  trans st st' st'' h h' := by
    obtain ⟨extra, hext, hsetup, hends⟩ := h
    obtain ⟨extra', hext', hsetup', hends'⟩ := h'
    refine ⟨extra ++ extra', hext.trans hext', by rw [hsetup', hsetup, List.append_assoc],
      fun ss slots slot m hss shaped hlength hconsts => ?_⟩
    obtain ⟨mid, hrun, hmem, changes, hmid⟩ :=
      hends ss slots slot m (hext'.trans hss) shaped hlength hconsts
    obtain ⟨m', hrun', hmem', changes', hconsts'⟩ :=
      hends' ss slots slot mid hss shaped (changes.length.trans hlength) hmid
    refine ⟨m', ?_, hmem'.trans hmem, changes.trans changes', hconsts'⟩
    rw [execAll_append, hrun]
    exact hrun'
  const _ _ _ _ _ h := prepares_handleConst h

theorem ConstsHold.registerVariable {ss ss' : ScratchSpace} {varType : VarType} {n : ℕ}
    {name : String} (h : ConstsHold ss m) (hreg : registerVariable ss varType n name = some ss') :
    ConstsHold ss' m := by
  intro v isVector vm hvm
  have hsame : ss'.varMetaOf (.const v isVector) = ss.varMetaOf (.const v isVector) := by
    cases varType <;> exact ScratchSpace.varMetaOf_allocScratch_of_ne hreg ScratchName.noConfusion
  rw [hsame] at hvm
  exact h v isVector vm hvm

theorem ConstsHold.registerVariables {ss ss' : ScratchSpace} {varType : VarType} {n : ℕ}
    {names : List String} (h : ConstsHold ss m)
    (hreg : names.foldlM (Takehome.registerVariable · varType n) ss = some ss') :
    ConstsHold ss' m := by
  induction names generalizing ss with
  | nil =>
      obtain rfl := Option.some.inj hreg
      exact h
  | cons name names ih =>
      rw [List.foldlM_cons] at hreg
      obtain ⟨ss₁, hfirst, hrest⟩ := Option.bind_eq_some_iff.mp hreg
      exact ih (h.registerVariable hfirst) hrest

/-- The setup of a statement gives their values to the constants that it is the first to use. -/
theorem execAll_setup {n : ℕ} {stmt : PlainStmt} {lowered : Lowered}
    {instrs : List LogicalInstruction} (hlower : lowerPlain ss₀ n stmt = some (lowered, instrs))
    (hext : lowered.ss.Extends ss) (shaped : ss.Shaped slots)
    (hlength : m.scratch.length = SCRATCH_SIZE) (hconsts : ConstsHold ss₀ m) :
    ∃ m', m.execAll ss slot lowered.setup = some m' ∧ m'.mem = m.mem ∧
      ChangesOnly (ConstWord ss) m m' ∧ ConstsHold lowered.ss m' := by
  have hprepares {ss₁ : ScratchSpace} (hconsts : ConstsHold ss₁ m)
      (h : ∃ extra, Prepares ⟨ss₁, []⟩ lowered extra) :
      ∃ m', m.execAll ss slot lowered.setup = some m' ∧ m'.mem = m.mem ∧
        ChangesOnly (ConstWord ss) m m' ∧ ConstsHold lowered.ss m' := by
    obtain ⟨extra, -, hsetup, hends⟩ := h
    rw [hsetup]
    exact hends ss slots slot m hext shaped hlength hconsts
  cases stmt with
  | variableDeclaration varType name otherNames =>
      obtain ⟨ss₁, hreg, hret⟩ := Option.bind_eq_some_iff.mp hlower
      obtain ⟨rfl, -⟩ := Prod.mk.inj (Option.some.inj hret)
      exact hprepares (hconsts.registerVariables hreg) (accumulates_prepares.refl _)
  | variableDefinition varType name value =>
      obtain ⟨ss₁, hreg, hvalue⟩ := Option.bind_eq_some_iff.mp hlower
      exact hprepares (hconsts.registerVariable hreg)
        (accumulates_prepares.handleVariableAssignment hvalue)
  | loadVariable name value =>
      exact hprepares hconsts (accumulates_prepares.handleVariableAssignment hlower)
  | storeMemory name value =>
      exact hprepares hconsts (accumulates_prepares.handleStoreMemory hlower)
  | pause =>
      obtain ⟨rfl, -⟩ := Prod.mk.inj (Option.some.inj hlower)
      exact hprepares hconsts (accumulates_prepares.refl _)

end Setup

end Explore.Takehome
