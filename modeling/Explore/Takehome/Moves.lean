import Explore.Takehome.Declared
import Explore.Takehome.Words

/-!
# Moves and stores

`x = y`, `x = y[k]`, `@p = v` and `@p = v[k]` share one node of the syntax tree, whose index
is optional. What they say is written here in terms of the words of the variables. Lowering
takes an index that is left out for 0 in a move, so it does not copy vectors, and does not
look at the index in a store.
-/

namespace Explore.Takehome

/-- The word `ws[k]`. -/
def wordAt (ws : List Word) (k : ℤ) : Option Word := if 0 ≤ k then ws[k.toNat]? else none

/-- What `x = y` or `x = y[k]` gives to `length` words: the words of `y`, or one word for all
of them. -/
def movedWords (length : ℕ) (ys : List Word) : Option ℤ → Option (List Word)
  | none => if ys.length = length then some ys else ys.head?.map (List.replicate length)
  | some k => (wordAt ys k).map (List.replicate length)

/-- What `@p = v` or `@p = v[k]` stores. -/
def storedWords (vs : List Word) : Option ℤ → Option (List Word)
  | none => some vs
  | some k => (wordAt vs k).map ([·])

/-- The instructions of a move do what it says, and nothing else. Of a vector that is moved
to a word without an index nothing is said. -/
def MoveMeans (ss : ScratchSpace) (slot : ℤ) (x y : String) (index : Option ℤ)
    (instrs : List LogicalInstruction) : Prop :=
  ∀ (m : Machine) (xs ys : List Word), m.scratch.length = SCRATCH_SIZE →
    m.wordsOf ss slot x = some xs → m.wordsOf ss slot y = some ys →
    (index = none → ys.length ≤ xs.length) →
      m.execAll ss slot instrs = do m.assign ss slot x (← movedWords xs.length ys index)

/-- The instructions of a store do what it says, and nothing else. -/
def StoreMeans (ss : ScratchSpace) (slot : ℤ) (p v : String) (index : Option ℤ)
    (instrs : List LogicalInstruction) : Prop :=
  ∀ (m : Machine) (addr : Word) (vs : List Word), m.scratch.length = SCRATCH_SIZE →
    m.wordsOf ss slot p = some [addr] → m.wordsOf ss slot v = some vs →
      m.execAll ss slot instrs = do m.put (fun i => .mem (addr.toNat + i)) (← storedWords vs index)

def LoweredStmt.Means (ss : ScratchSpace) (slot : ℤ) (s : LoweredStmt) : Prop :=
  match s.stmt with
  | .variableDefinition _ x (.variable y index) | .loadVariable x (.variable y index) =>
      MoveMeans ss slot x y (index.map IntConstantExpr.toInt) s.instrs
  | .storeMemory p (.variable v index) =>
      StoreMeans ss slot p v (index.map IntConstantExpr.toInt) s.instrs
  | _ => True

/-- All moves and stores of a program mean what they say, in every slot. -/
def MovesMean (program : Program) (numThreads concThreads : ℕ) : Prop :=
  ∃ irp stmts, programToIrp program numThreads concThreads = some irp ∧
    lowerStmts .empty (program.lowerOrder concThreads) = some (irp.ss, stmts) ∧
    ∀ s ∈ stmts, ∀ slot : ℤ, 0 ≤ slot → slot < concThreads → s.Means irp.ss slot

/-- The statements that are lowered to something else: copies of vectors, and stores of one
word of a vector or of a word that does not exist. -/
def PlainStmt.Misread (isRegisters : String → Prop) : PlainStmt → Prop
  | .variableDefinition _ x (.variable y none) | .loadVariable x (.variable y none) =>
      isRegisters x ∧ isRegisters y
  | .storeMemory _ (.variable v (some k)) => isRegisters v ∨ k.toInt ≠ 0
  | _ => False

section Statements

variable {ss : ScratchSpace} {slot : ℤ} {slots : ℕ} {m : Machine} {st : Lowered} {x y : String}
  {index : Option IntConstantExpr} {vm vmy : VariableMeta}

/-- The word that a move reads, at the index or at 0. -/
theorem addrOf_wordOf {st : Lowered} (shaped : st.ss.Shaped slots) {rname : String}
    {index : Option IntConstantExpr} {rhs : LogicalOp} (h : st.wordOf rname index = some rhs) :
    ∃ vm, ∃ k : ℕ, st.ss.varMetaOf (.var rname) = some vm ∧
      (index.map IntConstantExpr.toInt).getD 0 = k ∧ k < vm.length ∧
      ∀ ss : ScratchSpace, ss.varMetaOf (.var rname) = some vm → ∀ slot,
        rhs.addrOf ss slot = (vm.addrOf slot).map (· + k) := by
  obtain ⟨vm, hvm, h⟩ := Option.bind_eq_some_iff.mp h
  have hshape := (shaped.of_varMetaOf hvm).length
  dsimp only at h
  generalize (index.map IntConstantExpr.toInt).getD 0 = ridx at h ⊢
  split at h
  · rename_i hvec
    split at h
    · rename_i hbound
      obtain rfl := Option.some.inj h
      obtain ⟨k, rfl⟩ := Int.eq_ofNat_of_zero_le hbound.1
      have hk : k < VLEN := by exact_mod_cast hbound.2
      have hlength : vm.length = VLEN := by
        simp only [VariableMeta.isVector, decide_eq_true_eq] at hvec
        omega
      refine ⟨vm, k, hvm, rfl, hlength ▸ hk, fun ss hss slot => ?_⟩
      have hoffset : (Fin.ofNat 8 k : ℕ) = k := Nat.mod_eq_of_lt hk
      simp only [scalarWithinVector, LogicalOp.addrOf, LogicalRegister.addrOf,
        LogicalRegister.offset, hss, Int.toNat_natCast, hoffset]
      cases haddr : vm.addrOf slot <;> simp [haddr]
    · cases h
  · obtain ⟨_, hzero, hret⟩ := Option.bind_eq_some_iff.mp h
    obtain rfl := Option.some.inj hret
    obtain rfl := Lowered.of_guard hzero
    refine ⟨vm, 0, hvm, rfl, ?_, fun ss hss slot => ?_⟩
    · obtain hlength | hlength := hshape
      · omega
      · rw [hlength]
        decide
    · rw [addrOf_whole hss]
      cases vm.addrOf slot <;> rfl

/-- A move gives one word of `y` to all words of `x`. -/
theorem execAll_move (shaped : ss.Shaped slots) (hx : ss.varMetaOf (.var x) = some vm)
    {rhs : LogicalOp} {addr addry k : ℕ} {val : Word}
    (haddr : vm.addrOf slot = some addr) (hrhs : rhs.addrOf ss slot = some (addry + k))
    (hval : m.scratch[addry + k]? = some val) :
    m.execAll ss slot [if vm.isVector then
        .vbroadcast (wholeVariable (.var x) vm.isVector false) rhs
      else .alu .or (wholeVariable (.var x) vm.isVector false) rhs rhs] =
      m.put (fun i => .scratch (addr + i)) (List.replicate vm.length val) := by
  have hshape := (shaped.of_varMetaOf hx).length
  have hdest := (addrOf_whole hx vm.isVector false).trans haddr
  rw [execAll_single]
  split
  · rename_i hvec
    have hvlen : vm.length = VLEN := by
      simp only [VariableMeta.isVector, decide_eq_true_eq] at hvec
      omega
    simp only [toSerialized, Inst.mapM, hdest, hrhs]
    rw [hvlen]
    exact exec_vbroadcast hval
  · rename_i hword
    have hone : vm.length = 1 := by
      simp only [VariableMeta.isVector, decide_eq_true_eq] at hword
      simp only [VLEN] at hshape
      omega
    simp only [toSerialized, Inst.mapM, hdest, hrhs]
    rw [hone]
    exact exec_or hval

theorem isVector_iff (shaped : ss.Shaped slots) {name : ScratchName}
    (hvm : ss.varMetaOf name = some vm) : vm.length = if vm.isVector then VLEN else 1 := by
  have hshape := (shaped.of_varMetaOf hvm).length
  simp only [VariableMeta.isVector, decide_eq_true_eq]
  simp only [VLEN] at hshape ⊢
  split <;> omega

/-- The instruction that a move is lowered to. -/
def moveInst (x : String) (isVector : Bool) (rhs : LogicalOp) : LogicalInstruction :=
  let dest := wholeVariable (.var x) isVector false
  if isVector then .vbroadcast dest rhs else .alu .or dest rhs rhs

/-- A move that is not a copy of a vector means what it says. -/
theorem moveMeans_of_not (shaped : ss.Shaped slots) (hst : st.ss.Shaped slots)
    (hext : st.ss.Extends ss) (hx : ss.varMetaOf (.var x) = some vm) {rhs : LogicalOp}
    (hrhs : st.wordOf y index = some rhs) (hy : ss.varMetaOf (.var y) = some vmy)
    (hnot : ¬ (index = none ∧ vm.isVector = true ∧ vmy.isVector = true)) :
    MoveMeans ss slot x y (index.map IntConstantExpr.toInt) [moveInst x vm.isVector rhs] := by
  intro m xs ys hlength hxs hys hle
  obtain ⟨vm', addr, hx', haddr, hxlen, -⟩ := exists_of_wordsOf hlength hxs
  obtain rfl := Option.some.inj (hx.symm.trans hx')
  obtain ⟨vmy', addry, hy', haddry, hylen, hywords⟩ := exists_of_wordsOf hlength hys
  obtain rfl := Option.some.inj (hy.symm.trans hy')
  obtain ⟨vmy', k, hst_y, hk, hklt, hop⟩ := addrOf_wordOf hst hrhs
  obtain rfl := Option.some.inj (hy.symm.trans (hext.varMeta _ _ hst_y))
  have hget : ys[k]? = some ys[k] := List.getElem?_eq_getElem (hylen ▸ hklt)
  have hread := (hywords k hklt).trans hget
  have hsrc : rhs.addrOf ss slot = some (addry + k) := by
    rw [hop ss hy slot, haddry]
    rfl
  have hmove := execAll_move (m := m) shaped hx haddr hsrc hread
  have hassign (ws : List Word) : m.assign ss slot x ws =
      m.put (fun i => .scratch (addr + i)) ws := by
    rw [Machine.assign, hx, Option.bind_eq_bind, Option.bind_some, haddr]
    rfl
  have hmoved : movedWords xs.length ys (index.map IntConstantExpr.toInt) =
      some (List.replicate vm.length ys[k]) := by
    rw [hxlen]
    cases index with
    | some c =>
        rw [Option.map_some, Option.getD_some] at hk
        rw [Option.map_some, movedWords, hk, wordAt, if_pos (Int.natCast_nonneg k),
          Int.toNat_natCast, hget]
        rfl
    | none =>
        rw [Option.map_none, Option.getD_none] at hk
        obtain rfl : k = 0 := by omega
        have hxshape := isVector_iff shaped hx
        have hyshape := isVector_iff shaped hy
        simp only [true_and, not_and, Bool.not_eq_true] at hnot
        rw [Option.map_none, movedWords]
        split
        · rename_i hsame
          -- Both are single words.
          have hone : vm.length = 1 := by
            by_cases hvec : vm.isVector = true
            · rw [hnot hvec] at hyshape
              rw [← hsame, hylen, hyshape]
              rfl
            · rw [hxshape, if_neg hvec]
          rw [hone]
          exact congrArg some (List.length_eq_one_iff.mp (hsame.trans hone) |>.elim
            fun w hw => by subst hw; rfl)
        · rw [List.head?_eq_getElem?, hget]
          rfl
  rw [hmoved, Option.bind_eq_bind, Option.bind_some, hassign, ← hmove]
  rfl

/-- A scratch space with a single word that is not 0. -/
def oneWord (addr : ℕ) : Machine := ⟨(List.replicate SCRATCH_SIZE 0).set addr 1, []⟩

theorem length_oneWord (addr : ℕ) : (oneWord addr).scratch.length = SCRATCH_SIZE := by
  rw [oneWord, List.length_set, List.length_replicate]

/-- A copy of a vector gives its first word to all words of `x`. -/
theorem not_moveMeans (shaped : ss.Shaped slots) (hst : st.ss.Shaped slots)
    (hext : st.ss.Extends ss) (hx : ss.varMetaOf (.var x) = some vm) {rhs : LogicalOp}
    (hrhs : st.wordOf y none = some rhs) (hy : ss.varMetaOf (.var y) = some vmy)
    (hxvec : vm.isVector = true) (hyvec : vmy.isVector = true) {addr addry : ℕ}
    (haddr : vm.addrOf slot = some addr) (haddry : vmy.addrOf slot = some addry) :
    ¬ MoveMeans ss slot x y none [moveInst x vm.isVector rhs] := by
  intro means
  have hlength := length_oneWord addry
  have hxlen : vm.length = VLEN := by rw [isVector_iff shaped hx, if_pos hxvec]
  have hylen : vmy.length = VLEN := by rw [isVector_iff shaped hy, if_pos hyvec]
  obtain ⟨xs, hxs, hxwords, -⟩ := wordsOf_eq hlength hx haddr
  obtain ⟨ys, hys, hywords, hyget⟩ := wordsOf_eq hlength hy haddry
  obtain ⟨vmy', k, hst_y, hk, hklt, hop⟩ := addrOf_wordOf hst hrhs
  obtain rfl := Option.some.inj (hy.symm.trans (hext.varMeta _ _ hst_y))
  rw [Option.map_none, Option.getD_none] at hk
  obtain rfl : k = 0 := by omega
  have hend := addrOf_add_length_le hy haddry
  have hxend := addrOf_add_length_le hx haddr
  rw [hylen] at hend
  rw [hxlen] at hxend
  simp only [VLEN] at hend hxend
  have hfirst : (oneWord addry).scratch[addry + 0]? = some 1 := by
    rw [oneWord, Nat.add_zero, List.getElem?_set_self (by rw [List.length_replicate]; omega)]
  have hsecond : (oneWord addry).scratch[addry + 1]? = some 0 := by
    rw [oneWord, List.getElem?_set_ne (by omega), List.getElem?_replicate_of_lt (by omega)]
  have hsrc : rhs.addrOf ss slot = some (addry + 0) := by
    rw [hop ss hy slot, haddry]
    rfl
  have hmove := execAll_move shaped hx haddr hsrc hfirst
  have hmeans := means _ xs ys hlength hxs hys fun _ => by rw [hxwords, hywords, hxlen, hylen]
  rw [movedWords, if_pos (by rw [hxwords, hywords, hxlen, hylen]), Option.bind_eq_bind,
    Option.bind_some, Machine.assign, hx, Option.bind_eq_bind, Option.bind_some, haddr] at hmeans
  have hput := hmove.symm.trans hmeans
  obtain ⟨m', hm'⟩ : ∃ m', (oneWord addry).put (fun i => .scratch (addr + i))
      (List.replicate vm.length 1) = some m' := by
    refine exists_put (scratch_inj addr) fun i hi => ?_
    rw [List.length_replicate, hxlen, VLEN] at hi
    simp only [Machine.read, isSome_getElem?, hlength]
    omega
  have hcode := read_put (scratch_inj addr) hm' 1
  have hsays := read_put (scratch_inj addr) (hput.symm.trans hm') 1
  rw [List.length_replicate, hxlen, if_pos (by decide)] at hcode
  rw [hywords, hylen, if_pos (by decide), ← hyget 1 (by rw [hylen]; decide), hsecond] at hsays
  rw [List.getElem?_replicate_of_lt (by decide)] at hcode
  have habsurd := hcode.symm.trans hsays
  revert habsurd
  decide

/-- The instruction that a store is lowered to. -/
def storeInst (p v : String) (isVector : Bool) : LogicalInstruction :=
  let addr := wholeVariable (.var p) false true
  let src := wholeVariable (.var v) isVector false
  if isVector then .vstore addr src else .store addr src

variable {p v : String} {vmp : VariableMeta}

/-- A store writes all words of `v`. -/
theorem execAll_store (shaped : ss.Shaped slots) (hp : ss.varMetaOf (.var p) = some vmp)
    (hv : ss.varMetaOf (.var v) = some vm) {addrp addr : ℕ} {base : Word} {vs : List Word}
    (haddrp : vmp.addrOf slot = some addrp) (haddr : vm.addrOf slot = some addr)
    (hbase : m.scratch[addrp]? = some base) (hlength : vs.length = vm.length)
    (hvals : ∀ i < vm.length, m.scratch[addr + i]? = vs[i]?) :
    m.execAll ss slot [storeInst p v vm.isVector] =
      m.put (fun i => .mem (base.toNat + i)) vs := by
  have hlen := isVector_iff shaped hv
  have hptr := (addrOf_whole hp false true).trans haddrp
  have hsrc := (addrOf_whole hv vm.isVector false).trans haddr
  rw [execAll_single, storeInst]
  split
  · rename_i hvec
    rw [if_pos hvec] at hlen
    simp only [toSerialized, Inst.mapM, hptr, hsrc]
    exact exec_vstore hbase (hlength.trans hlen) (hlen ▸ hvals)
  · rename_i hword
    rw [if_neg hword] at hlen
    obtain ⟨val, rfl⟩ := List.length_eq_one_iff.mp (hlength.trans hlen)
    simp only [toSerialized, Inst.mapM, hptr, hsrc]
    refine exec_store hbase ?_
    have hfirst := hvals 0 (by omega)
    rwa [Nat.add_zero] at hfirst

/-- A store without an index, and one of a word at 0, means what it says. -/
theorem storeMeans_of_not (shaped : ss.Shaped slots) (hv : ss.varMetaOf (.var v) = some vm)
    {index : Option ℤ} (hnot : ∀ k, index = some k → vm.isVector = false ∧ k = 0) :
    StoreMeans ss slot p v index [storeInst p v vm.isVector] := by
  intro m addr vs hlength hptr hvs
  obtain ⟨vmp, addrp, hp, haddrp, hplen, hpget⟩ := exists_of_wordsOf hlength hptr
  obtain ⟨vm', addrv, hv', haddrv, hvlen, hvget⟩ := exists_of_wordsOf hlength hvs
  obtain rfl := Option.some.inj (hv.symm.trans hv')
  have hbase : m.scratch[addrp]? = some addr := by
    have hfirst := hpget 0 (by rw [← hplen]; exact Nat.one_pos)
    rwa [Nat.add_zero] at hfirst
  rw [execAll_store shaped hp hv haddrp haddrv hbase hvlen hvget]
  have hstored : storedWords vs index = some vs := by
    cases index with
    | none => rfl
    | some k =>
        obtain ⟨hword, rfl⟩ := hnot k rfl
        have hone := isVector_iff shaped hv
        rw [hword] at hone
        obtain ⟨val, rfl⟩ := List.length_eq_one_iff.mp (hvlen.trans hone)
        rfl
  rw [hstored]
  rfl

/-- A scratch space of ones over a cleared memory. -/
def allOnes : Machine := ⟨List.replicate SCRATCH_SIZE 1, List.replicate 16 0⟩

/-- Any other store with an index writes other words. -/
theorem not_storeMeans (shaped : ss.Shaped slots) (hp : ss.varMetaOf (.var p) = some vmp)
    (hpword : vmp.isVector = false) (hv : ss.varMetaOf (.var v) = some vm) {addrp addr : ℕ}
    (haddrp : vmp.addrOf slot = some addrp) (haddr : vm.addrOf slot = some addr) {k : ℤ}
    (hwrong : vm.isVector = true ∨ k ≠ 0) :
    ¬ StoreMeans ss slot p v (some k) [storeInst p v vm.isVector] := by
  intro means
  have hlength : allOnes.scratch.length = SCRATCH_SIZE := List.length_replicate
  have hones : ∀ a < SCRATCH_SIZE, allOnes.scratch[a]? = some 1 := fun a ha =>
    List.getElem?_replicate_of_lt ha
  obtain ⟨ps, hps, hplen, hpget⟩ := wordsOf_eq hlength hp haddrp
  obtain ⟨vs, hvs, hvlen, hvget⟩ := wordsOf_eq hlength hv haddr
  have hplen1 := isVector_iff shaped hp
  rw [hpword] at hplen1
  have hpend := addrOf_add_length_le hp haddrp
  have hvend := addrOf_add_length_le hv haddr
  have hbase := hones addrp (by rw [hplen1] at hpend; exact hpend)
  obtain ⟨base, rfl⟩ := List.length_eq_one_iff.mp (hplen.trans hplen1)
  have hone : (1 : Word) = base := by
    have hfirst := hpget 0 (by rw [hplen1]; decide)
    rw [Nat.add_zero, hbase] at hfirst
    exact Option.some.inj hfirst
  subst hone
  have hstore := execAll_store shaped hp hv haddrp haddr hbase hvlen hvget
  have hmeans := means _ 1 vs hlength hps hvs
  rw [hstore] at hmeans
  have hvmlen := isVector_iff shaped hv
  obtain ⟨m', hm'⟩ : ∃ m', allOnes.put (fun i => .mem ((1 : Word).toNat + i)) vs = some m' := by
    refine exists_put (mem_inj (1 : Word).toNat) fun i hi => ?_
    have hi8 : i < 8 := by
      rw [hvlen, hvmlen, VLEN] at hi
      split at hi <;> omega
    simp only [Machine.read, allOnes, isSome_getElem?, List.length_replicate]
    change 1 + i < 16
    omega
  rw [hm'] at hmeans
  -- The word that the store names, if it exists, is the only one to be written.
  obtain ⟨ws, hws, hput⟩ := Option.bind_eq_some_iff.mp hmeans.symm
  obtain ⟨w, hw, rfl⟩ := Option.map_eq_some_iff.mp hws
  obtain ⟨hk, hget⟩ : 0 ≤ k ∧ vs[k.toNat]? = some w := by
    simp only [wordAt] at hw
    split at hw
    · exact ⟨‹_›, hw⟩
    · cases hw
  obtain ⟨hklt, -⟩ := List.getElem?_eq_some_iff.mp hget
  by_cases hvec : vm.isVector = true
  · rw [if_pos hvec] at hvmlen
    have hcode := read_put (mem_inj (1 : Word).toNat) hm' 1
    have hsays := read_put (mem_inj (1 : Word).toNat) hput 1
    rw [hvmlen] at hvend
    simp only [VLEN] at hvend
    rw [hvlen, hvmlen, if_pos (by decide), ← hvget 1 (by rw [hvmlen]; decide),
      hones _ (by omega)] at hcode
    rw [List.length_singleton, if_neg (Nat.lt_irrefl 1), hcode] at hsays
    revert hsays
    decide
  · rw [hvlen, hvmlen, if_neg hvec] at hklt
    have hzero := hwrong.resolve_left hvec
    omega

end Statements

section Lowering

variable {ss ss' : ScratchSpace} {slot : ℤ} {slots n : ℕ}

theorem exists_addrOf (shaped : ss.Shaped slots) {name : ScratchName} {vm : VariableMeta}
    (hvm : ss.varMetaOf name = some vm) (hslot : 0 ≤ slot) (hlt : slot < slots) :
    ∃ addr, vm.addrOf slot = some addr := by
  rw [VariableMeta.addrOf]
  split
  · exact ⟨_, rfl⟩
  · rename_i hone
    have hslots := (shaped.of_varMetaOf hvm).slots.resolve_left hone
    exact ⟨_, if_pos ⟨hslot, hslots ▸ hlt⟩⟩

/-- A move that is lowered means what it says unless it copies a vector. -/
theorem move_iff {st lowered : Lowered} {x y : String} {index : Option IntConstantExpr}
    {instrs : List LogicalInstruction} {isRegisters : String → Prop} (hst : st.ss.Shaped slots)
    (hext : st.ss.Extends ss) (shaped : ss.Shaped slots) (typed : TypedAs ss isRegisters)
    (hslot : 0 ≤ slot) (hlt : slot < slots)
    (h : st.handleVariableAssignment x (.variable y index) = some (lowered, instrs)) :
    MoveMeans ss slot x y (index.map IntConstantExpr.toInt) instrs ↔
      ¬ (index = none ∧ isRegisters x ∧ isRegisters y) := by
  obtain ⟨vm, hx, h⟩ := Option.bind_eq_some_iff.mp h
  obtain ⟨rhs, hrhs, hret⟩ := Option.bind_eq_some_iff.mp h
  obtain ⟨-, rfl⟩ := Prod.mk.inj (Option.some.inj hret)
  obtain ⟨vmy, -, hy, -⟩ := addrOf_wordOf hst hrhs
  have hx' := hext.varMeta _ _ hx
  have hy' := hext.varMeta _ _ hy
  rw [← typed x vm hx', ← typed y vmy hy']
  refine ⟨?_, moveMeans_of_not shaped hst hext hx' hrhs hy'⟩
  rintro means ⟨rfl, hxvec, hyvec⟩
  obtain ⟨addr, haddr⟩ := exists_addrOf shaped hx' hslot hlt
  obtain ⟨addry, haddry⟩ := exists_addrOf shaped hy' hslot hlt
  exact not_moveMeans shaped hst hext hx' hrhs hy' hxvec hyvec haddr haddry means

/-- A store that is lowered means what it says unless it has an index, of a vector or
other than 0. -/
theorem store_iff {st lowered : Lowered} {p v : String} {index : Option IntConstantExpr}
    {instrs : List LogicalInstruction} {isRegisters : String → Prop}
    (hext : st.ss.Extends ss) (shaped : ss.Shaped slots) (typed : TypedAs ss isRegisters)
    (hslot : 0 ≤ slot) (hlt : slot < slots)
    (h : st.handleStoreMemory p (.variable v index) = some (lowered, instrs)) :
    StoreMeans ss slot p v (index.map IntConstantExpr.toInt) instrs ↔
      ∀ k, index = some k → ¬ (isRegisters v ∨ k.toInt ≠ 0) := by
  obtain ⟨vm, hv, h⟩ := Option.bind_eq_some_iff.mp h
  obtain ⟨addr, hread, hret⟩ := Option.bind_eq_some_iff.mp h
  obtain ⟨-, rfl⟩ := Prod.mk.inj (Option.some.inj hret)
  obtain ⟨_, hcheck, hret⟩ := Option.bind_eq_some_iff.mp hread
  obtain rfl := Option.some.inj hret
  obtain ⟨vmp, hp, hpword⟩ := Lowered.checkIsVector_spec hcheck
  have hv' := hext.varMeta _ _ hv
  have hp' := hext.varMeta _ _ hp
  rw [← typed v vm hv']
  constructor
  · rintro means k rfl hwrong
    obtain ⟨addrp, haddrp⟩ := exists_addrOf shaped hp' hslot hlt
    obtain ⟨addrv, haddrv⟩ := exists_addrOf shaped hv' hslot hlt
    exact not_storeMeans shaped hp' hpword hv' haddrp haddrv hwrong means
  · intro hright
    refine storeMeans_of_not shaped hv' fun k hk => ?_
    obtain ⟨c, hc, rfl⟩ := Option.map_eq_some_iff.mp hk
    have hnot := hright c hc
    rw [not_or, not_not, Bool.not_eq_true] at hnot
    exact hnot

/-- A statement that is lowered means what it says unless it is misread. -/
theorem means_iff {stmt : PlainStmt} {lowered : Lowered} {instrs : List LogicalInstruction}
    {isRegisters : String → Prop} (hshaped : ss.Shaped slots) (hn : n = 1 ∨ n = slots)
    (h : lowerPlain ss n stmt = some (lowered, instrs)) (hext : lowered.ss.Extends ss')
    (shaped : ss'.Shaped slots) (typed : TypedAs ss' isRegisters) (hslot : 0 ≤ slot)
    (hlt : slot < slots) :
    LoweredStmt.Means ss' slot ⟨stmt, instrs⟩ ↔ ¬ stmt.Misread isRegisters := by
  have hassign {ss : ScratchSpace} {x y : String} {index : Option IntConstantExpr}
      (hss : ss.Shaped slots)
      (h : Lowered.handleVariableAssignment ⟨ss, []⟩ x (.variable y index) =
        some (lowered, instrs)) :
      MoveMeans ss' slot x y (index.map IntConstantExpr.toInt) instrs ↔
        ¬ PlainStmt.Misread isRegisters (.loadVariable x (.variable y index)) := by
    obtain ⟨hstep, -⟩ := Lowered.handleVariableAssignment_spec ⟨hss, List.forall_mem_nil _⟩ h
    rw [move_iff hss (hstep.extends_.trans hext) shaped typed hslot hlt h]
    cases index <;> simp [PlainStmt.Misread]
  cases stmt with
  | variableDefinition varType x value =>
      obtain ⟨ss₁, hreg, hvalue⟩ := Option.bind_eq_some_iff.mp h
      obtain ⟨-, hshaped₁⟩ := registerVariable_spec hshaped hn hreg
      cases value with
      | «variable» y index =>
          refine (hassign hshaped₁ hvalue).trans (not_congr ?_)
          cases index <;> exact Iff.rfl
      | _ => exact iff_of_true trivial id
  | loadVariable x value =>
      cases value with
      | «variable» y index => exact hassign hshaped h
      | _ => exact iff_of_true trivial id
  | storeMemory p value =>
      cases value with
      | «variable» v index =>
          have hsound : Lowered.Sound slots ⟨ss, []⟩ := ⟨hshaped, List.forall_mem_nil _⟩
          have hstore : Lowered.handleStoreMemory ⟨ss, []⟩ p (.variable v index) =
              some (lowered, instrs) := h
          obtain ⟨hstep, -⟩ := Lowered.handleStoreMemory_spec hsound hstore
          refine (store_iff (hstep.extends_.trans hext) shaped typed hslot hlt h).trans ?_
          cases index <;> simp [PlainStmt.Misread]
      | _ => exact iff_of_true trivial id
  | variableDeclaration | pause => exact iff_of_true trivial id

end Lowering

section Programs

variable {program : Program} {numThreads concThreads : ℕ} {irp irp' : IRPipeline}

/-- The statements that mean what they say. -/
theorem means_iff_of_lowerStmts {ss : ScratchSpace} {stmts : List LoweredStmt}
    (hlower : lowerStmts .empty (program.lowerOrder concThreads) = some (ss, stmts)) :
    stmts.map LoweredStmt.stmt = program.plainStmts ∧
      ∀ s ∈ stmts, ∀ slot : ℤ, 0 ≤ slot → slot < concThreads →
        (s.Means ss slot ↔ ¬ s.stmt.Misread program.isRegisters) := by
  have hslots : ∀ x ∈ program.lowerOrder concThreads, x.2 = 1 ∨ x.2 = concThreads := by
    intro x hx
    obtain hx | hx := List.mem_append.mp hx
    · obtain ⟨stmt, -, rfl⟩ := List.mem_map.mp hx
      exact Or.inl rfl
    · obtain ⟨stmt, -, rfl⟩ := List.mem_map.mp hx
      exact Or.inr rfl
  have hfst : (program.lowerOrder concThreads).map Prod.fst = program.plainStmts := by
    simp [Program.lowerOrder, Program.plainStmts, Function.comp_def]
  have hempty : ScratchSpace.empty.Shaped concThreads := List.forall_mem_nil _
  obtain ⟨-, shaped, hmap, hstmts⟩ := lowerStmts_spec hempty hslots hlower
  have typed := (declares_empty.lowerStmts hlower).typedAs
  rw [hfst] at hmap typed
  refine ⟨hmap, fun s hs slot hslot hlt => ?_⟩
  obtain ⟨before, n, lowered, hbefore, hn, hlowered, hext⟩ := hstmts s hs
  exact means_iff hbefore hn hlowered hext shaped typed hslot hlt

/-- For every accepted program: all moves and stores mean what they say if and only if none
copies a vector without an index, and no store has an index of a vector or other than 0. -/
theorem movesMean_iff (accepted : programToIrp program numThreads concThreads = some irp) :
    MovesMean program numThreads concThreads ↔
      concThreads = 0 ∨ ∀ stmt ∈ program.plainStmts, ¬ stmt.Misread program.isRegisters := by
  obtain ⟨globals, threads, hlower, -⟩ := lowerStmts_of_programToIrp accepted
  obtain ⟨hmap, hmeans⟩ := means_iff_of_lowerStmts hlower
  constructor
  · rintro ⟨irp', stmts, hirp, hlower', hall⟩
    obtain rfl := Option.some.inj (accepted.symm.trans hirp)
    obtain ⟨-, rfl⟩ := Prod.mk.inj (Option.some.inj (hlower.symm.trans hlower'))
    obtain hzero | hpos := Nat.eq_zero_or_pos concThreads
    · exact Or.inl hzero
    · refine Or.inr fun stmt hstmt => ?_
      rw [← hmap] at hstmt
      obtain ⟨s, hs, rfl⟩ := List.mem_map.mp hstmt
      have hlt : (0 : ℤ) < concThreads := by exact_mod_cast hpos
      exact (hmeans s hs 0 (Int.le_refl 0) hlt).mp (hall s hs 0 (Int.le_refl 0) hlt)
  · intro hright
    refine ⟨irp, globals ++ threads, accepted, hlower, fun s hs slot hslot hlt => ?_⟩
    refine (hmeans s hs slot hslot hlt).mpr (hright.resolve_left ?_ s.stmt ?_)
    · rintro rfl
      exact absurd (hslot.trans_lt hlt) (Int.lt_irrefl _)
    · rw [← hmap]
      exact List.mem_map_of_mem hs

end Programs

section Examples

/-- A program that broadcasts, reads one word of a vector and stores a whole one. -/
def plainMoves : Program where
  globalStmts := [.variableDeclaration .register "p" ["q"], .variableDeclaration .registers "x" []]
  threadStmts :=
    [.plain (.loadVariable "x" (.variable "q" none)),
      .plain (.loadVariable "q" (.variable "x" (some (.numberString false [3])))),
      .plain (.storeMemory "p" (.variable "x" none))]

theorem movesMean_plainMoves : MovesMean plainMoves 4 2 := by
  obtain ⟨irp, accepted⟩ := Option.isSome_iff_exists.mp
    (show (programToIrp plainMoves 4 2).isSome by decide +kernel)
  refine (movesMean_iff accepted).mpr (Or.inr fun stmt hstmt => ?_)
  simp only [plainMoves, Program.plainStmts, Program.threadPlain, reachStmts, reachStmt,
    List.cons_append, List.nil_append, List.map_cons, List.map_nil, List.mem_cons,
    List.not_mem_nil, or_false] at hstmt
  obtain rfl | rfl | rfl | rfl | rfl := hstmt <;>
    simp [PlainStmt.Misread, Program.isRegisters, Program.plainStmts, Program.threadPlain,
      PlainStmt.declared, plainMoves, reachStmts, reachStmt]

/-- A program that copies a vector. -/
def vectorCopy : Program where
  globalStmts := [.variableDeclaration .registers "x" ["y"], .loadVariable "x" (.variable "y" none)]
  threadStmts := []

/-- After `x = y` all words of `x` are `y[0]`. -/
theorem not_movesMean_vectorCopy :
    (programToIrp vectorCopy 1 1).isSome ∧ ¬ MovesMean vectorCopy 1 1 := by
  refine ⟨by decide +kernel, ?_⟩
  rintro ⟨irp, stmts, -, hlower, hall⟩
  obtain ⟨hmap, hmeans⟩ := means_iff_of_lowerStmts hlower
  have hcopy : PlainStmt.loadVariable "x" (.variable "y" none) ∈ stmts.map LoweredStmt.stmt := by
    rw [hmap]
    simp [Program.plainStmts, vectorCopy]
  obtain ⟨s, hs, hstmt⟩ := List.mem_map.mp hcopy
  refine (hmeans s hs 0 (Int.le_refl 0) Int.one_pos).mp (hall s hs 0 (Int.le_refl 0) Int.one_pos) ?_
  rw [hstmt]
  simp [PlainStmt.Misread, Program.isRegisters, Program.plainStmts, PlainStmt.declared, vectorCopy]

end Examples

end Explore.Takehome
