import Explore.Lib.Outcome
import Explore.Takehome.Declared
import Explore.Takehome.Hazards
import Explore.Takehome.Words

/-!
# Setting `tidxlen` for all threads at once

With more than `2 * VLEN` concurrent threads, `get_tidmetas` sets the first `VLEN` slots of
`tidxlen` one by one and the others by vector additions, each of `VLEN * VLEN` to the `VLEN`
slots before. The last addition starts further back, so that it ends with the last slot; it
then writes some slots again, with what they already hold. The loop invariant is that the
slots before `npos` are set.
-/

namespace Explore.Takehome

/-- The words of all slots of a variable. -/
def VariableMeta.words (vm : VariableMeta) : List ℕ := List.range' vm.addr vm.size

/-- Every slot of `tidxlen` holds `VLEN` times its number, the register of the constant 2 holds
2 in every word, and nothing else has changed. -/
structure TidxlenSet (concThreads : ℕ) (tids two : VariableMeta) (m m' : Machine) : Prop where
  slots : ∀ i < concThreads, ∃ addr val, tids.addrOf i = some addr ∧
    m'.scratch[addr]? = some val ∧ val.toNat = VLEN * i
  const : ∀ addr ∈ two.words, m'.scratch[addr]? = some 2
  other : ∀ addr, addr ∉ tids.words → addr ∉ two.words → m'.scratch[addr]? = m.scratch[addr]?
  mem : m'.mem = m.mem

/-- The global instructions of `get_tidmetas` set `tidxlen` for every concurrent thread, in any
slot and from any scratch contents, and touch the block of `tidxlen` and the register of the
constant 2 only. -/
def SetsTidxlen (ss : ScratchSpace) (numThreads concThreads : ℕ) : Prop :=
  ∃ ss' tids two tidspecific global,
    getTidmetas ss numThreads concThreads = some (ss', tidspecific, global) ∧
    ss'.varMetaOf tidxlen = some tids ∧ ss'.varMetaOf (.const 2 true) = some two ∧
    tids.size = concThreads ∧ two.size = VLEN ∧
    (∀ slot : ℤ, ∀ m : Machine, m.scratch.length = SCRATCH_SIZE →
      ∃ m', m.execAll ss' slot global = some m' ∧ TidxlenSet concThreads tids two m m') ∧
    ∀ slot : ℤ, ∀ linst ∈ global, ∃ inst, toSerialized ss' slot linst = some inst ∧
      ∀ loc ∈ inst.touched, loc ∈ tids.words ∨ loc ∈ two.words

section Machine

variable {m m' : Machine} {dest a1 a2 : ℕ}

/-- The scratch space after consecutive words have got new values. -/
theorem exists_put_scratch (m : Machine) {ws : List Word}
    (hfits : dest + ws.length ≤ m.scratch.length) :
    ∃ m', m.put (fun i => .scratch (dest + i)) ws = some m' ∧ m'.mem = m.mem ∧
      m'.scratch.length = m.scratch.length ∧
      ∀ addr, m'.scratch[addr]? =
        if dest ≤ addr ∧ addr < dest + ws.length then ws[addr - dest]? else m.scratch[addr]? := by
  induction ws using List.reverseRecOn with
  | nil => exact ⟨m, rfl, rfl, rfl, fun addr => (if_neg (by simp)).symm⟩
  | append_singleton ws w ih =>
      rw [List.length_append, List.length_singleton] at hfits
      obtain ⟨mid, hmid, hmem, hlength, hget⟩ := ih (by omega)
      have hlast : dest + ws.length < mid.scratch.length := by omega
      refine ⟨{ mid with scratch := mid.scratch.set (dest + ws.length) w }, ?_, hmem, ?_, ?_⟩
      · rw [put_append, hmid, Option.bind_some, Machine.write, if_pos hlast]
      · rw [List.length_set, hlength]
      · intro addr
        rw [List.length_append, List.length_singleton]
        by_cases heq : addr = dest + ws.length
        · subst heq
          simp [hlast]
        · rw [List.getElem?_set_ne (Ne.symm heq), hget addr]
          by_cases hin : dest ≤ addr ∧ addr < dest + ws.length
          · rw [if_pos hin, if_pos (by omega), List.getElem?_append_left (by omega)]
          · rw [if_neg hin, if_neg (by omega)]

theorem exec_const (m : Machine) (dest : ℕ) (val : ℤ) :
    m.exec (.const dest val) = m.put (fun i => .scratch (dest + i)) [word val] := by
  rw [Machine.exec_eq, Machine.put]
  rfl

theorem exec_valu_add {us vs : ℕ → Word} (h1 : ∀ k < VLEN, m.scratch[a1 + k]? = some (us k))
    (h2 : ∀ k < VLEN, m.scratch[a2 + k]? = some (vs k)) :
    m.exec (.valu .add dest a1 a2) =
      m.put (fun i => .scratch (dest + i)) ((List.range VLEN).map fun k => us k + vs k) := by
  have hlanes := @mapM_range_eq _ (aluLane m.read .add dest a1 a2)
    ((List.range VLEN).map fun k => (Loc.scratch (dest + k), us k + vs k))
  rw [List.length_map, List.length_range] at hlanes
  have hwrites := hlanes fun k hk => by
    simp [aluLane, Machine.read, h1 k hk, h2 k hk, AluOp.eval, hk]
  rw [Machine.exec_eq, Machine.put, Inst.writes, hwrites, Option.bind_some]
  refine congrArg (List.foldlM Machine.write m) (List.ext_getElem (by simp) fun k _ _ => ?_)
  simp

theorem execAll_append (m : Machine) (ss : ScratchSpace) (slot : ℤ)
    (first second : List LogicalInstruction) :
    m.execAll ss slot (first ++ second) =
      (m.execAll ss slot first).bind (·.execAll ss slot second) :=
  List.foldlM_append

theorem execAll_cons (m : Machine) (ss : ScratchSpace) (slot : ℤ) (linst : LogicalInstruction)
    (rest : List LogicalInstruction) :
    m.execAll ss slot (linst :: rest) =
      ((toSerialized ss slot linst).bind m.exec).bind (·.execAll ss slot rest) := by
  rw [Machine.execAll, List.foldlM_cons]
  cases toSerialized ss slot linst <;> rfl

end Machine

section Blocks

/-- The blocks of different variables share no word. -/
theorem layout_disjoint {blocks : List VariableMeta} {ptr : ℕ} (h : Layout blocks ptr)
    {vm vm' : VariableMeta} (hvm : vm ∈ blocks) (hvm' : vm' ∈ blocks) (hne : vm.name ≠ vm'.name) :
    vm.addr + vm.size ≤ vm'.addr ∨ vm'.addr + vm'.size ≤ vm.addr := by
  induction blocks generalizing ptr with
  | nil => cases hvm
  | cons first blocks ih =>
      obtain ⟨-, -, hrest⟩ := h
      obtain heq | hvm := List.mem_cons.mp hvm <;> obtain heq' | hvm' := List.mem_cons.mp hvm'
      · exact absurd (congrArg VariableMeta.name (heq.trans heq'.symm)) hne
      · exact Or.inr (heq ▸ layout_le hrest _ hvm')
      · exact Or.inl (heq' ▸ layout_le hrest _ hvm)
      · exact ih hrest hvm hvm'

/-- Where `tidxlen` and the constant 2 are. -/
structure TidBlocks (ss : ScratchSpace) (concThreads base two : ℕ) : Prop where
  tids : ss.varMetaOf tidxlen = some ⟨tidxlen, base, 1, concThreads⟩
  two : ss.varMetaOf (.const 2 true) = some ⟨.const 2 true, two, VLEN, 1⟩

variable {ss : ScratchSpace} {slot : ℤ} {concThreads base two : ℕ}

theorem TidBlocks.fits (h : TidBlocks ss concThreads base two) :
    base + concThreads ≤ SCRATCH_SIZE ∧ two + VLEN ≤ SCRATCH_SIZE := by
  have htids := layout_le ss.layout _ (List.mem_of_find?_eq_some h.tids)
  have htwo := layout_le ss.layout _ (List.mem_of_find?_eq_some h.two)
  have := ss.fits
  simp only [VariableMeta.size] at htids htwo
  omega

theorem TidBlocks.disjoint (h : TidBlocks ss concThreads base two) :
    base + concThreads ≤ two ∨ two + VLEN ≤ base := by
  have := layout_disjoint ss.layout (List.mem_of_find?_eq_some h.tids)
    (List.mem_of_find?_eq_some h.two) nofun
  simp only [VariableMeta.size] at this
  omega

theorem TidBlocks.addrOf_two (h : TidBlocks ss concThreads base two) (isVector isRead : Bool) :
    (wholeVariable (.const 2 true) isVector isRead).addrOf ss slot = some two := by
  rw [addrOf_whole h.two]
  rfl

theorem TidBlocks.addrOf_array (h : TidBlocks ss concThreads base two) (hpos : 0 < concThreads)
    (offset : ℕ) (isVector isRead : Bool) :
    (LogicalOp.array ⟨tidxlen, offset, isVector, isRead⟩).addrOf ss slot =
      some (base + offset) := by
  have haddr : VariableMeta.addrOf ⟨tidxlen, base, 1, concThreads⟩ 0 = some base := by
    simp [VariableMeta.addrOf, hpos]
  rw [LogicalOp.addrOf, ArrayOp.addrOf]
  simp [h.tids, haddr]

theorem TidBlocks.toSerialized_setConstant (h : TidBlocks ss concThreads base two) (slot val : ℤ) :
    toSerialized ss slot (.const (scalarWithinVector (.const 2 true) 0 false) val) =
        some (.const two val) ∧
      toSerialized ss slot (.vbroadcast (wholeVariable (.const 2 true) true false)
        (scalarWithinVector (.const 2 true) 0 true)) = some (.vbroadcast two two) := by
  have hscalar (isRead : Bool) :
      (scalarWithinVector (.const 2 true) 0 isRead).addrOf ss slot = some two :=
    h.addrOf_two false isRead
  simp [toSerialized, Inst.mapM, hscalar, h.addrOf_two true]

/-- The instruction that sets slot `i`. -/
def setSlot (i : ℕ) : LogicalInstruction :=
  .const (.array ⟨tidxlen, i, false, false⟩) (i * VLEN : ℕ)

/-- The instruction that sets `VLEN` slots from `start` on. -/
def addSlots (start : ℕ) : LogicalInstruction :=
  .valu .add (.array ⟨tidxlen, start, true, false⟩) (.array ⟨tidxlen, start - VLEN, true, true⟩)
    (wholeVariable (.const 2 true) true true)

theorem TidBlocks.toSerialized_setSlot (h : TidBlocks ss concThreads base two)
    (hpos : 0 < concThreads) (i : ℕ) :
    toSerialized ss slot (setSlot i) = some (.const (base + i) (i * VLEN : ℕ)) := by
  simp [setSlot, toSerialized, Inst.mapM, h.addrOf_array hpos]

theorem TidBlocks.toSerialized_addSlots (h : TidBlocks ss concThreads base two)
    (hpos : 0 < concThreads) (start : ℕ) :
    toSerialized ss slot (addSlots start) =
      some (.valu .add (base + start) (base + (start - VLEN)) two) := by
  simp [addSlots, toSerialized, Inst.mapM, h.addrOf_array hpos, h.addrOf_two]

end Blocks

section Loop

variable {ss : ScratchSpace} {slot : ℤ} {concThreads base two npos fuel : ℕ} {m₀ m : Machine}

/-- The loop invariant: the slots before `npos` are set, and outside the two blocks nothing has
changed. -/
structure TidState (concThreads base two npos : ℕ) (m₀ m : Machine) : Prop where
  length : m.scratch.length = SCRATCH_SIZE
  mem : m.mem = m₀.mem
  slots : ∀ i < npos, m.scratch[base + i]? = some (word (i * VLEN : ℕ))
  other : ∀ addr, ¬ (base ≤ addr ∧ addr < base + concThreads) →
    ¬ (two ≤ addr ∧ addr < two + VLEN) → m.scratch[addr]? = m₀.scratch[addr]?

/-- The register of the constant 2 holds `val` in every word. -/
def Holds (two : ℕ) (val : Word) (m : Machine) : Prop :=
  ∀ k < VLEN, m.scratch[two + k]? = some val

theorem TidState.put_two (blocks : TidBlocks ss concThreads base two) (hle : npos ≤ concThreads)
    (h : TidState concThreads base two npos m₀ m) (ws : List Word) (hws : ws.length ≤ VLEN) :
    ∃ m', m.put (fun i => .scratch (two + i)) ws = some m' ∧
      TidState concThreads base two npos m₀ m' ∧
      ∀ k < ws.length, m'.scratch[two + k]? = ws[k]? := by
  have hdisj := blocks.disjoint
  have hfits := blocks.fits
  have hlength := h.length
  obtain ⟨m', hput, hmem, hlength', hget⟩ := @exists_put_scratch two m ws (by omega)
  refine ⟨m', hput, ⟨hlength'.trans hlength, hmem.trans h.mem, fun i hi => ?_,
    fun addr htids htwo => ?_⟩, fun k hk => ?_⟩
  · rw [hget, if_neg (by omega)]
    exact h.slots i hi
  · rw [hget, if_neg (by omega)]
    exact h.other addr htids htwo
  · rw [hget, if_pos (by omega), Nat.add_sub_cancel_left]

/-- Slots are set from one that is set, or the first that is not. -/
theorem TidState.put_slots (blocks : TidBlocks ss concThreads base two) {start : ℕ} {val : Word}
    (ws : List Word) (hstart : start ≤ npos) (hend : start + ws.length ≤ concThreads)
    (h : TidState concThreads base two npos m₀ m) (hconst : Holds two val m)
    (hws : ∀ k < ws.length, ws[k]? = some (word ((start + k) * VLEN : ℕ))) :
    ∃ m', m.put (fun i => .scratch (base + start + i)) ws = some m' ∧
      TidState concThreads base two (start + ws.length) m₀ m' ∧ Holds two val m' := by
  have hdisj := blocks.disjoint
  have hfits := blocks.fits
  have hlength := h.length
  obtain ⟨m', hput, hmem, hlength', hget⟩ := @exists_put_scratch (base + start) m ws (by omega)
  refine ⟨m', hput, ⟨hlength'.trans hlength, hmem.trans h.mem, fun i hi => ?_,
    fun addr htids htwo => ?_⟩, fun k hk => ?_⟩
  · by_cases hold : i < start
    · rw [hget, if_neg (by omega)]
      exact h.slots i (by omega)
    · obtain ⟨k, rfl⟩ := Nat.exists_eq_add_of_le (Nat.le_of_not_lt hold)
      rw [hget, if_pos (by omega), ← Nat.add_assoc, Nat.add_sub_cancel_left]
      exact hws k (by omega)
  · rw [hget, if_neg (by omega)]
    exact h.other addr htids htwo
  · rw [hget, if_neg (by omega)]
    exact hconst k hk

theorem TidState.setConstant (blocks : TidBlocks ss concThreads base two)
    (hle : npos ≤ concThreads) (h : TidState concThreads base two npos m₀ m) (slot val : ℤ) :
    ∃ m', m.execAll ss slot (Takehome.setConstant 2 val) = some m' ∧
      TidState concThreads base two npos m₀ m' ∧ Holds two (word val) m' := by
  obtain ⟨mid, hmid, hstate, hfirst⟩ := h.put_two blocks hle [word val] (Nat.le_add_left 1 7)
  have hread : mid.scratch[two]? = some (word val) := hfirst 0 Nat.one_pos
  obtain ⟨m', hm', hstate', hall⟩ :=
    hstate.put_two blocks hle (List.replicate VLEN (word val)) List.length_replicate.le
  rw [List.length_replicate] at hall
  refine ⟨m', ?_, hstate', fun k hk => (hall k hk).trans (List.getElem?_replicate_of_lt hk)⟩
  obtain ⟨hconst, hbroadcast⟩ := blocks.toSerialized_setConstant slot val
  rw [Takehome.setConstant, execAll_cons, hconst, Option.bind_some, exec_const, hmid,
    Option.bind_some, execAll_single, hbroadcast, Option.bind_some, exec_vbroadcast hread, hm']

theorem TidState.setSlot (blocks : TidBlocks ss concThreads base two) (hlt : npos < concThreads)
    (h : TidState concThreads base two npos m₀ m) {val : Word} (hconst : Holds two val m)
    (slot : ℤ) :
    ∃ m', (toSerialized ss slot (Takehome.setSlot npos)).bind m.exec = some m' ∧
      TidState concThreads base two (npos + 1) m₀ m' ∧ Holds two val m' := by
  obtain ⟨m', hput, hstate⟩ := h.put_slots blocks [word (npos * VLEN : ℕ)] (Nat.le_refl _) hlt
    hconst fun k hk => by
      obtain rfl := Nat.lt_one_iff.mp hk
      rfl
  refine ⟨m', ?_, hstate⟩
  rw [blocks.toSerialized_setSlot (Nat.zero_lt_of_lt hlt), Option.bind_some, exec_const, hput]

/-- The first slots are set one by one. -/
theorem TidState.setSlots (blocks : TidBlocks ss concThreads base two) {n : ℕ}
    (hn : n ≤ concThreads) (h : TidState concThreads base two 0 m₀ m) {val : Word}
    (hconst : Holds two val m) (slot : ℤ) :
    ∃ m', m.execAll ss slot ((List.range n).map Takehome.setSlot) = some m' ∧
      TidState concThreads base two n m₀ m' ∧ Holds two val m' := by
  induction n with
  | zero => exact ⟨m, rfl, h, hconst⟩
  | succ n ih =>
      obtain ⟨mid, hmid, hstate, hholds⟩ := ih (Nat.le_of_succ_le hn)
      obtain ⟨m', hm', hlast⟩ := hstate.setSlot blocks hn hholds slot
      refine ⟨m', ?_, hlast⟩
      rw [List.range_succ, List.map_append, execAll_append, hmid, Option.bind_some,
        List.map_singleton, execAll_single, hm']

/-- One vector addition sets `VLEN` slots from those before. -/
theorem TidState.addSlots (blocks : TidBlocks ss concThreads base two) {start : ℕ}
    (h8 : VLEN ≤ start) (hstart : start ≤ npos) (hend : start + VLEN ≤ concThreads)
    (h : TidState concThreads base two npos m₀ m)
    (hconst : Holds two (word (VLEN * VLEN : ℕ)) m) (slot : ℤ) :
    ∃ m', (toSerialized ss slot (Takehome.addSlots start)).bind m.exec = some m' ∧
      TidState concThreads base two (start + VLEN) m₀ m' ∧
      Holds two (word (VLEN * VLEN : ℕ)) m' := by
  have hpos : 0 < concThreads := (Nat.succ_pos _).trans_le ((Nat.le_add_left ..).trans hend)
  have hsource : ∀ k < VLEN,
      m.scratch[base + (start - VLEN) + k]? = some (word ((start - VLEN + k) * VLEN : ℕ)) := by
    intro k hk
    rw [Nat.add_assoc]
    exact h.slots _ (by omega)
  have hsum (k : ℕ) : word ((start - VLEN + k) * VLEN : ℕ) + word (VLEN * VLEN : ℕ) =
      word ((start + k) * VLEN : ℕ) := by
    obtain ⟨before, rfl⟩ := Nat.exists_eq_add_of_le' h8
    rw [word, word, word, ← BitVec.ofInt_add, Nat.add_sub_cancel, ← Nat.cast_add, ← Nat.add_mul,
      Nat.add_right_comm]
  obtain ⟨m', hput, hstate⟩ := h.put_slots blocks
    ((List.range VLEN).map fun k =>
      word ((start - VLEN + k) * VLEN : ℕ) + word (VLEN * VLEN : ℕ))
    hstart (by simpa using hend) hconst fun k hk => by
      rw [List.length_map, List.length_range] at hk
      rw [List.getElem?_map, List.getElem?_range hk, Option.map_some, hsum]
  rw [List.length_map, List.length_range] at hstate
  refine ⟨m', ?_, hstate⟩
  rw [blocks.toSerialized_addSlots hpos, Option.bind_some, exec_valu_add hsource hconst,
    hput]

/-- The next addition starts at `npos` or before, and goes beyond `npos`. -/
theorem tidStarts_succ (hconc : 2 * VLEN < concThreads) (h8 : VLEN ≤ npos)
    (hnpos : npos < concThreads) :
    ∃ start, tidStarts concThreads (fuel + 1) npos =
        start :: tidStarts concThreads fuel (start + VLEN) ∧
      VLEN ≤ start ∧ start ≤ npos ∧ start + VLEN ≤ concThreads ∧ npos < start + VLEN := by
  rw [tidStarts, if_pos hnpos]
  refine ⟨_, rfl, ?_⟩
  by_cases hfull : npos + VLEN - 1 < concThreads
  · rw [if_pos hfull]
    simp only [VLEN] at *
    omega
  · rw [if_neg hfull]
    simp only [VLEN] at *
    omega

/-- The loop sets all slots that are left. -/
theorem TidState.addAll (blocks : TidBlocks ss concThreads base two)
    (hconc : 2 * VLEN < concThreads) (h8 : VLEN ≤ npos) (hle : npos ≤ concThreads)
    (hfuel : concThreads ≤ npos + fuel) (h : TidState concThreads base two npos m₀ m)
    (hconst : Holds two (word (VLEN * VLEN : ℕ)) m) (slot : ℤ) :
    ∃ m', m.execAll ss slot ((tidStarts concThreads fuel npos).map Takehome.addSlots) = some m' ∧
      TidState concThreads base two concThreads m₀ m' := by
  induction fuel generalizing npos m with
  | zero =>
      obtain rfl : npos = concThreads := by omega
      exact ⟨m, rfl, h⟩
  | succ fuel ih =>
      by_cases hnpos : npos < concThreads
      · obtain ⟨start, hstarts, hstart8, hstart, hend, hmore⟩ := tidStarts_succ hconc h8 hnpos
        obtain ⟨mid, hmid, hstate, hholds⟩ := h.addSlots blocks hstart8 hstart hend hconst slot
        obtain ⟨m', hm', hall⟩ := ih (Nat.le_add_left ..) hend (by omega) hstate hholds
        refine ⟨m', ?_, hall⟩
        rw [hstarts, List.map_cons, execAll_cons, hmid, Option.bind_some, hm']
      · obtain rfl : npos = concThreads := by omega
        rw [tidStarts, if_neg hnpos]
        exact ⟨m, rfl, h⟩

/-- Every addition is inside the block, and so is what it reads. -/
theorem tidStarts_bounds (hconc : 2 * VLEN < concThreads) (h8 : VLEN ≤ npos) :
    ∀ start ∈ tidStarts concThreads fuel npos, VLEN ≤ start ∧ start + VLEN ≤ concThreads := by
  induction fuel generalizing npos with
  | zero => exact List.forall_mem_nil _
  | succ fuel ih =>
      by_cases hnpos : npos < concThreads
      · obtain ⟨start, hstarts, hstart8, -, hend, -⟩ := @tidStarts_succ _ _ fuel hconc h8 hnpos
        rw [hstarts]
        exact List.forall_mem_cons.mpr ⟨⟨hstart8, hend⟩, ih (Nat.le_add_left ..)⟩
      · rw [tidStarts, if_neg hnpos]
        exact List.forall_mem_nil _

end Loop

section Tidmetas

variable {ss ss' : ScratchSpace} {slot : ℤ} {numThreads concThreads base two : ℕ} {firstTime : Bool}

/-- The global instructions, and where they are about. -/
def tidGlobals (concThreads : ℕ) : List LogicalInstruction :=
  setConstant 2 (VLEN * VLEN : ℕ) ++ (List.range VLEN).map setSlot ++
    (tidStarts concThreads concThreads VLEN).map addSlots ++ setConstant 2 2

theorem getTidmetas_eq (hconc : 2 * VLEN < concThreads) (hle : concThreads ≤ numThreads)
    (hnum : numThreads ≤ 100) (hhas : ss.hasVariable tidxlen = true)
    (halloc : ss.allocConst 2 true = some (ss', firstTime))
    (blocks : TidBlocks ss' concThreads base two) :
    ∃ tidspecific, getTidmetas ss numThreads concThreads =
      some (ss', tidspecific, tidGlobals concThreads) := by
  have hof {offset : ℕ} {isVector : Bool} (isRead : Bool) (hlt : offset < concThreads)
      (hend : isVector = true → offset + VLEN ≤ concThreads) :
      ArrayOp.of ss' tidxlen offset isVector isRead =
        some ⟨tidxlen, offset, isVector, isRead⟩ := by
    rw [ArrayOp.of, blocks.tids]
    have hend' : isVector → offset + VLEN ≤ concThreads * 1 := by simpa using hend
    exact if_pos ⟨by simpa [VariableMeta.size] using hlt, hend'⟩
  have hfirsts : (List.range VLEN).mapM (fun i => do
      return Inst.const (.array (← ArrayOp.of ss' tidxlen i false false)) (i * VLEN : ℕ)) =
      some ((List.range VLEN).map setSlot) := by
    refine mapM_eq_map fun i hi => ?_
    have hi := List.mem_range.mp hi
    rw [hof false (by omega) fun h => by cases h]
    rfl
  have hadds : (tidStarts concThreads concThreads VLEN).mapM (fun start => do
      return Inst.valu .add (.array (← ArrayOp.of ss' tidxlen start true false))
        (.array (← ArrayOp.of ss' tidxlen (start - VLEN) true true))
        (wholeVariable (.const 2 true) true true)) =
      some ((tidStarts concThreads concThreads VLEN).map addSlots) := by
    refine mapM_eq_map fun start hstart => ?_
    obtain ⟨h8, hend⟩ := tidStarts_bounds hconc (Nat.le_refl _) start hstart
    have hpos : 0 < VLEN := Nat.succ_pos 7
    rw [hof false (by omega) fun _ => hend, hof true (by omega) fun _ => by omega]
    rfl
  have hspecific : (List.range' concThreads (numThreads - concThreads)).mapM tidMeta =
      some ((List.range' concThreads (numThreads - concThreads)).map fun tid =>
        (tid, .const (wholeVariable tidxlen false false) (tid * VLEN : ℕ))) := by
    refine mapM_eq_map fun tid htid => ?_
    obtain ⟨i, hi, rfl⟩ := List.mem_range'.mp htid
    have hin : INFINITE_SET (concThreads + 1 * i : ℕ) = true := by
      rw [INFINITE_SET, decide_eq_true_eq]
      omega
    rw [tidMeta, if_pos hin]
  refine ⟨(List.range' concThreads (numThreads - concThreads)).map fun tid =>
    (tid, .const (wholeVariable tidxlen false false) (tid * VLEN : ℕ)), ?_⟩
  rw [getTidmetas, guard, if_pos hle]
  simp only [hhas, not_true, if_false, if_neg (Nat.not_le_of_lt hconc), halloc,
    Option.pure_def, Option.bind_eq_bind, Option.bind_some]
  simp only [Option.pure_def, Option.bind_eq_bind] at hfirsts hadds
  rw [hfirsts, hadds, hspecific]
  rfl

/-- What the global instructions do. -/
theorem execAll_tidGlobals (blocks : TidBlocks ss concThreads base two)
    (hconc : 2 * VLEN < concThreads) (slot : ℤ) (m : Machine)
    (hlength : m.scratch.length = SCRATCH_SIZE) :
    ∃ m', m.execAll ss slot (tidGlobals concThreads) = some m' ∧
      TidxlenSet concThreads ⟨tidxlen, base, 1, concThreads⟩
        ⟨.const 2 true, two, VLEN, 1⟩ m m' := by
  have h8 : VLEN ≤ concThreads := by omega
  have hstart : TidState concThreads base two 0 m m :=
    ⟨hlength, rfl, fun _ hi => absurd hi (Nat.not_lt_zero _), fun _ _ _ => rfl⟩
  obtain ⟨m₁, hm₁, hstate₁, hconst₁⟩ :=
    hstart.setConstant blocks (Nat.zero_le _) slot (VLEN * VLEN : ℕ)
  obtain ⟨m₂, hm₂, hstate₂, hconst₂⟩ := hstate₁.setSlots blocks h8 hconst₁ slot
  obtain ⟨m₃, hm₃, hstate₃⟩ := hstate₂.addAll blocks hconc (Nat.le_refl _) h8
    (Nat.le_add_left concThreads VLEN) hconst₂ slot
  obtain ⟨m₄, hm₄, hstate₄, hconst₄⟩ := hstate₃.setConstant blocks (Nat.le_refl _) slot 2
  refine ⟨m₄, ?_, ⟨fun i hi => ?_, fun addr haddr => ?_, fun addr htids htwo => ?_, hstate₄.mem⟩⟩
  · rw [tidGlobals, execAll_append, execAll_append, execAll_append, hm₁, Option.bind_some, hm₂,
      Option.bind_some, hm₃, Option.bind_some, hm₄]
  · have hne : concThreads ≠ 1 := by
      rintro rfl
      exact absurd hconc (Nat.not_lt_of_le (Nat.le_add_left 1 15))
    have haddr : VariableMeta.addrOf ⟨tidxlen, base, 1, concThreads⟩ i = some (base + i) := by
      simp [VariableMeta.addrOf, hi, hne]
    refine ⟨base + i, word (i * VLEN : ℕ), haddr, hstate₄.slots i hi, ?_⟩
    have hfits := blocks.fits.1
    rw [word, BitVec.ofInt_natCast, BitVec.toNat_ofNat, Nat.mul_comm, Nat.mod_eq_of_lt]
    simp only [SCRATCH_SIZE, VLEN] at *
    omega
  · obtain ⟨k, hk, rfl⟩ := List.mem_range'.mp haddr
    rw [Nat.one_mul]
    exact hconst₄ k (by simpa [VariableMeta.size] using hk)
  · refine hstate₄.other addr (fun hin => htids ?_) (fun hin => htwo ?_)
    · exact List.mem_range'_1.mpr (by simpa [VariableMeta.size] using hin)
    · exact List.mem_range'_1.mpr (by simpa [VariableMeta.size] using hin)

/-- The words that the global instructions touch. -/
theorem touched_tidGlobals (blocks : TidBlocks ss concThreads base two)
    (hconc : 2 * VLEN < concThreads) (slot : ℤ) :
    ∀ linst ∈ tidGlobals concThreads, ∃ inst, toSerialized ss slot linst = some inst ∧
      ∀ loc ∈ inst.touched, loc ∈ VariableMeta.words ⟨tidxlen, base, 1, concThreads⟩ ∨
        loc ∈ VariableMeta.words ⟨.const 2 true, two, VLEN, 1⟩ := by
  have htids (loc : ℕ) : loc ∈ VariableMeta.words ⟨tidxlen, base, 1, concThreads⟩ ↔
      base ≤ loc ∧ loc < base + concThreads := by
    simp [VariableMeta.words, VariableMeta.size]
  have htwo (loc : ℕ) : loc ∈ VariableMeta.words ⟨.const 2 true, two, VLEN, 1⟩ ↔
      two ≤ loc ∧ loc < two + 8 := by
    simp [VariableMeta.words, VariableMeta.size, VLEN]
  have hsetConstant (val : ℤ) : ∀ linst ∈ setConstant 2 val,
      ∃ inst, toSerialized ss slot linst = some inst ∧ ∀ loc ∈ inst.touched,
        loc ∈ VariableMeta.words ⟨tidxlen, base, 1, concThreads⟩ ∨
          loc ∈ VariableMeta.words ⟨.const 2 true, two, VLEN, 1⟩ := by
    obtain ⟨hconst, hbroadcast⟩ := blocks.toSerialized_setConstant slot val
    intro linst hlinst
    obtain rfl | hlinst := List.mem_cons.mp hlinst
    · refine ⟨_, hconst, fun loc hloc => Or.inr ((htwo loc).mpr ?_)⟩
      obtain rfl := List.mem_singleton.mp hloc
      omega
    · obtain rfl := List.mem_singleton.mp hlinst
      refine ⟨_, hbroadcast, fun loc hloc => Or.inr ((htwo loc).mpr ?_)⟩
      obtain hloc | hloc := List.mem_append.mp hloc
      · exact mem_lanes.mp hloc
      · obtain rfl := List.mem_singleton.mp hloc
        omega
  have hpos : 0 < concThreads := Nat.zero_lt_of_lt hconc
  intro linst hlinst
  obtain hlinst | hlinst := List.mem_append.mp hlinst
  · obtain hlinst | hlinst := List.mem_append.mp hlinst
    · obtain hlinst | hlinst := List.mem_append.mp hlinst
      · exact hsetConstant _ linst hlinst
      · obtain ⟨i, hi, rfl⟩ := List.mem_map.mp hlinst
        have hi := List.mem_range.mp hi
        refine ⟨_, blocks.toSerialized_setSlot hpos i, fun loc hloc => Or.inl ((htids loc).mpr ?_)⟩
        obtain rfl := List.mem_singleton.mp hloc
        omega
    · obtain ⟨start, hstart, rfl⟩ := List.mem_map.mp hlinst
      obtain ⟨h8, hend⟩ := tidStarts_bounds hconc (Nat.le_refl _) start hstart
      refine ⟨_, blocks.toSerialized_addSlots hpos start, fun loc hloc => ?_⟩
      rw [htids, htwo]
      simp only [Inst.touched, List.mem_append, mem_lanes] at hloc
      simp only [VLEN] at *
      omega
  · exact hsetConstant _ linst hlinst

end Tidmetas

section Programs

variable {program : Program} {numThreads concThreads : ℕ} {irp : IRPipeline}
  {ss ss' : ScratchSpace} {n : ℕ}

theorem foldlM_registerVariable_block {slots : ℕ} {names : List String} (h : ss.Shaped slots)
    (hn : n = 1 ∨ n = slots) (hreg : names.foldlM (registerVariable · .register n) ss = some ss')
    {name : String} (hname : name ∈ names) :
    ∃ base, ss'.varMetaOf (.var name) = some ⟨.var name, base, 1, n⟩ := by
  induction names generalizing ss with
  | nil => cases hname
  | cons first names ih =>
      rw [List.foldlM_cons] at hreg
      obtain ⟨mid, hfirst, hrest⟩ := Option.bind_eq_some_iff.mp hreg
      obtain ⟨-, hmid⟩ := registerVariable_spec h hn hfirst
      obtain rfl | hname := List.mem_cons.mp hname
      · have hblock := ScratchSpace.varMetaOf_allocScratch hfirst
        exact ⟨_, (foldlM_registerVariable_spec hmid hn hrest).1.varMeta _ _ hblock⟩
      · exact ih hmid hrest hname

/-- A scalar that a statement declares has a word for each slot. -/
theorem lowerPlain_block {slots : ℕ} {stmt : PlainStmt} {lowered : Lowered}
    {instrs : List LogicalInstruction} (h : ss.Shaped slots) (hn : n = 1 ∨ n = slots)
    (hlower : lowerPlain ss n stmt = some (lowered, instrs)) {name : String}
    (hname : (.register, name) ∈ stmt.declared) :
    ∃ base, lowered.ss.varMetaOf (.var name) = some ⟨.var name, base, 1, n⟩ := by
  cases stmt with
  | variableDeclaration varType first others =>
      obtain ⟨ss₁, hreg, hret⟩ := Option.bind_eq_some_iff.mp hlower
      obtain ⟨rfl, -⟩ := Prod.mk.inj (Option.some.inj hret)
      obtain ⟨name', hmem, heq⟩ := List.mem_map.mp hname
      obtain ⟨rfl, rfl⟩ := Prod.mk.inj heq
      exact foldlM_registerVariable_block h hn hreg hmem
  | variableDefinition varType first value =>
      obtain ⟨ss₁, hreg, hvalue⟩ := Option.bind_eq_some_iff.mp hlower
      obtain ⟨rfl, rfl⟩ := Prod.mk.inj (List.mem_singleton.mp hname)
      have hblock := ScratchSpace.varMetaOf_allocScratch (show ss.allocScratch _ 1 n = _ from hreg)
      exact ⟨_, (sameVars_handleVariableAssignment hvalue name).trans hblock⟩
  | loadVariable | storeMemory | pause => cases hname

theorem lowerStmts_block {slots : ℕ} {xs : List (PlainStmt × ℕ)} {stmts : List LoweredStmt}
    (h : ss.Shaped slots) (hn : ∀ x ∈ xs, x.2 = 1 ∨ x.2 = slots)
    (hlower : lowerStmts ss xs = some (ss', stmts)) {stmt : PlainStmt} {name : String}
    (hstmt : (stmt, n) ∈ xs) (hname : (.register, name) ∈ stmt.declared) :
    ∃ base, ss'.varMetaOf (.var name) = some ⟨.var name, base, 1, n⟩ := by
  induction xs generalizing ss stmts with
  | nil => cases hstmt
  | cons x xs ih =>
      obtain ⟨⟨lowered, instrs⟩, hfirst, hlower⟩ := Option.bind_eq_some_iff.mp hlower
      obtain ⟨⟨ss₁, others⟩, hrest, hret⟩ := Option.bind_eq_some_iff.mp hlower
      obtain ⟨rfl, -⟩ := Prod.mk.inj (Option.some.inj hret)
      have hx := hn x List.mem_cons_self
      have hxs : ∀ y ∈ xs, y.2 = 1 ∨ y.2 = slots := fun y hy => hn y (List.mem_cons_of_mem _ hy)
      have hsound := (lowerPlain_spec h hx hfirst).2.1
      obtain rfl | hstmt := List.mem_cons.mp hstmt
      · obtain ⟨base, hbase⟩ := lowerPlain_block h hx hfirst hname
        exact ⟨base, (lowerStmts_spec hsound.shaped hxs hrest).1.varMeta _ _ hbase⟩
      · exact ih hsound.shaped hxs hrest hstmt

/-- In a program with `thread register tidxlen` there is a word for every concurrent thread, and
a vector for the constant 2 once it is allocated. -/
theorem tidBlocks_of_programToIrp
    (accepted : programToIrp program numThreads concThreads = some irp)
    (declared : (.register, "tidxlen") ∈ program.threadPlain.flatMap PlainStmt.declared)
    {firstTime : Bool} (halloc : irp.ss.allocConst 2 true = some (ss', firstTime)) :
    irp.ss.hasVariable tidxlen = true ∧ ∃ base two, TidBlocks ss' concThreads base two := by
  obtain ⟨globals, threads, hlower, -⟩ := lowerStmts_of_programToIrp accepted
  obtain ⟨stmt, hstmt, hname⟩ := List.mem_flatMap.mp declared
  have hslots : ∀ x ∈ program.lowerOrder concThreads, x.2 = 1 ∨ x.2 = concThreads := by
    intro x hx
    obtain hx | hx := List.mem_append.mp hx <;> obtain ⟨stmt, -, rfl⟩ := List.mem_map.mp hx
    · exact Or.inl rfl
    · exact Or.inr rfl
  have hempty : ScratchSpace.empty.Shaped concThreads := List.forall_mem_nil _
  have hmem : (stmt, concThreads) ∈ program.lowerOrder concThreads :=
    List.mem_append_right _ (List.mem_map_of_mem hstmt)
  obtain ⟨base, hbase⟩ := lowerStmts_block hempty hslots hlower hmem hname
  have shaped := ((lowerStmts_spec hempty hslots hlower).2.1).allocConst halloc
  obtain ⟨hext, htwo⟩ := ScratchSpace.allocConst_spec halloc
  obtain ⟨vm, hvm⟩ := Option.isSome_iff_exists.mp htwo
  obtain ⟨hone, hlength⟩ := (shaped.of_varMetaOf hvm).const 2 true
    (ScratchSpace.name_of_varMetaOf hvm)
  refine ⟨by rw [ScratchSpace.hasVariable, tidxlen, hbase]; rfl, base, vm.addr,
    hext.varMeta _ _ hbase, ?_⟩
  rw [hvm, ← ScratchSpace.name_of_varMetaOf hvm, ← hone]
  exact congrArg some (congrArg (VariableMeta.mk vm.name vm.addr · vm.slots) hlength)

/-- For more than `2 * VLEN` concurrent threads, `thread register tidxlen` and a scratch space with
room for the constant 2, the global instructions set `tidxlen` for every concurrent thread. -/
theorem setsTidxlen (accepted : programToIrp program numThreads concThreads = some irp)
    (declared : (.register, "tidxlen") ∈ program.threadPlain.flatMap PlainStmt.declared)
    (hconc : 2 * VLEN < concThreads) (hle : concThreads ≤ numThreads) (hnum : numThreads ≤ 100)
    (fits : (irp.ss.allocConst 2 true).isSome) : SetsTidxlen irp.ss numThreads concThreads := by
  obtain ⟨⟨ss, firstTime⟩, halloc⟩ := Option.isSome_iff_exists.mp fits
  obtain ⟨hhas, base, two, blocks⟩ := tidBlocks_of_programToIrp accepted declared halloc
  obtain ⟨tidspecific, htidmetas⟩ := getTidmetas_eq hconc hle hnum hhas halloc blocks
  refine ⟨ss, _, _, tidspecific, _, htidmetas, blocks.tids, blocks.two, Nat.mul_one _,
    Nat.one_mul _, ?_, ?_⟩
  · exact fun slot m hlength => execAll_tidGlobals blocks hconc slot m hlength
  · exact touched_tidGlobals blocks hconc

/-- A program that declares `tidxlen` for its threads. -/
def tidxlenOnly : Program := ⟨[], [.plain (.variableDeclaration .register "tidxlen" [])]⟩

theorem setsTidxlen_twenty :
    ∃ irp, programToIrp tidxlenOnly 30 20 = some irp ∧ SetsTidxlen irp.ss 30 20 := by
  have accepted : (programToIrp tidxlenOnly 30 20).any (·.ss.allocConst 2 true |>.isSome) := by
    decide +kernel
  obtain ⟨irp, hirp, fits⟩ := (Option.any_eq_true ..).mp accepted
  refine ⟨irp, hirp, setsTidxlen hirp ?_ (by decide) (by decide) (by decide) fits⟩
  simp [tidxlenOnly, Program.threadPlain, reachStmts, reachStmt, PlainStmt.declared]

end Programs

end Explore.Takehome
