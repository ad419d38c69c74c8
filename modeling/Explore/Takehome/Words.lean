import Explore.Takehome.Lowering
import Mathlib.Data.List.Induction

/-!
# The words of variables

What a variable holds in a slot, as a list of words, and what happens to words that lie one
after the other when they are written. The blocks of the variables are inside the scratch
space, so a variable that has an address has all of its words.
-/

namespace Explore.Takehome

/-- The words from an address on get new values, in this order. -/
def Machine.put (m : Machine) (loc : ℕ → Loc) (ws : List Word) : Option Machine :=
  (ws.zipIdx.map fun entry => (loc entry.2, entry.1)).foldlM Machine.write m

/-- The words of a variable. -/
def Machine.wordsOf (m : Machine) (ss : ScratchSpace) (slot : ℤ) (name : String) :
    Option (List Word) := do
  let vm ← ss.varMetaOf (.var name)
  let addr ← vm.addrOf slot
  (List.range vm.length).mapM fun i => m.scratch[addr + i]?

/-- A variable gets new words. -/
def Machine.assign (m : Machine) (ss : ScratchSpace) (slot : ℤ) (name : String) (ws : List Word) :
    Option Machine := do
  let addr ← (← ss.varMetaOf (.var name)).addrOf slot
  m.put (fun i => .scratch (addr + i)) ws

/-- Execute instructions one after the other for a slot. -/
def Machine.execAll (m : Machine) (ss : ScratchSpace) (slot : ℤ)
    (instrs : List LogicalInstruction) : Option Machine :=
  instrs.foldlM (fun m linst => do m.exec (← toSerialized ss slot linst)) m

section Machine

variable {m m' : Machine} {loc : ℕ → Loc} {ws : List Word}

theorem read_write {l l' : Loc} {val : Word} (h : m.write (l, val) = some m') :
    m'.read l' = if l' = l then some val else m.read l' := by
  cases l with
  | scratch addr =>
      simp only [Machine.write] at h
      split at h
      · rename_i hlt
        obtain rfl := Option.some.inj h
        cases l' with
        | scratch addr' =>
            by_cases heq : addr' = addr
            · subst heq
              simp [Machine.read, hlt]
            · simp [Machine.read, heq, List.getElem?_set_ne (Ne.symm heq)]
        | mem addr' => simp [Machine.read]
      · cases h
  | mem addr =>
      simp only [Machine.write] at h
      split at h
      · rename_i hlt
        obtain rfl := Option.some.inj h
        cases l' with
        | scratch addr' => simp [Machine.read]
        | mem addr' =>
            by_cases heq : addr' = addr
            · subst heq
              simp [Machine.read, hlt]
            · simp [Machine.read, heq, List.getElem?_set_ne (Ne.symm heq)]
      · cases h

theorem exists_write {l : Loc} (val : Word) (h : (m.read l).isSome) :
    ∃ m', m.write (l, val) = some m' := by
  cases l with
  | scratch addr => exact ⟨_, if_pos (by simpa [Machine.read] using h)⟩
  | mem addr => exact ⟨_, if_pos (by simpa [Machine.read] using h)⟩

theorem put_append (m : Machine) (loc : ℕ → Loc) (ws : List Word) (w : Word) :
    m.put loc (ws ++ [w]) = (m.put loc ws).bind (·.write (loc ws.length, w)) := by
  rw [Machine.put, List.zipIdx_append, List.map_append, List.foldlM_append]
  refine congrArg ((m.put loc ws).bind ·) (funext fun m' => ?_)
  simp

/-- What is read after words have got new values. -/
theorem read_put (inj : ∀ i j, loc i = loc j → i = j) (h : m.put loc ws = some m') (i : ℕ) :
    m'.read (loc i) = if i < ws.length then ws[i]? else m.read (loc i) := by
  induction ws using List.reverseRecOn generalizing m' with
  | nil =>
      obtain rfl := Option.some.inj h
      rfl
  | append_singleton ws w ih =>
      rw [put_append] at h
      obtain ⟨mid, hmid, hwrite⟩ := Option.bind_eq_some_iff.mp h
      rw [read_write hwrite, ih hmid, List.length_append, List.length_singleton]
      by_cases hi : i = ws.length
      · subst hi
        simp
      · have hne : loc i ≠ loc ws.length := fun heq => hi (inj _ _ heq)
        rw [if_neg hne]
        by_cases hlt : i < ws.length
        · rw [if_pos hlt, if_pos (Nat.lt_succ_of_lt hlt), List.getElem?_append_left hlt]
        · rw [if_neg hlt, if_neg (by omega)]

/-- Words that exist can get new values. -/
theorem exists_put (inj : ∀ i j, loc i = loc j → i = j)
    (h : ∀ i < ws.length, (m.read (loc i)).isSome) : ∃ m', m.put loc ws = some m' := by
  induction ws using List.reverseRecOn with
  | nil => exact ⟨m, rfl⟩
  | append_singleton ws w ih =>
      rw [List.length_append, List.length_singleton] at h
      obtain ⟨mid, hmid⟩ := ih fun i hi => h i (Nat.lt_succ_of_lt hi)
      have hlast : (mid.read (loc ws.length)).isSome := by
        rw [read_put inj hmid, if_neg (Nat.lt_irrefl _)]
        exact h _ (Nat.lt_succ_self _)
      obtain ⟨m', hwrite⟩ := exists_write w hlast
      exact ⟨m', by rw [put_append, hmid, Option.bind_some, hwrite]⟩

theorem map_zipIdx_replicate (loc : ℕ → Loc) (n : ℕ) (w : Word) :
    (List.replicate n w).zipIdx.map (fun entry => (loc entry.2, entry.1)) =
      (List.range n).map fun i => (loc i, w) := by
  refine List.ext_getElem (by simp) fun i _ _ => ?_
  simp

/-- Reading words that lie one after the other. -/
theorem mapM_range_eq {β : Type} {f : ℕ → Option β} {bs : List β}
    (h : ∀ i < bs.length, f i = bs[i]?) : (List.range bs.length).mapM f = some bs := by
  induction bs using List.reverseRecOn with
  | nil => rfl
  | append_singleton bs b ih =>
      rw [List.length_append, List.length_singleton] at h ⊢
      rw [List.range_succ, List.mapM_append]
      have hinit := ih fun i hi => (h i (Nat.lt_succ_of_lt hi)).trans (List.getElem?_append_left hi)
      have hlast := (h bs.length (Nat.lt_succ_self _)).trans List.getElem?_concat_length
      rw [hinit]
      simp [hlast]

theorem exec_vbroadcast {dest src : ℕ} {val : Word} (h : m.scratch[src]? = some val) :
    m.exec (.vbroadcast dest src) =
      m.put (fun i => .scratch (dest + i)) (List.replicate VLEN val) := by
  have hwrites := map_zipIdx_replicate (fun i => .scratch (dest + i)) VLEN val
  rw [Machine.exec_eq, Machine.put, hwrites]
  simp only [Inst.writes, Machine.read, h]
  rfl

theorem exec_or {dest src : ℕ} {val : Word} (h : m.scratch[src]? = some val) :
    m.exec (.alu .or dest src src) = m.put (fun i => .scratch (dest + i)) [val] := by
  rw [Machine.exec_eq, Machine.put]
  simp [Inst.writes, aluLane, Machine.read, h, AluOp.eval]

theorem exec_store {addr src : ℕ} {base val : Word} (hbase : m.scratch[addr]? = some base)
    (hval : m.scratch[src]? = some val) :
    m.exec (.store addr src) = m.put (fun i => .mem (base.toNat + i)) [val] := by
  rw [Machine.exec_eq, Machine.put]
  simp [Inst.writes, Machine.read, hbase, hval]

theorem exec_vstore {addr src : ℕ} {base : Word} {vals : List Word}
    (hbase : m.scratch[addr]? = some base) (hlength : vals.length = VLEN)
    (hvals : ∀ i < VLEN, m.scratch[src + i]? = vals[i]?) :
    m.exec (.vstore addr src) = m.put (fun i => .mem (base.toNat + i)) vals := by
  have hwrites : (List.range VLEN).mapM (fun i => do
      return (Loc.mem (base.toNat + i), ← m.read (.scratch (src + i)))) =
      some (vals.zipIdx.map fun entry => (Loc.mem (base.toNat + entry.2), entry.1)) := by
    rw [← hlength]
    have hrange := @mapM_range_eq _ (fun i => do
      return (Loc.mem (base.toNat + i), ← m.read (.scratch (src + i))))
      (vals.zipIdx.map fun entry => (Loc.mem (base.toNat + entry.2), entry.1))
    rw [List.length_map, List.length_zipIdx] at hrange
    refine hrange fun i hi => ?_
    rw [Machine.read, hvals i (hlength ▸ hi), List.getElem?_map, List.getElem?_zipIdx]
    cases vals[i]? <;> simp
  rw [Machine.exec_eq, Machine.put]
  simp only [Inst.writes, Machine.read, hbase, Option.bind_eq_bind, Option.bind_some]
  exact congrArg (Option.bind · _) hwrites

end Machine

section Words

variable {m : Machine} {ss : ScratchSpace} {slot : ℤ}

theorem layout_le {blocks : List VariableMeta} {ptr : ℕ} (h : Layout blocks ptr) :
    ∀ vm ∈ blocks, vm.addr + vm.size ≤ ptr := by
  induction blocks generalizing ptr with
  | nil => exact List.forall_mem_nil _
  | cons first blocks ih =>
      obtain ⟨hptr, -, hrest⟩ := h
      intro vm hvm
      obtain rfl | hvm := List.mem_cons.mp hvm
      · exact hptr.le
      · have := ih hrest vm hvm
        omega

/-- The words of a variable are inside the scratch space. -/
theorem addrOf_add_length_le {name : ScratchName} {vm : VariableMeta} {addr : ℕ}
    (hvm : ss.varMetaOf name = some vm) (haddr : vm.addrOf slot = some addr) :
    addr + vm.length ≤ SCRATCH_SIZE := by
  have hend := (layout_le ss.layout vm (List.mem_of_find?_eq_some hvm)).trans ss.fits
  rw [VariableMeta.size] at hend
  rw [VariableMeta.addrOf] at haddr
  split at haddr
  · rename_i hone
    obtain rfl := Option.some.inj haddr
    rwa [hone, Nat.one_mul] at hend
  · split at haddr
    · rename_i hslot
      obtain rfl := Option.some.inj haddr
      have hsucc : (slot.toNat + 1) * vm.length ≤ vm.slots * vm.length :=
        Nat.mul_le_mul_right _ (by omega)
      rw [Nat.add_mul, Nat.one_mul] at hsucc
      omega
    · cases haddr

/-- Every variable that has an address has its words. -/
theorem wordsOf_eq (hlength : m.scratch.length = SCRATCH_SIZE) {name : String} {vm : VariableMeta}
    {addr : ℕ} (hvm : ss.varMetaOf (.var name) = some vm) (haddr : vm.addrOf slot = some addr) :
    ∃ ws, m.wordsOf ss slot name = some ws ∧ ws.length = vm.length ∧
      ∀ i < vm.length, m.scratch[addr + i]? = ws[i]? := by
  have hend := addrOf_add_length_le hvm haddr
  have hwords : ((m.scratch.drop addr).take vm.length).length = vm.length := by
    rw [List.length_take, List.length_drop, hlength]
    omega
  have hget : ∀ i < vm.length,
      m.scratch[addr + i]? = ((m.scratch.drop addr).take vm.length)[i]? := by
    intro i hi
    rw [List.getElem?_take_of_lt hi, List.getElem?_drop]
  have hread := mapM_range_eq fun i hi => hget i (hwords ▸ hi)
  rw [hwords] at hread
  refine ⟨_, ?_, hwords, hget⟩
  rw [Machine.wordsOf, hvm, Option.bind_eq_bind, Option.bind_some, haddr, Option.bind_eq_bind,
    Option.bind_some, hread]

theorem exists_of_wordsOf (hlength : m.scratch.length = SCRATCH_SIZE) {name : String}
    {ws : List Word} (h : m.wordsOf ss slot name = some ws) :
    ∃ vm addr, ss.varMetaOf (.var name) = some vm ∧ vm.addrOf slot = some addr ∧
      ws.length = vm.length ∧ ∀ i < vm.length, m.scratch[addr + i]? = ws[i]? := by
  obtain ⟨vm, hvm, hrest⟩ := Option.bind_eq_some_iff.mp h
  obtain ⟨addr, haddr, -⟩ := Option.bind_eq_some_iff.mp hrest
  obtain ⟨ws', hws', hwords⟩ := wordsOf_eq hlength hvm haddr
  obtain rfl := Option.some.inj (h.symm.trans hws')
  exact ⟨vm, addr, hvm, haddr, hwords⟩

theorem addrOf_whole {name : ScratchName} {vm : VariableMeta} (hvm : ss.varMetaOf name = some vm)
    (isVector isRead : Bool) :
    (wholeVariable name isVector isRead).addrOf ss slot = vm.addrOf slot := by
  cases isVector <;>
    simp [wholeVariable, LogicalOp.addrOf, LogicalRegister.addrOf, LogicalRegister.offset, hvm]

theorem execAll_single (m : Machine) (ss : ScratchSpace) (slot : ℤ) (linst : LogicalInstruction) :
    m.execAll ss slot [linst] = (toSerialized ss slot linst).bind m.exec := by
  rw [Machine.execAll, List.foldlM_cons]
  cases toSerialized ss slot linst <;> simp

theorem scratch_inj (addr : ℕ) (i j : ℕ) (h : Loc.scratch (addr + i) = Loc.scratch (addr + j)) :
    i = j := Nat.add_left_cancel (Loc.scratch.inj h)

theorem mem_inj (addr : ℕ) (i j : ℕ) (h : Loc.mem (addr + i) = Loc.mem (addr + j)) : i = j :=
  Nat.add_left_cancel (Loc.mem.inj h)

end Words

end Explore.Takehome
