import Explore.Takehome.Packer

/-!
# Hazards between instructions

The words that an instruction with addresses touches, and those it is marked as
writing (a store also marks the register it stores). Two instructions conflict when
they share a word that one of them is marked as writing. Splitting keeps to the words
of the whole, and the pieces of one instruction do not conflict, except the two halves
of a lane of a `multiply_add`.
-/

namespace Explore.Takehome

namespace Inst

/-- The scratch words that an instruction touches. -/
def touched : SerializedInstruction → List ℕ
  | alu _ dest a1 a2 => [dest, a1, a2]
  | addImm dest a _ => [dest, a]
  | vselect dest cond a b => lanes dest ++ lanes cond ++ lanes a ++ lanes b
  | const dest _ => [dest]
  | load dest addr => [dest, addr]
  | vload dest addr => lanes dest ++ [addr]
  | store addr src => [addr, src]
  | vstore addr src => addr :: lanes src
  | valu _ dest a1 a2 => lanes dest ++ lanes a1 ++ lanes a2
  | multiplyAdd dest a b c => lanes dest ++ lanes a ++ lanes b ++ lanes c
  | vbroadcast dest src => lanes dest ++ [src]

/-- The scratch words that an instruction is marked as writing. -/
def marked : SerializedInstruction → List ℕ
  | alu _ dest _ _ | addImm dest _ _ | const dest _ | load dest _ => [dest]
  | store _ src => [src]
  | vstore _ src => lanes src
  | vselect dest _ _ _ | vload dest _ | valu _ dest _ _ | multiplyAdd dest _ _ _
  | vbroadcast dest _ => lanes dest

/-- Two instructions share a word that one of them is marked as writing. -/
def Conflicts (i j : SerializedInstruction) : Prop :=
  ∃ loc, loc ∈ i.touched ∧ loc ∈ j.touched ∧ (loc ∈ i.marked ∨ loc ∈ j.marked)

theorem Conflicts.symm {i j : SerializedInstruction} (h : i.Conflicts j) : j.Conflicts i := by
  obtain ⟨loc, hi, hj, hmarked⟩ := h
  exact ⟨loc, hj, hi, hmarked.symm⟩

/-- An instruction that stays within the words of another has no further conflicts. -/
theorem Conflicts.of_subset {i i' j : SerializedInstruction} (touched : i.touched ⊆ i'.touched)
    (marked : i.marked ⊆ i'.marked) (h : i.Conflicts j) : i'.Conflicts j := by
  obtain ⟨loc, hi, hj, hmarked⟩ := h
  exact ⟨loc, touched hi, hj, hmarked.imp_left fun hi => marked hi⟩

theorem marked_subset_touched (i : SerializedInstruction) : i.marked ⊆ i.touched := by
  cases i <;> simp [marked, touched]

theorem exists_mem_marked (i : SerializedInstruction) : ∃ loc, loc ∈ i.marked := by
  have hlane (addr : ℕ) : addr ∈ lanes addr := by simp [lanes, VLEN]
  cases i <;> simp only [marked, List.mem_singleton] <;> first
    | exact ⟨_, rfl⟩
    | exact ⟨_, hlane _⟩

theorem conflicts_self (i : SerializedInstruction) : i.Conflicts i := by
  obtain ⟨loc, hloc⟩ := i.exists_mem_marked
  exact ⟨loc, i.marked_subset_touched hloc, i.marked_subset_touched hloc, .inl hloc⟩

end Inst

theorem mem_lanes {addr loc : ℕ} : loc ∈ lanes addr ↔ addr ≤ loc ∧ loc < addr + 8 := by
  simp [lanes, VLEN]

/-- Two vectors are the same or share no word. -/
def Apart (a b : ℕ) : Prop := a = b ∨ a + VLEN ≤ b ∨ b + VLEN ≤ a

/-- The destination of a vector instruction meets its sources in whole vectors only. -/
def LaneSafe : SerializedInstruction → Prop
  | .valu _ dest a1 a2 => Apart dest a1 ∧ Apart dest a2
  | .multiplyAdd dest a b c => Apart dest a ∧ Apart dest b ∧ Apart dest c
  | _ => True

section Lanes

variable {i j : Fin 8} {dest a b c imm op : ℕ}

theorem not_conflicts_lane (op : AluOp) (ha : Apart dest a) (hb : Apart dest b) (hij : i ≠ j) :
    ¬ Inst.Conflicts (.alu op (dest + i) (a + i) (b + i)) (.alu op (dest + j) (a + j) (b + j)) := by
  have hne : i.val ≠ j.val := fun h => hij (Fin.ext h)
  rintro ⟨loc, hi, hj, hmarked⟩
  simp only [Inst.touched, Inst.marked, List.mem_cons, List.not_mem_nil, or_false] at hi hj hmarked
  simp only [Apart, VLEN] at ha hb
  omega

theorem not_conflicts_immLane (imm : ℤ) (ha : Apart dest a) (hij : i ≠ j) :
    ¬ Inst.Conflicts (.addImm (dest + i) (a + i) imm) (.addImm (dest + j) (a + j) imm) := by
  have hne : i.val ≠ j.val := fun h => hij (Fin.ext h)
  rintro ⟨loc, hi, hj, hmarked⟩
  simp only [Inst.touched, Inst.marked, List.mem_cons, List.not_mem_nil, or_false] at hi hj hmarked
  simp only [Apart, VLEN] at ha
  omega

theorem not_conflicts_broadcastLane (outside : a < dest ∨ dest + 8 ≤ a) (hij : i ≠ j) :
    ¬ Inst.Conflicts (.alu .or (dest + i) a a) (.alu .or (dest + j) a a) := by
  have hne : i.val ≠ j.val := fun h => hij (Fin.ext h)
  rintro ⟨loc, hi, hj, hmarked⟩
  simp only [Inst.touched, Inst.marked, List.mem_cons, List.not_mem_nil, or_false] at hi hj hmarked
  omega

/-- The first half of a lane of a `multiply_add` conflicts with the second half of the
same lane only. -/
theorem lane_eq_of_conflicts_halves (ha : Apart dest a) (hb : Apart dest b)
    (outside : dest + 8 ≤ c ∨ c + 8 ≤ dest)
    (h : Inst.Conflicts (.alu .mul (dest + i) (a + i) (b + i))
      (.alu .add (dest + j) (dest + j) (c + j))) : i = j := by
  obtain ⟨loc, hi, hj, hmarked⟩ := h
  simp only [Inst.touched, Inst.marked, List.mem_cons, List.not_mem_nil, or_false] at hi hj hmarked
  simp only [Apart, VLEN] at ha hb
  ext
  omega

end Lanes

end Explore.Takehome
