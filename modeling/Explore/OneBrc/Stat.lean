import Mathlib.Data.List.Perm.Basic
import Mathlib.Algebra.BigOperators.Group.List.Basic
import Mathlib.Data.BitVec

/-!
# Aggregate statistics of one station

`Stat` keeps the extreme readings, their sum and their count. Readings are
tenths of a degree; the sum and the count are Java `long`s and wrap at 64 bits.
`Summarizes` is the specification a naive group-by would meet: it relates a
`Stat` to the list of readings it stands for, and does not depend on the order
of the list.
-/

namespace Explore.OneBrc

/-- A Java `long`. -/
abbrev JLong := BitVec 64

structure Stat where
  min : Int
  max : Int
  sum : JLong
  count : JLong
  deriving DecidableEq, Repr

namespace Stat

def firstReading (temp : Int) : Stat := ⟨temp, temp, BitVec.ofInt 64 temp, 1⟩

/-- One comparison decides between the two extremes: a reading that is not
above the minimum becomes the minimum without being compared to the maximum. -/
def mergeReading (s : Stat) (curTemp : Int) : Stat :=
  let extremes : Int × Int :=
    if curTemp > s.min then
      if curTemp > s.max then (s.min, curTemp) else (s.min, s.max)
    else (curTemp, s.max)
  ⟨extremes.1, extremes.2, s.sum + BitVec.ofInt 64 curTemp, s.count + 1⟩

def merge (left right : Stat) : Stat :=
  ⟨Min.min left.min right.min, Max.max left.max right.max, left.sum + right.sum,
    left.count + right.count⟩

/-- The statistics of a nonempty list of readings, in the `long` arithmetic of
the program: the extremes are attained bounds, the sum and the count are exact
up to the wrap at 64 bits. -/
structure Summarizes (s : Stat) (readings : List Int) : Prop where
  min_mem : s.min ∈ readings
  min_le : ∀ t ∈ readings, s.min ≤ t
  max_mem : s.max ∈ readings
  le_max : ∀ t ∈ readings, t ≤ s.max
  sum_eq : s.sum = BitVec.ofInt 64 readings.sum
  count_eq : s.count = BitVec.ofNat 64 readings.length

namespace Summarizes

variable {s left right : Stat} {readings other : List Int}

theorem ne_nil (h : Summarizes s readings) : readings ≠ [] :=
  List.ne_nil_of_mem h.min_mem

theorem min_le_max (h : Summarizes s readings) : s.min ≤ s.max :=
  h.le_max _ h.min_mem

/-- The specification looks only at the multiset of readings. -/
theorem perm (h : Summarizes s readings) (p : readings.Perm other) : Summarizes s other where
  min_mem := p.mem_iff.mp h.min_mem
  min_le t ht := h.min_le t (p.mem_iff.mpr ht)
  max_mem := p.mem_iff.mp h.max_mem
  le_max t ht := h.le_max t (p.mem_iff.mpr ht)
  sum_eq := by rw [h.sum_eq, p.sum_eq]
  count_eq := by rw [h.count_eq, p.length_eq]

/-- A list of readings determines its statistics. -/
theorem unique (h : Summarizes left readings) (h' : Summarizes right readings) :
    left = right := by
  have hmin : left.min = right.min :=
    le_antisymm (h.min_le _ h'.min_mem) (h'.min_le _ h.min_mem)
  have hmax : left.max = right.max :=
    le_antisymm (h'.le_max _ h.max_mem) (h.le_max _ h'.max_mem)
  have hsum : left.sum = right.sum := h.sum_eq.trans h'.sum_eq.symm
  have hcount : left.count = right.count := h.count_eq.trans h'.count_eq.symm
  cases left
  cases right
  simp_all

theorem firstReading (temp : Int) : Summarizes (Stat.firstReading temp) [temp] := by
  constructor <;> simp [Stat.firstReading]

/-- Skipping the comparison with the maximum is harmless: a reading at or below
the minimum is at or below the maximum. -/
theorem mergeReading (h : Summarizes s readings) (temp : Int) :
    Summarizes (s.mergeReading temp) (temp :: readings) := by
  have hle := h.min_le_max
  have hsum : (s.mergeReading temp).sum = BitVec.ofInt 64 (temp :: readings).sum := by
    change s.sum + BitVec.ofInt 64 temp = _
    rw [h.sum_eq, List.sum_cons, BitVec.ofInt_add, BitVec.add_comm]
  have hcount : (s.mergeReading temp).count = BitVec.ofNat 64 (temp :: readings).length := by
    change s.count + 1 = _
    rw [h.count_eq, List.length_cons, BitVec.ofNat_add]
    rfl
  by_cases hmin : temp > s.min
  · by_cases hmax : temp > s.max
    · refine ⟨?_, ?_, ?_, ?_, hsum, hcount⟩ <;>
        simp only [Stat.mergeReading, hmin, hmax, if_true, List.mem_cons, forall_eq_or_imp]
      · exact Or.inr h.min_mem
      · exact ⟨le_of_lt hmin, h.min_le⟩
      · exact Or.inl trivial
      · exact ⟨le_refl _, fun t ht => le_of_lt (lt_of_le_of_lt (h.le_max t ht) hmax)⟩
    · refine ⟨?_, ?_, ?_, ?_, hsum, hcount⟩ <;>
        simp only [Stat.mergeReading, hmin, hmax, if_true, if_false, List.mem_cons,
          forall_eq_or_imp]
      · exact Or.inr h.min_mem
      · exact ⟨le_of_lt hmin, h.min_le⟩
      · exact Or.inr h.max_mem
      · exact ⟨not_lt.mp hmax, h.le_max⟩
  · refine ⟨?_, ?_, ?_, ?_, hsum, hcount⟩ <;>
      simp only [Stat.mergeReading, hmin, if_false, List.mem_cons, forall_eq_or_imp]
    · exact Or.inl trivial
    · exact ⟨le_refl _, fun t ht => le_trans (not_lt.mp hmin) (h.min_le t ht)⟩
    · exact Or.inr h.max_mem
    · exact ⟨le_trans (not_lt.mp hmin) hle, h.le_max⟩

/-- Merging two statistics summarizes both lists of readings together. -/
theorem merge (h : Summarizes left readings) (h' : Summarizes right other) :
    Summarizes (Stat.merge left right) (readings ++ other) where
  min_mem := by
    rcases min_choice left.min right.min with hm | hm <;>
      simp [Stat.merge, hm, h.min_mem, h'.min_mem]
  min_le t ht := by
    rcases List.mem_append.mp ht with hl | hr
    · exact le_trans (min_le_left _ _) (h.min_le t hl)
    · exact le_trans (min_le_right _ _) (h'.min_le t hr)
  max_mem := by
    rcases max_choice left.max right.max with hm | hm <;>
      simp [Stat.merge, hm, h.max_mem, h'.max_mem]
  le_max t ht := by
    rcases List.mem_append.mp ht with hl | hr
    · exact le_trans (h.le_max t hl) (le_max_left _ _)
    · exact le_trans (h'.le_max t hr) (le_max_right _ _)
  sum_eq := by
    rw [List.sum_append, BitVec.ofInt_add, ← h.sum_eq, ← h'.sum_eq]
    rfl
  count_eq := by
    rw [List.length_append, BitVec.ofNat_add, ← h.count_eq, ← h'.count_eq]
    rfl

theorem sum_bounds (readings : List Int) (bound : ∀ t ∈ readings, -999 ≤ t ∧ t ≤ 999) :
    -999 * (readings.length : Int) ≤ readings.sum ∧
      readings.sum ≤ 999 * (readings.length : Int) := by
  induction readings with
  | nil => simp
  | cons t rest ih =>
      have ht := bound t (by simp)
      have hrest := ih fun x hx => bound x (by simp [hx])
      simp only [List.sum_cons, List.length_cons]
      push_cast
      omega

/-- With at most `2 ^ 53` readings, far more than a file can hold, nothing wraps
and the sum is the mathematical one. -/
theorem sum_toInt (h : Summarizes s readings) (bound : ∀ t ∈ readings, -999 ≤ t ∧ t ≤ 999)
    (few : readings.length ≤ 2 ^ 53) : s.sum.toInt = readings.sum := by
  have habs := sum_bounds readings bound
  rw [h.sum_eq, BitVec.toInt_ofInt, Int.bmod_eq_of_le] <;> omega

theorem count_toNat (h : Summarizes s readings) (few : readings.length ≤ 2 ^ 53) :
    s.count.toNat = readings.length := by
  rw [h.count_eq, BitVec.toNat_ofNat]
  exact Nat.mod_eq_of_lt (by omega)

end Summarizes

end Stat

end Explore.OneBrc
