import Mathlib.Data.Nat.ModEq
import Mathlib.Tactic.Ring

/-!
# Counters that wrap

A counter of `w` bits shows a natural number modulo `2^w`. Two counters that are less
than `2^w` apart still have the right difference, and a size that divides `2^w` maps
them to the same slots of a ring as the numbers themselves.
-/

namespace Explore.WrappingCounter

variable {w a b : ℕ}

/-- The difference of two counters shows the difference of the numbers. -/
theorem ofNat_sub (hle : b ≤ a) :
    BitVec.ofNat w a - BitVec.ofNat w b = BitVec.ofNat w (a - b) := by
  have hsplit : BitVec.ofNat w a = BitVec.ofNat w (a - b) + BitVec.ofNat w b := by
    rw [← BitVec.ofNat_add, Nat.sub_add_cancel hle]
  rw [hsplit, BitVec.add_sub_cancel]

/-- The difference of two counters survives wrapping. -/
theorem toNat_sub (hle : b ≤ a) (hlt : a - b < 2 ^ w) :
    (BitVec.ofNat w a - BitVec.ofNat w b).toNat = a - b := by
  rw [ofNat_sub hle, BitVec.toNat_ofNat, Nat.mod_eq_of_lt hlt]

/-- Counters agree on numbers that are a multiple of `2^w` apart. -/
theorem ofNat_eq_iff (hle : b ≤ a) : BitVec.ofNat w b = BitVec.ofNat w a ↔ 2 ^ w ∣ a - b := by
  rw [← Nat.modEq_iff_dvd' hle, ← BitVec.toNat_inj, BitVec.toNat_ofNat, BitVec.toNat_ofNat]
  rfl

theorem ofNat_succ (w a : ℕ) : BitVec.ofNat w a + 1 = BitVec.ofNat w (a + 1) :=
  (BitVec.ofNat_add a 1).symm

/-- The slot of a counter is the slot of the number it shows. -/
theorem toNat_mod {size : ℕ} (h : size ∣ 2 ^ w) (a : ℕ) :
    (BitVec.ofNat w a).toNat % size = a % size := by
  rw [BitVec.toNat_ofNat, Nat.mod_mod_of_dvd a h]

/-- Numbers within one round of a ring have different slots. -/
theorem eq_of_mod_eq {size : ℕ} (hle : b ≤ a) (hlt : a < b + size) (h : a % size = b % size) :
    a = b := by
  have hmod : (a - b) % size = 0 := Nat.sub_mod_eq_zero_of_mod_eq h
  rw [Nat.mod_eq_of_lt (by omega)] at hmod
  omega

end Explore.WrappingCounter
