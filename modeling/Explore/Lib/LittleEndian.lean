import Mathlib.Data.BitVec
import Mathlib.Tactic.Ring

/-!
# Little-endian byte strings and sign extension

A byte string is read as a number with its first byte least significant. A
second reading sign-extends every byte before shifting it into place and
combines the results with a bitwise or, which is what integer code does when it
forgets to mask a signed byte. The two readings differ by an explicit amount,
`signGap`, which vanishes exactly on strings without a byte above `0x7F`.
-/

namespace Explore.LittleEndian

/-- The number a byte string denotes, first byte least significant. -/
def value : List (BitVec 8) → Nat
  | [] => 0
  | b :: rest => b.toNat + 256 * value rest

@[simp] theorem value_nil : value [] = 0 := rfl

@[simp] theorem value_cons (b : BitVec 8) (rest : List (BitVec 8)) :
    value (b :: rest) = b.toNat + 256 * value rest := rfl

/-- A string of `n` bytes denotes a number below `256 ^ n`. -/
theorem value_lt (bs : List (BitVec 8)) : value bs < 256 ^ bs.length := by
  induction bs with
  | nil => simp
  | cons b rest ih =>
      have hb := b.isLt
      simp only [value_cons, List.length_cons, Nat.pow_succ]
      omega

/-- The word of width `w` assembled from a byte string. -/
def word (w : Nat) (bs : List (BitVec 8)) : BitVec w := BitVec.ofNat w (value bs)

/-- The word assembled by or-ing sign-extended bytes into place. -/
def signedWord (w : Nat) : List (BitVec 8) → BitVec w
  | [] => 0
  | b :: rest => b.signExtend w ||| (signedWord w rest <<< 8)

/-- What sign extension loses: the first byte above `0x7F` fills every higher
position with ones, so the bytes above it disappear. -/
def signGap : List (BitVec 8) → Nat
  | [] => 0
  | b :: rest => 256 * if b.toNat < 128 then signGap rest else value rest + 1

@[simp] theorem signGap_nil : signGap [] = 0 := rfl

theorem signGap_cons_of_lt {b : BitVec 8} (rest : List (BitVec 8)) (h : b.toNat < 128) :
    signGap (b :: rest) = 256 * signGap rest := by
  simp [signGap, h]

theorem signGap_cons_of_ge {b : BitVec 8} (rest : List (BitVec 8)) (h : 128 ≤ b.toNat) :
    signGap (b :: rest) = 256 * (value rest + 1) := by
  simp [signGap, Nat.not_lt.mpr h]

/-- Strings of bytes below `0x80` lose nothing. -/
theorem signGap_eq_zero {bs : List (BitVec 8)} (h : ∀ b ∈ bs, b.toNat < 128) :
    signGap bs = 0 := by
  induction bs with
  | nil => rfl
  | cons b rest ih =>
      rw [signGap_cons_of_lt rest (h b (by simp)), ih (fun x hx => h x (by simp [hx]))]

/-- A byte above `0x7F` anywhere in the string leaves a gap. -/
theorem signGap_pos {bs : List (BitVec 8)} {b : BitVec 8} (hb : b ∈ bs)
    (high : 128 ≤ b.toNat) : 0 < signGap bs := by
  induction bs with
  | nil => simp at hb
  | cons a rest ih =>
      by_cases ha : a.toNat < 128
      · have hrest : b ∈ rest := by
          rcases List.mem_cons.mp hb with rfl | hmem
          · omega
          · exact hmem
        have := ih hrest
        rw [signGap_cons_of_lt rest ha]
        omega
      · rw [signGap_cons_of_ge rest (by omega)]
        omega

private theorem or_shift_of_low {w : Nat} {b : BitVec 8} (hb : b.toNat < 128)
    (x : BitVec w) : b.signExtend w ||| (x <<< 8) = BitVec.ofNat w b.toNat + x * 256 := by
  have hmsb : b.msb = false := by
    rw [BitVec.msb_eq_false_iff_two_mul_lt]
    omega
  have hext : b.signExtend w = b.setWidth w := BitVec.signExtend_eq_setWidth_of_msb_false hmsb
  have hshift : x <<< 8 = x * 256 := by
    rw [BitVec.shiftLeft_eq_mul_twoPow]
    congr 1
    apply BitVec.eq_of_toNat_eq
    simp [BitVec.toNat_twoPow]
  have hdisjoint : b.setWidth w &&& (x <<< 8) = 0#w := by
    apply BitVec.eq_of_getLsbD_eq
    intro i hi
    simp only [BitVec.getLsbD_and, BitVec.getLsbD_setWidth, BitVec.getLsbD_shiftLeft,
      BitVec.getLsbD_zero]
    by_cases hlow : i < 8
    · simp [hlow]
    · simp [BitVec.getLsbD_of_ge b i (by omega)]
  have hsmall : b.setWidth w = BitVec.ofNat w b.toNat := by
    apply BitVec.eq_of_toNat_eq
    simp
  rw [hext, ← BitVec.add_eq_or_of_and_eq_zero _ _ hdisjoint, hshift, hsmall]

-- The sign fills all positions from 8 up, so nothing shifted there survives.
private theorem or_shift_of_high {w : Nat} (hw : 8 ≤ w) {b : BitVec 8} (hb : 128 ≤ b.toNat)
    (x : BitVec w) : b.signExtend w ||| (x <<< 8) = BitVec.ofNat w b.toNat - 256 := by
  have hmsb : b.msb = true := by
    rw [BitVec.msb_eq_true_iff_two_mul_ge]
    omega
  have habsorb : b.signExtend w ||| (x <<< 8) = b.signExtend w := by
    apply BitVec.eq_of_getLsbD_eq
    intro i hi
    rw [BitVec.getLsbD_or, BitVec.getLsbD_signExtend, BitVec.getLsbD_shiftLeft, hmsb]
    by_cases hlow : i < 8 <;> simp [hlow, hi]
  rw [habsorb]
  have hint : b.toInt = (b.toNat : Int) - 256 := by
    rw [BitVec.toInt_eq_msb_cond, hmsb]
    rfl
  calc b.signExtend w = BitVec.ofInt w (b.signExtend w).toInt := BitVec.ofInt_toInt.symm
    _ = BitVec.ofInt w ((b.toNat : Int) - 256) := by
        rw [BitVec.toInt_signExtend_of_le hw, hint]
    _ = BitVec.ofNat w b.toNat - 256 := by
        rw [sub_eq_add_neg, BitVec.ofInt_add, BitVec.ofInt_natCast, BitVec.ofInt_neg,
          sub_eq_add_neg]
        rfl

/-- The sign-extended reading falls short of the plain one by `signGap`. -/
theorem signedWord_eq {w : Nat} (hw : 8 ≤ w) (bs : List (BitVec 8)) :
    signedWord w bs = word w bs - BitVec.ofNat w (signGap bs) := by
  have base : BitVec.ofNat w 256 = 256 := rfl
  have one : BitVec.ofNat w 1 = 1 := rfl
  induction bs with
  | nil => simp [signedWord, word]
  | cons b rest ih =>
      by_cases hb : b.toNat < 128
      · rw [signedWord, or_shift_of_low hb, ih, signGap_cons_of_lt rest hb]
        simp only [word, value_cons, BitVec.ofNat_add, BitVec.ofNat_mul, base]
        ring
      · rw [signedWord, or_shift_of_high hw (by omega), signGap_cons_of_ge rest (by omega)]
        simp only [word, value_cons, BitVec.ofNat_add, BitVec.ofNat_mul, base, one]
        ring

end Explore.LittleEndian
