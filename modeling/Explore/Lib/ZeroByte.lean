import Explore.Lib.LittleEndian

/-!
# Finding a zero byte inside a word

The classic test subtracts one from every byte at once and keeps the sign bits
that were clear before. A borrow leaves a byte only if the byte is zero, so up to
and including the first zero byte every byte is tested correctly; the bits above
it are noise. The lowest bit of the result therefore marks the first zero byte.
-/

namespace Explore.LittleEndian

theorem testBit_value (bs : List (BitVec 8)) (j r : Nat) (hr : r < 8) :
    (value bs).testBit (8 * j + r) = ((bs[j]?).getD 0).getLsbD r := by
  induction bs generalizing j with
  | nil => simp
  | cons b bs ih =>
      have hvalue : value (b :: bs) = 2 ^ 8 * value bs + b.toNat := by
        rw [value_cons]
        ring
      rw [hvalue, Nat.testBit_two_pow_mul_add _ b.isLt]
      cases j with
      | zero => simp [hr, BitVec.getLsbD]
      | succ j =>
          rw [if_neg (by omega), show 8 * (j + 1) + r - 8 = 8 * j + r by omega, ih]
          rfl

/-- Bit `r` of byte `j` of a word is bit `r` of the `j`-th byte of the string. -/
theorem getLsbD_word {w : Nat} (bs : List (BitVec 8)) {j r : Nat} (hr : r < 8)
    (hw : 8 * j + r < w) :
    (word w bs).getLsbD (8 * j + r) = ((bs[j]?).getD 0).getLsbD r := by
  rw [word, BitVec.getLsbD_ofNat, testBit_value bs j r hr]
  simp [hw]

/-- The word with the same byte in `n` places. -/
def fill (w n : Nat) (b : BitVec 8) : BitVec w := word w (List.replicate n b)

/-- The sign bits of the bytes that the test takes for zero. -/
def zeroBytes (w n : Nat) (x : BitVec w) : BitVec w :=
  (x - fill w n 1) &&& (~~~x) &&& fill w n 0x80

private theorem word_cons (w : Nat) (b : BitVec 8) (bs : List (BitVec 8)) :
    word w (b :: bs) = BitVec.ofNat w b.toNat + word w bs * 256 := by
  have base : BitVec.ofNat w 256 = 256 := rfl
  rw [word, word, value_cons, BitVec.ofNat_add, BitVec.ofNat_mul, base]
  ring

private theorem getLsbD_add_mul {w : Nat} (b : BitVec 8) (y : BitVec w) {j r : Nat} (hr : r < 8)
    (hw : 8 * j + r < w) :
    (BitVec.ofNat w b.toNat + y * 256).getLsbD (8 * j + r) =
      if j = 0 then b.getLsbD r else y.getLsbD (8 * (j - 1) + r) := by
  have hb := b.isLt
  have htoNat : (BitVec.ofNat w b.toNat + y * 256).toNat =
      (2 ^ 8 * y.toNat + b.toNat) % 2 ^ w := by
    have h256 : (256 : BitVec w).toNat = 256 % 2 ^ w := rfl
    rw [BitVec.toNat_add, BitVec.toNat_mul, BitVec.toNat_ofNat, h256, Nat.mul_mod_mod,
      Nat.add_mod_mod, Nat.mod_add_mod]
    congr 1
    ring
  rw [BitVec.getLsbD, htoNat, Nat.testBit_mod_two_pow, Nat.testBit_two_pow_mul_add _ hb]
  simp only [hw, decide_true, Bool.true_and]
  by_cases hj : j = 0
  · subst hj
    simp [hr, BitVec.getLsbD]
  · rw [if_neg (by omega), if_neg hj, show 8 * j + r - 8 = 8 * (j - 1) + r by omega]
    rfl

/-- Subtracting one from every byte does so byte by byte, as long as no byte
below is zero. -/
theorem getLsbD_sub_fill {w : Nat} {bs : List (BitVec 8)} {j r : Nat} {b : BitVec 8}
    (below : ∀ i < j, bs[i]? ≠ some 0) (hb : bs[j]? = some b) (hr : r < 8)
    (hw : 8 * j + r < w) :
    (word w bs - fill w bs.length 1).getLsbD (8 * j + r) = (b - 1).getLsbD r := by
  induction bs generalizing j with
  | nil => simp at hb
  | cons a bs ih =>
      have hfill : fill w (a :: bs).length 1 = BitVec.ofNat w 1 + fill w bs.length 1 * 256 := by
        rw [fill, List.length_cons, List.replicate_succ, word_cons]
        rfl
      rw [word_cons, hfill]
      cases j with
      | zero =>
          obtain rfl : a = b := by simpa using hb
          -- the low byte, where a borrow goes into the rest of the word
          have hlow : ∃ y : BitVec w, BitVec.ofNat w a.toNat + word w bs * 256 -
              (BitVec.ofNat w 1 + fill w bs.length 1 * 256) =
                BitVec.ofNat w (a - 1).toNat + y * 256 := by
            by_cases ha : a = 0
            · subst ha
              refine ⟨word w bs - fill w bs.length 1 - 1, ?_⟩
              have h255 : BitVec.ofNat w ((0 : BitVec 8) - 1).toNat = 256 - 1 := by
                have h1 : ((0 : BitVec 8) - 1).toNat = 255 := rfl
                have h2 : BitVec.ofNat w 255 + BitVec.ofNat w 1 = BitVec.ofNat w 256 :=
                  (BitVec.ofNat_add ..).symm
                have h3 : BitVec.ofNat w 256 = 256 := rfl
                have h4 : BitVec.ofNat w 1 = 1 := rfl
                rw [h1, ← h3, ← h2, h4]
                ring
              have h0 : BitVec.ofNat w (0 : BitVec 8).toNat = 0 := rfl
              have h1 : BitVec.ofNat w 1 = 1 := rfl
              rw [h255, h0, h1]
              ring
            · refine ⟨word w bs - fill w bs.length 1, ?_⟩
              have hpos : 1 ≤ a.toNat := by
                by_contra hzero
                exact ha (BitVec.eq_of_toNat_eq (by simpa using hzero))
              have hsub : (a - 1).toNat = a.toNat - 1 :=
                BitVec.toNat_sub_of_le (by rw [BitVec.le_def]; exact hpos)
              have hsplit : BitVec.ofNat w a.toNat = BitVec.ofNat w (a - 1).toNat +
                  BitVec.ofNat w 1 := by
                rw [← BitVec.ofNat_add, hsub, Nat.sub_add_cancel hpos]
              rw [hsplit]
              ring
          obtain ⟨y, hy⟩ := hlow
          rw [hy, getLsbD_add_mul _ _ hr hw, if_pos rfl]
      | succ j =>
          have ha : a ≠ 0 := by
            rintro rfl
            exact below 0 (by omega) rfl
          have hpos : 1 ≤ a.toNat := by
            by_contra hzero
            exact ha (BitVec.eq_of_toNat_eq (by simpa using hzero))
          have hsub : (a - 1).toNat = a.toNat - 1 :=
            BitVec.toNat_sub_of_le (by rw [BitVec.le_def]; exact hpos)
          have hsplit : BitVec.ofNat w a.toNat + word w bs * 256 -
              (BitVec.ofNat w 1 + fill w bs.length 1 * 256) =
                BitVec.ofNat w (a - 1).toNat + (word w bs - fill w bs.length 1) * 256 := by
            have hone : BitVec.ofNat w a.toNat = BitVec.ofNat w (a - 1).toNat +
                BitVec.ofNat w 1 := by
              rw [← BitVec.ofNat_add, hsub, Nat.sub_add_cancel hpos]
            rw [hone]
            ring
          rw [hsplit, getLsbD_add_mul _ _ hr hw, if_neg (by omega), Nat.add_sub_cancel]
          exact ih (fun i hi => below (i + 1) (by omega)) hb (by omega)

private theorem sign_bit_iff : ∀ b : BitVec 8,
    ((b - 1).getLsbD 7 && !b.getLsbD 7) = decide (b = 0) := by
  decide

private theorem getLsbD_fill_sign : ∀ r < 8, (0x80 : BitVec 8).getLsbD r = decide (r = 7) := by
  decide

/-- The test is exact up to the first zero byte. -/
theorem getLsbD_zeroBytes {w : Nat} {bs : List (BitVec 8)} {j r : Nat} {b : BitVec 8}
    (below : ∀ i < j, bs[i]? ≠ some 0) (hb : bs[j]? = some b) (hr : r < 8)
    (hw : 8 * j + r < w) :
    (zeroBytes w bs.length (word w bs)).getLsbD (8 * j + r) = decide (r = 7 ∧ b = 0) := by
  have hj : j < bs.length := (List.getElem?_eq_some_iff.mp hb).1
  have hsign : (fill w bs.length 0x80).getLsbD (8 * j + r) = decide (r = 7) := by
    rw [fill, getLsbD_word _ hr hw, List.getElem?_replicate, if_pos hj]
    exact getLsbD_fill_sign r hr
  rw [zeroBytes, BitVec.getLsbD_and, BitVec.getLsbD_and, BitVec.getLsbD_not,
    getLsbD_sub_fill below hb hr hw, getLsbD_word bs hr hw, hb, hsign]
  simp only [hw, decide_true, Bool.true_and, Option.getD_some]
  by_cases h7 : r = 7
  · subst h7
    rw [sign_bit_iff]
    simp
  · simp [h7]

/-- Without a zero byte the result is zero. -/
theorem zeroBytes_eq_zero {n : Nat} {bs : List (BitVec 8)} (hlen : bs.length = n)
    (free : 0 ∉ bs) : zeroBytes (8 * n) n (word (8 * n) bs) = 0 := by
  subst hlen
  apply BitVec.eq_of_getLsbD_eq
  intro i hi
  obtain ⟨j, r, hr, rfl⟩ : ∃ j r, r < 8 ∧ i = 8 * j + r :=
    ⟨i / 8, i % 8, Nat.mod_lt _ (by decide), by omega⟩
  have hj : j < bs.length := by omega
  have hne : bs[j] ≠ 0 := fun h => free (h ▸ List.getElem_mem hj)
  rw [getLsbD_zeroBytes (fun i _ h => free (List.mem_of_getElem? h))
    (List.getElem?_eq_getElem hj) hr hi, decide_eq_false fun h => hne h.2]
  simp

/-- With a first zero byte the lowest bit of the result is its sign bit. -/
theorem zeroBytes_lowest {n k : Nat} {bs : List (BitVec 8)} (hlen : bs.length = n)
    (hk : bs[k]? = some 0) (below : ∀ i < k, bs[i]? ≠ some 0) :
    (zeroBytes (8 * n) n (word (8 * n) bs)).getLsbD (8 * k + 7) = true ∧
      ∀ i < 8 * k + 7, (zeroBytes (8 * n) n (word (8 * n) bs)).getLsbD i = false := by
  subst hlen
  have hlt : k < bs.length := (List.getElem?_eq_some_iff.mp hk).1
  constructor
  · rw [getLsbD_zeroBytes below hk (by decide) (by omega)]
    simp
  · intro i hi
    obtain ⟨j, r, hr, rfl⟩ : ∃ j r, r < 8 ∧ i = 8 * j + r :=
      ⟨i / 8, i % 8, Nat.mod_lt _ (by decide), by omega⟩
    have hj : j < bs.length := by omega
    rw [getLsbD_zeroBytes (fun i hij => below i (by omega)) (List.getElem?_eq_getElem hj) hr
      (by omega), decide_eq_false_iff_not]
    rintro ⟨rfl, hzero⟩
    exact below j (by omega) (by rw [List.getElem?_eq_getElem hj, hzero])

end Explore.LittleEndian
