import Explore.OneBrc.Parsing
import Mathlib.Algebra.BigOperators.Ring.Finset

/-!
# When the fast and the slow line parser agree

The two parsers report the same length, temperature and next position on every
line allowed by the rules, so they agree exactly when they hash the name alike.
The slow parser forgets to mask the bytes it or-s together, so in a group of four
bytes the first one above `0x7F` wipes out those behind it, and the word falls
short by what they and a carry are worth. The hashes agree exactly if these losses,
each times the power of 31 of its group, cancel modulo `2 ^ 32`. They do for ASCII
names, which lose nothing, and they do not for names in which just one group loses.
-/

namespace Explore.OneBrc

open LittleEndian ShardProcessorState

section Losses

/-- The groups of four bytes of a name, of which the last may be short. -/
def groupCount (name : List Byte) : ℕ := (name.length + 3) / 4

def groupAt (name : List Byte) (g : ℕ) : List Byte := (name.drop (4 * g)).take 4

/-- What a group loses: the bytes behind the first one above `0x7F`, and one. -/
def loss (bytes : List Byte) : ℕ :=
  match bytes.findIdx? fun b => 128 ≤ b.toNat with
  | none => 0
  | some i => 256 ^ (i + 1) * (value (bytes.drop (i + 1)) + 1)

/-- The losses of the groups cancel. -/
def LossesCancel (name : List Byte) : Prop :=
  2 ^ 32 ∣ ∑ g ∈ Finset.range (groupCount name),
    31 ^ (groupCount name - 1 - g) * loss (groupAt name g)

instance : DecidablePred LossesCancel := fun _ => Nat.decidable_dvd ..

theorem signGap_eq_loss (bytes : List Byte) : signGap bytes = loss bytes := by
  induction bytes with
  | nil => rfl
  | cons b bytes ih =>
      by_cases hb : b.toNat < 128
      · rw [signGap_cons_of_lt bytes hb, ih, loss, loss, List.findIdx?_cons,
          decide_eq_false (Nat.not_le_of_lt hb)]
        cases bytes.findIdx? fun b => 128 ≤ b.toNat with
        | none => rfl
        | some i =>
            change 256 * (256 ^ (i + 1) * _) = 256 ^ (i + 2) * _
            rw [Nat.pow_succ 256 (i + 1), Nat.mul_comm (256 ^ (i + 1)) 256, Nat.mul_assoc]
            rfl
      · rw [signGap_cons_of_ge bytes (by omega), loss, List.findIdx?_cons,
          decide_eq_true (Nat.le_of_not_lt hb)]
        rfl

/-- In a group whose first three bytes are ASCII a fourth byte loses a multiple of `2 ^ 32`. -/
theorem dvd_loss {bytes : List Byte} (ascii : ∀ b ∈ bytes.take 3, b.toNat < 128) :
    2 ^ 32 ∣ loss bytes := by
  rw [loss]
  split
  · exact Nat.dvd_zero _
  · rename_i i hi
    obtain ⟨hlt, hhigh, -⟩ := List.findIdx?_eq_some_iff_getElem.mp hi
    have hthree : 3 ≤ i := by
      by_contra hlow
      have hmem : bytes[i] ∈ bytes.take 3 := by
        rw [List.mem_take_iff_getElem]
        exact ⟨i, by omega, rfl⟩
      exact absurd (of_decide_eq_true hhigh) (Nat.not_le_of_lt (ascii _ hmem))
    exact (pow_dvd_pow 256 (show 4 ≤ i + 1 by omega)).trans (Nat.dvd_mul_right _ _)

/-- The value of bytes of which the first is not `0xFF` does not end in a carry. -/
theorem value_add_one_lt {b : Byte} (bytes : List Byte) (hb : b ≠ 0xFF) :
    value (b :: bytes) + 1 < 256 ^ (b :: bytes).length := by
  have hlt := value_lt bytes
  have hnat : b.toNat ≠ 255 := fun h => hb (BitVec.eq_of_toNat_eq h)
  have := b.isLt
  rw [value_cons, List.length_cons, Nat.pow_succ]
  omega

/-- Any other byte above `0x7F` makes its group lose less than `2 ^ 32`, where no byte is
`0xFF`. -/
theorem not_dvd_loss {bytes : List Byte} (hlen : bytes.length ≤ 4) (hcarry : 0xFF ∉ bytes)
    {b : Byte} (hb : b ∈ bytes.take 3) (high : 128 ≤ b.toNat) : ¬ 2 ^ 32 ∣ loss bytes := by
  have hpos := signGap_pos (List.mem_of_mem_take hb) high
  rw [signGap_eq_loss] at hpos
  refine Nat.not_dvd_of_pos_of_lt hpos ?_
  rw [loss]
  split
  · decide
  · rename_i i hi
    obtain ⟨hlt, -, hfirst⟩ := List.findIdx?_eq_some_iff_getElem.mp hi
    obtain ⟨j, hj, rfl⟩ := List.mem_take_iff_getElem.mp hb
    have hij : i ≤ j := Nat.le_of_not_lt fun hji => hfirst j hji (decide_eq_true high)
    cases hdrop : bytes.drop (i + 1) with
    | nil =>
        calc 256 ^ (i + 1) * (value [] + 1) = 256 ^ (i + 1) := Nat.mul_one _
          _ ≤ 256 ^ 3 := Nat.pow_le_pow_right (by decide) (by omega)
          _ < 2 ^ 32 := by decide
    | cons c rest =>
        have hc : c ≠ 0xFF := by
          rintro rfl
          exact hcarry (List.mem_of_mem_drop (hdrop ▸ List.mem_cons_self))
        have hlength : i + 1 + (c :: rest).length = bytes.length := by
          rw [← hdrop, List.length_drop]
          omega
        calc 256 ^ (i + 1) * (value (c :: rest) + 1)
            < 256 ^ (i + 1) * 256 ^ (c :: rest).length :=
              Nat.mul_lt_mul_of_pos_left (value_add_one_lt rest hc) (Nat.pow_pos (by decide))
          _ = 256 ^ bytes.length := by rw [← Nat.pow_add, hlength]
          _ ≤ 256 ^ 4 := Nat.pow_le_pow_right (by decide) hlen
          _ = 2 ^ 32 := by decide

variable {name : List Byte}

/-- Names agree whose bytes above `0x7F` are fourth in their groups. -/
theorem lossesCancel_of_fourths
    (ascii : ∀ g, ∀ b ∈ (groupAt name g).take 3, b.toNat < 128) : LossesCancel name :=
  Finset.dvd_sum fun g _ => (dvd_loss (ascii g)).mul_left _

theorem lossesCancel_of_ascii (ascii : ∀ b ∈ name, b.toNat < 128) : LossesCancel name :=
  lossesCancel_of_fourths fun _ b hb =>
    ascii b (List.mem_of_mem_drop (List.mem_of_mem_take (List.mem_of_mem_take hb)))

/-- Names do not agree in which one group has other bytes above `0x7F`. -/
theorem not_lossesCancel_of_single (hcarry : 0xFF ∉ name) {g : ℕ} {b : Byte}
    (hb : b ∈ (groupAt name g).take 3) (high : 128 ≤ b.toNat)
    (ascii : ∀ other, other ≠ g → ∀ b ∈ (groupAt name other).take 3, b.toNat < 128) :
    ¬ LossesCancel name := by
  have hlen : (groupAt name g).length ≤ 4 := by simp [groupAt]
  have hgroup : 0xFF ∉ groupAt name g := fun hmem =>
    hcarry (List.mem_of_mem_drop (List.mem_of_mem_take hmem))
  have hg : g ∈ Finset.range (groupCount name) := by
    by_contra hout
    have hempty : groupAt name g = [] := by
      rw [Finset.mem_range, groupCount] at hout
      rw [groupAt, List.drop_eq_nil_of_le (by omega), List.take_nil]
    rw [hempty] at hb
    cases hb
  have hothers : 2 ^ 32 ∣ ∑ other ∈ (Finset.range (groupCount name)).erase g,
      31 ^ (groupCount name - 1 - other) * loss (groupAt name other) :=
    Finset.dvd_sum fun other hother =>
      (dvd_loss (ascii other (Finset.ne_of_mem_erase hother))).mul_left _
  rw [LossesCancel, ← Finset.add_sum_erase _ _ hg, Nat.dvd_add_left hothers]
  intro hdvd
  have hcoprime : Nat.Coprime (2 ^ 32) (31 ^ (groupCount name - 1 - g)) :=
    Nat.Coprime.pow _ _ (by decide)
  exact not_dvd_loss hlen hgroup hb high (hcoprime.dvd_of_dvd_mul_left hdvd)

/-- The losses of the two groups of `ÿaaÿ)5` do cancel. -/
example : LossesCancel [0xC3, 0xBF, 0x61, 0x61, 0xC3, 0xBF, 0x29, 0x35] := by decide

end Losses

section Sums

theorem groupCount_four (a b c d : Byte) (rest : List Byte) :
    groupCount (a :: b :: c :: d :: rest) = groupCount rest + 1 := by
  simp only [groupCount, List.length_cons]
  omega

/-- The hash of a name as a sum over its groups. -/
theorem polyHash_eq_sum (f : List Byte → ℕ) (hash : JInt) (name : List Byte) :
    polyHash (fun bytes => BitVec.ofNat 32 (f bytes)) hash name =
      hash * BitVec.ofNat 32 (31 ^ groupCount name) +
        BitVec.ofNat 32 (∑ g ∈ Finset.range (groupCount name),
          31 ^ (groupCount name - 1 - g) * f (groupAt name g)) := by
  have base : BitVec.ofNat 32 31 = 31 := rfl
  induction name using groups_induction generalizing hash with
  | nil => simp [polyHash, groupCount]
  | one a => simp [polyHash, groupCount, groupAt]
  | two a b => simp [polyHash, groupCount, groupAt]
  | three a b c => simp [polyHash, groupCount, groupAt]
  | four a b c d rest ih =>
      rw [polyHash, ih, groupCount_four, Finset.sum_range_succ']
      have hsum : ∑ g ∈ Finset.range (groupCount rest), 31 ^ (groupCount rest + 1 - 1 - (g + 1)) *
            f (groupAt (a :: b :: c :: d :: rest) (g + 1)) =
          ∑ g ∈ Finset.range (groupCount rest), 31 ^ (groupCount rest - 1 - g) *
            f (groupAt rest g) := by
        refine Finset.sum_congr rfl fun g _ => ?_
        rw [Nat.add_sub_cancel, Nat.sub_add_eq, Nat.sub_right_comm]
        rfl
      rw [hsum]
      simp only [BitVec.ofNat_add, BitVec.ofNat_mul, Nat.pow_succ, Nat.add_sub_cancel, Nat.sub_zero,
        base]
      change _ = _ + (_ + _ * BitVec.ofNat 32 (f [a, b, c, d]))
      ring

/-- The two hashes of a name are the same exactly if its losses cancel. -/
theorem polyHash_word_eq_iff (name : List Byte) :
    polyHash (word 32) 0 name = polyHash (signedWord 32) 0 name ↔ LossesCancel name := by
  have hgroup : (fun bytes => word 32 bytes - signedWord 32 bytes) =
      fun bytes => BitVec.ofNat 32 (loss bytes) := by
    funext bytes
    rw [signedWord_eq (by decide), signGap_eq_loss]
    ring
  rw [← sub_eq_zero, polyHash_sub, hgroup, polyHash_eq_sum, sub_zero, zero_mul, zero_add,
    LossesCancel, Nat.dvd_iff_mod_eq_zero]
  constructor
  · intro hzero
    simpa using congrArg BitVec.toNat hzero
  · intro hzero
    exact BitVec.eq_of_toNat_eq hzero

end Sums

/-- The parsers agree at a position: they compute the same hash and the same
next position, and have the same effect on every table. -/
structure ParsersAgree (order : ByteOrder) (mmb : Buffer) (pos : Nat) : Prop where
  hash : (parseLine order mmb pos).map ParsedLine.hash = (parseLineSlow mmb pos).map ParsedLine.hash
  next : (parseLine order mmb pos).map ParsedLine.nextPos =
    (parseLineSlow mmb pos).map ParsedLine.nextPos
  effect : ∀ st : ShardProcessorState, st.processLine order mmb pos = st.processLineSlow mmb pos

/-- On a line allowed by the rules the parsers agree as soon as they hash its
name alike, and only then. -/
theorem parsersAgree_iff_polyHash_eq {order : ByteOrder} {mmb : Buffer} {line : Line}
    {after : List Byte} {pos : Nat} (h : mmb.drop pos = line.bytes ++ after) :
    ParsersAgree order mmb pos ↔
      polyHash (word 32) 0 line.name = polyHash (signedWord 32) 0 line.name := by
  have fast : parseLine order mmb pos = _ := parseLine_eq h
  have slow := parseLineSlow_eq h
  constructor
  · intro agree
    simpa [fast, slow] using agree.hash
  · intro same
    refine ⟨by rw [fast, slow, same], by rw [fast, slow]; rfl, fun st => ?_⟩
    rw [processLine, processLineSlow, fast, slow, same]

/-- For every line allowed by the rules, every surrounding bytes and both byte
orders, the parsers agree exactly when the losses of the name cancel. -/
theorem parsersAgree_iff_lossesCancel (order : ByteOrder) (before after : List Byte)
    (line : Line) :
    ParsersAgree order (before ++ (line.bytes ++ after)) before.length ↔
      LossesCancel line.name := by
  rw [parsersAgree_iff_polyHash_eq (List.drop_left ..), polyHash_word_eq_iff]

/-- The station `é`, encoded in UTF-8, at 1.0 degrees. -/
def eAcuteLine : Line where
  name := [0xC3, 0xA9]
  temp := ⟨false, none, 1, 0⟩
  name_pos := by decide
  name_le := by decide
  no_semicolon := by decide
  no_newline := by decide

/-- The slow parser gives `é` another hash than the fast one. -/
theorem not_parsersAgree_eAcuteLine :
    ¬ ∀ (order : ByteOrder) (before after : List Byte) (line : Line),
      ParsersAgree order (before ++ (line.bytes ++ after)) before.length := by
  intro all
  have agree := all .littleEndian [] [] eAcuteLine
  rw [parsersAgree_iff_polyHash_eq (List.drop_left ..), polyHash_word_eq_iff] at agree
  exact absurd agree (by decide)

end Explore.OneBrc
