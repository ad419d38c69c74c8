import Explore.Lib.LittleEndian

/-!
# Mapped buffers and Java integers

A `MappedByteBuffer` is the list of its bytes. Reading past the limit raises an
exception in Java and is `none` here. A Java `int` is a 32-bit word; positions
inside a buffer never exceed its capacity and are natural numbers.

The buffers use the native byte order, and the program reverses the bytes of
every `int` it reads on a big-endian machine. Both orders are modelled, and the
fast line parser sees the same little-endian word under either of them.
-/

namespace Explore.OneBrc

open LittleEndian

abbrev Byte := BitVec 8

/-- A Java `int`. -/
abbrev JInt := BitVec 32

abbrev Buffer := List Byte

inductive ByteOrder where
  | littleEndian
  | bigEndian
  deriving DecidableEq, Repr

/-- The bytes the parsers look for: `;`, newline, `-`, `.` and `0`. -/
def semicolon : Byte := 0x3B
def newline : Byte := 0x0A
def minus : Byte := 0x2D
def dot : Byte := 0x2E
def zero : Byte := 0x30

/-- `nextByte - '0'`, where Java widens the signed byte to an `int` first. -/
def digitOf (b : Byte) : Int := b.toInt - zero.toInt

namespace Buffer

/-- `mmb.getInt(pos)` in the buffer's byte order. -/
def getInt (order : ByteOrder) (mmb : Buffer) (pos : Nat) : Option JInt := do
  let a ← mmb[pos]?
  let b ← mmb[pos + 1]?
  let c ← mmb[pos + 2]?
  let d ← mmb[pos + 3]?
  match order with
  | .littleEndian => some (word 32 [a, b, c, d])
  | .bigEndian => some (word 32 [d, c, b, a])

end Buffer

/-- `(byte) (x >>> (8 * k))`. -/
def byteOf (x : JInt) (k : Nat) : Byte := (x >>> (8 * k)).setWidth 8

/-- `Integer.reverseBytes`. -/
def reverseBytes (x : JInt) : JInt := word 32 [byteOf x 3, byteOf x 2, byteOf x 1, byteOf x 0]

/-- The `int` the fast parser works on: read in native order, and put into
little-endian order when the machine is big-endian. -/
def nativeInt (order : ByteOrder) (mmb : Buffer) (pos : Nat) : Option JInt := do
  let x ← mmb.getInt order pos
  match order with
  | .bigEndian => some (reverseBytes x)
  | .littleEndian => some x

theorem word_four_toNat (a b c d : Byte) :
    (word 32 [a, b, c, d]).toNat =
      a.toNat + 256 * (b.toNat + 256 * (c.toNat + 256 * d.toNat)) := by
  have ha := a.isLt
  have hb := b.isLt
  have hc := c.isLt
  have hd := d.isLt
  simp only [word, value_cons, value_nil, BitVec.toNat_ofNat]
  omega

private theorem byteOf_toNat (x : JInt) (k : Nat) :
    (byteOf x k).toNat = x.toNat / 2 ^ (8 * k) % 256 := by
  simp [byteOf, BitVec.toNat_setWidth, BitVec.toNat_ushiftRight, Nat.shiftRight_eq_div_pow]

@[simp] theorem byteOf_word_zero (a b c d : Byte) : byteOf (word 32 [a, b, c, d]) 0 = a := by
  have ha := a.isLt
  apply BitVec.eq_of_toNat_eq
  rw [byteOf_toNat, word_four_toNat]
  omega

@[simp] theorem byteOf_word_one (a b c d : Byte) : byteOf (word 32 [a, b, c, d]) 1 = b := by
  have ha := a.isLt
  have hb := b.isLt
  apply BitVec.eq_of_toNat_eq
  rw [byteOf_toNat, word_four_toNat]
  omega

@[simp] theorem byteOf_word_two (a b c d : Byte) : byteOf (word 32 [a, b, c, d]) 2 = c := by
  have ha := a.isLt
  have hb := b.isLt
  have hc := c.isLt
  apply BitVec.eq_of_toNat_eq
  rw [byteOf_toNat, word_four_toNat]
  omega

@[simp] theorem byteOf_word_three (a b c d : Byte) : byteOf (word 32 [a, b, c, d]) 3 = d := by
  have ha := a.isLt
  have hb := b.isLt
  have hc := c.isLt
  have hd := d.isLt
  apply BitVec.eq_of_toNat_eq
  rw [byteOf_toNat, word_four_toNat]
  omega

private theorem and_lowBits_toNat (x : JInt) (k : Nat) (hk : k ≤ 32) :
    (x &&& BitVec.ofNat 32 (2 ^ k - 1)).toNat = x.toNat % 2 ^ k := by
  have hlt : 2 ^ k - 1 < 2 ^ 32 := by
    have := Nat.pow_le_pow_right (show 0 < 2 by decide) hk
    have := Nat.two_pow_pos k
    omega
  rw [BitVec.toNat_and, BitVec.toNat_ofNat, Nat.mod_eq_of_lt hlt, Nat.and_two_pow_sub_one_eq_mod]

theorem word_and_ff (a b c d : Byte) : word 32 [a, b, c, d] &&& 0xFF = word 32 [a] := by
  have ha := a.isLt
  apply BitVec.eq_of_toNat_eq
  refine (and_lowBits_toNat _ 8 (by decide)).trans ?_
  rw [word_four_toNat]
  simp only [word, value_cons, value_nil, BitVec.toNat_ofNat]
  omega

theorem word_and_ffff (a b c d : Byte) : word 32 [a, b, c, d] &&& 0xFFFF = word 32 [a, b] := by
  have ha := a.isLt
  have hb := b.isLt
  apply BitVec.eq_of_toNat_eq
  refine (and_lowBits_toNat _ 16 (by decide)).trans ?_
  rw [word_four_toNat]
  simp only [word, value_cons, value_nil, BitVec.toNat_ofNat]
  omega

theorem word_and_ffffff (a b c d : Byte) :
    word 32 [a, b, c, d] &&& 0xFFFFFF = word 32 [a, b, c] := by
  have ha := a.isLt
  have hb := b.isLt
  have hc := c.isLt
  apply BitVec.eq_of_toNat_eq
  refine (and_lowBits_toNat _ 24 (by decide)).trans ?_
  rw [word_four_toNat]
  simp only [word, value_cons, value_nil, BitVec.toNat_ofNat]
  omega

/-- The byte order of the machine does not matter: four bytes always arrive as
their little-endian word. -/
theorem nativeInt_of_drop {order : ByteOrder} {mmb : Buffer} {pos : Nat} {a b c d : Byte}
    {rest : List Byte} (h : mmb.drop pos = a :: b :: c :: d :: rest) :
    nativeInt order mmb pos = some (word 32 [a, b, c, d]) := by
  have at_ (k : Nat) : mmb[pos + k]? = (a :: b :: c :: d :: rest)[k]? := by
    rw [← h, List.getElem?_drop]
  have h0 := at_ 0
  have h1 := at_ 1
  have h2 := at_ 2
  have h3 := at_ 3
  simp only [Nat.add_zero, List.getElem?_cons_zero, List.getElem?_cons_succ] at h0 h1 h2 h3
  cases order <;> simp [nativeInt, Buffer.getInt, h0, h1, h2, h3, reverseBytes]

/-- A successful four-byte read lies inside the buffer. -/
theorem lt_length_of_nativeInt {order : ByteOrder} {mmb : Buffer} {pos : Nat} {x : JInt}
    (h : nativeInt order mmb pos = some x) : pos + 3 < mmb.length := by
  by_contra hge
  have hnone : mmb[pos + 3]? = none := List.getElem?_eq_none (by omega)
  unfold nativeInt Buffer.getInt at h
  rw [hnone] at h
  cases h0 : mmb[pos]? <;> cases h1 : mmb[pos + 1]? <;> cases h2 : mmb[pos + 2]? <;>
    simp [h0, h1, h2] at h

end Explore.OneBrc
