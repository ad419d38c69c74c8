import Explore.Lib.ZeroByte
import Mathlib.Tactic.Common

/-!
# Memory as a byte map

A memory gives a byte for every address. Words are stored little-endian. A load
reads back the word stored at its address, and a store changes nothing outside
the bytes it writes.
-/

namespace Explore

/-- A byte for every address, counted from some base. -/
abbrev Memory := ℕ → BitVec 8

namespace Memory

open LittleEndian

def readBytes (mem : Memory) (addr n : ℕ) : List (BitVec 8) :=
  (List.range n).map fun i => mem (addr + i)

def writeBytes (mem : Memory) (addr : ℕ) (bs : List (BitVec 8)) : Memory := fun a =>
  if a < addr then mem a else (bs[a - addr]?).getD (mem a)

/-- The bytes of a word, the lowest first. -/
def bytesOf {w : ℕ} (x : BitVec w) : List (BitVec 8) :=
  (List.range (w / 8)).map fun i => (x >>> (8 * i)).setWidth 8

def load (w : ℕ) (mem : Memory) (addr : ℕ) : BitVec w := word w (mem.readBytes addr (w / 8))

def store {w : ℕ} (mem : Memory) (addr : ℕ) (x : BitVec w) : Memory :=
  mem.writeBytes addr (bytesOf x)

section Bytes

variable {mem other : Memory} {addr n : ℕ} {bs : List (BitVec 8)}

@[simp] theorem length_readBytes (mem : Memory) (addr n : ℕ) :
    (mem.readBytes addr n).length = n := by
  simp [readBytes]

@[simp] theorem length_bytesOf {w : ℕ} (x : BitVec w) : (bytesOf x).length = w / 8 := by
  simp [bytesOf]

theorem getElem?_readBytes {i : ℕ} (hi : i < n) :
    (mem.readBytes addr n)[i]? = some (mem (addr + i)) := by
  simp [readBytes, hi]

/-- A read depends on the bytes read only. -/
theorem readBytes_congr {addr' : ℕ} (h : ∀ i < n, mem (addr + i) = other (addr' + i)) :
    mem.readBytes addr n = other.readBytes addr' n :=
  List.map_congr_left fun i hi => h i (List.mem_range.mp hi)

theorem readBytes_add (mem : Memory) (addr n m : ℕ) :
    mem.readBytes addr (n + m) = mem.readBytes addr n ++ mem.readBytes (addr + n) m := by
  rw [readBytes, List.range_add, List.map_append, List.map_map]
  congr 1
  exact List.map_congr_left fun i _ => by rw [Function.comp_apply, Nat.add_assoc]

theorem take_readBytes (mem : Memory) (addr n : ℕ) {k : ℕ} (hk : k ≤ n) :
    (mem.readBytes addr n).take k = mem.readBytes addr k := by
  obtain ⟨m, rfl⟩ := Nat.exists_eq_add_of_le hk
  rw [readBytes_add, List.take_left' (length_readBytes ..)]

theorem drop_readBytes (mem : Memory) (addr n k : ℕ) :
    (mem.readBytes addr (k + n)).drop k = mem.readBytes (addr + k) n := by
  rw [readBytes_add, List.drop_left' (length_readBytes ..)]

/-- Two reads agree if and only if their parts do. -/
theorem readBytes_add_eq_iff {addr' m : ℕ} :
    mem.readBytes addr (n + m) = other.readBytes addr' (n + m) ↔
      mem.readBytes addr n = other.readBytes addr' n ∧
        mem.readBytes (addr + n) m = other.readBytes (addr' + n) m := by
  rw [readBytes_add, readBytes_add]
  constructor
  · intro h
    exact List.append_inj h (by rw [length_readBytes, length_readBytes])
  · rintro ⟨hl, hr⟩
    rw [hl, hr]

theorem writeBytes_outside {a : ℕ} (h : a < addr ∨ addr + bs.length ≤ a) :
    mem.writeBytes addr bs a = mem a := by
  rw [writeBytes]
  split
  · rfl
  · rw [List.getElem?_eq_none (by omega), Option.getD_none]

theorem writeBytes_inside {i : ℕ} (hi : i < bs.length) :
    mem.writeBytes addr bs (addr + i) = bs[i] := by
  rw [writeBytes, if_neg (by omega), Nat.add_sub_cancel_left, List.getElem?_eq_getElem hi,
    Option.getD_some]

theorem readBytes_writeBytes_self (mem : Memory) (addr : ℕ) (bs : List (BitVec 8)) :
    (mem.writeBytes addr bs).readBytes addr bs.length = bs := by
  apply List.ext_getElem?
  intro i
  by_cases hi : i < bs.length
  · rw [getElem?_readBytes hi, writeBytes_inside hi, List.getElem?_eq_getElem hi]
  · rw [List.getElem?_eq_none (by simpa using hi), List.getElem?_eq_none (by omega)]

/-- Writing elsewhere does not change a read. -/
theorem readBytes_writeBytes_of_disjoint {addr' : ℕ}
    (h : addr + n ≤ addr' ∨ addr' + bs.length ≤ addr) :
    (mem.writeBytes addr' bs).readBytes addr n = mem.readBytes addr n :=
  readBytes_congr fun i hi => writeBytes_outside (by omega)

end Bytes

section Words

variable {w v : ℕ} {mem other : Memory} {addr addr' : ℕ}

/-- A word is made of its bytes. -/
theorem word_bytesOf (x : BitVec w) (hw : 8 ∣ w) : word w (bytesOf x) = x := by
  obtain ⟨n, rfl⟩ := hw
  apply BitVec.eq_of_getLsbD_eq
  intro i hi
  obtain ⟨j, r, hr, rfl⟩ : ∃ j r, r < 8 ∧ i = 8 * j + r :=
    ⟨i / 8, i % 8, Nat.mod_lt _ (by decide), by omega⟩
  rw [getLsbD_word _ hr hi, bytesOf, List.getElem?_map, List.getElem?_range (by omega)]
  simp [hr]

theorem value_inj {bs bs' : List (BitVec 8)} (len : bs.length = bs'.length)
    (h : value bs = value bs') : bs = bs' := by
  induction bs generalizing bs' with
  | nil => exact (List.length_eq_zero_iff.mp len.symm).symm
  | cons b bs ih =>
      cases bs' with
      | nil => simp at len
      | cons b' bs' =>
          rw [value_cons, value_cons] at h
          have hb := b.isLt
          have hb' := b'.isLt
          have hhead : b = b' := BitVec.eq_of_toNat_eq (by omega)
          have htail := ih (by simpa using len) (by omega)
          rw [hhead, htail]

/-- Words of equally many bytes are equal only if the bytes are. -/
theorem word_inj {bs bs' : List (BitVec 8)} (len : bs.length = bs'.length)
    (fits : 8 * bs.length ≤ w) : word w bs = word w bs' ↔ bs = bs' := by
  constructor
  · intro h
    apply value_inj len
    have hpow : 256 ^ bs.length ≤ 2 ^ w := by
      rw [show 256 = 2 ^ 8 from rfl, ← Nat.pow_mul]
      exact Nat.pow_le_pow_right (by decide) fits
    have hlt := Nat.lt_of_lt_of_le (value_lt bs) hpow
    have hlt' := Nat.lt_of_lt_of_le (len ▸ value_lt bs') hpow
    have := congrArg BitVec.toNat h
    rwa [word, word, BitVec.toNat_ofNat, BitVec.toNat_ofNat, Nat.mod_eq_of_lt hlt,
      Nat.mod_eq_of_lt hlt'] at this
  · rintro rfl
    rfl

theorem load_congr (h : mem.readBytes addr (w / 8) = other.readBytes addr' (w / 8)) :
    load w mem addr = load w other addr' := congrArg (word w) h

theorem load_store_self (mem : Memory) (addr : ℕ) (x : BitVec w) (hw : 8 ∣ w) :
    load w (mem.store addr x) addr = x := by
  have hread := readBytes_writeBytes_self mem addr (bytesOf x)
  rw [length_bytesOf] at hread
  rw [load, store, hread, word_bytesOf x hw]

/-- One byte of a word that was stored. -/
theorem store_byte (mem : Memory) (addr : ℕ) (x : BitVec w) {i : ℕ} (hi : i < w / 8) :
    mem.store addr x (addr + i) = (x >>> (8 * i)).setWidth 8 := by
  rw [store, writeBytes_inside (by rwa [length_bytesOf])]
  simp [bytesOf]

theorem load_byte (mem : Memory) (addr : ℕ) : mem.load 8 addr = mem addr := by
  apply BitVec.eq_of_toNat_eq
  have hlt := (mem addr).isLt
  change (BitVec.ofNat 8 (value [mem addr])).toNat = _
  rw [value_cons, value_nil, BitVec.toNat_ofNat, Nat.add_zero]
  omega

theorem readBytes_store_of_disjoint {n : ℕ} (x : BitVec v)
    (h : addr + n ≤ addr' ∨ addr' + v / 8 ≤ addr) :
    (mem.store addr' x).readBytes addr n = mem.readBytes addr n :=
  readBytes_writeBytes_of_disjoint (by rwa [length_bytesOf])

theorem load_eq_iff (hw : 8 ∣ w) : load w mem addr = load w other addr' ↔
    mem.readBytes addr (w / 8) = other.readBytes addr' (w / 8) := by
  apply word_inj
  · rw [length_readBytes, length_readBytes]
  · rw [length_readBytes, Nat.mul_div_cancel' hw]

end Words

end Memory

end Explore
