import Explore.OneBrc.HashtableEntry

/-!
# The slots of the off-heap table

`Slots` reads the entries of a table as a table of names with linear probing:
every present entry holds the name that its slot has, with the offset of its tail
and its temperatures. An entry can be filled at the end of a probe or changed in
place, and both loops over the slots search this table of names.
-/

namespace Explore.OneBrc

open LittleEndian LinearProbe Memory Unsafely EntryData EntryMeta

/-- The slot of a name in a table of `2 ^ b` slots. -/
def hashSlot (hashOf : List Byte → JInt) (b : ℕ) (name : List Byte) : ℕ :=
  (hashOf name).toNat % 2 ^ b

theorem hashSlot_lt (hashOf : List Byte → JInt) (b : ℕ) (name : List Byte) :
    hashSlot hashOf b name < 2 ^ b :=
  Nat.mod_lt _ (Nat.two_pow_pos b)

/-- The table has `2 ^ b` slots with the given names, of which `info` gives the
offset of the tail and the temperatures. -/
structure Slots (hashOf : List Byte → JInt) (m : EntryMeta) (b : ℕ)
    (keys : List (Option (List Byte))) (info : List Byte → ℕ × List Int) : Prop where
  bits : m.nEntriesBits = b
  bits_le : b ≤ 16
  entries_size : m.entries.size = 32 * 2 ^ b
  keys_length : keys.length = 2 ^ b
  wellFormed : WellFormed (hashSlot hashOf b) keys
  free : ∀ i : ℕ, keys[i]? = some none → isPresent m.entries.bytes (32 * i) = false
  holds : ∀ (i : ℕ) name, keys[i]? = some (some name) →
    m.Holds (32 * i) (hashOf name) name (info name).1 (info name).2

theorem baseAddress_eq (n : JInt) : baseAddress n = 32 * n.toNat := by
  rw [baseAddress, Nat.shiftLeft_eq, Nat.mul_comm]
  rfl

theorem isPresent_zeroed (a : ℕ) : isPresent zeroed a = false := by
  rw [isPresent, len, load_byte]
  rfl

theorem blockSize_eq (b : ℕ) : (1 <<< b) <<< entrySizeBits = 32 * 2 ^ b := by
  rw [Nat.shiftLeft_eq, Nat.shiftLeft_eq, Nat.one_mul, Nat.mul_comm]
  rfl

/-- A block of zeros has no entries. -/
theorem slots_zeroed (hashOf : List Byte → JInt) {m : EntryMeta} {b : ℕ}
    (bits : m.nEntriesBits = b) (hle : b ≤ 16) (bytes : m.entries.bytes = zeroed)
    (size : m.entries.size = 32 * 2 ^ b) (info : List Byte → ℕ × List Int) :
    Slots hashOf m b (List.replicate (2 ^ b) none) info := by
  refine ⟨bits, hle, size, List.length_replicate, wellFormed_replicate _ _, ?_, ?_⟩
  · intro i _
    rw [bytes]
    exact isPresent_zeroed _
  · intro i name hi
    rw [List.getElem?_replicate] at hi
    split at hi <;> simp at hi

namespace Slots

variable {hashOf : List Byte → JInt} {m m' : EntryMeta} {b : ℕ}
  {keys : List (Option (List Byte))} {info info' : List Byte → ℕ × List Int}
  {name : List Byte} {i : ℕ}

theorem two_pow_le (h : Slots hashOf m b keys info) : 2 ^ b ≤ 2 ^ 16 :=
  Nat.pow_le_pow_right (by decide) h.bits_le

/-- The mask reduces a hash modulo the number of slots. -/
theorem and_hashMask (h : Slots hashOf m b keys info) (x : JInt) :
    (x &&& m.hashMask).toNat = x.toNat % 2 ^ b := by
  have hb := h.two_pow_le
  have hpos := Nat.two_pow_pos b
  have hmask : m.hashMask = BitVec.ofNat 32 (2 ^ b - 1) := by
    rw [hashMask, h.bits]
    apply BitVec.eq_of_toNat_eq
    have hone : (1 : JInt).toNat = 1 := rfl
    rw [BitVec.toNat_sub, BitVec.toNat_shiftLeft, hone, Nat.shiftLeft_eq, BitVec.toNat_ofNat]
    omega
  rw [hmask, BitVec.toNat_and, BitVec.toNat_ofNat, Nat.mod_eq_of_lt (by omega),
    Nat.and_two_pow_sub_one_eq_mod]

theorem toNat_nextIndex (h : Slots hashOf m b keys info) {index : JInt}
    (hindex : index.toNat < 2 ^ b) : (m.nextIndex index).toNat = (index.toNat + 1) % 2 ^ b := by
  have hb := h.two_pow_le
  have hone : (1 : JInt).toNat = 1 := rfl
  have hwrap : (index.toNat + 1) % 2 ^ 32 = index.toNat + 1 := Nat.mod_eq_of_lt (by omega)
  rw [nextIndex, h.and_hashMask, BitVec.toNat_add, hone, hwrap]

theorem toNat_indexFromHash32 (h : Slots hashOf m b keys info) (name : List Byte) :
    (m.indexFromHash32 (hashOf name)).toNat = hashSlot hashOf b name := h.and_hashMask _

/-- The short hash leads to the same slot. -/
theorem toNat_indexFromHash16 (h : Slots hashOf m b keys info) (name : List Byte) :
    (m.indexFromHash16 ((hashOf name).setWidth 16)).toNat = hashSlot hashOf b name := by
  have hpow : (2 : ℕ) ^ b ∣ 2 ^ 16 := Nat.pow_dvd_pow 2 h.bits_le
  have hmod := Nat.mod_lt (hashOf name).toNat (Nat.two_pow_pos 16)
  have hwide : (hashOf name).toNat % 2 ^ 16 % 2 ^ 32 = (hashOf name).toNat % 2 ^ 16 :=
    Nat.mod_eq_of_lt (by omega)
  rw [indexFromHash16, indexFromHash32, h.and_hashMask, BitVec.toNat_setWidth,
    BitVec.toNat_setWidth, hwide, Nat.mod_mod_of_dvd _ hpow, hashSlot]

theorem isPresent_iff (h : Slots hashOf m b keys info) (hi : i < 2 ^ b) :
    isPresent m.entries.bytes (32 * i) = true ↔ ∃ k, keys[i]? = some (some k) := by
  have hlt : i < keys.length := h.keys_length ▸ hi
  have hslot := List.getElem?_eq_getElem hlt
  cases hk : keys[i] with
  | none =>
      rw [hk] at hslot
      rw [h.free i hslot, hslot]
      simp
  | some k =>
      rw [hk] at hslot
      exact ⟨fun _ => ⟨k, hslot⟩, fun _ => isPresent_of_holds (h.holds i k hslot)⟩

/-- Filling the free slot at the end of a probe. -/
theorem set (h : Slots hashOf m b keys info) (hreach : Reaches keys name (hashSlot hashOf b name) i)
    (free : keys[i]? = some none) (frame : m.Frame m' (32 * i))
    (hnew : m'.Holds (32 * i) (hashOf name) name (info' name).1 (info' name).2)
    (same : ∀ (j : ℕ) k, keys[j]? = some (some k) → info' k = info k) :
    Slots hashOf m' b (keys.set i (some name)) info' := by
  have hlt := hreach.lt_length
  refine ⟨frame.bits.trans h.bits, h.bits_le, frame.entries_size.trans h.entries_size,
    by rw [List.length_set, h.keys_length], h.wellFormed.set hreach free, ?_, ?_⟩
  · intro j hj
    by_cases hij : i = j
    · subst hij
      rw [List.getElem?_set_self hlt] at hj
      cases hj
    · rw [List.getElem?_set_ne hij] at hj
      have hload : len m'.entries.bytes (32 * j) = len m.entries.bytes (32 * j) :=
        load_of_same (fun a ha => frame.entries _ (by omega)) (by decide)
      rw [isPresent, hload]
      exact h.free j hj
  · intro j k hj
    by_cases hij : i = j
    · subst hij
      rw [List.getElem?_set_self hlt] at hj
      obtain rfl : name = k := by simpa using hj
      exact hnew
    · rw [List.getElem?_set_ne hij] at hj
      rw [same j k hj]
      exact frame.holds (by omega) (h.holds j k hj)

/-- Changing the entry of a name in place. -/
theorem change (h : Slots hashOf m b keys info) (hi : keys[i]? = some (some name))
    (frame : m.Frame m' (32 * i))
    (hnew : m'.Holds (32 * i) (hashOf name) name (info' name).1 (info' name).2)
    (same : ∀ k, k ≠ name → info' k = info k) : Slots hashOf m' b keys info' := by
  refine ⟨frame.bits.trans h.bits, h.bits_le, frame.entries_size.trans h.entries_size,
    h.keys_length, h.wellFormed, ?_, ?_⟩
  · intro j hj
    have hij : i ≠ j := by
      rintro rfl
      rw [hi] at hj
      simp at hj
    have hload : len m'.entries.bytes (32 * j) = len m.entries.bytes (32 * j) :=
      load_of_same (fun a ha => frame.entries _ (by omega)) (by decide)
    rw [isPresent, hload]
    exact h.free j hj
  · intro j k hj
    by_cases hij : i = j
    · subst hij
      obtain rfl : name = k := by
        rw [hi] at hj
        simpa using hj
      exact hnew
    · have hne : k ≠ name := by
        rintro rfl
        exact hij (h.wellFormed.stored_unique hi hj)
      rw [same k hne]
      exact frame.holds (by omega) (h.holds j k hj)

/-- A slot of an entry lies inside the block. -/
theorem inside (h : Slots hashOf m b keys info) (hi : i < 2 ^ b) :
    32 * i + 32 ≤ m.entries.size := by
  rw [h.entries_size]
  omega

theorem lt_of_key (h : Slots hashOf m b keys info) (hi : keys[i]? = some (some name)) :
    i < 2 ^ b := by
  rw [← h.keys_length]
  exact (List.getElem?_eq_some_iff.mp hi).1

/-- The loop of `getNewEntry` searches for a name that is not in the table. -/
theorem newEntryFrom_eq (h : Slots hashOf m b keys info)
    (absent : ∀ j : ℕ, keys[j]? ≠ some (some name)) (rounds : ℕ) {index : JInt}
    (hindex : index.toNat < 2 ^ b) :
    Hashtable.newEntryFrom m rounds index =
      match findSlot keys name index.toNat rounds with
      | none => .error .outOfFuel
      | some i => .ok (BitVec.ofNat 32 i) := by
  induction rounds generalizing index with
  | zero => rfl
  | succ rounds ih =>
      have hlt : index.toNat < keys.length := h.keys_length ▸ hindex
      have hslot := List.getElem?_eq_getElem hlt
      rw [Hashtable.newEntryFrom, baseAddress_eq]
      cases hk : keys[index.toNat] with
      | none =>
          rw [hk] at hslot
          have hopen : ¬ Blocked keys name index.toNat := fun blocked => blocked.not_free hslot
          rw [h.free _ hslot, findSlot_open rounds hlt hopen]
          simp
      | some k =>
          rw [hk] at hslot
          have hblocked : Blocked keys name index.toNat := by
            refine ⟨k, hslot, ?_⟩
            rintro rfl
            exact absent _ hslot
          have hnext : (m.nextIndex index).toNat < 2 ^ b := by
            rw [h.toNat_nextIndex hindex]
            exact Nat.mod_lt _ (Nat.two_pow_pos b)
          rw [(h.isPresent_iff hindex).mpr ⟨k, hslot⟩, findSlot_blocked rounds hblocked,
            if_neg (by simp), ih hnext, h.toNat_nextIndex hindex, h.keys_length]

/-- What `addDataPoint` does at the slot where the probe of its name ends. -/
def recordAt (fuel : ℕ) (table : Hashtable) (d : DataPoint) (i : ℕ) : Except Fault Hashtable := do
  if ¬ isPresent table.entryMeta.entries.bytes (32 * i) then
    let entryMeta ← init table.entryMeta (32 * i) d
    Hashtable.onNewEntry fuel { table with entryMeta := entryMeta }
  else
    match ← updateOnMatch table.entryMeta (32 * i) d with
    | some entryMeta => .ok { table with entryMeta := entryMeta }
    | none => .error .outOfFuel

/-- The loop of `addDataPoint` searches for the name. -/
theorem addDataPointFrom_eq {table : Hashtable} (h : Slots hashOf table.entryMeta b keys info)
    {d : DataPoint} (hhash : d.hash32 = hashOf d.name)
    (room : table.entryMeta.cityNamesEnd ≤ table.entryMeta.cityNames.size) (fuel rounds : ℕ)
    {index : JInt} (hindex : index.toNat < 2 ^ b) :
    table.addDataPointFrom fuel d rounds index =
      match findSlot keys d.name index.toNat rounds with
      | none => .error .outOfFuel
      | some i => recordAt fuel table d i := by
  induction rounds generalizing index with
  | zero => rfl
  | succ rounds ih =>
      have hlt : index.toNat < keys.length := h.keys_length ▸ hindex
      have hslot := List.getElem?_eq_getElem hlt
      rw [Hashtable.addDataPointFrom, baseAddress_eq]
      cases hk : keys[index.toNat] with
      | none =>
          rw [hk] at hslot
          have hopen : ¬ Blocked keys d.name index.toNat := fun blocked => blocked.not_free hslot
          rw [findSlot_open rounds hlt hopen]
          simp only [recordAt, h.free _ hslot, Bool.false_eq_true, not_false_eq_true, if_true]
      | some k =>
          rw [hk] at hslot
          have hold := h.holds _ k hslot
          have hinside := h.inside hindex
          have hpresent := (h.isPresent_iff hindex).mpr ⟨k, hslot⟩
          simp only [hpresent, not_true_eq_false, if_false]
          by_cases same : k = d.name
          · have hopen : ¬ Blocked keys d.name index.toNat :=
              fun blocked => blocked.not_self (same ▸ hslot)
            subst same
            rw [← hhash] at hold
            rw [findSlot_open rounds hlt hopen]
            simp only [recordAt, hpresent, not_true_eq_false, if_false,
              updateOnMatch_name hold hinside room]
            split <;> rfl
          · have hblocked : Blocked keys d.name index.toNat := ⟨k, hslot, same⟩
            have hnext : (table.entryMeta.nextIndex index).toNat < 2 ^ b := by
              rw [h.toNat_nextIndex hindex]
              exact Nat.mod_lt _ (Nat.two_pow_pos b)
            rw [updateOnMatch_other hold same hinside room, findSlot_blocked rounds hblocked]
            refine (ih hnext).trans ?_
            rw [h.toNat_nextIndex hindex, h.keys_length]

end Slots

end Explore.OneBrc
