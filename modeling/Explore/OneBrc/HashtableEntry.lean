import Explore.OneBrc.Hashtable

/-!
# An entry of the off-heap table

`Holds` says what the bytes of an entry mean: the name, whose tail lies in the
region for names, the short hash, and the statistics of a list of temperatures.
It depends on the 32 bytes of the entry and on the names stored so far. `init`
establishes it, `update` adds a temperature, and `updateOnMatch` decides whether
the entry is that of the name.
-/

namespace Explore.OneBrc

open LittleEndian Memory Unsafely

namespace EntryData

/-- The bytes reserved for a tail, a multiple of eight. -/
def roundUp (n : ℕ) : ℕ := (n + 7) >>> 3 <<< 3

theorem roundUp_eq (n : ℕ) : roundUp n = (n + 7) / 8 * 8 := by
  rw [roundUp, Nat.shiftRight_eq_div_pow, Nat.shiftLeft_eq]

/-- The fields of an entry hold the statistics of the temperatures, the sum and the
count up to the wrap at 32 bits. -/
structure StatOf (mem : Memory) (baseAddress : ℕ) (temps : List Int) : Prop where
  min_mem : (min mem baseAddress).toInt ∈ temps
  min_le : ∀ t ∈ temps, (min mem baseAddress).toInt ≤ t
  max_mem : (max mem baseAddress).toInt ∈ temps
  le_max : ∀ t ∈ temps, t ≤ (max mem baseAddress).toInt
  sum_eq : sum mem baseAddress = BitVec.ofInt 32 temps.sum
  count_eq : count mem baseAddress = BitVec.ofNat 32 temps.length

end EntryData

open EntryData

/-- The entry at an address is that of a name whose tail is at an offset, and has
seen the temperatures. -/
structure EntryMeta.Holds (m : EntryMeta) (baseAddress : ℕ) (hash32 : JInt) (name : List Byte)
    (offset : ℕ) (temps : List Int) : Prop where
  name_pos : 1 ≤ name.length
  name_le : name.length ≤ 100
  len_eq : len m.entries.bytes baseAddress = BitVec.ofNat 8 name.length
  hash_eq : hash16 m.entries.bytes baseAddress = hash32.setWidth 16
  str_eq : m.entries.bytes.readBytes baseAddress (Nat.min name.length strFieldLen) =
    name.take strFieldLen
  offset_eq : strFieldLen < name.length →
    (cityNamesOffset m.entries.bytes baseAddress).toNat = offset
  tail_eq : strFieldLen < name.length →
    m.cityNames.bytes.readBytes offset (name.length - strFieldLen) = name.drop strFieldLen
  tail_le : offset + roundUp (name.length - strFieldLen) ≤ m.cityNamesEnd
  stat : StatOf m.entries.bytes baseAddress temps

section Frame

variable {mem other : Memory} {baseAddress base' : ℕ}

/-- Two entries with the same bytes have the same words. -/
theorem load_of_same (same : ∀ i < 32, other (base' + i) = mem (baseAddress + i)) {w o : ℕ}
    (h : o + w / 8 ≤ 32) : other.load w (base' + o) = mem.load w (baseAddress + o) :=
  load_congr (readBytes_congr fun i hi => by
    rw [Nat.add_assoc, Nat.add_assoc]
    exact same (o + i) (by omega))

theorem EntryData.StatOf.transfer {temps : List Int} (h : StatOf mem baseAddress temps)
    (same : ∀ i < 32, other (base' + i) = mem (baseAddress + i)) : StatOf other base' temps := by
  have hmin : min other base' = min mem baseAddress := load_of_same same (by decide)
  have hmax : max other base' = max mem baseAddress := load_of_same same (by decide)
  have hsum : sum other base' = sum mem baseAddress := load_of_same same (by decide)
  have hcount : count other base' = count mem baseAddress := load_of_same same (by decide)
  obtain ⟨h1, h2, h3, h4, h5, h6⟩ := h
  constructor
  · rwa [hmin]
  · rwa [hmin]
  · rwa [hmax]
  · rwa [hmax]
  · rwa [hsum]
  · rwa [hcount]

/-- The entry may move, and names may be added behind those in use. -/
theorem EntryMeta.Holds.transfer {m m' : EntryMeta} {hash32 : JInt} {name : List Byte}
    {offset : ℕ} {temps : List Int} (h : m.Holds baseAddress hash32 name offset temps)
    (same : ∀ i < 32, m'.entries.bytes (base' + i) = m.entries.bytes (baseAddress + i))
    (names : ∀ a < m.cityNamesEnd, m'.cityNames.bytes a = m.cityNames.bytes a)
    (hend : m.cityNamesEnd ≤ m'.cityNamesEnd) : m'.Holds base' hash32 name offset temps := by
  have hlen : len m'.entries.bytes base' = len m.entries.bytes baseAddress :=
    load_of_same same (by decide)
  have hhash : hash16 m'.entries.bytes base' = hash16 m.entries.bytes baseAddress :=
    load_of_same same (by decide)
  have hoffset : cityNamesOffset m'.entries.bytes base' =
      cityNamesOffset m.entries.bytes baseAddress := by
    rw [cityNamesOffset, load_of_same same (by decide), cityNamesOffset]
  have htail := h.tail_le
  rw [roundUp_eq] at htail
  refine ⟨h.name_pos, h.name_le, hlen.trans h.len_eq, hhash.trans h.hash_eq, ?_, fun hlong => ?_,
    fun hlong => ?_, Nat.le_trans h.tail_le hend, h.stat.transfer same⟩
  · rw [← h.str_eq]
    refine readBytes_congr fun i hi => same i ?_
    have := Nat.min_le_right name.length strFieldLen
    exact Nat.lt_trans (Nat.lt_of_lt_of_le hi this) (by decide)
  · rw [hoffset, h.offset_eq hlong]
  · rw [← h.tail_eq hlong]
    exact readBytes_congr fun i hi => names _ (by omega)

end Frame

section Fields

variable {mem : Memory} {baseAddress : ℕ}

/-- Bytes of an entry at a distance from the field that is written. -/
theorem readBytes_store_field {v o o' n : ℕ} (x : BitVec v) (h : o + n ≤ o' ∨ o' + v / 8 ≤ o) :
    (mem.store (baseAddress + o') x).readBytes (baseAddress + o) n =
      mem.readBytes (baseAddress + o) n :=
  readBytes_store_of_disjoint x (by omega)

theorem load_store_field {w v o o' : ℕ} (x : BitVec v) (h : o + w / 8 ≤ o' ∨ o' + v / 8 ≤ o) :
    (mem.store (baseAddress + o') x).load w (baseAddress + o) = mem.load w (baseAddress + o) :=
  load_congr (readBytes_store_field x h)

/-- A field lies inside its entry. -/
theorem store_field_outside {w o a : ℕ} (x : BitVec w) (h : a < baseAddress ∨ baseAddress + 32 ≤ a)
    (hw : o + w / 8 ≤ 32) : mem.store (baseAddress + o) x a = mem a :=
  writeBytes_outside (by rw [length_bytesOf]; omega)

end Fields

namespace EntryData

section Update

variable {mem : Memory} {baseAddress : ℕ} {temperature : BitVec 16}

theorem readBytes_update {o n : ℕ} (h : o + n ≤ 20) :
    (update mem baseAddress temperature).readBytes (baseAddress + o) n =
      mem.readBytes (baseAddress + o) n := by
  have hsum : o + n ≤ offsetSum := h
  have hcount : o + n ≤ offsetCount := Nat.le_trans h (by decide)
  have hmax : o + n ≤ offsetMax := Nat.le_trans h (by decide)
  have hmin : o + n ≤ offsetMin := Nat.le_trans h (by decide)
  rw [update, setSum, readBytes_store_field _ (Or.inl hsum), setCount,
    readBytes_store_field _ (Or.inl hcount), setMax, readBytes_store_field _ (Or.inl hmax),
    setMin, readBytes_store_field _ (Or.inl hmin)]

theorem update_outside {a : ℕ} (h : a < baseAddress ∨ baseAddress + 32 ≤ a) :
    update mem baseAddress temperature a = mem a := by
  rw [update, setSum, store_field_outside _ h (by decide), setCount,
    store_field_outside _ h (by decide), setMax, store_field_outside _ h (by decide), setMin,
    store_field_outside _ h (by decide)]

theorem stat_update (mem : Memory) (baseAddress : ℕ) (temperature : BitVec 16) :
    min (update mem baseAddress temperature) baseAddress =
        shortMin (min mem baseAddress) temperature ∧
      max (update mem baseAddress temperature) baseAddress =
        shortMax (max mem baseAddress) temperature ∧
      sum (update mem baseAddress temperature) baseAddress =
        sum mem baseAddress + temperature.signExtend 32 ∧
      count (update mem baseAddress temperature) baseAddress = count mem baseAddress + 1 := by
  refine ⟨?_, ?_, ?_, ?_⟩ <;>
    simp (disch := decide) only [update, setSum, setCount, setMax, setMin, min, max, sum, count,
      load_store_field, load_store_self]

theorem toInt_shortMin (a b : BitVec 16) : (shortMin a b).toInt = Min.min a.toInt b.toInt := by
  rw [shortMin, apply_ite BitVec.toInt, min_def]

theorem toInt_shortMax (a b : BitVec 16) : (shortMax a b).toInt = Max.max a.toInt b.toInt := by
  rw [shortMax, apply_ite BitVec.toInt, max_def]

theorem signExtend_eq_ofInt (x : BitVec 16) : x.signExtend 32 = BitVec.ofInt 32 x.toInt := rfl

theorem StatOf.update {temps : List Int} (h : StatOf mem baseAddress temps)
    (temperature : BitVec 16) :
    StatOf (update mem baseAddress temperature) baseAddress (temps ++ [temperature.toInt]) := by
  obtain ⟨hmin, hmax, hsum, hcount⟩ := stat_update mem baseAddress temperature
  constructor
  · rw [hmin, toInt_shortMin]
    obtain hm | hm := min_choice (min mem baseAddress).toInt temperature.toInt
    · rw [hm]
      exact List.mem_append_left _ h.min_mem
    · rw [hm]
      exact List.mem_append_right _ (List.mem_singleton_self _)
  · intro t ht
    rw [hmin, toInt_shortMin]
    obtain ht | ht := List.mem_append.mp ht
    · exact le_trans (min_le_left _ _) (h.min_le t ht)
    · rw [List.mem_singleton.mp ht]
      exact min_le_right _ _
  · rw [hmax, toInt_shortMax]
    obtain hm | hm := max_choice (max mem baseAddress).toInt temperature.toInt
    · rw [hm]
      exact List.mem_append_left _ h.max_mem
    · rw [hm]
      exact List.mem_append_right _ (List.mem_singleton_self _)
  · intro t ht
    rw [hmax, toInt_shortMax]
    obtain ht | ht := List.mem_append.mp ht
    · exact le_trans (h.le_max t ht) (le_max_left _ _)
    · rw [List.mem_singleton.mp ht]
      exact le_max_right _ _
  · rw [hsum, h.sum_eq, signExtend_eq_ofInt, ← BitVec.ofInt_add, List.sum_append,
      List.sum_singleton]
  · rw [hcount, h.count_eq, List.length_append, List.length_singleton, BitVec.ofNat_add]
    rfl

end Update

end EntryData

/-- Everything but the entry at an address is as before, and names are only added. -/
structure EntryMeta.Frame (m m' : EntryMeta) (baseAddress : ℕ) : Prop where
  bits : m'.nEntriesBits = m.nEntriesBits
  entries_size : m'.entries.size = m.entries.size
  names_size : m'.cityNames.size = m.cityNames.size
  entries : ∀ a, a < baseAddress ∨ baseAddress + 32 ≤ a → m'.entries.bytes a = m.entries.bytes a
  names : ∀ a < m.cityNamesEnd, m'.cityNames.bytes a = m.cityNames.bytes a
  names_end : m.cityNamesEnd ≤ m'.cityNamesEnd

section Operations

variable {m : EntryMeta} {baseAddress offset : ℕ} {hash32 : JInt} {name : List Byte}
  {temps : List Int} {d : DataPoint}

theorem EntryMeta.Frame.holds {m' : EntryMeta} {base' : ℕ} (frame : m.Frame m' baseAddress)
    (apart : base' + 32 ≤ baseAddress ∨ baseAddress + 32 ≤ base')
    (h : m.Holds base' hash32 name offset temps) : m'.Holds base' hash32 name offset temps :=
  h.transfer (fun i hi => frame.entries _ (by omega)) frame.names frame.names_end

namespace EntryData

/-- The table after `update`. -/
def updated (m : EntryMeta) (baseAddress : ℕ) (temperature : BitVec 16) : EntryMeta :=
  { m with entries := { m.entries with bytes := update m.entries.bytes baseAddress temperature } }

theorem frame_updated (m : EntryMeta) (baseAddress : ℕ) (temperature : BitVec 16) :
    m.Frame (updated m baseAddress temperature) baseAddress :=
  ⟨rfl, rfl, rfl, fun _ ha => update_outside ha, fun _ _ => rfl, Nat.le_refl _⟩

theorem holds_updated (h : m.Holds baseAddress hash32 name offset temps)
    (temperature : BitVec 16) :
    (updated m baseAddress temperature).Holds baseAddress hash32 name offset
      (temps ++ [temperature.toInt]) := by
  have hload {w o : ℕ} (ho : o + w / 8 ≤ 20) :
      (update m.entries.bytes baseAddress temperature).load w (baseAddress + o) =
        m.entries.bytes.load w (baseAddress + o) := load_congr (readBytes_update ho)
  have hlen : len (update m.entries.bytes baseAddress temperature) baseAddress =
      len m.entries.bytes baseAddress := hload (by decide)
  have hhash : hash16 (update m.entries.bytes baseAddress temperature) baseAddress =
      hash16 m.entries.bytes baseAddress := hload (by decide)
  have hoffset : cityNamesOffset (update m.entries.bytes baseAddress temperature) baseAddress =
      cityNamesOffset m.entries.bytes baseAddress := by
    rw [cityNamesOffset, hload (by decide), cityNamesOffset]
  refine ⟨h.name_pos, h.name_le, hlen.trans h.len_eq, hhash.trans h.hash_eq, ?_, fun hlong => ?_,
    h.tail_eq, h.tail_le, h.stat.update temperature⟩
  · rw [← h.str_eq]
    have hmin : 0 + Nat.min name.length strFieldLen ≤ 20 := by
      rw [Nat.zero_add]
      exact Nat.le_trans (Nat.min_le_right _ _) (by decide)
    exact readBytes_update hmin
  · rw [← h.offset_eq hlong]
    exact congrArg BitVec.toNat hoffset

/-- Offset and length share a word without touching each other. -/
theorem toNat_packed {offset len : ℕ} (hoffset : offset < 2 ^ 24) (hlen : len < 2 ^ 8) :
    (BitVec.ofNat 32 offset ||| (BitVec.ofNat 32 len <<< 24)).toNat = 2 ^ 24 * len + offset := by
  rw [BitVec.toNat_or, BitVec.toNat_shiftLeft, BitVec.toNat_ofNat, BitVec.toNat_ofNat,
    Nat.mod_eq_of_lt (by omega), Nat.mod_eq_of_lt (by omega), Nat.shiftLeft_eq,
    Nat.mod_eq_of_lt (by omega), Nat.or_comm, Nat.mul_comm, ← Nat.two_pow_add_eq_or_of_lt hoffset]

theorem len_setCityNameOffset (mem : Memory) (baseAddress : ℕ) {offset n : ℕ}
    (hoffset : offset < 2 ^ 24) (hn : n < 2 ^ 8) :
    len (setCityNameOffset mem baseAddress (BitVec.ofNat 32 offset) (BitVec.ofNat 32 n))
      baseAddress = BitVec.ofNat 8 n := by
  have hbyte := store_byte mem (baseAddress + offsetCityNameExtra)
    (BitVec.ofNat 32 offset ||| (BitVec.ofNat 32 n <<< 24)) (i := 3) (by decide)
  rw [len, load_byte, setCityNameOffset]
  refine Eq.trans hbyte (BitVec.eq_of_toNat_eq ?_)
  rw [BitVec.toNat_setWidth, BitVec.toNat_ushiftRight, toNat_packed hoffset hn,
    Nat.shiftRight_eq_div_pow, BitVec.toNat_ofNat]
  omega

theorem cityNamesOffset_setCityNameOffset (mem : Memory) (baseAddress : ℕ) {offset n : ℕ}
    (hoffset : offset < 2 ^ 24) (hn : n < 2 ^ 8) :
    (cityNamesOffset (setCityNameOffset mem baseAddress (BitVec.ofNat 32 offset)
      (BitVec.ofNat 32 n)) baseAddress).toNat = offset := by
  rw [cityNamesOffset, setCityNameOffset, load_store_self _ _ _ (by decide), BitVec.toNat_and,
    toNat_packed hoffset hn]
  change _ &&& (2 ^ 24 - 1) = _
  rw [Nat.and_two_pow_sub_one_eq_mod]
  omega

section InitStat

variable {mem : Memory} {hash16 temperature : BitVec 16}

/-- `initStat` leaves the string, the offset and the length alone. -/
theorem readBytes_initStat {o n : ℕ} (h : o + n ≤ 14 ∨ 16 ≤ o ∧ o + n ≤ 20) :
    (initStat mem baseAddress hash16 temperature).readBytes (baseAddress + o) n =
      mem.readBytes (baseAddress + o) n := by
  have hhash : o + n ≤ offsetHash ∨ offsetHash + 16 / 8 ≤ o := by
    change o + n ≤ 14 ∨ 16 ≤ o
    omega
  have below (o' : ℕ) (ho : 20 ≤ o') : o + n ≤ o' := by omega
  rw [initStat, setMin, readBytes_store_field _ (Or.inl (below offsetMin (by decide))), setMax,
    readBytes_store_field _ (Or.inl (below offsetMax (by decide))), setCount,
    readBytes_store_field _ (Or.inl (below offsetCount (by decide))), setSum,
    readBytes_store_field _ (Or.inl (below offsetSum (by decide))), setHash16,
    readBytes_store_field _ hhash]

theorem initStat_outside {a : ℕ} (h : a < baseAddress ∨ baseAddress + 32 ≤ a) :
    initStat mem baseAddress hash16 temperature a = mem a := by
  rw [initStat, setMin, store_field_outside _ h (by decide), setMax,
    store_field_outside _ h (by decide), setCount, store_field_outside _ h (by decide), setSum,
    store_field_outside _ h (by decide), setHash16, store_field_outside _ h (by decide)]

theorem hash16_initStat :
    EntryData.hash16 (initStat mem baseAddress hash16 temperature) baseAddress = hash16 := by
  simp (disch := decide) only [initStat, setSum, setCount, setMax, setMin, setHash16,
    EntryData.hash16, load_store_field, load_store_self]

/-- A new entry has seen one temperature. -/
theorem statOf_initStat :
    StatOf (initStat mem baseAddress hash16 temperature) baseAddress [temperature.toInt] := by
  have hmin : min (initStat mem baseAddress hash16 temperature) baseAddress = temperature := by
    simp (disch := decide) only [initStat, setMin, min, load_store_self]
  have hmax : max (initStat mem baseAddress hash16 temperature) baseAddress = temperature := by
    simp (disch := decide) only [initStat, setMax, setMin, max, load_store_field, load_store_self]
  have hsum : sum (initStat mem baseAddress hash16 temperature) baseAddress =
      temperature.signExtend 32 := by
    simp (disch := decide) only [initStat, setSum, setCount, setMax, setMin, sum,
      load_store_field, load_store_self]
  have hcount : count (initStat mem baseAddress hash16 temperature) baseAddress = 1 := by
    simp (disch := decide) only [initStat, setCount, setMax, setMin, count, load_store_field,
      load_store_self]
  constructor
  · rw [hmin]
    exact List.mem_singleton_self _
  · intro t ht
    rw [hmin, List.mem_singleton.mp ht]
  · rw [hmax]
    exact List.mem_singleton_self _
  · intro t ht
    rw [hmax, List.mem_singleton.mp ht]
  · rw [hsum, signExtend_eq_ofInt, List.sum_singleton]
  · rw [hcount]
    rfl

end InitStat

/-- The first bytes of the name, and the rest. -/
theorem name_parts (d : DataPoint) :
    d.src.readBytes d.srcAddr (Nat.min d.len strFieldLen) = d.name.take strFieldLen ∧
      d.src.readBytes (d.srcAddr + strFieldLen) (d.len - strFieldLen) =
        d.name.drop strFieldLen := by
  by_cases hlong : strFieldLen ≤ d.len
  · have hmin : Nat.min d.len strFieldLen = strFieldLen := Nat.min_eq_right hlong
    refine ⟨by rw [hmin, DataPoint.name, take_readBytes _ _ _ hlong], ?_⟩
    rw [DataPoint.name, ← drop_readBytes, Nat.add_sub_cancel' hlong]
  · have hmin : Nat.min d.len strFieldLen = d.len := Nat.min_eq_left (by omega)
    have hnone : d.len - strFieldLen = 0 := by omega
    have hlen : d.name.length = d.len := length_readBytes ..
    rw [hmin, hnone, List.take_of_length_le (by omega), List.drop_eq_nil_of_le (by omega)]
    exact ⟨rfl, rfl⟩

theorem zero_add_min_le (n : ℕ) : 0 + Nat.min n strFieldLen ≤ 14 := by
  rw [Nat.zero_add]
  exact Nat.min_le_right _ _

section Str

/-- The first write of `init`. -/
def writeStr (mem : Memory) (baseAddress : ℕ) (d : DataPoint) : Memory :=
  mem.writeBytes (baseAddress + offsetStr) (d.src.readBytes d.srcAddr (Nat.min d.len strFieldLen))

theorem readBytes_writeStr (mem : Memory) (baseAddress : ℕ) (d : DataPoint) :
    (writeStr mem baseAddress d).readBytes baseAddress (Nat.min d.len strFieldLen) =
      d.name.take strFieldLen := by
  have hself := readBytes_writeBytes_self mem baseAddress
    (d.src.readBytes d.srcAddr (Nat.min d.len strFieldLen))
  rw [length_readBytes] at hself
  exact hself.trans (name_parts d).1

theorem writeStr_outside {mem : Memory} {a : ℕ} (h : a < baseAddress ∨ baseAddress + 32 ≤ a) :
    writeStr mem baseAddress d a = mem a := by
  apply writeBytes_outside
  have := zero_add_min_le d.len
  rw [length_readBytes]
  change a < baseAddress + 0 ∨ baseAddress + 0 + _ ≤ a
  omega

end Str

/-- The new entry of a short name. -/
theorem init_short (hpos : 1 ≤ d.len) (hle : d.len ≤ 100) (hshort : ¬ d.len > strFieldLen) :
    ∃ m', init m baseAddress d = .ok m' ∧ m.Frame m' baseAddress ∧
      m'.cityNamesEnd = m.cityNamesEnd + roundUp (d.len - strFieldLen) ∧
      m'.Holds baseAddress d.hash32 d.name m.cityNamesEnd [d.temperature.toInt] := by
  have hlen : d.name.length = d.len := length_readBytes ..
  have hzero : d.len - strFieldLen = 0 := by omega
  have hinit : init m baseAddress d = .ok { m with entries := { m.entries with
      bytes := initStat (setLen (writeStr m.entries.bytes baseAddress d) baseAddress
        (BitVec.ofNat 8 d.len)) baseAddress d.hash16 d.temperature } } := if_neg hshort
  refine ⟨_, hinit, ⟨rfl, rfl, rfl, ?_, fun _ _ => rfl, Nat.le_refl _⟩, ?_, by omega, by omega,
    ?_, hash16_initStat, ?_, fun h => absurd (hlen ▸ h) hshort,
    fun h => absurd (hlen ▸ h) hshort, ?_, statOf_initStat⟩
  · intro a ha
    exact (initStat_outside ha).trans ((store_field_outside _ ha (by decide)).trans
      (writeStr_outside ha))
  · rw [hzero]
    rfl
  · have hstored := load_store_self (writeStr m.entries.bytes baseAddress d)
      (baseAddress + offsetLen) (BitVec.ofNat 8 d.len) (by decide)
    rw [hlen]
    refine Eq.trans (load_congr ?_) hstored
    exact readBytes_initStat (Or.inr ⟨by decide, by decide⟩)
  · rw [hlen]
    refine Eq.trans (readBytes_initStat (Or.inl (zero_add_min_le d.len)))
      (Eq.trans ?_ (readBytes_writeStr m.entries.bytes baseAddress d))
    exact readBytes_store_field _ (Or.inl (Nat.le_trans (zero_add_min_le d.len) (by decide)))
  · rw [hlen, hzero]
    exact Nat.le_refl _

theorem toNat_cityNamesEnd (h : m.cityNamesEnd ≤ cityNamesSize) :
    (BitVec.ofNat 32 m.cityNamesEnd).toNat = m.cityNamesEnd := by
  have hsize : cityNamesSize < 2 ^ 32 := by decide
  rw [BitVec.toNat_ofNat, Nat.mod_eq_of_lt (by omega)]

/-- The new entry of a long name whose tail fits into the region. -/
theorem init_long (hle : d.len ≤ 100) (hlong : d.len > strFieldLen)
    (fits : m.cityNamesEnd + (d.len - strFieldLen) ≤ cityNamesSize) :
    ∃ m', init m baseAddress d = .ok m' ∧ m.Frame m' baseAddress ∧
      m'.cityNamesEnd = m.cityNamesEnd + roundUp (d.len - strFieldLen) ∧
      m'.Holds baseAddress d.hash32 d.name m.cityNamesEnd [d.temperature.toInt] := by
  have hlen : d.name.length = d.len := length_readBytes ..
  have hsize : cityNamesSize < 2 ^ 24 := by decide
  have hoffset := toNat_cityNamesEnd (m := m) (by omega)
  have hsmall : m.cityNamesEnd < 2 ^ 24 := by omega
  have hbyte : d.len < 2 ^ 8 := by omega
  have hinit : init m baseAddress d = .ok
      { entries := { m.entries with
          bytes := initStat (setCityNameOffset (writeStr m.entries.bytes baseAddress d) baseAddress
            (BitVec.ofNat 32 m.cityNamesEnd) (BitVec.ofNat 32 d.len)) baseAddress d.hash16
            d.temperature }
        nEntriesBits := m.nEntriesBits
        cityNames := { m.cityNames with
          bytes := m.cityNames.bytes.writeBytes m.cityNamesEnd
            (d.src.readBytes (d.srcAddr + strFieldLen) (d.len - strFieldLen)) }
        cityNamesEnd := m.cityNamesEnd + roundUp (d.len - strFieldLen) } := by
    rw [init, if_pos hlong]
    simp only [EntryMeta.getAndIncrementCityNames, hoffset]
    rw [if_pos fits]
    rfl
  refine ⟨_, hinit, ⟨rfl, rfl, rfl, ?_, ?_, Nat.le_add_right _ _⟩, rfl, by omega, by omega,
    ?_, hash16_initStat, ?_, fun _ => ?_, fun _ => ?_, ?_, statOf_initStat⟩
  · intro a ha
    exact (initStat_outside ha).trans ((store_field_outside _ ha (by decide)).trans
      (writeStr_outside ha))
  · intro a ha
    exact writeBytes_outside (Or.inl ha)
  · rw [hlen, ← len_setCityNameOffset (writeStr m.entries.bytes baseAddress d) baseAddress hsmall
      hbyte]
    exact load_congr (readBytes_initStat (Or.inr ⟨by decide, by decide⟩))
  · rw [hlen]
    refine Eq.trans (readBytes_initStat (Or.inl (zero_add_min_le d.len)))
      (Eq.trans ?_ (readBytes_writeStr m.entries.bytes baseAddress d))
    exact readBytes_store_field _ (Or.inl (Nat.le_trans (zero_add_min_le d.len) (by decide)))
  · refine Eq.trans (congrArg (fun x : JInt => (x &&& 0xFFFFFF).toNat) ?_)
      (cityNamesOffset_setCityNameOffset (writeStr m.entries.bytes baseAddress d) baseAddress
        hsmall hbyte)
    exact load_congr (readBytes_initStat (Or.inr ⟨by decide, by decide⟩))
  · have hself := readBytes_writeBytes_self m.cityNames.bytes m.cityNamesEnd
      (d.src.readBytes (d.srcAddr + strFieldLen) (d.len - strFieldLen))
    rw [length_readBytes] at hself
    rw [hlen, ← (name_parts d).2]
    exact hself
  · rw [hlen]

/-- A new entry, when its tail fits into the region. -/
theorem init_eq (baseAddress : ℕ) (hpos : 1 ≤ d.len) (hle : d.len ≤ 100)
    (fits : m.cityNamesEnd + (d.len - strFieldLen) ≤ cityNamesSize) :
    ∃ m', init m baseAddress d = .ok m' ∧ m.Frame m' baseAddress ∧
      m'.cityNamesEnd = m.cityNamesEnd + roundUp (d.len - strFieldLen) ∧
      m'.Holds baseAddress d.hash32 d.name m.cityNamesEnd [d.temperature.toInt] := by
  by_cases hlong : d.len > strFieldLen
  · exact init_long hle hlong fits
  · exact init_short hpos hle hlong

/-- A tail that does not fit leaves the region. -/
theorem init_outside (hend : m.cityNamesEnd ≤ cityNamesSize)
    (outside : cityNamesSize < m.cityNamesEnd + (d.len - strFieldLen)) :
    init m baseAddress d = .error .outOfRegion := by
  have hlong : d.len > strFieldLen := by omega
  rw [init, if_pos hlong]
  simp only [EntryMeta.getAndIncrementCityNames, toNat_cityNamesEnd hend]
  rw [if_neg (by omega)]

section Match

theorem toInt_len (h : m.Holds baseAddress hash32 name offset temps) :
    (len m.entries.bytes baseAddress).toInt = name.length := by
  have := h.name_le
  rw [h.len_eq, BitVec.toInt_eq_toNat_cond, BitVec.toNat_ofNat]
  split <;> omega

theorem isPresent_of_holds (h : m.Holds baseAddress hash32 name offset temps) :
    isPresent m.entries.bytes baseAddress = true := by
  have := h.name_pos
  rw [isPresent, toInt_len h]
  exact decide_eq_true (by omega)

/-- The bytes inside the entry are compared exactly. -/
theorem matches_str (h : m.Holds baseAddress hash32 name offset temps)
    (hlen : name.length = d.len) (inside : baseAddress + 32 ≤ m.entries.size) :
    «matches» d.src d.srcAddr m.entries (baseAddress + offsetStr) (Nat.min d.len strFieldLen) =
      some (decide (d.name.take strFieldLen = name.take strFieldLen)) := by
  have hmin : Nat.min d.len strFieldLen ≤ 14 := Nat.min_le_right _ _
  have hextent : extent (Nat.min d.len strFieldLen) ≤ 16 := by
    rw [extent]
    split
    · decide
    · rw [if_pos (by omega)]
  have hstr : m.entries.bytes.readBytes (baseAddress + offsetStr) (Nat.min d.len strFieldLen) =
      name.take strFieldLen := hlen ▸ h.str_eq
  rw [matches_eq (by change baseAddress + 0 + _ ≤ _; omega), hstr, (name_parts d).1]

theorem sameString_short (h : m.Holds baseAddress hash32 name offset temps)
    (hlen : name.length = d.len) (inside : baseAddress + 32 ≤ m.entries.size)
    (hshort : d.len ≤ strFieldLen) :
    sameString m baseAddress d = some (decide (name = d.name)) := by
  have hdlen : d.name.length = d.len := length_readBytes ..
  have hstr := matches_str h hlen inside
  have hmin : Nat.min d.len strFieldLen = d.len := Nat.min_eq_left hshort
  rw [hmin, List.take_of_length_le (by omega), List.take_of_length_le (by omega)] at hstr
  rw [sameString, if_pos hshort, hstr]
  simp only [eq_comm]

/-- For a longer name the tail is compared if the first bytes agree. -/
theorem sameString_long (h : m.Holds baseAddress hash32 name offset temps)
    (hlen : name.length = d.len) (inside : baseAddress + 32 ≤ m.entries.size)
    (hlong : ¬ d.len ≤ strFieldLen) : sameString m baseAddress d =
      if d.name.take strFieldLen = name.take strFieldLen then
        «matches» d.src (d.srcAddr + strFieldLen) m.cityNames offset (d.len - strFieldLen)
      else some false := by
  have hstr := matches_str h hlen inside
  have hmin : Nat.min d.len strFieldLen = strFieldLen := Nat.min_eq_right (by omega)
  rw [hmin] at hstr
  rw [sameString, if_neg hlong, hstr, h.offset_eq (by omega)]
  simp only [Option.bind_eq_bind, Option.bind_some]
  by_cases same : d.name.take strFieldLen = name.take strFieldLen
  · simp [same]
  · simp [same]

theorem eq_of_parts {left right : List Byte}
    (htake : left.take strFieldLen = right.take strFieldLen)
    (hdrop : left.drop strFieldLen = right.drop strFieldLen) : left = right := by
  rw [← List.take_append_drop strFieldLen left, htake, hdrop, List.take_append_drop]

theorem extent_le_roundUp {n : ℕ} (hpos : 1 ≤ n) (hn : n ≠ 8) : extent n ≤ roundUp n := by
  rw [extent, roundUp_eq]
  split
  · omega
  · split <;> omega

/-- Another name never matches, and what is read of it was written for it. -/
theorem updateOnMatch_other (h : m.Holds baseAddress hash32 name offset temps)
    (other : name ≠ d.name) (inside : baseAddress + 32 ≤ m.entries.size)
    (room : m.cityNamesEnd ≤ m.cityNames.size) : updateOnMatch m baseAddress d = .ok none := by
  rw [updateOnMatch, toInt_len h]
  by_cases hlen : (name.length : Int) ≠ d.len
  · rw [if_pos hlen]
  · have hlen : name.length = d.len := by omega
    have hdlen : d.name.length = d.len := length_readBytes ..
    have hfalse : sameString m baseAddress d = some false := by
      by_cases hshort : d.len ≤ strFieldLen
      · rw [sameString_short h hlen inside hshort, decide_eq_false other]
      · rw [sameString_long h hlen inside hshort]
        by_cases same : d.name.take strFieldLen = name.take strFieldLen
        · have htail : d.name.drop strFieldLen ≠ name.drop strFieldLen :=
            fun hdrop => other (eq_of_parts same hdrop).symm
          have hstored := h.tail_eq (by omega)
          have hfits := h.tail_le
          rw [hlen] at hstored hfits
          rw [if_pos same]
          by_cases h8 : d.len - strFieldLen = 8
          · have hround : roundUp 8 = 8 := by decide
            rw [h8, hround] at hfits
            rw [h8] at hstored
            refine matches_of_first_ne (by omega) (by omega) fun heq => htail ?_
            rw [← (name_parts d).2, ← hstored, h8, heq]
          · have hextent := extent_le_roundUp (n := d.len - strFieldLen) (by omega) h8
            rw [matches_eq (by omega), hstored, (name_parts d).2, decide_eq_false htail]
        · rw [if_neg same]
    rw [if_neg (by omega), hfalse]
    by_cases hhash : hash16 m.entries.bytes baseAddress ≠ d.hash16
    · rw [if_pos hhash]
    · rw [if_neg hhash]
      rfl

/-- The name itself matches, if all that the comparison reads can be read. -/
theorem updateOnMatch_same (h : m.Holds baseAddress d.hash32 d.name offset temps)
    (inside : baseAddress + 32 ≤ m.entries.size)
    (room : strFieldLen < d.len → offset + extent (d.len - strFieldLen) ≤ m.cityNames.size) :
    updateOnMatch m baseAddress d = .ok (some (updated m baseAddress d.temperature)) := by
  have hdlen : d.name.length = d.len := length_readBytes ..
  have htrue : sameString m baseAddress d = some true := by
    by_cases hshort : d.len ≤ strFieldLen
    · rw [sameString_short h hdlen inside hshort, decide_eq_true rfl]
    · have hstored := h.tail_eq (by omega)
      rw [hdlen] at hstored
      rw [sameString_long h hdlen inside hshort, if_pos rfl, matches_eq (room (by omega)), hstored,
        (name_parts d).2, decide_eq_true rfl]
  rw [updateOnMatch, toInt_len h, if_neg (by omega), h.hash_eq, DataPoint.hash16,
    if_neg (not_not_intro rfl), htrue]
  rfl

/-- A tail of eight bytes at the end of what can be read leaves it. -/
theorem updateOnMatch_outside (h : m.Holds baseAddress d.hash32 d.name offset temps)
    (inside : baseAddress + 32 ≤ m.entries.size) (eight : d.len = strFieldLen + 8)
    (fits : offset + 8 ≤ m.cityNames.size) (outside : m.cityNames.size < offset + 16) :
    updateOnMatch m baseAddress d = .error .outOfRegion := by
  have hdlen : d.name.length = d.len := length_readBytes ..
  have h8 : d.len - strFieldLen = 8 := by omega
  have hstored := h.tail_eq (by omega)
  have htail := (name_parts d).2
  rw [hdlen, h8] at hstored
  rw [h8] at htail
  have hnone : sameString m baseAddress d = none := by
    rw [sameString_long h hdlen inside (by omega), if_pos rfl, h8]
    exact matches_eight_outside fits outside (htail.trans hstored.symm)
  rw [updateOnMatch, toInt_len h, if_neg (by omega), h.hash_eq, DataPoint.hash16,
    if_neg (not_not_intro rfl), hnone]
  rfl

/-- The entry of the name is updated, unless the comparison reads past the memory
that can be read. -/
theorem updateOnMatch_name (h : m.Holds baseAddress d.hash32 d.name offset temps)
    (inside : baseAddress + 32 ≤ m.entries.size) (room : m.cityNamesEnd ≤ m.cityNames.size) :
    updateOnMatch m baseAddress d =
      if d.len = strFieldLen + 8 ∧ m.cityNames.size < offset + 16 then .error .outOfRegion
      else .ok (some (updated m baseAddress d.temperature)) := by
  have hdlen : d.name.length = d.len := length_readBytes ..
  have hround := h.tail_le
  rw [hdlen] at hround
  by_cases outside : d.len = strFieldLen + 8 ∧ m.cityNames.size < offset + 16
  · have hfits : offset + 8 ≤ m.cityNamesEnd := by
      rw [outside.1, roundUp_eq] at hround
      omega
    rw [if_pos outside, updateOnMatch_outside h inside outside.1 (by omega) outside.2]
  · rw [if_neg outside]
    refine updateOnMatch_same h inside fun hlong => ?_
    by_cases h8 : d.len - strFieldLen = 8
    · rw [h8]
      change offset + 16 ≤ _
      omega
    · have hextent := extent_le_roundUp (n := d.len - strFieldLen) (by omega) h8
      omega

/-- The name of an entry is read back. -/
theorem cityNameBytes_eq (h : m.Holds baseAddress hash32 name offset temps)
    (room : m.cityNamesEnd ≤ m.cityNames.size) : cityNameBytes m baseAddress = some name := by
  have hlen : (len m.entries.bytes baseAddress).toNat = name.length := by
    have := h.name_le
    rw [h.len_eq, BitVec.toNat_ofNat]
    omega
  have hround := h.tail_le
  rw [roundUp_eq] at hround
  rw [cityNameBytes]
  simp only [hlen, h.str_eq]
  by_cases hlong : name.length > strFieldLen
  · rw [if_pos hlong, h.offset_eq hlong, if_pos (by omega), h.tail_eq hlong,
      List.take_append_drop]
  · rw [if_neg hlong, List.take_of_length_le (by omega)]

end Match

end EntryData

end Operations

end Explore.OneBrc
