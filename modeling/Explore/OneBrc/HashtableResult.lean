import Explore.OneBrc.HashtableRuns

/-!
# The result of the off-heap table

`result` lists the present entries. A table that has recorded some readings has one
entry for each name, with the bytes of the name and the statistics of its
temperatures, of which the sum and the count are those of 32-bit fields. From this
and the ledger of names follow the results about whole runs.
-/

namespace Explore.OneBrc

open LittleEndian LinearProbe Memory Unsafely EntryData EntryMeta NameLedger Std

/-- The statistics of a list of readings whose sum and count went through 32 bits. -/
structure Stat.SummarizesInt (s : Stat) (temps : List Int) : Prop where
  min_mem : s.min ∈ temps
  min_le : ∀ t ∈ temps, s.min ≤ t
  max_mem : s.max ∈ temps
  le_max : ∀ t ∈ temps, t ≤ s.max
  sum_eq : s.sum = BitVec.ofInt 64 (temps.sum.bmod (2 ^ 32))
  count_eq : s.count = BitVec.ofInt 64 ((temps.length : Int).bmod (2 ^ 32))

/-- While they fit, the sum and the count are exact. -/
theorem Stat.SummarizesInt.summarizes {s : Stat} {temps : List Int} (h : s.SummarizesInt temps)
    (hsum : -2 ^ 31 ≤ temps.sum ∧ temps.sum < 2 ^ 31) (hcount : temps.length < 2 ^ 31) :
    s.Summarizes temps := by
  refine ⟨h.min_mem, h.min_le, h.max_mem, h.le_max, ?_, ?_⟩
  · rw [h.sum_eq, Int.bmod_eq_of_le (by omega) (by omega)]
  · rw [h.count_eq, Int.bmod_eq_of_le (by omega) (by omega), BitVec.ofInt_natCast]

theorem EntryData.StatOf.summarizesInt {mem : Memory} {baseAddress : ℕ} {temps : List Int}
    (h : StatOf mem baseAddress temps) : (stat mem baseAddress).SummarizesInt temps := by
  refine ⟨h.min_mem, h.min_le, h.max_mem, h.le_max, ?_, ?_⟩
  · change (sum mem baseAddress).signExtend 64 = _
    rw [h.sum_eq, BitVec.signExtend, BitVec.toInt_ofInt]
  · change (count mem baseAddress).signExtend 64 = _
    rw [h.count_eq, BitVec.signExtend, ← BitVec.ofInt_natCast, BitVec.toInt_ofInt]

section Result

variable {hashOf : List Byte → JInt} {slotsBits readable : ℕ} {table : Hashtable}
  {readings : List (List Byte × Int)}

/-- The entry of a slot. -/
def slotEntry (table : Hashtable) (keys : List (Option (List Byte))) (i : ℕ) :
    Option (List Byte × Stat) :=
  keys[i]?.join.map fun name => (name, stat table.entryMeta.entries.bytes (32 * i))

theorem resultEntries_eq {b : ℕ} {keys : List (Option (List Byte))}
    {info : List Byte → ℕ × List Int} (h : Slots hashOf table.entryMeta b keys info)
    (room : table.entryMeta.cityNamesEnd ≤ table.entryMeta.cityNames.size) :
    table.resultEntries = some ((List.range (2 ^ b)).filterMap (slotEntry table keys)) := by
  have hentries : table.entryMeta.nEntries = 2 ^ b := by
    rw [nEntries, h.bits, Nat.shiftLeft_eq, Nat.one_mul]
  have hpow := h.two_pow_le
  have hslot : ∀ i < 2 ^ b, table.resultAt i = some (slotEntry table keys i) := by
    intro i hi
    have haddr : baseAddress (BitVec.ofNat 32 i) = 32 * i := by
      rw [baseAddress_eq, BitVec.toNat_ofNat, Nat.mod_eq_of_lt (by omega)]
    have hlt : i < keys.length := h.keys_length ▸ hi
    have hget := List.getElem?_eq_getElem hlt
    rw [Hashtable.resultAt, haddr, slotEntry]
    cases hk : keys[i] with
    | none =>
        rw [hk] at hget
        rw [hget]
        simp [h.free i hget]
    | some name =>
        rw [hk] at hget
        rw [hget]
        simp [(h.isPresent_iff hi).mpr ⟨name, hget⟩, cityNameBytes_eq (h.holds i name hget) room]
  have hloop : ∀ n ≤ 2 ^ b, (List.range n).mapM table.resultAt =
      some ((List.range n).map (slotEntry table keys)) := by
    intro n
    induction n with
    | zero => exact fun _ => rfl
    | succ n ih =>
        intro hn
        rw [List.range_succ, List.mapM_append, ih (by omega), List.mapM_cons, hslot n (by omega),
          List.map_append]
        rfl
  rw [Hashtable.resultEntries, hentries, hloop _ (Nat.le_refl _)]
  simp only [Option.bind_eq_bind, Option.bind_some, List.filterMap_map, Function.id_comp]

/-- The result has one entry for each name that was recorded. -/
theorem Records.result (h : Records hashOf slotsBits readable table readings)
    (hreadable : cityNamesSize ≤ readable) :
    ∃ entries, table.resultEntries = some entries ∧ (entries.map Prod.fst).Nodup ∧
      (∀ name, name ∈ entries.map Prod.fst ↔ name ∈ readings.map Prod.fst) ∧
      ∀ e ∈ entries, e.2.SummarizesInt (tempsOf e.1 readings) := by
  obtain ⟨⟨keys, hslots, hstored⟩, hfilled, hend, hle, hsize⟩ := h
  have hnames : ((List.range (2 ^ bitsAt slotsBits (seenOf readings).length)).filterMap
      (slotEntry table keys)).map Prod.fst =
        (List.range (2 ^ bitsAt slotsBits (seenOf readings).length)).filterMap
          fun i => keys[i]?.join := by
    rw [List.map_filterMap]
    congr 1
    funext i
    rw [slotEntry, Option.map_map]
    exact Option.map_id_apply
  have hmem (i : ℕ) (name : List Byte) :
      keys[i]?.join = some name ↔ keys[i]? = some (some name) := by
    rw [Option.join_eq_some_iff]
  refine ⟨_, resultEntries_eq hslots (by omega), ?_, fun name => ?_, fun e he => ?_⟩
  · rw [hnames]
    refine List.Nodup.filterMap (fun i j name hi hj => ?_) List.nodup_range
    exact hslots.wellFormed.stored_unique ((hmem i name).mp hi) ((hmem j name).mp hj)
  · rw [hnames, ← mem_seenOf, ← hstored name, List.mem_filterMap]
    constructor
    · rintro ⟨i, -, hi⟩
      exact ⟨i, (hmem i name).mp hi⟩
    · rintro ⟨i, hi⟩
      exact ⟨i, List.mem_range.mpr (hslots.lt_of_key hi), (hmem i name).mpr hi⟩
  · obtain ⟨i, -, hi⟩ := List.mem_filterMap.mp he
    obtain ⟨name, hname, rfl⟩ := Option.map_eq_some_iff.mp hi
    exact (hslots.holds i name ((hmem i name).mp hname)).stat.summarizesInt

/-- The keys of the map are the strings of the names. -/
theorem mem_insertAll (entries : List (List Byte × Stat)) (map : StatMap) (key : String) :
    key ∈ entries.foldl (fun map entry => map.insert (newString entry.1) entry.2) map ↔
      key ∈ entries.map (fun e => newString e.1) ∨ key ∈ map := by
  induction entries generalizing map with
  | nil => simp
  | cons e entries ih =>
      rw [List.foldl_cons, ih, TreeMap.mem_insert, LawfulEqCmp.compare_eq_iff_eq, List.map_cons,
        List.mem_cons, or_assoc, or_left_comm, eq_comm]

/-- Entries of different names do not overwrite each other. -/
theorem getElem?_insertAll {entries : List (List Byte × Stat)}
    (nodup : (entries.map Prod.fst).Nodup)
    (utf8 : ∀ e ∈ entries, ValidUTF8 e.1) {name : List Byte} (hname : ValidUTF8 name)
    (map : StatMap) :
    (entries.foldl (fun map entry => map.insert (newString entry.1) entry.2) map)[newString name]? =
      ((entries.find? fun e => e.1 = name).map Prod.snd).or map[newString name]? := by
  induction entries generalizing map with
  | nil => simp
  | cons e entries ih =>
      rw [List.map_cons, List.nodup_cons] at nodup
      rw [List.foldl_cons, ih nodup.2 fun e he => utf8 e (List.mem_cons_of_mem _ he),
        TreeMap.getElem?_insert, List.find?_cons]
      by_cases same : e.1 = name
      · have hnone : (entries.find? fun e => e.1 = name) = none := by
          rw [List.find?_eq_none]
          intro other hother hsame
          have heq : other.1 = e.1 := (of_decide_eq_true hsame).trans same.symm
          exact nodup.1 (heq ▸ List.mem_map_of_mem hother)
        rw [hnone, same, compare_self, if_pos rfl]
        simp
      · have hne : compare (newString e.1) (newString name) ≠ .eq := fun h =>
          same (newString_injOn (utf8 e (List.mem_cons_self ..)) hname
            (LawfulEqCmp.eq_of_compare h))
        rw [if_neg hne]
        simp [same]

end Result

section Runs

variable {hashOf : List Byte → JInt} {slotsBits readable : ℕ} {calls : List DataPoint}

/-- The names of the calls that are distinct, in the order of their first call. -/
def distinctNames (calls : List DataPoint) : List (List Byte) :=
  (calls.map DataPoint.name).eraseDups

theorem name_length_le (valid : ∀ d ∈ calls, d.Valid hashOf) :
    ∀ name ∈ calls.map DataPoint.name, name.length ≤ 100 := by
  intro name hname
  obtain ⟨d, hd, rfl⟩ := List.mem_map.mp hname
  rw [DataPoint.name, length_readBytes]
  exact (valid d hd).len_le

/-- What a run settles to. -/
theorem run_settles (hpos : 1 ≤ slotsBits) (hbits : slotsBits ≤ 16)
    (hreadable : cityNamesSize ≤ readable) (valid : ∀ d ∈ calls, d.Valid hashOf)
    (few : (distinctNames calls).length ≤ 10000) :
    ∃ r, Settles .outOfFuel (Hashtable.run slotsBits readable calls) r ∧
      (Holdable slotsBits (distinctNames calls) ∧ ¬ OverRead readable (calls.map DataPoint.name) →
        ∃ table, r = .ok table ∧
          Records hashOf slotsBits readable table (calls.map DataPoint.reading)) ∧
      (¬ (Holdable slotsBits (distinctNames calls) ∧
          ¬ OverRead readable (calls.map DataPoint.name)) → r = .error (faultOf slotsBits)) := by
  obtain ⟨r, hr, hrefines⟩ := run_refines hreadable hbits calls valid
  obtain ⟨hok, herror⟩ := NameLedger.run_eq hpos hbits hreadable (name_length_le valid) few
  refine ⟨r, hr, fun h => ?_, fun h => ?_⟩
  · rw [hok h] at hrefines
    obtain ⟨-, table, htable, hrecords⟩ := hrefines
    exact ⟨table, htable, hrecords⟩
  · rw [herror h] at hrefines
    exact hrefines

/-- With eight bytes behind the region that can be read, no comparison reads too far. -/
theorem not_overRead (hreadable : cityNamesSize + 8 ≤ readable) {names : List (List Byte)}
    (tails : tailBytes names.eraseDups ≤ cityNamesSize) : ¬ OverRead readable names := by
  rintro ⟨name, hmem, hlen, -, hover⟩
  have hoffset := offsetOf_add_le (List.mem_eraseDups.mpr hmem)
  have hround : tailSize name = 8 := by
    rw [tailSize, hlen, roundUp_eq]
    rfl
  omega

theorem tails_of_holdable (hlen : ∀ name ∈ calls.map DataPoint.name, name.length ≤ 100)
    (h : Holdable slotsBits (distinctNames calls)) :
    tailBytes (distinctNames calls) ≤ cityNamesSize := by
  have hsize : cityNamesSize = 131072 := rfl
  have htotal := tailBytes_le fun name hname => hlen name (List.mem_eraseDups.mp hname)
  rw [← distinctNames] at htotal
  rw [Holdable] at h
  split at h
  · rename_i h8
    have := two_pow_le_256 h8
    omega
  · split at h
    · exact h.1
    · omega

/-- Tables of `2 ^ 9` to `2 ^ 15` slots group the readings by name, growth included. Memory
behind the region for names is only read under a mask of zeros. -/
theorem resultEntries_run (hlow : 9 ≤ slotsBits) (hhigh : slotsBits ≤ 15)
    (hreadable : cityNamesSize + 8 ≤ readable) (valid : ∀ d ∈ calls, d.Valid hashOf)
    (few : (distinctNames calls).length ≤ 10000)
    (tails : tailBytes (distinctNames calls) ≤ cityNamesSize)
    (fits : ∀ name ∈ calls.map DataPoint.name,
      (-2 ^ 31 ≤ (tempsOf name (calls.map DataPoint.reading)).sum ∧
        (tempsOf name (calls.map DataPoint.reading)).sum < 2 ^ 31) ∧
      (tempsOf name (calls.map DataPoint.reading)).length < 2 ^ 31) :
    ∃ enough, ∀ fuel ≥ enough, ∃ table entries,
      Hashtable.run slotsBits readable calls fuel = .ok table ∧
      table.resultEntries = some entries ∧ (entries.map Prod.fst).Nodup ∧
      (∀ name, name ∈ entries.map Prod.fst ↔ name ∈ calls.map DataPoint.name) ∧
      ∀ e ∈ entries, e.2.Summarizes (tempsOf e.1 (calls.map DataPoint.reading)) ∧
        e.2.sum.toInt = (tempsOf e.1 (calls.map DataPoint.reading)).sum ∧
        e.2.count.toInt = (tempsOf e.1 (calls.map DataPoint.reading)).length := by
  have hpos : 1 ≤ slotsBits := by omega
  have hbits : slotsBits ≤ 16 := by omega
  have hsize : cityNamesSize ≤ readable := by omega
  obtain ⟨r, ⟨-, enough, henough⟩, hok, -⟩ := run_settles hpos hbits hsize valid few
  have hholdable : Holdable slotsBits (distinctNames calls) := by
    rw [Holdable, if_neg (by omega), if_pos hhigh]
    exact ⟨tails, by omega⟩
  obtain ⟨table, rfl, hrecords⟩ := hok ⟨hholdable, not_overRead hreadable tails⟩
  obtain ⟨entries, hentries, hnodup, hmem, hstat⟩ := hrecords.result (by omega)
  have hnames (name : List Byte) : name ∈ entries.map Prod.fst ↔
      name ∈ calls.map DataPoint.name := by
    rw [hmem name, List.map_map]
    rfl
  refine ⟨enough, fun fuel hfuel => ⟨table, entries, henough fuel hfuel, hentries, hnodup, hnames,
    fun e he => ?_⟩⟩
  obtain ⟨hsum, hcount⟩ := fits e.1 ((hnames e.1).mp (List.mem_map_of_mem he))
  have hsummarizes := (hstat e he).summarizes hsum hcount
  refine ⟨hsummarizes, ?_, ?_⟩
  · rw [hsummarizes.sum_eq, BitVec.toInt_ofInt, Int.bmod_eq_of_le (by omega) (by omega)]
  · rw [hsummarizes.count_eq, ← BitVec.ofInt_natCast, BitVec.toInt_ofInt,
      Int.bmod_eq_of_le (by omega) (by omega)]

/-- Tables of `2 ^ 9` to `2 ^ 15` slots give a map with one key for each name, the string that its
bytes are the encoding of, and the exact statistics of its temperatures. -/
theorem result_run (hlow : 9 ≤ slotsBits) (hhigh : slotsBits ≤ 15)
    (hreadable : cityNamesSize + 8 ≤ readable) (valid : ∀ d ∈ calls, d.Valid hashOf)
    (utf8 : ∀ d ∈ calls, ValidUTF8 d.name)
    (few : (distinctNames calls).length ≤ 10000)
    (tails : tailBytes (distinctNames calls) ≤ cityNamesSize)
    (fits : ∀ name ∈ calls.map DataPoint.name,
      (-2 ^ 31 ≤ (tempsOf name (calls.map DataPoint.reading)).sum ∧
        (tempsOf name (calls.map DataPoint.reading)).sum < 2 ^ 31) ∧
      (tempsOf name (calls.map DataPoint.reading)).length < 2 ^ 31) :
    ∃ enough, ∀ fuel ≥ enough, ∃ table map,
      Hashtable.run slotsBits readable calls fuel = .ok table ∧ table.result = some map ∧
      map.keys.Perm ((distinctNames calls).map newString) ∧
      ∀ name ∈ distinctNames calls,
        (newString name).toByteArray = (name.map UInt8.ofBitVec).toByteArray ∧
        ∃ stat, map[newString name]? = some stat ∧
          stat.Summarizes (tempsOf name (calls.map DataPoint.reading)) ∧
          stat.sum.toInt = (tempsOf name (calls.map DataPoint.reading)).sum ∧
          stat.count.toInt = (tempsOf name (calls.map DataPoint.reading)).length := by
  obtain ⟨enough, henough⟩ := resultEntries_run hlow hhigh hreadable valid few tails fits
  refine ⟨enough, fun fuel hfuel => ?_⟩
  obtain ⟨table, entries, hrun, hentries, hnodup, hmem, hstat⟩ := henough fuel hfuel
  have hdistinct (name : List Byte) : name ∈ distinctNames calls ↔
      name ∈ entries.map Prod.fst := by
    rw [distinctNames, List.mem_eraseDups, hmem]
  have hutf8 (name : List Byte) (hname : name ∈ distinctNames calls) : ValidUTF8 name := by
    obtain ⟨d, hd, rfl⟩ := List.mem_map.mp (List.mem_eraseDups.mp hname)
    exact utf8 d hd
  refine ⟨table, _, hrun, by rw [Hashtable.result, hentries]; rfl, ?_, fun name hname =>
    ⟨toByteArray_newString (hutf8 name hname), ?_⟩⟩
  · have hseen : distinctNames calls = seenOf (calls.map DataPoint.reading) := by
      rw [distinctNames, seenOf, List.map_map]
      rfl
    have hkeys : ((distinctNames calls).map newString).Nodup :=
      (hseen ▸ nodup_seenOf _).map_on fun name hname other hother =>
        newString_injOn (hutf8 name hname) (hutf8 other hother)
    refine (List.perm_ext_iff_of_nodup TreeMap.nodup_keys hkeys).mpr fun key => ?_
    rw [TreeMap.mem_keys, mem_insertAll, or_iff_left TreeMap.not_mem_emptyc, List.mem_map,
      List.mem_map]
    constructor
    · rintro ⟨e, he, rfl⟩
      exact ⟨e.1, (hdistinct e.1).mpr (List.mem_map_of_mem he), rfl⟩
    · rintro ⟨name, hname, rfl⟩
      obtain ⟨e, he, rfl⟩ := List.mem_map.mp ((hdistinct name).mp hname)
      exact ⟨e, he, rfl⟩
  · have hall : ∀ e ∈ entries, ValidUTF8 e.1 := fun e he =>
      hutf8 e.1 ((hdistinct e.1).mpr (List.mem_map_of_mem he))
    rw [getElem?_insertAll hnodup hall (hutf8 name hname)]
    obtain ⟨e, he, rfl⟩ := List.mem_map.mp ((hdistinct name).mp hname)
    have hsome : (entries.find? fun other => other.1 = e.1).isSome :=
      List.find?_isSome.mpr ⟨e, he, decide_eq_true rfl⟩
    obtain ⟨found, hfound⟩ := Option.isSome_iff_exists.mp hsome
    have hsame : found.1 = e.1 := by simpa using List.find?_some hfound
    refine ⟨found.2, by rw [hfound]; rfl, ?_⟩
    rw [← hsame]
    exact hstat found (List.mem_of_find?_eq_some hfound)

/-- A call for a name at the start of some memory. -/
def callOf (name : List Byte) (temperature : BitVec 16) : DataPoint :=
  ⟨fun a => name.getD a 0, 0, name.length, FastShardProcessorState.nameHash name, temperature⟩

theorem name_callOf (name : List Byte) (temperature : BitVec 16) :
    (callOf name temperature).name = name := by
  have hlen : (callOf name temperature).name.length = name.length := length_readBytes ..
  apply List.ext_getElem?
  intro i
  by_cases hi : i < name.length
  · have hget : (callOf name temperature).name[i]? = some (name.getD (0 + i) 0) :=
      getElem?_readBytes hi
    rw [hget, Nat.zero_add, List.getD, List.getElem?_eq_getElem hi, Option.getD_some]
  · rw [List.getElem?_eq_none (by omega), List.getElem?_eq_none (by omega)]

theorem valid_callOf {name : List Byte} (hpos : 1 ≤ name.length) (hle : name.length ≤ 100)
    (temperature : BitVec 16) :
    (callOf name temperature).Valid FastShardProcessorState.nameHash :=
  ⟨hpos, hle, congrArg FastShardProcessorState.nameHash (name_callOf name temperature).symm⟩

theorem map_name_callOf (names : List (List Byte)) (temperature : BitVec 16) :
    (names.map fun name => callOf name temperature).map DataPoint.name = names := by
  rw [List.map_map]
  exact (List.map_congr_left fun name _ => name_callOf name temperature).trans (List.map_id _)

theorem forall_valid_callOf {names : List (List Byte)} (hpos : ∀ name ∈ names, 1 ≤ name.length)
    (hle : ∀ name ∈ names, name.length ≤ 100) (temperature : BitVec 16) :
    ∀ d ∈ names.map fun name => callOf name temperature,
      d.Valid FastShardProcessorState.nameHash := by
  intro d hd
  obtain ⟨name, hname, rfl⟩ := List.mem_map.mp hd
  exact valid_callOf (hpos name hname) (hle name hname) temperature

theorem forall_utf8_callOf {names : List (List Byte)} (utf8 : ∀ name ∈ names, ValidUTF8 name)
    (temperature : BitVec 16) :
    ∀ d ∈ names.map fun name => callOf name temperature, ValidUTF8 d.name := by
  intro d hd
  obtain ⟨name, hname, rfl⟩ := List.mem_map.mp hd
  rw [name_callOf]
  exact utf8 name hname

/-- A long name, a short one that is not ASCII and the long one again. -/
def threeCalls : List DataPoint :=
  [List.replicate 22 0x61, [0xC3, 0xA9], List.replicate 22 0x61].map fun name => callOf name 5

theorem result_run_threeCalls : ∃ enough, ∀ fuel ≥ enough, ∃ table map,
    Hashtable.run 9 (2 ^ 18) threeCalls fuel = .ok table ∧ table.result = some map ∧
      map.keys.Perm ((distinctNames threeCalls).map newString) ∧
      ∀ name ∈ distinctNames threeCalls,
        (newString name).toByteArray = (name.map UInt8.ofBitVec).toByteArray ∧
        ∃ stat, map[newString name]? = some stat ∧
          stat.Summarizes (tempsOf name (threeCalls.map DataPoint.reading)) ∧
          stat.sum.toInt = (tempsOf name (threeCalls.map DataPoint.reading)).sum ∧
          stat.count.toInt = (tempsOf name (threeCalls.map DataPoint.reading)).length := by
  refine result_run (by decide) (by decide) (by decide)
    (forall_valid_callOf (by decide) (by decide) 5)
    (forall_utf8_callOf (by decide +kernel) 5) ?_ ?_ ?_
  · rw [distinctNames, threeCalls, map_name_callOf]
    decide
  · rw [distinctNames, threeCalls, map_name_callOf]
    decide
  · decide

/-- Two names that are not UTF-8. -/
def malformedCalls : List DataPoint := [[0xFF], [0xFE]].map fun name => callOf name 5

/-- Their bytes decode to the same string, so that the map has one of them only. -/
theorem result_run_malformedCalls : (distinctNames malformedCalls).length = 2 ∧
    ∃ enough, ∀ fuel ≥ enough, ∃ table map,
      Hashtable.run 9 (2 ^ 18) malformedCalls fuel = .ok table ∧ table.result = some map ∧
      map.keys = ["\uFFFD"] := by
  have hnames : malformedCalls.map DataPoint.name = [[0xFF], [0xFE]] := map_name_callOf _ 5
  have hvalid : ∀ d ∈ malformedCalls, d.Valid FastShardProcessorState.nameHash :=
    forall_valid_callOf (by decide) (by decide) 5
  obtain ⟨enough, henough⟩ := resultEntries_run (show 9 ≤ 9 by decide) (by decide)
    (show cityNamesSize + 8 ≤ 2 ^ 18 by decide) hvalid (by rw [distinctNames, hnames]; decide)
    (by rw [distinctNames, hnames]; decide) (by decide)
  refine ⟨by rw [distinctNames, hnames]; decide, enough, fun fuel hfuel => ?_⟩
  obtain ⟨table, entries, hrun, hentries, -, hmem, -⟩ := henough fuel hfuel
  refine ⟨table, _, hrun, by rw [Hashtable.result, hentries]; rfl, List.perm_singleton.mp
    ((List.perm_ext_iff_of_nodup TreeMap.nodup_keys (List.nodup_singleton _)).mpr fun key => ?_)⟩
  rw [TreeMap.mem_keys, mem_insertAll, or_iff_left TreeMap.not_mem_emptyc, List.mem_map,
    List.mem_singleton]
  constructor
  · rintro ⟨e, he, rfl⟩
    have hname := (hmem e.1).mp (List.mem_map_of_mem he)
    rw [hnames] at hname
    generalize e.1 = name at hname
    revert name
    decide +kernel
  · rintro rfl
    obtain ⟨e, he, hname⟩ := List.mem_map.mp ((hmem [0xFF]).mpr (by rw [hnames]; decide))
    exact ⟨e, he, by rw [hname]; decide +kernel⟩

end Runs

section Completion

variable {hashOf : List Byte → JInt} {slotsBits readable : ℕ} {calls : List DataPoint}

/-- Every call of the run returns without an exception. -/
def Completes (slotsBits readable : ℕ) (calls : List DataPoint) : Prop :=
  ∃ fuel table, Hashtable.run slotsBits readable calls fuel = .ok table

theorem completes_iff_holdable (hpos : 1 ≤ slotsBits) (hbits : slotsBits ≤ 16)
    (hreadable : cityNamesSize + 8 ≤ readable) (valid : ∀ d ∈ calls, d.Valid hashOf)
    (few : (distinctNames calls).length ≤ 10000) :
    Completes slotsBits readable calls ↔ Holdable slotsBits (distinctNames calls) := by
  have hsize : cityNamesSize ≤ readable := by omega
  obtain ⟨r, hr, hok, herror⟩ := run_settles hpos hbits hsize valid few
  rw [Completes, hr.exists_ok_iff]
  constructor
  · rintro ⟨table, htable⟩
    by_contra hfull
    have hfault := herror fun h => hfull h.1
    rw [htable] at hfault
    cases hfault
  · intro h
    have htails := tails_of_holdable (name_length_le valid) h
    obtain ⟨table, htable, -⟩ := hok ⟨h, not_overRead hreadable htails⟩
    exact ⟨table, htable⟩

/-- A small table works until it is full, a table of `2 ^ 16` slots until it should grow,
and the others as long as the tails of the names fit into their region. -/
theorem completes_iff (hpos : 1 ≤ slotsBits) (hbits : slotsBits ≤ 16)
    (hreadable : cityNamesSize + 8 ≤ readable) (valid : ∀ d ∈ calls, d.Valid hashOf)
    (few : (distinctNames calls).length ≤ 10000) :
    Completes slotsBits readable calls ↔
      slotsBits ≤ 8 ∧ (distinctNames calls).length ≤ 2 ^ slotsBits ∨
      9 ≤ slotsBits ∧ slotsBits ≤ 15 ∧ tailBytes (distinctNames calls) ≤ cityNamesSize ∨
      slotsBits = 16 ∧ (distinctNames calls).length < 450 := by
  rw [completes_iff_holdable hpos hbits hreadable valid few, Holdable]
  split
  · omega
  · split <;> omega

/-- Two slots hold two names. -/
theorem completes_two :
    Completes 1 (2 ^ 18) ([[0x61], [0x62], [0x61]].map fun name => callOf name 5) := by
  refine (completes_iff (by decide) (by decide) (by decide)
    (forall_valid_callOf (by decide) (by decide) 5) ?_).mpr (Or.inl ⟨by decide, ?_⟩)
  · rw [distinctNames, map_name_callOf]
    decide
  · rw [distinctNames, map_name_callOf]
    decide

/-- A table that the constructor accepts does not take three names. -/
theorem not_completes_three :
    ¬ Completes 1 (2 ^ 18) ([[0x61], [0x62], [0x63]].map fun name => callOf name 5) := by
  rw [completes_iff_holdable (by decide) (by decide) (by decide)
    (forall_valid_callOf (by decide) (by decide) 5)]
  · rw [distinctNames, map_name_callOf, Holdable]
    decide
  · rw [distinctNames, map_name_callOf]
    decide

end Completion

section Region

variable {hashOf : List Byte → JInt} {slotsBits : ℕ} {calls : List DataPoint}

/-- No write or read of a tail leaves the region for names, neither in a run nor in
`result`, and the next offset fits into 24 bits. -/
def StaysInRegion (slotsBits : ℕ) (calls : List DataPoint) : Prop :=
  (∀ fuel, Hashtable.run slotsBits cityNamesSize calls fuel ≠ .error .outOfRegion) ∧
  ∀ fuel table, Hashtable.run slotsBits cityNamesSize calls fuel = .ok table →
    table.resultEntries ≠ none ∧ table.entryMeta.cityNamesEnd < 2 ^ 24

theorem staysInRegion_iff_ledger (hpos : 1 ≤ slotsBits) (hbits : slotsBits ≤ 16)
    (valid : ∀ d ∈ calls, d.Valid hashOf) (few : (distinctNames calls).length ≤ 10000) :
    StaysInRegion slotsBits calls ↔ slotsBits < 9 ∨ 15 < slotsBits ∨
      tailBytes (distinctNames calls) ≤ cityNamesSize ∧
        ¬ OverRead cityNamesSize (calls.map DataPoint.name) := by
  obtain ⟨r, hr, hok, herror⟩ := run_settles hpos hbits (Nat.le_refl _) valid few
  have hhold : 9 ≤ slotsBits → slotsBits ≤ 15 → (Holdable slotsBits (distinctNames calls) ↔
      tailBytes (distinctNames calls) ≤ cityNamesSize) := by
    intro hlow hhigh
    rw [Holdable, if_neg (by omega), if_pos hhigh]
    omega
  rw [StaysInRegion, hr.forall_ne_error_iff (by decide)]
  constructor
  · rintro ⟨hne, -⟩
    by_cases hlow : slotsBits < 9
    · exact Or.inl hlow
    · by_cases hhigh : 15 < slotsBits
      · exact Or.inr (Or.inl hhigh)
      · refine Or.inr (Or.inr ?_)
        rw [← hhold (by omega) (by omega)]
        by_contra hfull
        refine hne ((herror hfull).trans ?_)
        rw [faultOf, if_neg (by omega), if_pos (by omega)]
  · intro h
    refine ⟨fun hout => ?_, fun fuel table htable => ?_⟩
    · by_cases hgood : Holdable slotsBits (distinctNames calls) ∧
          ¬ OverRead cityNamesSize (calls.map DataPoint.name)
      · obtain ⟨table, htable, -⟩ := hok hgood
        rw [htable] at hout
        cases hout
      · have hfault := herror hgood
        rw [hout, faultOf] at hfault
        split at hfault
        · cases hfault
        · split at hfault
          · have := hhold (by omega) (by omega)
            obtain hb | hb | hb := h
            · omega
            · omega
            · exact hgood ⟨this.mpr hb.1, hb.2⟩
          · cases hfault
    · have hsome := hr.eq_of_ok htable
      by_cases hgood : Holdable slotsBits (distinctNames calls) ∧
          ¬ OverRead cityNamesSize (calls.map DataPoint.name)
      · obtain ⟨table', htable', hrecords⟩ := hok hgood
        rw [hsome] at htable'
        obtain rfl : table = table' := Except.ok.inj htable'
        obtain ⟨entries, hentries, -⟩ := hrecords.result (Nat.le_refl _)
        refine ⟨by rw [hentries]; simp, ?_⟩
        have hsize : cityNamesSize < 2 ^ 24 := by decide
        have := hrecords.names_le
        rw [hrecords.names_end]
        omega
      · rw [herror hgood] at hsome
        cases hsome

/-- The tails stay in their region if and only if they fit into it together, and no name
of 22 bytes whose tail takes the last eight bytes of the region comes a second time. Tables
of other sizes never store so many names. -/
theorem staysInRegion_iff (hpos : 1 ≤ slotsBits) (hbits : slotsBits ≤ 16)
    (valid : ∀ d ∈ calls, d.Valid hashOf) (few : (distinctNames calls).length ≤ 10000) :
    StaysInRegion slotsBits calls ↔ slotsBits < 9 ∨ 15 < slotsBits ∨
      tailBytes (distinctNames calls) ≤ cityNamesSize ∧
        ∀ name ∈ calls.map DataPoint.name, name.length = strFieldLen + 8 →
          offsetOf (distinctNames calls) name + 8 = cityNamesSize →
            (calls.map DataPoint.name).count name ≤ 1 := by
  rw [staysInRegion_iff_ledger hpos hbits valid few]
  refine or_congr_right (or_congr_right (and_congr_right fun htails => ?_))
  constructor
  · intro hread name hmem hlen hlast
    by_contra hcount
    refine hread ⟨name, hmem, hlen, by omega, ?_⟩
    rw [← distinctNames]
    omega
  · rintro hlast ⟨name, hmem, hlen, hcount, hover⟩
    rw [← distinctNames] at hover
    have hround : tailSize name = 8 := by
      rw [tailSize, hlen, roundUp_eq]
      rfl
    have hfits : offsetOf (distinctNames calls) name + tailSize name ≤
        tailBytes (distinctNames calls) := offsetOf_add_le (List.mem_eraseDups.mpr hmem)
    have h8 : 8 ∣ offsetOf (distinctNames calls) name := eight_dvd_tailBytes _
    have hsize : cityNamesSize = 131072 := rfl
    have := hlast name hmem hlen (by omega)
    omega

/-- Two names with tails of eight and nine bytes, one of them twice. -/
theorem staysInRegion_two : StaysInRegion 13
    ([List.replicate 22 0x61, List.replicate 23 0x61, List.replicate 22 0x61].map
      fun name => callOf name 5) := by
  refine (staysInRegion_iff (by decide) (by decide)
    (forall_valid_callOf (by decide) (by decide) 5) ?_).mpr (Or.inr (Or.inr ?_))
  · rw [distinctNames, map_name_callOf]
    decide
  · rw [distinctNames, map_name_callOf]
    decide

theorem eraseDups_of_nodup {names : List (List Byte)} (h : names.Nodup) :
    names.eraseDups = names := by
  induction names using List.reverseRecOn with
  | nil => rfl
  | append_singleton names name ih =>
      obtain ⟨hinit, -, hdisjoint⟩ := List.nodup_append.mp h
      have hnew : name ∉ names := fun hmem => hdisjoint name hmem name (by simp) rfl
      rw [eraseDups_append_singleton, if_neg hnew, ih hinit]

/-- Names of 100 bytes. -/
def longName (i : ℕ) : List Byte :=
  List.replicate 98 0x61 ++ [BitVec.ofNat 8 (0x41 + i / 40), BitVec.ofNat 8 (0x41 + i % 40)]

theorem longName_inj {i j : ℕ} (hi : i < 1600) (hj : j < 1600) (h : longName i = longName j) :
    i = j := by
  have hlast := List.append_cancel_left h
  simp only [List.cons.injEq, and_true] at hlast
  have hdiv := congrArg BitVec.toNat hlast.1
  have hmod := congrArg BitVec.toNat hlast.2
  rw [BitVec.toNat_ofNat, BitVec.toNat_ofNat] at hdiv hmod
  omega

theorem length_longName (i : ℕ) : (longName i).length = 100 := by
  simp [longName]

/-- 1490 of them, fewer than the rules allow. -/
def longNames : List (List Byte) := (List.range 1490).map longName

theorem eraseDups_longNames : longNames.eraseDups = longNames := by
  refine eraseDups_of_nodup (List.Nodup.map_on (fun i hi j hj h => ?_) List.nodup_range)
  have hi := List.mem_range.mp hi
  have hj := List.mem_range.mp hj
  exact longName_inj (by omega) (by omega) h

theorem tailBytes_longNames : tailBytes longNames = 1490 * 88 := by
  have htail : tailSize ∘ longName = fun _ => 88 := by
    funext i
    rw [Function.comp_apply, tailSize, length_longName, roundUp_eq]
    rfl
  rw [tailBytes, longNames, List.map_map, htail, List.map_const', List.sum_replicate,
    List.length_range]
  rfl

/-- Their tails take more than the region has. -/
theorem not_staysInRegion_longNames :
    ¬ StaysInRegion 13 (longNames.map fun name => callOf name 5) := by
  have hlen : ∀ name ∈ longNames, name.length = 100 := by
    intro name hname
    obtain ⟨i, -, rfl⟩ := List.mem_map.mp hname
    exact length_longName i
  have hnames : distinctNames (longNames.map fun name => callOf name 5) = longNames := by
    rw [distinctNames, map_name_callOf, eraseDups_longNames]
  rw [staysInRegion_iff_ledger (by decide) (by decide) (forall_valid_callOf
    (fun name hname => by rw [hlen name hname]; decide)
    (fun name hname => by rw [hlen name hname]) 5)]
  · rw [hnames, tailBytes_longNames]
    rintro (h | h | h)
    · exact absurd h (by decide)
    · exact absurd h (by decide)
    · exact absurd h.1 (by decide)
  · rw [hnames, longNames, List.length_map, List.length_range]
    decide

end Region

end Explore.OneBrc
