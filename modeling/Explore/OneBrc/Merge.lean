import Explore.OneBrc.Table
import Std.Data.TreeMap

/-!
# Merging the results of the shards

`result` turns the table of a shard into a map from station to statistics.
`merge` polls the shards in a busy loop and folds the map of each into the
output the first time it sees it finished. Which shards a sweep sees finished is
an arbitrary parameter. `GroupedBy` says that a map is a group-by of a list of
readings, and merging adds up the lists.
-/

namespace Explore.OneBrc

open LittleEndian LinearProbe ShardProcessorState Std

/-- A map from stations to statistics. Nothing here depends on its order. -/
abbrev StatMap := TreeMap String Stat

/-- `new String(bytes)`, which decodes UTF-8. Java leaves unspecified what
becomes of malformed input. -/
def newString (bytes : List Byte) : String :=
  (String.fromUTF8? (bytes.map UInt8.ofBitVec).toByteArray).getD "\uFFFD"

/-- The body of the loop of `result` at slot `i`. -/
def ShardProcessorState.resultAt (st : ShardProcessorState) (map : StatMap) (i : ℕ) :
    Option StatMap := do
  match ← st.stats[i]? with
  | none => some map
  | some stat => do
      let name ← (← st.cityNames[i]?)
      some (map.insert (newString name) stat)

def ShardProcessorState.result (st : ShardProcessorState) : Option StatMap :=
  (List.range st.stats.length).foldlM st.resultAt ∅

/-- Fold the map of a shard into the output. -/
def combine (output tempStats : StatMap) : StatMap :=
  tempStats.toList.foldl
    (fun out entry => out.alter entry.1 fun value =>
      match value with
      | none => some entry.2
      | some value => some (Stat.merge value entry.2))
    output

structure MergeState where
  output : Option StatMap
  isDone : List Bool
  remaining : ℕ

/-- The body of the sweep of `merge` at shard `i`, where `finished` is what
`isDone()` answers. -/
def observe (results : List StatMap) (finished : ℕ → Bool) (s : MergeState) (i : ℕ) : MergeState :=
  match s.isDone[i]?, results[i]? with
  | some false, some tempStats =>
      if finished i then
        { output := some (match s.output with
            | none => tempStats
            | some output => combine output tempStats)
          isDone := s.isDone.set i true
          remaining := s.remaining - 1 }
      else s
  | _, _ => s

def sweep (results : List StatMap) (finished : ℕ → Bool) (s : MergeState) : MergeState :=
  (List.range results.length).foldl (observe results finished) s

/-- The busy loop of `merge` from some round on, for at most `fuel` rounds. -/
def mergeFrom (results : List StatMap) (finished : ℕ → ℕ → Bool) (round : ℕ) :
    ℕ → MergeState → Option (Option StatMap)
  | fuel, s =>
      if s.remaining = 0 then some s.output
      else match fuel with
        | 0 => none
        | fuel + 1 => mergeFrom results finished (round + 1) fuel
            (sweep results (finished round) s)

/-- `merge`; `finished round i` says whether shard `i` has finished when the loop
looks at it in some round. The inner `none` is the `null` for no shards at all. -/
def merge (results : List StatMap) (finished : ℕ → ℕ → Bool) (fuel : ℕ) :
    Option (Option StatMap) :=
  mergeFrom results finished 0 fuel
    ⟨none, List.replicate results.length false, results.length⟩

section NewString

private theorem utf8EncodeChar_ascii : ∀ b : Byte, b.toNat < 128 →
    String.utf8EncodeChar (Char.ofNat b.toNat) = [UInt8.ofBitVec b] := by
  decide

private theorem ofNat_toNat_ascii : ∀ b : Byte, b.toNat < 128 →
    BitVec.ofNat 8 (Char.ofNat b.toNat).toNat = b := by
  decide

variable {bytes other : List Byte}

/-- An ASCII name decodes to one character for each byte. -/
theorem newString_ascii (h : ∀ b ∈ bytes, b.toNat < 128) :
    newString bytes = String.ofList (bytes.map fun b => Char.ofNat b.toNat) := by
  have encoded : (bytes.map UInt8.ofBitVec).toByteArray =
      (bytes.map fun b => Char.ofNat b.toNat).utf8Encode := by
    rw [List.utf8Encode, List.flatMap_map]
    congr 1
    induction bytes with
    | nil => rfl
    | cons b bytes ih =>
        rw [List.map_cons, List.flatMap_cons, utf8EncodeChar_ascii b (h b (by simp)),
          ih (fun b hb => h b (by simp [hb]))]
        rfl
  have valid : (bytes.map UInt8.ofBitVec).toByteArray.IsValidUTF8 := ⟨_, encoded⟩
  rw [newString, String.fromUTF8?, dif_pos valid, Option.getD_some]
  simp only [String.fromUTF8, String.ofList, encoded]

/-- Distinct ASCII names stay distinct as strings. -/
theorem newString_inj (h : ∀ b ∈ bytes, b.toNat < 128) (h' : ∀ b ∈ other, b.toNat < 128)
    (same : newString bytes = newString other) : bytes = other := by
  have back {bs : List Byte} (hbs : ∀ b ∈ bs, b.toNat < 128) :
      (bs.map fun b => Char.ofNat b.toNat).map (fun c => BitVec.ofNat 8 c.toNat) = bs := by
    rw [List.map_map]
    exact (List.map_congr_left fun b hb => ofNat_toNat_ascii b (hbs b hb)).trans (List.map_id _)
  rw [newString_ascii h, newString_ascii h'] at same
  rw [← back h, ← back h', String.ofList_injective same]

/-- The rules ask for names in UTF-8. -/
def ValidUTF8 (bytes : List Byte) : Prop :=
  (bytes.map UInt8.ofBitVec).toByteArray.IsValidUTF8

instance : DecidablePred ValidUTF8 := fun bytes =>
  inferInstanceAs (Decidable (bytes.map UInt8.ofBitVec).toByteArray.IsValidUTF8)

/-- The bytes of a name are those of its string. -/
theorem toByteArray_newString (h : ValidUTF8 bytes) :
    (newString bytes).toByteArray = (bytes.map UInt8.ofBitVec).toByteArray := by
  rw [ValidUTF8] at h
  rw [newString, String.fromUTF8?, dif_pos h, Option.getD_some]
  rfl

theorem newString_injOn (h : ValidUTF8 bytes) (h' : ValidUTF8 other)
    (same : newString bytes = newString other) : bytes = other := by
  have hdata : (bytes.map UInt8.ofBitVec).toByteArray = (other.map UInt8.ofBitVec).toByteArray := by
    rw [← toByteArray_newString h, same, toByteArray_newString h']
  have hlist := congrArg (fun b => b.data.toList) hdata
  simp only [List.data_toByteArray] at hlist
  exact List.map_injective_iff.mpr (fun a b hab => congrArg UInt8.toBitVec hab) hlist

end NewString

/-- The map is a group-by of the readings: its keys are the keys that occur, and
each has the statistics of its temperatures. -/
structure GroupedBy (map : StatMap) (readings : List (String × Int)) : Prop where
  mem_iff : ∀ key, key ∈ map ↔ key ∈ readings.map Prod.fst
  summarizes : ∀ (key : String) stat, map[key]? = some stat →
    stat.Summarizes (tempsOf key readings)

namespace GroupedBy

variable {map left right : StatMap} {readings other : List (String × Int)}

theorem perm (h : GroupedBy map readings) (p : readings.Perm other) : GroupedBy map other where
  mem_iff key := (h.mem_iff key).trans (p.map Prod.fst).mem_iff
  summarizes key stat hstat := (h.summarizes key stat hstat).perm (tempsOf_perm p)

theorem getElem?_eq_none (h : GroupedBy map readings) {key : String} (hkey : map[key]? = none) :
    tempsOf key readings = [] := by
  rw [tempsOf_eq_nil_iff, ← h.mem_iff, TreeMap.mem_iff_isSome_getElem?, hkey]
  simp

end GroupedBy

/-- What the output holds at one key after a shard is folded in. -/
def combineAt : Option Stat → Option Stat → Option Stat
  | none, right => right
  | left, none => left
  | some left, some right => some (Stat.merge left right)

theorem getElem?_combine (output tempStats : StatMap) (key : String) :
    (combine output tempStats)[key]? = combineAt output[key]? tempStats[key]? := by
  have at_key := fun stat => TreeMap.mem_toList_iff_getElem?_eq_some (t := tempStats)
    (k := key) (v := stat)
  have distinct : tempStats.toList.Pairwise fun a b => a.1 ≠ b.1 :=
    TreeMap.distinct_keys_toList.imp fun {a b} h same => h (by rw [same]; exact compare_self)
  -- the fold over any list of entries with distinct keys
  have fold : ∀ (entries : List (String × Stat)) (out : StatMap) (value : Option Stat),
      entries.Pairwise (fun a b => a.1 ≠ b.1) →
      (∀ stat, (key, stat) ∈ entries ↔ value = some stat) →
      (entries.foldl (fun out entry => out.alter entry.1 fun value =>
        match value with
        | none => some entry.2
        | some value => some (Stat.merge value entry.2)) out)[key]? =
          combineAt out[key]? value := by
    intro entries
    induction entries with
    | nil =>
        intro out value _ hvalue
        have hnone : value = none := by
          cases value with
          | none => rfl
          | some stat => exact absurd ((hvalue stat).mpr rfl) (by simp)
        subst hnone
        cases hout : out[key]? <;> simp [combineAt, hout]
    | cons entry entries ih =>
        intro out value hdistinct hvalue
        obtain ⟨hfresh, hrest⟩ := List.pairwise_cons.mp hdistinct
        rw [List.foldl_cons]
        by_cases hkey : entry.1 = key
        · have hval : value = some entry.2 := (hvalue entry.2).mp (by simp [← hkey])
          have hgone (stat : Stat) : (key, stat) ∈ entries ↔ none = some stat := by
            constructor
            · intro hmem
              exact absurd hkey (hfresh _ hmem)
            · simp
          rw [ih _ none hrest hgone, TreeMap.getElem?_alter, hkey, compare_self, if_pos rfl, hval]
          cases out[key]? <;> rfl
        · have hcmp : compare entry.1 key ≠ .eq := fun same => hkey (LawfulEqCmp.eq_of_compare same)
          have hsame (stat : Stat) : (key, stat) ∈ entries ↔ value = some stat := by
            rw [← hvalue stat, List.mem_cons]
            constructor
            · exact Or.inr
            · rintro (rfl | hmem)
              · exact absurd rfl hkey
              · exact hmem
          rw [ih _ value hrest hsame, TreeMap.getElem?_alter, if_neg hcmp]
  exact fold _ output _ distinct at_key

/-- Merging adds up the readings of the two maps. -/
theorem GroupedBy.combine {left right : StatMap} {readings other : List (String × Int)}
    (h : GroupedBy left readings) (h' : GroupedBy right other) :
    GroupedBy (combine left right) (readings ++ other) := by
  constructor
  · intro key
    rw [List.map_append, List.mem_append, ← h.mem_iff, ← h'.mem_iff]
    simp only [TreeMap.mem_iff_isSome_getElem?, getElem?_combine]
    cases left[key]? <;> cases right[key]? <;> simp [combineAt]
  · intro key stat hstat
    rw [getElem?_combine] at hstat
    rw [tempsOf_append]
    cases hl : left[key]? with
    | none =>
        rw [hl] at hstat
        rw [h.getElem?_eq_none hl]
        exact h'.summarizes key stat (by simpa [combineAt] using hstat)
    | some l =>
        cases hr : right[key]? with
        | none =>
            rw [hl, hr] at hstat
            rw [h'.getElem?_eq_none hr, List.append_nil]
            exact h.summarizes key stat (by simpa [combineAt, hl] using hstat)
        | some r =>
            rw [hl, hr] at hstat
            obtain rfl : Stat.merge l r = stat := by simpa [combineAt] using hstat
            exact (h.summarizes key l hl).merge (h'.summarizes key r hr)

/-- Readings under the strings of their names. -/
def byStation (readings : List (List Byte × Int)) : List (String × Int) :=
  readings.map fun r => (newString r.1, r.2)

theorem tempsOf_byStation {readings : List (List Byte × Int)} {name : List Byte}
    (ascii : ∀ r ∈ readings, ∀ b ∈ r.1, b.toNat < 128) (hname : ∀ b ∈ name, b.toNat < 128) :
    tempsOf (newString name) (byStation readings) = tempsOf name readings := by
  induction readings with
  | nil => rfl
  | cons r readings ih =>
      obtain ⟨other, temp⟩ := r
      have hrest := ih fun r hr => ascii r (by simp [hr])
      by_cases same : other = name
      · subst same
        change tempsOf _ ((newString other, temp) :: byStation readings) = _
        rw [tempsOf_cons_self, tempsOf_cons_self, hrest]
      · have hne : newString other ≠ newString name := fun h =>
          same (newString_inj (ascii _ (List.mem_cons_self ..)) hname h)
        change tempsOf _ ((newString other, temp) :: byStation readings) = _
        rw [tempsOf_cons_ne _ hne, tempsOf_cons_ne _ same, hrest]

section Result

variable {b : ℕ} {st : ShardProcessorState} {readings : List (List Byte × Int)}

/-- Slot `i` holds the statistics of the station `key`. -/
def HoldsStat (st : ShardProcessorState) (i : ℕ) (key : String) (stat : Stat) : Prop :=
  ∃ name, st.cityNames[i]? = some (some name) ∧ newString name = key ∧
    st.stats[i]? = some (some stat)

/-- What the loop of `result` has collected after `n` slots. -/
def Collected (st : ShardProcessorState) (n : ℕ) (map : StatMap) : Prop :=
  ∀ (key : String) stat, map[key]? = some stat ↔ ∃ i < n, HoldsStat st i key stat

theorem collected_zero : Collected st 0 ∅ := by
  intro key stat
  simp

/-- Two slots never hold the same station, so no insertion overwrites another. -/
theorem collected_succ (h : TableOf b st readings)
    (ascii : ∀ r ∈ readings, ∀ b ∈ r.1, b.toNat < 128) {n : ℕ} (hn : n < 2 ^ b) {map : StatMap}
    (hmap : Collected st n map) :
    ∃ map', st.resultAt map n = some map' ∧ Collected st (n + 1) map' := by
  have hlt : n < st.cityNames.length := by rw [h.names_length]; exact hn
  have asciiName {i : ℕ} {name : List Byte} (hi : st.cityNames[i]? = some (some name)) :
      ∀ b ∈ name, b.toNat < 128 := by
    obtain ⟨r, hr, rfl⟩ := List.mem_map.mp (h.mem_of_stored hi)
    exact ascii r hr
  have hslot := List.getElem?_eq_getElem hlt
  cases hcur : st.cityNames[n] with
  | none =>
      rw [hcur] at hslot
      refine ⟨map, by rw [resultAt, h.free n hslot]; rfl, fun key stat => ?_⟩
      rw [hmap key stat]
      constructor
      · rintro ⟨i, hi, hold⟩
        exact ⟨i, by omega, hold⟩
      · rintro ⟨i, hi, name, hname, hold⟩
        have hne : i ≠ n := by
          rintro rfl
          rw [hslot] at hname
          simp at hname
        exact ⟨i, by omega, name, hname, hold⟩
  | some name =>
      rw [hcur] at hslot
      obtain ⟨s, hs, -⟩ := h.stat n name hslot
      refine ⟨map.insert (newString name) s, by rw [resultAt, hs]; simp [hslot], fun key stat => ?_⟩
      rw [TreeMap.getElem?_insert]
      by_cases hkey : newString name = key
      · rw [hkey, compare_self, if_pos rfl]
        constructor
        · intro hstat
          obtain rfl : s = stat := by simpa using hstat
          exact ⟨n, by omega, name, hslot, hkey, hs⟩
        · rintro ⟨i, hi, other, hother, hsame, hstat⟩
          have hnames : other = name :=
            newString_inj (asciiName hother) (asciiName hslot) (hsame.trans hkey.symm)
          have hslots : i = n := h.wellFormed.stored_unique (hnames ▸ hother) hslot
          rw [hslots, hs] at hstat
          simpa using hstat
      · have hcmp : compare (newString name) key ≠ .eq :=
          fun same => hkey (LawfulEqCmp.eq_of_compare same)
        rw [if_neg hcmp, hmap key stat]
        constructor
        · rintro ⟨i, hi, hold⟩
          exact ⟨i, by omega, hold⟩
        · rintro ⟨i, hi, other, hother, hsame, hstat⟩
          have hne : i ≠ n := by
            rintro rfl
            rw [hslot] at hother
            obtain rfl : name = other := by simpa using hother
            exact hkey hsame
          exact ⟨i, by omega, other, hother, hsame, hstat⟩

/-- The map of a shard is a group-by of what its table has recorded. -/
theorem TableOf.result (h : TableOf b st readings)
    (ascii : ∀ r ∈ readings, ∀ b ∈ r.1, b.toNat < 128) :
    ∃ map, st.result = some map ∧ GroupedBy map (byStation readings) := by
  have loop : ∀ n ≤ 2 ^ b,
      ∃ map, (List.range n).foldlM st.resultAt ∅ = some map ∧ Collected st n map := by
    intro n
    induction n with
    | zero =>
        intro _
        exact ⟨∅, rfl, collected_zero⟩
    | succ n ih =>
        intro hn
        obtain ⟨map, hmap, collected⟩ := ih (by omega)
        obtain ⟨map', hmap', collected'⟩ := collected_succ h ascii (by omega) collected
        refine ⟨map', ?_, collected'⟩
        rw [List.range_succ, List.foldlM_append, hmap]
        simp [hmap']
  obtain ⟨map, hmap, collected⟩ := loop (2 ^ b) (Nat.le_refl _)
  refine ⟨map, by rw [ShardProcessorState.result, h.stats_length, hmap], ?_, ?_⟩
  · intro key
    have hnames : key ∈ (byStation readings).map Prod.fst ↔
        ∃ name ∈ readings.map Prod.fst, newString name = key := by
      simp [byStation]
    rw [TreeMap.mem_iff_isSome_getElem?, Option.isSome_iff_exists, hnames]
    constructor
    · rintro ⟨stat, hstat⟩
      obtain ⟨i, -, name, hname, hkey, -⟩ := (collected key stat).mp hstat
      exact ⟨name, h.mem_of_stored hname, hkey⟩
    · rintro ⟨name, mem, hkey⟩
      obtain ⟨i, hi⟩ := h.stored name mem
      obtain ⟨s, hs, -⟩ := h.stat i name hi
      have hlt : i < st.cityNames.length := (List.getElem?_eq_some_iff.mp hi).1
      exact ⟨s, (collected key s).mpr ⟨i, h.names_length ▸ hlt, name, hi, hkey, hs⟩⟩
  · intro key stat hstat
    obtain ⟨i, -, name, hname, rfl, hs⟩ := (collected key stat).mp hstat
    obtain ⟨s, hs', summary⟩ := h.stat i name hname
    obtain rfl : s = stat := by
      rw [hs'] at hs
      simpa using hs
    have hascii : ∀ b ∈ name, b.toNat < 128 := by
      obtain ⟨r, hr, rfl⟩ := List.mem_map.mp (h.mem_of_stored hname)
      exact ascii r hr
    rwa [tempsOf_byStation ascii hascii]

end Result

end Explore.OneBrc
