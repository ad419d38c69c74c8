import Explore.OneBrc.HashtableGrowth
import Mathlib.Data.List.TakeWhile

/-!
# The off-heap table as a ledger of names

What `addDataPoint` does depends only on the names seen so far, in the order in
which they came: `NameLedger.add` decides whether the table is full, whether the
tail of a new name fits into its region, whether the table has to grow and may
not, and whether a comparison reads past the memory that can be read. `Records`
relates a table to the readings it has seen, and a step of the table refines a
step of the ledger.
-/

namespace Explore.OneBrc

open LittleEndian LinearProbe Memory Unsafely EntryData EntryMeta

namespace NameLedger

/-- The bytes reserved for the tail of a name. -/
def tailSize (name : List Byte) : ℕ := roundUp (name.length - strFieldLen)

def tailBytes (names : List (List Byte)) : ℕ := (names.map tailSize).sum

/-- Where the tail of a name is stored. -/
def offsetOf (seen : List (List Byte)) (name : List Byte) : ℕ :=
  tailBytes (seen.takeWhile fun other => other ≠ name)

/-- The size of the table after so many names. -/
def bitsAt (slotsBits count : ℕ) : ℕ := if count < 450 then slotsBits else 16

/-- The names after one more is added. -/
def add (slotsBits readable : ℕ) (seen : List (List Byte)) (name : List Byte) :
    Except Fault (List (List Byte)) :=
  if name ∈ seen then
    if name.length = strFieldLen + 8 ∧ readable < offsetOf seen name + 16 then .error .outOfRegion
    else .ok seen
  else if seen.length = 2 ^ bitsAt slotsBits seen.length then .error .outOfFuel
  else if cityNamesSize < tailBytes seen + (name.length - strFieldLen) then .error .outOfRegion
  else if seen.length + 1 = 450 ∧ slotsBits = 16 then .error .checkArg
  else .ok (seen ++ [name])

def run (slotsBits readable : ℕ) (names : List (List Byte)) : Except Fault (List (List Byte)) :=
  names.foldlM (add slotsBits readable) []

section Offsets

variable {seen : List (List Byte)} {name other : List Byte}

theorem tailBytes_append (left right : List (List Byte)) :
    tailBytes (left ++ right) = tailBytes left + tailBytes right := by
  rw [tailBytes, List.map_append, List.sum_append]
  rfl

theorem tailBytes_singleton (name : List Byte) : tailBytes [name] = tailSize name := by
  simp [tailBytes]

/-- Tails start at multiples of eight. -/
theorem eight_dvd_tailBytes (names : List (List Byte)) : 8 ∣ tailBytes names := by
  induction names with
  | nil => exact ⟨0, rfl⟩
  | cons name names ih =>
      rw [tailBytes, List.map_cons, List.sum_cons, tailSize, roundUp_eq]
      exact Nat.dvd_add (Nat.dvd_mul_left 8 _) ih

/-- The region ends at one, so a tail fits rounded up if it fits at all. -/
theorem add_roundUp_le {total n : ℕ} (h8 : 8 ∣ total) (h : total + n ≤ cityNamesSize) :
    total + roundUp n ≤ cityNamesSize := by
  have hsize : cityNamesSize = 8 * 2 ^ 14 := rfl
  rw [roundUp_eq]
  omega

theorem offsetOf_append_of_mem (h : name ∈ seen) (rest : List (List Byte)) :
    offsetOf (seen ++ rest) name = offsetOf seen name := by
  have hfound : ¬ ∀ a ∈ seen, decide (a ≠ name) = true := fun hall => by
    simpa using hall name h
  rw [offsetOf, offsetOf, List.takeWhile_append, if_neg]
  intro hlen
  apply hfound
  rw [← List.takeWhile_eq_self_iff]
  exact (List.takeWhile_prefix _).eq_of_length hlen

theorem offsetOf_append_new (h : name ∉ seen) (rest : List (List Byte)) :
    offsetOf (seen ++ name :: rest) name = tailBytes seen := by
  have hall : seen.takeWhile (fun a => decide (a ≠ name)) = seen :=
    List.takeWhile_eq_self_iff.mpr fun a ha => decide_eq_true fun same => h (same ▸ ha)
  rw [offsetOf, List.takeWhile_append, hall, if_pos rfl, List.takeWhile_cons,
    decide_eq_false (not_not_intro rfl)]
  simp

/-- The tails of the names follow one another. -/
theorem offsetOf_add_le (h : name ∈ seen) :
    offsetOf seen name + tailSize name ≤ tailBytes seen := by
  induction seen with
  | nil => simp at h
  | cons first seen ih =>
      rw [offsetOf, List.takeWhile_cons]
      by_cases same : first = name
      · subst same
        simp [tailBytes]
      · have hmem : name ∈ seen := (List.mem_cons.mp h).resolve_left fun e => same e.symm
        have := ih hmem
        rw [offsetOf] at this
        simp only [ne_eq, same, not_false_eq_true, decide_true, if_true]
        simp only [tailBytes, List.map_cons, List.sum_cons] at this ⊢
        simp only [ne_eq] at this
        omega

end Offsets

end NameLedger

/-- The distinct names of the readings, in the order of their first reading. -/
def seenOf (readings : List (List Byte × Int)) : List (List Byte) :=
  (readings.map Prod.fst).eraseDups

section Seen

variable {readings : List (List Byte × Int)} {name : List Byte}

theorem mem_seenOf : name ∈ seenOf readings ↔ name ∈ readings.map Prod.fst := List.mem_eraseDups

theorem seenOf_append_of_mem (h : name ∈ seenOf readings) (temp : Int) :
    seenOf (readings ++ [(name, temp)]) = seenOf readings := by
  rw [seenOf, List.map_append, List.eraseDups_append]
  simp [List.removeAll, seenOf, mem_seenOf.mp h]

theorem seenOf_append_new (h : name ∉ seenOf readings) (temp : Int) :
    seenOf (readings ++ [(name, temp)]) = seenOf readings ++ [name] := by
  have hmem : name ∉ readings.map Prod.fst := fun hin => h (mem_seenOf.mpr hin)
  rw [seenOf, List.map_append, List.eraseDups_append]
  simp [List.removeAll, hmem, seenOf, List.eraseDups_cons]

theorem nodup_seenOf (readings : List (List Byte × Int)) : (seenOf readings).Nodup := by
  induction readings using List.reverseRecOn with
  | nil => simp [seenOf]
  | append_singleton readings r ih =>
      obtain ⟨name, temp⟩ := r
      by_cases h : name ∈ seenOf readings
      · rwa [seenOf_append_of_mem h]
      · rw [seenOf_append_new h]
        refine List.nodup_append.mpr ⟨ih, List.nodup_singleton _, fun a ha b hb => ?_⟩
        rw [List.mem_singleton.mp hb]
        rintro rfl
        exact h ha

end Seen

open NameLedger

/-- What is stored for a name after the readings. -/
def infoOf (readings : List (List Byte × Int)) (name : List Byte) : ℕ × List Int :=
  (offsetOf (seenOf readings) name, tempsOf name readings)

/-- The table has recorded exactly the readings. -/
structure Records (hashOf : List Byte → JInt) (slotsBits readable : ℕ) (table : Hashtable)
    (readings : List (List Byte × Int)) : Prop where
  slots : ∃ keys, Slots hashOf table.entryMeta (bitsAt slotsBits (seenOf readings).length) keys
      (infoOf readings) ∧
    ∀ name, (∃ i : ℕ, keys[i]? = some (some name)) ↔ name ∈ seenOf readings
  filled : table.nFilledEntries = (seenOf readings).length
  names_end : table.entryMeta.cityNamesEnd = tailBytes (seenOf readings)
  names_le : tailBytes (seenOf readings) ≤ cityNamesSize
  names_size : table.entryMeta.cityNames.size = readable

/-- A call allowed by the rules, whose hash is a function of the name. -/
structure DataPoint.Valid (hashOf : List Byte → JInt) (d : DataPoint) : Prop where
  len_pos : 1 ≤ d.len
  len_le : d.len ≤ 100
  hash_eq : d.hash32 = hashOf d.name

section Info

variable {readings : List (List Byte × Int)} {name other : List Byte}

theorem tempsOf_append_self (name : List Byte) (readings : List (List Byte × Int)) (temp : Int) :
    tempsOf name (readings ++ [(name, temp)]) = tempsOf name readings ++ [temp] := by
  rw [tempsOf_append, tempsOf_cons_self, tempsOf_nil]

theorem tempsOf_append_ne (h : name ≠ other) (temp : Int) :
    tempsOf other (readings ++ [(name, temp)]) = tempsOf other readings := by
  rw [tempsOf_append, tempsOf_cons_ne temp h, tempsOf_nil, List.append_nil]

theorem infoOf_same (h : name ∈ seenOf readings) (temp : Int) :
    infoOf (readings ++ [(name, temp)]) name =
      ((infoOf readings name).1, (infoOf readings name).2 ++ [temp]) := by
  rw [infoOf, seenOf_append_of_mem h, tempsOf_append_self]
  rfl

theorem infoOf_other (h : name ∈ seenOf readings) (hne : name ≠ other) (temp : Int) :
    infoOf (readings ++ [(name, temp)]) other = infoOf readings other := by
  rw [infoOf, seenOf_append_of_mem h, tempsOf_append_ne hne]
  rfl

theorem infoOf_new (h : name ∉ seenOf readings) (temp : Int) :
    infoOf (readings ++ [(name, temp)]) name = (tailBytes (seenOf readings), [temp]) := by
  have hnone : tempsOf name readings = [] :=
    tempsOf_eq_nil_iff.mpr fun hmem => h (mem_seenOf.mpr hmem)
  rw [infoOf, seenOf_append_new h, offsetOf_append_new h, tempsOf_append_self, hnone]
  rfl

theorem infoOf_old (h : name ∉ seenOf readings) (hother : other ∈ seenOf readings) (temp : Int) :
    infoOf (readings ++ [(name, temp)]) other = infoOf readings other := by
  have hne : name ≠ other := by
    rintro rfl
    exact h hother
  rw [infoOf, seenOf_append_new h, offsetOf_append_of_mem hother, tempsOf_append_ne hne]
  rfl

end Info

/-- The outcome of a call is that of the ledger, and a table that results has recorded
the readings. -/
def Refines (hashOf : List Byte → JInt) (slotsBits readable : ℕ)
    (readings : List (List Byte × Int)) (r : Except Fault Hashtable) :
    Except Fault (List (List Byte)) → Prop
  | .error fault => r = .error fault
  | .ok seen => seen = seenOf readings ∧
      ∃ table, r = .ok table ∧ Records hashOf slotsBits readable table readings

namespace Records

variable {hashOf : List Byte → JInt} {slotsBits readable : ℕ} {table : Hashtable}
  {readings : List (List Byte × Int)} {d : DataPoint}

/-- The probe of a name searches the names of the slots. -/
theorem addDataPoint_eq {b : ℕ} {keys : List (Option (List Byte))}
    {info : List Byte → ℕ × List Int} (h : Slots hashOf table.entryMeta b keys info)
    (hd : d.Valid hashOf)
    (room : table.entryMeta.cityNamesEnd ≤ table.entryMeta.cityNames.size) (fuel : ℕ) :
    table.addDataPoint fuel d = search keys d.name (hashSlot hashOf b d.name) fuel >>=
      Slots.recordAt fuel table d := by
  have hindex : (table.entryMeta.indexFromHash32 d.hash32).toNat = hashSlot hashOf b d.name := by
    rw [hd.hash_eq]
    exact h.toNat_indexFromHash32 d.name
  rw [Hashtable.addDataPoint, h.addDataPointFrom_eq hd.hash_eq room fuel fuel
    (by rw [hindex]; exact hashSlot_lt ..), hindex, search]
  cases findSlot keys d.name (hashSlot hashOf b d.name) fuel <;> rfl

/-- A name that is in the table. -/
theorem addDataPoint_seen (h : Records hashOf slotsBits readable table readings)
    (hreadable : cityNamesSize ≤ readable) (hd : d.Valid hashOf)
    (hmem : d.name ∈ seenOf readings) :
    ∃ r, Settles .outOfFuel (fun fuel => table.addDataPoint fuel d) r ∧
      Refines hashOf slotsBits readable (readings ++ [d.reading]) r
        (add slotsBits readable (seenOf readings) d.name) := by
  obtain ⟨⟨keys, hslots, hstored⟩, hfilled, hend, hle, hsize⟩ := h
  have room : table.entryMeta.cityNamesEnd ≤ table.entryMeta.cityNames.size := by omega
  obtain ⟨i, hi⟩ := (hstored d.name).mpr hmem
  have hold := hslots.holds i d.name hi
  have hipow := hslots.lt_of_key hi
  have hdlen : d.name.length = d.len := length_readBytes ..
  have hsearch : Settles .outOfFuel (search keys d.name (hashSlot hashOf _ d.name)) (.ok i) :=
    search_settles (by rw [hslots.keys_length]; exact hashSlot_lt ..)
      (hslots.wellFormed i d.name hi) fun blocked => blocked.not_self hi
  have hrecord (fuel : ℕ) : Slots.recordAt fuel table d i =
      if d.name.length = strFieldLen + 8 ∧ readable < offsetOf (seenOf readings) d.name + 16 then
        .error .outOfRegion
      else .ok { table with
        entryMeta := updated table.entryMeta (32 * i) d.temperature } := by
    rw [← hd.hash_eq] at hold
    rw [Slots.recordAt, (hslots.isPresent_iff hipow).mpr ⟨_, hi⟩, if_neg (by simp),
      updateOnMatch_name hold (hslots.inside hipow) room, hsize, hdlen]
    change (if d.len = strFieldLen + 8 ∧ readable < offsetOf (seenOf readings) d.name + 16 then _
      else _) >>= _ = _
    split <;> rfl
  have hsettles := hsearch.bind (g := fun fuel i => Slots.recordAt fuel table d i)
    ((Settles.const _).congr hrecord)
  refine ⟨_, hsettles.congr fun fuel => addDataPoint_eq hslots hd room fuel, ?_⟩
  rw [add, if_pos hmem]
  have hseen : seenOf (readings ++ [d.reading]) = seenOf readings :=
    seenOf_append_of_mem hmem _
  by_cases outside : d.name.length = strFieldLen + 8 ∧
      readable < offsetOf (seenOf readings) d.name + 16
  · rw [if_pos outside, if_pos outside]
    rfl
  · rw [if_neg outside, if_neg outside]
    refine ⟨hseen.symm, _, rfl, ?_⟩
    refine ⟨⟨keys, ?_, ?_⟩, ?_, ?_, ?_, hsize⟩
    · rw [hseen]
      refine hslots.change hi (frame_updated _ _ _) ?_ fun k hk => infoOf_other hmem hk.symm _
      rw [DataPoint.reading, infoOf_same hmem]
      exact holds_updated hold d.temperature
    · rw [hseen]
      exact hstored
    · rw [hseen]
      exact hfilled
    · rw [hseen]
      exact hend
    · rw [hseen]
      exact hle

/-- The names of the slots are those of the ledger, so the table is full if and only if
the ledger has as many names as there are slots. -/
theorem exists_free_iff {b : ℕ} {m : EntryMeta} {keys : List (Option (List Byte))}
    {info : List Byte → ℕ × List Int} (h : Slots hashOf m b keys info)
    (hstored : ∀ name, (∃ i : ℕ, keys[i]? = some (some name)) ↔ name ∈ seenOf readings) :
    (∃ i : ℕ, keys[i]? = some none) ↔ (seenOf readings).length ≠ 2 ^ b := by
  obtain ⟨hle, hlt⟩ := length_stored_le (t := keys) (seenOf readings) (nodup_seenOf readings)
    fun k hk => (hstored k).mpr hk
  rw [h.keys_length] at hle hlt
  constructor
  · intro hfree
    exact Nat.ne_of_lt (hlt hfree)
  · intro hne
    exact h.wellFormed.exists_free (seenOf readings) (fun i k hk => (hstored k).mp ⟨i, hk⟩)
      (by rw [h.keys_length]; omega)

theorem bitsAt_succ {slotsBits n : ℕ} (h : n + 1 ≠ 450) :
    bitsAt slotsBits (n + 1) = bitsAt slotsBits n := by
  by_cases hn : n < 450
  · rw [bitsAt, bitsAt, if_pos hn, if_pos (by omega)]
  · rw [bitsAt, bitsAt, if_neg hn, if_neg (by omega)]

/-- What follows a new entry: the table grows with the 450th name. -/
theorem onNewEntry_settles (table : Hashtable) {keys : List (Option (List Byte))}
    (hbits : slotsBits ≤ 16)
    (hslots : Slots hashOf table.entryMeta (bitsAt slotsBits table.nFilledEntries) keys
      (infoOf readings))
    (hstored : ∀ name, (∃ i : ℕ, keys[i]? = some (some name)) ↔ name ∈ seenOf readings)
    (hfilled : table.nFilledEntries + 1 = (seenOf readings).length)
    (hend : table.entryMeta.cityNamesEnd = tailBytes (seenOf readings))
    (hle : tailBytes (seenOf readings) ≤ cityNamesSize)
    (hsize : table.entryMeta.cityNames.size = readable) :
    ∃ r, Settles .outOfFuel (fun fuel => Hashtable.onNewEntry fuel table) r ∧
      Refines hashOf slotsBits readable readings r
        (if table.nFilledEntries + 1 = 450 ∧ slotsBits = 16 then .error .checkArg
        else .ok (seenOf readings)) := by
  have hnew (fuel : ℕ) : Hashtable.onNewEntry fuel table =
      if table.nFilledEntries + 1 = 450 then
        Hashtable.reHash fuel { table with nFilledEntries := table.nFilledEntries + 1 } 16
      else .ok { table with nFilledEntries := table.nFilledEntries + 1 } := rfl
  by_cases h450 : table.nFilledEntries + 1 = 450
  · have hold : bitsAt slotsBits table.nFilledEntries = slotsBits := if_pos (by omega)
    have hgrown : bitsAt slotsBits (seenOf readings).length = 16 := if_neg (by omega)
    rw [hold] at hslots
    by_cases h16 : slotsBits = 16
    · refine ⟨.error .checkArg, (Settles.const _).congr fun fuel => ?_, ?_⟩
      · rw [hnew, if_pos h450]
        exact reHash_checkArg fuel (by rw [hslots.bits]; omega)
      · rw [if_pos ⟨h450, h16⟩]
        rfl
    · obtain ⟨m, keys', hrehash, hslots', hnames, hend', hsame⟩ := reHash_settles
        { table with nFilledEntries := table.nFilledEntries + 1 } hslots (by omega)
      refine ⟨_, hrehash.congr fun fuel => by rw [hnew, if_pos h450], ?_⟩
      rw [if_neg fun both => h16 both.2]
      refine ⟨rfl, _, rfl, ⟨keys', by rw [hgrown]; exact hslots', fun name => ?_⟩, hfilled,
        hend'.trans hend, hle, (congrArg Block.size hnames).trans hsize⟩
      exact (hsame name).trans (hstored name)
  · refine ⟨_, (Settles.const _).congr fun fuel => by rw [hnew, if_neg h450], ?_⟩
    rw [if_neg fun both => h450 both.1]
    refine ⟨rfl, _, rfl, ⟨keys, ?_, hstored⟩, hfilled, hend, hle, hsize⟩
    rw [← hfilled, bitsAt_succ h450]
    exact hslots

/-- A name that is not in the table. -/
theorem addDataPoint_new (h : Records hashOf slotsBits readable table readings)
    (hreadable : cityNamesSize ≤ readable) (hbits : slotsBits ≤ 16) (hd : d.Valid hashOf)
    (hnew : d.name ∉ seenOf readings) :
    ∃ r, Settles .outOfFuel (fun fuel => table.addDataPoint fuel d) r ∧
      Refines hashOf slotsBits readable (readings ++ [d.reading]) r
        (add slotsBits readable (seenOf readings) d.name) := by
  obtain ⟨⟨keys, hslots, hstored⟩, hfilled, hend, hle, hsize⟩ := h
  have room : table.entryMeta.cityNamesEnd ≤ table.entryMeta.cityNames.size := by omega
  have hdlen : d.name.length = d.len := length_readBytes ..
  have hhome : hashSlot hashOf (bitsAt slotsBits (seenOf readings).length) d.name <
      keys.length := by
    rw [hslots.keys_length]
    exact hashSlot_lt ..
  have habsent : ∀ j : ℕ, keys[j]? ≠ some (some d.name) :=
    fun j hj => hnew ((hstored d.name).mp ⟨j, hj⟩)
  have hadd : ∀ fuel, table.addDataPoint fuel d = _ := addDataPoint_eq hslots hd room
  rw [add, if_neg hnew]
  by_cases hfull : (seenOf readings).length = 2 ^ bitsAt slotsBits (seenOf readings).length
  · -- every slot holds another name
    have hblocked : ∀ i < keys.length, Blocked keys d.name i := by
      intro i hi
      have hslot := List.getElem?_eq_getElem hi
      cases hk : keys[i] with
      | none =>
          rw [hk] at hslot
          exact absurd hfull ((exists_free_iff hslots hstored).mp ⟨i, hslot⟩)
      | some k =>
          rw [hk] at hslot
          refine ⟨k, hslot, ?_⟩
          rintro rfl
          exact habsent i hslot
    refine ⟨_, ((search_never hhome hblocked).bind_error
      (g := fun fuel i => Slots.recordAt fuel table d i)).congr hadd, ?_⟩
    rw [if_pos hfull]
    rfl
  · rw [if_neg hfull]
    obtain ⟨free, hfree⟩ := (exists_free_iff hslots hstored).mpr hfull
    obtain ⟨i, hreach, hopen⟩ : ∃ i, Reaches keys d.name (hashSlot hashOf _ d.name) i ∧
        ¬ Blocked keys d.name i := exists_reaches hhome
      ⟨free, (List.getElem?_eq_some_iff.mp hfree).1, fun blocked => blocked.not_free hfree⟩
    have hifree : keys[i]? = some none := by
      have hlt := hreach.lt_length
      have hslot := List.getElem?_eq_getElem hlt
      cases hk : keys[i] with
      | none => rw [hslot, hk]
      | some k =>
          rw [hk] at hslot
          refine absurd ⟨k, hslot, ?_⟩ hopen
          rintro rfl
          exact habsent i hslot
    have hrecord (fuel : ℕ) : Slots.recordAt fuel table d i =
        init table.entryMeta (32 * i) d >>= fun entryMeta =>
          Hashtable.onNewEntry fuel { table with entryMeta := entryMeta } := by
      rw [Slots.recordAt, hslots.free i hifree, if_pos (by simp)]
    have hsearch := search_settles hhome hreach hopen
    by_cases htail : cityNamesSize < tailBytes (seenOf readings) + (d.name.length - strFieldLen)
    · rw [if_pos htail]
      refine ⟨.error .outOfRegion, ((hsearch.bind (g := fun fuel i => Slots.recordAt fuel table d i)
        ((Settles.const (.error .outOfRegion)).congr fun fuel => ?_)).congr hadd), rfl⟩
      rw [hrecord, init_outside (by omega) (by omega)]
      rfl
    · rw [if_neg htail]
      obtain ⟨m, hm, frame, hmend, hmholds⟩ := init_eq (m := table.entryMeta)
        (32 * i) hd.len_pos hd.len_le (by omega)
      have hseen : seenOf (readings ++ [d.reading]) = seenOf readings ++ [d.name] :=
        seenOf_append_new hnew _
      have htotal : tailBytes (seenOf readings ++ [d.name]) =
          tailBytes (seenOf readings) + roundUp (d.len - strFieldLen) := by
        rw [tailBytes_append, tailBytes_singleton, tailSize, hdlen]
      have hslots' : Slots hashOf m (bitsAt slotsBits (seenOf readings).length)
          (keys.set i (some d.name)) (infoOf (readings ++ [d.reading])) := by
        refine hslots.set hreach hifree frame ?_ fun j k hk => ?_
        · rw [DataPoint.reading, infoOf_new hnew, ← hend, ← hd.hash_eq]
          exact hmholds
        · exact infoOf_old hnew ((hstored k).mp ⟨j, hk⟩) _
      have hstored' : ∀ name, (∃ j : ℕ, (keys.set i (some d.name))[j]? = some (some name)) ↔
          name ∈ seenOf (readings ++ [d.reading]) := by
        intro name
        rw [hseen, List.mem_append, List.mem_singleton, ← hstored name]
        constructor
        · rintro ⟨j, hj⟩
          by_cases hij : i = j
          · subst hij
            rw [List.getElem?_set_self hreach.lt_length] at hj
            exact Or.inr (by simpa using hj.symm)
          · rw [List.getElem?_set_ne hij] at hj
            exact Or.inl ⟨j, hj⟩
        · rintro (⟨j, hj⟩ | rfl)
          · have hij : i ≠ j := by
              rintro rfl
              rw [hifree] at hj
              simp at hj
            exact ⟨j, by rw [List.getElem?_set_ne hij, hj]⟩
          · exact ⟨i, List.getElem?_set_self hreach.lt_length⟩
      obtain ⟨r, hr, hrefines⟩ := onNewEntry_settles { table with entryMeta := m }
        hbits (by rw [hfilled]; exact hslots') hstored'
        (by rw [hseen, List.length_append, hfilled]; rfl)
        (by rw [hseen, htotal, ← hend]; exact hmend)
        (by rw [hseen, htotal]; exact add_roundUp_le (eight_dvd_tailBytes _) (by omega))
          (frame.names_size.trans hsize)
      refine ⟨r, (hsearch.bind (g := fun fuel i => Slots.recordAt fuel table d i)
        (hr.congr fun fuel => ?_)).congr hadd, ?_⟩
      · rw [hrecord, hm]
        rfl
      · rw [hseen] at hrefines
        rw [← hfilled]
        exact hrefines

end Records

end Explore.OneBrc
