import Explore.OneBrc.HashtableSlots

/-!
# Growing the off-heap table

`reHash` copies the entries of a table, slot by slot, to a larger one. Each goes to
the first free slot from the one its short hash leads to, which is where the probe
of its name ends, so the new table has the same names with the same entries.
-/

namespace Explore.OneBrc

open LittleEndian LinearProbe Memory Unsafely EntryData EntryMeta

/-- The search of a loop with a bound on its rounds. -/
def search (keys : List (Option (List Byte))) (name : List Byte) (home fuel : ℕ) :
    Except Fault ℕ :=
  match findSlot keys name home fuel with
  | none => .error .outOfFuel
  | some i => .ok i

section Search

variable {keys : List (Option (List Byte))} {name : List Byte} {home i : ℕ}

theorem search_settles (hhome : home < keys.length) (hreach : Reaches keys name home i)
    (hopen : ¬ Blocked keys name i) : Settles .outOfFuel (search keys name home) (.ok i) := by
  refine ⟨fun fuel => ?_, keys.length, fun fuel hfuel => ?_⟩
  · obtain hnone | hsome := findSlot_eq_none_or hhome hreach hopen fuel
    · exact Or.inl (by rw [search, hnone])
    · exact Or.inr (by rw [search, hsome])
  · rw [search, findSlot_of_length_le hhome hreach hopen hfuel]

theorem search_never (hhome : home < keys.length)
    (full : ∀ i < keys.length, Blocked keys name i) :
    Settles .outOfFuel (search keys name home) (.error .outOfFuel) :=
  Settles.never fun fuel => by rw [search, findSlot_of_full hhome full fuel]

end Search

section Copy

variable {hashOf : List Byte → JInt} {old : EntryMeta} {b : ℕ}
  {keys : List (Option (List Byte))} {info : List Byte → ℕ × List Int}

/-- The entries of the first `n` slots have been copied. -/
structure Copied (hashOf : List Byte → JInt) (old : EntryMeta) (keys : List (Option (List Byte)))
    (info : List Byte → ℕ × List Int) (n : ℕ) (m : EntryMeta)
    (keys' : List (Option (List Byte))) : Prop where
  slots : Slots hashOf m 16 keys' info
  names : m.cityNames = old.cityNames
  names_end : m.cityNamesEnd = old.cityNamesEnd
  stored_iff : ∀ name, (∃ j : ℕ, keys'[j]? = some (some name)) ↔
    ∃ i < n, keys[i]? = some (some name)

theorem copied_zero (hashOf : List Byte → JInt) (old : EntryMeta)
    (keys : List (Option (List Byte))) (info : List Byte → ℕ × List Int) :
    Copied hashOf old keys info 0 (grow 16 old) (List.replicate (2 ^ 16) none) := by
  refine ⟨slots_zeroed hashOf rfl (Nat.le_refl 16) rfl (blockSize_eq 16) info, rfl, rfl, ?_⟩
  intro name
  constructor
  · rintro ⟨j, hj⟩
    rw [List.getElem?_replicate] at hj
    split at hj <;> simp at hj
  · rintro ⟨i, hi, -⟩
    omega

/-- The table after the entry of another one is copied to an address. -/
def withEntry (m old : EntryMeta) (a a' : ℕ) : EntryMeta :=
  { m with entries := { m.entries with
    bytes := m.entries.bytes.writeBytes a' (old.entries.bytes.readBytes a (1 <<< 5)) } }

theorem frame_withEntry (m old : EntryMeta) (a a' : ℕ) : m.Frame (withEntry m old a a') a' :=
  ⟨rfl, rfl, rfl, fun _ ha => writeBytes_outside (by rw [length_readBytes]; exact ha),
    fun _ _ => rfl, Nat.le_refl _⟩

/-- Copying an entry to another block keeps its name and its statistics. -/
theorem holds_withEntry {m : EntryMeta} {name : List Byte} {a a' : ℕ} {hash32 : JInt}
    {offset : ℕ} {temps : List Int} (h : old.Holds a hash32 name offset temps)
    (names : m.cityNames = old.cityNames) (names_end : m.cityNamesEnd = old.cityNamesEnd) :
    (withEntry m old a a').Holds a' hash32 name offset temps := by
  refine h.transfer (fun i hi => ?_) (fun _ _ => congrArg (Block.bytes · _) names)
    (Nat.le_of_eq names_end.symm)
  have hlen : i < (old.entries.bytes.readBytes a (1 <<< 5)).length := by
    rw [length_readBytes]
    exact hi
  have hget : (old.entries.bytes.readBytes a (1 <<< 5))[i]? = some (old.entries.bytes (a + i)) :=
    getElem?_readBytes hi
  rw [List.getElem?_eq_getElem hlen] at hget
  exact (writeBytes_inside hlen).trans (Option.some.inj hget)

/-- One slot is copied. -/
theorem Copied.step (h : Slots hashOf old b keys info) (hb : b < 16) {n : ℕ} (hn : n < 2 ^ b)
    {m : EntryMeta} {keys' : List (Option (List Byte))}
    (c : Copied hashOf old keys info n m keys') :
    ∃ m' keys'', Settles .outOfFuel (fun fuel => Hashtable.copyEntry fuel old m n) (.ok m') ∧
      Copied hashOf old keys info (n + 1) m' keys'' := by
  have hpow : 2 ^ b < 2 ^ 16 := Nat.pow_lt_pow_right (by decide) hb
  have hentry : baseAddress (BitVec.ofNat 32 n) = 32 * n := by
    rw [baseAddress_eq, BitVec.toNat_ofNat, Nat.mod_eq_of_lt (by omega)]
  have hlt : n < keys.length := h.keys_length ▸ hn
  have hslot := List.getElem?_eq_getElem hlt
  cases hk : keys[n] with
  | none =>
      rw [hk] at hslot
      refine ⟨m, keys', ?_, c.slots, c.names, c.names_end, fun name => ?_⟩
      · have hcopy (fuel : ℕ) : Hashtable.copyEntry fuel old m n = .ok m := by
          rw [Hashtable.copyEntry, hentry]
          simp only [h.free n hslot, Bool.false_eq_true, if_false]
        exact (Settles.const (.ok m)).congr hcopy
      · rw [c.stored_iff name]
        constructor
        · rintro ⟨i, hi, hname⟩
          exact ⟨i, by omega, hname⟩
        · rintro ⟨i, hi, hname⟩
          have hne : i ≠ n := by
            rintro rfl
            rw [hslot] at hname
            simp at hname
          exact ⟨i, by omega, hname⟩
  | some name =>
      rw [hk] at hslot
      have hold := h.holds n name hslot
      have absent : ∀ j : ℕ, keys'[j]? ≠ some (some name) := by
        intro j hj
        obtain ⟨i, hi, hname⟩ := (c.stored_iff name).mp ⟨j, hj⟩
        have := h.wellFormed.stored_unique hname hslot
        omega
      -- fewer than `2 ^ 16` names are there so far
      obtain ⟨free, hfree⟩ : ∃ j : ℕ, keys'[j]? = some none := by
        refine c.slots.wellFormed.exists_free ((List.range n).filterMap fun i => keys[i]?.join)
          (fun j k hj => ?_) ?_
        · obtain ⟨i, hi, hname⟩ := (c.stored_iff k).mp ⟨j, hj⟩
          exact List.mem_filterMap.mpr ⟨i, List.mem_range.mpr hi, by rw [hname]; rfl⟩
        · have := List.length_filterMap_le (fun i => keys[i]?.join) (List.range n)
          rw [List.length_range] at this
          rw [c.slots.keys_length]
          omega
      have hhome : hashSlot hashOf 16 name < keys'.length := by
        rw [c.slots.keys_length]
        exact hashSlot_lt hashOf 16 name
      obtain ⟨j, hreach, hopen⟩ : ∃ j, Reaches keys' name (hashSlot hashOf 16 name) j ∧
          ¬ Blocked keys' name j := exists_reaches hhome
        ⟨free, (List.getElem?_eq_some_iff.mp hfree).1, fun blocked => blocked.not_free hfree⟩
      have hj := hreach.lt_length
      have hjfree : keys'[j]? = some none := by
        have hslot' := List.getElem?_eq_getElem hj
        cases hk' : keys'[j] with
        | none => rw [hslot', hk']
        | some k =>
            have hne : k ≠ name := by
              rintro rfl
              exact absent j (by rw [hslot', hk'])
            exact absurd ⟨k, by rw [hslot', hk'], hne⟩ hopen
      have hjpow : j < 2 ^ 16 := c.slots.keys_length ▸ hj
      have haddr : baseAddress (BitVec.ofNat 32 j) = 32 * j := by
        rw [baseAddress_eq, BitVec.toNat_ofNat, Nat.mod_eq_of_lt (by omega)]
      refine ⟨withEntry m old (32 * n) (32 * j), keys'.set j (some name), ?_, ?_⟩
      · have hindex := c.slots.toNat_indexFromHash16 name
        have hcopy (fuel : ℕ) : Hashtable.copyEntry fuel old m n =
            (search keys' name (hashSlot hashOf 16 name) fuel >>= fun i =>
              .ok (withEntry m old (32 * n) (baseAddress (BitVec.ofNat 32 i)))) := by
          rw [Hashtable.copyEntry, hentry]
          simp only [(h.isPresent_iff hn).mpr ⟨name, hslot⟩, if_true]
          rw [Hashtable.getNewEntry, hold.hash_eq,
            c.slots.newEntryFrom_eq absent fuel (by rw [hindex]; exact hashSlot_lt ..), hindex,
            search]
          cases findSlot keys' name (hashSlot hashOf 16 name) fuel <;> rfl
        refine Settles.congr (Settles.bind (search_settles hhome hreach hopen) ?_) hcopy
        rw [haddr]
        exact Settles.const _
      · refine ⟨c.slots.set hreach hjfree (frame_withEntry m old (32 * n) (32 * j))
          (holds_withEntry hold c.names c.names_end) fun _ _ _ => rfl, c.names, c.names_end,
          fun other => ?_⟩
        · constructor
          · rintro ⟨s, hs⟩
            by_cases hjs : j = s
            · subst hjs
              rw [List.getElem?_set_self hj] at hs
              obtain rfl : name = other := by simpa using hs
              exact ⟨n, by omega, hslot⟩
            · rw [List.getElem?_set_ne hjs] at hs
              obtain ⟨i, hi, hname⟩ := (c.stored_iff other).mp ⟨s, hs⟩
              exact ⟨i, by omega, hname⟩
          · rintro ⟨i, hi, hname⟩
            by_cases hin : i = n
            · subst hin
              obtain rfl : name = other := by
                rw [hslot] at hname
                simpa using hname
              exact ⟨j, List.getElem?_set_self hj⟩
            · obtain ⟨s, hs⟩ := (c.stored_iff other).mpr ⟨i, by omega, hname⟩
              have hne : j ≠ s := by
                rintro rfl
                rw [hjfree] at hs
                simp at hs
              exact ⟨s, by rw [List.getElem?_set_ne hne, hs]⟩

/-- The loop of `reHash` over the first slots. -/
theorem copied_loop (h : Slots hashOf old b keys info) (hb : b < 16) {n : ℕ} (hn : n ≤ 2 ^ b) :
    ∃ m keys', Settles .outOfFuel
      (fun fuel => (List.range n).foldlM (Hashtable.copyEntry fuel old) (grow 16 old)) (.ok m) ∧
      Copied hashOf old keys info n m keys' := by
  induction n with
  | zero => exact ⟨_, _, Settles.const _, copied_zero hashOf old keys info⟩
  | succ n ih =>
      obtain ⟨m, keys', hm, c⟩ := ih (by omega)
      obtain ⟨m', keys'', hstep, c'⟩ := Copied.step h hb (by omega) c
      refine ⟨m', keys'', Settles.congr
        (hm.bind (g := fun fuel m => Hashtable.copyEntry fuel old m n) hstep) fun fuel => ?_, c'⟩
      rw [List.range_succ, List.foldlM_append]
      simp

end Copy

/-- The larger table has the same names with the same entries. -/
theorem reHash_settles {hashOf : List Byte → JInt} (table : Hashtable) {b : ℕ}
    {keys : List (Option (List Byte))} {info : List Byte → ℕ × List Int}
    (h : Slots hashOf table.entryMeta b keys info) (hb : b < 16) :
    ∃ m keys', Settles .outOfFuel (fun fuel => table.reHash fuel 16)
        (.ok { table with entryMeta := m }) ∧
      Slots hashOf m 16 keys' info ∧ m.cityNames = table.entryMeta.cityNames ∧
      m.cityNamesEnd = table.entryMeta.cityNamesEnd ∧
      ∀ name, (∃ j : ℕ, keys'[j]? = some (some name)) ↔ ∃ i : ℕ, keys[i]? = some (some name) := by
  obtain ⟨m, keys', hloop, c⟩ := copied_loop h hb (Nat.le_refl _)
  have hentries : table.entryMeta.nEntries = 2 ^ b := by
    rw [nEntries, h.bits, Nat.shiftLeft_eq, Nat.one_mul]
  refine ⟨m, keys', Settles.congr (hloop.bind (g := fun _ m => .ok { table with entryMeta := m })
    (Settles.const _)) fun fuel => ?_, c.slots, c.names, c.names_end, fun name => ?_⟩
  · rw [Hashtable.reHash]
    simp only [Nat.le_refl, not_true_eq_false, if_false, h.bits, gt_iff_lt, hb, hentries]
  · rw [c.stored_iff name]
    constructor
    · rintro ⟨i, -, hname⟩
      exact ⟨i, hname⟩
    · rintro ⟨i, hname⟩
      exact ⟨i, h.lt_of_key hname, hname⟩

/-- A table that is as large already fails the check. -/
theorem reHash_checkArg {table : Hashtable} (fuel : ℕ) (h : 16 ≤ table.entryMeta.nEntriesBits) :
    table.reHash fuel 16 = .error .checkArg := by
  rw [Hashtable.reHash]
  simp only [Nat.le_refl, not_true_eq_false, if_false, gt_iff_lt, Nat.not_lt.mpr h,
    not_false_eq_true, if_true]

end Explore.OneBrc
