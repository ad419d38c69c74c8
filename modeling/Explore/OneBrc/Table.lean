import Explore.Lib.LinearProbe
import Explore.OneBrc.Parsing

/-!
# The table of a shard as a group-by

`TableOf b st readings` relates a table of `2 ^ b` slots to the readings it has
seen: each name is stored once, where its probe ends, and next to it the
statistics of its temperatures. Recording a line keeps the relation as long as
fewer names than slots are in use, which also makes every probe end.
-/

namespace Explore.OneBrc

open LittleEndian LinearProbe ShardProcessorState

/-- The temperatures of one key in a list of readings. -/
def tempsOf {κ : Type*} [DecidableEq κ] (key : κ) (readings : List (κ × Int)) : List Int :=
  (readings.filter fun r => r.1 = key).map Prod.snd

section TempsOf

variable {κ : Type*} [DecidableEq κ] {key other : κ} {readings left right : List (κ × Int)}

@[simp] theorem tempsOf_nil : tempsOf key [] = [] := rfl

@[simp] theorem tempsOf_cons_self (temp : Int) :
    tempsOf key ((key, temp) :: readings) = temp :: tempsOf key readings := by
  simp [tempsOf]

theorem tempsOf_cons_ne (temp : Int) (h : other ≠ key) :
    tempsOf key ((other, temp) :: readings) = tempsOf key readings := by
  simp [tempsOf, h]

theorem tempsOf_append : tempsOf key (left ++ right) = tempsOf key left ++ tempsOf key right := by
  simp [tempsOf]

theorem tempsOf_perm (p : left.Perm right) : (tempsOf key left).Perm (tempsOf key right) :=
  (p.filter _).map _

/-- Only keys that occur have temperatures. -/
theorem tempsOf_eq_nil_iff : tempsOf key readings = [] ↔ key ∉ readings.map Prod.fst := by
  simp only [tempsOf, List.map_eq_nil_iff, List.filter_eq_nil_iff, List.mem_map, decide_eq_true_eq,
    not_exists, not_and]

theorem mem_of_mem_tempsOf {temp : Int} (h : temp ∈ tempsOf key readings) :
    temp ∈ readings.map Prod.snd := by
  simp only [tempsOf, List.mem_map, List.mem_filter] at h ⊢
  obtain ⟨r, ⟨hr, -⟩, rfl⟩ := h
  exact ⟨r, hr, rfl⟩

end TempsOf

/-- The slot a name hashes to in a table of `2 ^ b` slots. -/
def homeSlot (b : ℕ) (name : List Byte) : ℕ := (polyHash (word 32) 0 name).toNat % 2 ^ b

/-- A table of `2 ^ b` slots that has recorded exactly the given readings. -/
structure TableOf (b : ℕ) (st : ShardProcessorState) (readings : List (List Byte × Int)) :
    Prop where
  bits_le : b ≤ 30
  names_length : st.cityNames.length = 2 ^ b
  stats_length : st.stats.length = 2 ^ b
  mask : st.slotsMask = BitVec.ofNat 32 (2 ^ b - 1)
  wellFormed : WellFormed (homeSlot b) st.cityNames
  stored : ∀ name ∈ readings.map Prod.fst, ∃ i : ℕ, st.cityNames[i]? = some (some name)
  free : ∀ i : ℕ, st.cityNames[i]? = some none → st.stats[i]? = some none
  stat : ∀ (i : ℕ) name, st.cityNames[i]? = some (some name) →
    ∃ s, st.stats[i]? = some (some s) ∧ s.Summarizes (tempsOf name readings)

namespace TableOf

variable {b : ℕ} {st : ShardProcessorState} {readings : List (List Byte × Int)}

/-- A stored name is one of those recorded. -/
theorem mem_of_stored (h : TableOf b st readings) {i : ℕ} {name : List Byte}
    (hi : st.cityNames[i]? = some (some name)) : name ∈ readings.map Prod.fst := by
  obtain ⟨s, -, hs⟩ := h.stat i name hi
  by_contra absent
  exact hs.ne_nil (tempsOf_eq_nil_iff.mpr absent)

/-- The mask reduces a hash modulo the number of slots. -/
theorem and_mask (h : TableOf b st readings) (x : JInt) :
    (x &&& st.slotsMask).toNat = x.toNat % 2 ^ b := by
  have hb : 2 ^ b ≤ 2 ^ 30 := Nat.pow_le_pow_right (by decide) h.bits_le
  have hpos : 0 < 2 ^ b := Nat.two_pow_pos b
  rw [h.mask, BitVec.toNat_and, BitVec.toNat_ofNat, Nat.mod_eq_of_lt (by omega),
    Nat.and_two_pow_sub_one_eq_mod]

theorem next_and_mask (h : TableOf b st readings) {i : JInt} (hi : i.toNat < 2 ^ b) :
    ((i + 1) &&& st.slotsMask).toNat = (i.toNat + 1) % 2 ^ b := by
  have hb : 2 ^ b ≤ 2 ^ 30 := Nat.pow_le_pow_right (by decide) h.bits_le
  have hone : (1 : JInt).toNat = 1 := rfl
  have hwrap : (i.toNat + 1) % 2 ^ 32 = i.toNat + 1 := Nat.mod_eq_of_lt (by omega)
  rw [h.and_mask, BitVec.toNat_add, hone, hwrap]

end TableOf

section Buffer

variable {mmb : Buffer} {name rest : List Byte} {offset : ℕ}

private theorem getElem?_name (h : mmb.drop offset = name ++ rest) {k : ℕ} (hk : k < name.length) :
    mmb[offset + k]? = name[k]? := by
  rw [← List.getElem?_drop, h, List.getElem?_append_left hk]

/-- `copyFrom` copies the name out of the buffer. -/
theorem copyFrom_eq (h : mmb.drop offset = name ++ rest) :
    copyFrom mmb offset name.length = some name := by
  have copied : ∀ n ≤ name.length,
      (List.range n).mapM (fun i => mmb[offset + i]?) = some (name.take n) := by
    intro n
    induction n with
    | zero =>
        intro _
        rfl
    | succ n ih =>
        intro hn
        rw [List.range_succ, List.mapM_append, ih (by omega), List.mapM_cons,
          getElem?_name h (by omega), List.getElem?_eq_getElem (by omega)]
        simp
  rw [copyFrom, copied _ (Nat.le_refl _), List.take_length]

/-- `equals` compares a stored name of the same length with the buffer. -/
theorem equals_eq (h : mmb.drop offset = name ++ rest) {left : List Byte}
    (len : name.length = left.length) :
    equals left mmb offset name.length = some (decide (left = name)) := by
  have compared : ∀ n i, i + n = name.length →
      equalsFrom left mmb offset i n = some (decide (left.drop i = name.drop i)) := by
    intro n
    induction n with
    | zero =>
        intro i hi
        rw [equalsFrom, List.drop_eq_nil_of_le (by omega), List.drop_eq_nil_of_le (by omega)]
        rfl
    | succ n ih =>
        intro i hi
        have hl : i < left.length := by omega
        have hr : i < name.length := by omega
        rw [equalsFrom, getElem?_name h hr, List.getElem?_eq_getElem hl,
          List.getElem?_eq_getElem hr, List.drop_eq_getElem_cons hl, List.drop_eq_getElem_cons hr]
        simp only [Option.bind_eq_bind, Option.bind_some, ne_eq, List.cons.injEq]
        by_cases same : left[i] = name[i]
        · simp [same, ih (i + 1) (by omega)]
        · simp [same]
  rw [equals, compared _ 0 (by omega)]
  rfl

theorem holdsName_eq (h : mmb.drop offset = name ++ rest) (left : List Byte) :
    holdsName left mmb offset name.length = some (decide (left = name)) := by
  by_cases len : name.length = left.length
  · rw [holdsName, if_pos len, equals_eq h len]
  · have hne : left ≠ name := fun same => len (by rw [same])
    rw [holdsName, if_neg len]
    simp [hne]

end Buffer

/-- What `linearProbe` does at the slot where it stops. -/
def ShardProcessorState.recordAt (st : ShardProcessorState) (name : List Byte) (temp : Int)
    (slot : ℕ) : Option ShardProcessorState := do
  match ← st.cityNames[slot]? with
  | none =>
      some { st with
        cityNames := st.cityNames.set slot (some name)
        stats := st.stats.set slot (some (Stat.firstReading temp)) }
  | some _ =>
      let stat ← (← st.stats[slot]?)
      some { st with stats := st.stats.set slot (some (stat.mergeReading temp)) }

section Probe

variable {b : ℕ} {st : ShardProcessorState} {readings : List (List Byte × Int)}
  {mmb : Buffer} {name rest : List Byte} {offset : ℕ}

/-- The probe loop is the search for the slot, followed by the update. -/
theorem linearProbeFrom_eq (h : TableOf b st readings) (hdrop : mmb.drop offset = name ++ rest)
    (temp : Int) {i : JInt} (hi : i.toNat < 2 ^ b) (rounds : ℕ) :
    st.linearProbeFrom name.length temp mmb offset i rounds =
      (findSlot st.cityNames name i.toNat rounds).bind (st.recordAt name temp) := by
  induction rounds generalizing i with
  | zero => rfl
  | succ rounds ih =>
      have hlt : i.toNat < st.cityNames.length := by rw [h.names_length]; exact hi
      have hslot := List.getElem?_eq_getElem hlt
      cases hcur : st.cityNames[i.toNat] with
      | none =>
          rw [hcur] at hslot
          rw [linearProbeFrom, findSlot, hslot]
          simp [recordAt, hslot, copyFrom_eq hdrop]
      | some bytes =>
          rw [hcur] at hslot
          by_cases same : bytes = name
          · rw [linearProbeFrom, findSlot, hslot]
            simp [recordAt, hslot, holdsName_eq hdrop, same]
          · have hnext := h.next_and_mask hi
            have hlt' : ((i + 1) &&& st.slotsMask).toNat < 2 ^ b := by
              rw [hnext]
              exact Nat.mod_lt _ (Nat.two_pow_pos b)
            rw [linearProbeFrom, findSlot, hslot]
            simp only [Option.bind_eq_bind, Option.bind_some, holdsName_eq hdrop, same,
              decide_false, Bool.false_eq_true, if_false]
            rw [ih hlt', hnext, h.names_length]

end Probe

theorem slotCount_toNat {slotsBits : JInt} (h : slotsBits.toNat % 32 ≤ 30) :
    (slotCount slotsBits).toNat = 2 ^ (slotsBits.toNat % 32) := by
  have hone : (1 : JInt).toNat = 1 := rfl
  have hpow : 2 ^ (slotsBits.toNat % 32) ≤ 2 ^ 30 := Nat.pow_le_pow_right (by decide) h
  rw [slotCount, BitVec.toNat_shiftLeft, hone, Nat.shiftLeft_eq, Nat.one_mul,
    Nat.mod_eq_of_lt (by omega)]

namespace TableOf

variable {b : ℕ} {st : ShardProcessorState} {readings : List (List Byte × Int)}
  {name : List Byte} {slot : ℕ}

theorem homeSlot_lt (b : ℕ) (name : List Byte) : homeSlot b name < 2 ^ b :=
  Nat.mod_lt _ (Nat.two_pow_pos b)

/-- A new table has recorded nothing. -/
theorem new {slotsBits : JInt} (hb : b ≤ 30) (hbits : slotsBits.toNat % 32 = b) :
    ∃ st, ShardProcessorState.new slotsBits = some st ∧ TableOf b st [] := by
  have hpow : 2 ^ b ≤ 2 ^ 30 := Nat.pow_le_pow_right (by decide) hb
  have hpos : 0 < 2 ^ b := Nat.two_pow_pos b
  have hone : (1 : JInt).toNat = 1 := rfl
  have hcount : (slotCount slotsBits).toNat = 2 ^ b := by
    rw [slotCount_toNat (by omega), hbits]
  have hsign : ¬ (slotCount slotsBits).toInt < 0 := by
    rw [BitVec.toInt_eq_toNat_cond, hcount, if_pos (by omega)]
    omega
  have hmask : slotCount slotsBits - 1 = BitVec.ofNat 32 (2 ^ b - 1) := by
    apply BitVec.eq_of_toNat_eq
    rw [BitVec.toNat_sub, hcount, hone, BitVec.toNat_ofNat]
    omega
  refine ⟨_, by rw [ShardProcessorState.new, if_neg hsign], ?_⟩
  have empty {α : Type} {i : ℕ} {x : α} :
      (List.replicate (2 ^ b) (none : Option α))[i]? ≠ some (some x) := by
    rw [List.getElem?_replicate]
    split <;> simp
  rw [hcount, hmask]
  refine ⟨hb, by simp, by simp, rfl, wellFormed_replicate _ _, by simp, ?_, ?_⟩
  · intro i hi
    simpa [List.getElem?_replicate] using hi
  · intro i name hi
    exact absurd hi empty

/-- A first reading at the free slot where the probe of its name ends. -/
theorem recordAt_free (h : TableOf b st readings) (temp : Int)
    (hslot : Reaches st.cityNames name (homeSlot b name) slot)
    (free : st.cityNames[slot]? = some none) :
    ∃ st', st.recordAt name temp slot = some st' ∧ TableOf b st' ((name, temp) :: readings) := by
  have hlt : slot < st.cityNames.length := hslot.lt_length
  have hlt' : slot < st.stats.length := by rw [h.stats_length, ← h.names_length]; exact hlt
  have absent : name ∉ readings.map Prod.fst := by
    intro mem
    obtain ⟨j, hj⟩ := h.stored name mem
    exact h.wellFormed.not_stored hslot free hj
  refine ⟨_, by rw [recordAt, free]; rfl, ?_⟩
  refine ⟨h.bits_le, by simpa using h.names_length, by simpa using h.stats_length, h.mask,
    h.wellFormed.set hslot free, ?_, ?_, ?_⟩
  · intro other mem
    rw [List.map_cons, List.mem_cons] at mem
    obtain rfl | mem := mem
    · exact ⟨slot, List.getElem?_set_self hlt⟩
    · obtain ⟨j, hj⟩ := h.stored other mem
      have hne : slot ≠ j := by
        rintro rfl
        rw [free] at hj
        simp at hj
      exact ⟨j, by rw [List.getElem?_set_ne hne, hj]⟩
  · intro i hi
    have hne : slot ≠ i := by
      rintro rfl
      rw [List.getElem?_set_self hlt] at hi
      simp at hi
    rw [List.getElem?_set_ne hne] at hi ⊢
    exact h.free i hi
  · intro i other hi
    by_cases same : slot = i
    · subst same
      rw [List.getElem?_set_self hlt] at hi
      obtain rfl : name = other := by simpa using hi
      refine ⟨_, List.getElem?_set_self hlt', ?_⟩
      rw [tempsOf_cons_self, tempsOf_eq_nil_iff.mpr absent]
      exact Stat.Summarizes.firstReading temp
    · rw [List.getElem?_set_ne same] at hi
      obtain ⟨s, hs, summary⟩ := h.stat i other hi
      have hne : name ≠ other := by
        rintro rfl
        exact absent (h.mem_of_stored hi)
      refine ⟨s, by rw [List.getElem?_set_ne same, hs], ?_⟩
      rwa [tempsOf_cons_ne temp hne]

/-- A further reading at the slot that holds its name. -/
theorem recordAt_stored (h : TableOf b st readings) (temp : Int)
    (hslot : st.cityNames[slot]? = some (some name)) :
    ∃ st', st.recordAt name temp slot = some st' ∧ TableOf b st' ((name, temp) :: readings) := by
  obtain ⟨s, hs, summary⟩ := h.stat slot name hslot
  have hlt : slot < st.stats.length := (List.getElem?_eq_some_iff.mp hs).1
  refine ⟨_, by rw [recordAt, hslot]; simp [hs]; rfl, ?_⟩
  refine ⟨h.bits_le, h.names_length, by simpa using h.stats_length, h.mask, h.wellFormed,
    ?_, ?_, ?_⟩
  · intro other mem
    rw [List.map_cons, List.mem_cons] at mem
    obtain rfl | mem := mem
    · exact ⟨slot, hslot⟩
    · exact h.stored other mem
  · intro i hi
    have hne : slot ≠ i := by
      rintro rfl
      rw [hslot] at hi
      simp at hi
    rw [List.getElem?_set_ne hne]
    exact h.free i hi
  · intro i other hi
    by_cases same : slot = i
    · subst same
      rw [hslot] at hi
      obtain rfl : name = other := by simpa using hi
      refine ⟨_, List.getElem?_set_self hlt, ?_⟩
      rw [tempsOf_cons_self]
      exact summary.mergeReading temp
    · obtain ⟨s', hs', summary'⟩ := h.stat i other hi
      have hne : name ≠ other := by
        rintro rfl
        exact same (h.wellFormed.stored_unique hslot hi)
      refine ⟨s', by rw [List.getElem?_set_ne same, hs'], ?_⟩
      rwa [tempsOf_cons_ne temp hne]

/-- While the names in use are fewer than the slots, `linearProbe` returns and
records the reading under its name. -/
theorem linearProbe (h : TableOf b st readings) (temp : Int) {mmb : Buffer} {rest : List Byte}
    {offset : ℕ} (hdrop : mmb.drop offset = name ++ rest) {names : List (List Byte)}
    (hnames : ∀ n ∈ readings.map Prod.fst, n ∈ names) (few : names.length < 2 ^ b) :
    ∃ st', st.linearProbe name.length (polyHash (word 32) 0 name &&& st.slotsMask) temp mmb offset =
      some st' ∧ TableOf b st' ((name, temp) :: readings) := by
  have hhome : (polyHash (word 32) 0 name &&& st.slotsMask).toNat = homeSlot b name :=
    h.and_mask _
  have hhome_lt : homeSlot b name < st.cityNames.length := by
    rw [h.names_length]
    exact homeSlot_lt b name
  obtain ⟨j, hj⟩ := h.wellFormed.exists_free names
    (fun i k hk => hnames k (h.mem_of_stored hk)) (by rw [h.names_length]; exact few)
  obtain ⟨i, hi, ends⟩ := exists_reaches hhome_lt
    ⟨j, (List.getElem?_eq_some_iff.mp hj).1, fun blocked => blocked.not_free hj⟩
  have hfind := findSlot_of_reaches hhome_lt hi ends
  have hprobe : st.linearProbe name.length (polyHash (word 32) 0 name &&& st.slotsMask) temp mmb
      offset = st.recordAt name temp i := by
    rw [ShardProcessorState.linearProbe,
      linearProbeFrom_eq h hdrop temp (by rw [hhome]; exact homeSlot_lt b name), hhome, hfind]
    rfl
  rw [hprobe]
  have hlt := hi.lt_length
  have hslot := List.getElem?_eq_getElem hlt
  cases hcur : st.cityNames[i] with
  | none => exact h.recordAt_free temp hi (by rw [hslot, hcur])
  | some k =>
      have hk : k = name := by
        by_contra hne
        exact ends ⟨k, by rw [hslot, hcur], hne⟩
      exact h.recordAt_stored temp (by rw [hslot, hcur, hk])

end TableOf

end Explore.OneBrc
