import Explore.OneBrc.HashtableLedger

/-!
# Runs of the off-heap table

A run of `addDataPoint` follows the ledger of names. For tables of `2 ^ 9` to
`2 ^ 15` slots it goes through as long as the tails of the names fit into their
region; smaller tables fill up before they grow, and a table of `2 ^ 16` slots
fails the check when it should grow.
-/

namespace Explore.OneBrc

open LittleEndian LinearProbe Memory Unsafely EntryData EntryMeta NameLedger

section Run

variable {hashOf : List Byte → JInt} {slotsBits readable : ℕ}

theorem records_new (hashOf : List Byte → JInt) (hbits : slotsBits ≤ 16) (readable : ℕ) :
    Records hashOf slotsBits readable (Hashtable.new slotsBits readable) [] := by
  refine ⟨⟨List.replicate (2 ^ slotsBits) none, ?_, fun name => ?_⟩, rfl, rfl, ?_, rfl⟩
  · exact slots_zeroed hashOf rfl hbits rfl (blockSize_eq slotsBits) _
  · constructor
    · rintro ⟨i, hi⟩
      rw [List.getElem?_replicate] at hi
      split at hi <;> simp at hi
    · intro h
      simp [seenOf] at h
  · exact Nat.zero_le _

/-- One call follows the ledger. -/
theorem Records.addDataPoint_refines {table : Hashtable} {readings : List (List Byte × Int)}
    {d : DataPoint} (h : Records hashOf slotsBits readable table readings)
    (hreadable : cityNamesSize ≤ readable) (hbits : slotsBits ≤ 16) (hd : d.Valid hashOf) :
    ∃ r, Settles .outOfFuel (fun fuel => table.addDataPoint fuel d) r ∧
      Refines hashOf slotsBits readable (readings ++ [d.reading]) r
        (add slotsBits readable (seenOf readings) d.name) := by
  by_cases hmem : d.name ∈ seenOf readings
  · exact h.addDataPoint_seen hreadable hd hmem
  · exact h.addDataPoint_new hreadable hbits hd hmem

/-- And so does every sequence of calls. -/
theorem Records.foldlM_refines {table : Hashtable} {readings : List (List Byte × Int)}
    (h : Records hashOf slotsBits readable table readings) (hreadable : cityNamesSize ≤ readable)
    (hbits : slotsBits ≤ 16) (calls : List DataPoint) (valid : ∀ d ∈ calls, d.Valid hashOf) :
    ∃ r, Settles .outOfFuel
        (fun fuel => calls.foldlM (fun table d => Hashtable.addDataPoint fuel table d) table) r ∧
      Refines hashOf slotsBits readable (readings ++ calls.map DataPoint.reading) r
        ((calls.map DataPoint.name).foldlM (add slotsBits readable) (seenOf readings)) := by
  induction calls generalizing table readings with
  | nil =>
      refine ⟨.ok table, Settles.const _, ?_⟩
      rw [List.map_nil, List.append_nil]
      exact ⟨rfl, table, rfl, h⟩
  | cons d calls ih =>
      obtain ⟨r, hr, hrefines⟩ := h.addDataPoint_refines hreadable hbits (valid d (by simp))
      rw [List.map_cons, List.map_cons, List.foldlM_cons]
      cases hadd : add slotsBits readable (seenOf readings) d.name with
      | error fault =>
          rw [hadd] at hrefines
          obtain rfl : r = .error fault := hrefines
          refine ⟨.error fault, (hr.bind_error (g := fun fuel table =>
            calls.foldlM (fun table d => Hashtable.addDataPoint fuel table d) table)).congr
              fun fuel => ?_, rfl⟩
          rw [List.foldlM_cons]
      | ok seen =>
          rw [hadd] at hrefines
          obtain ⟨rfl, table', rfl, h'⟩ := hrefines
          obtain ⟨r', hr', hrefines'⟩ := ih h' fun d hd => valid d (by simp [hd])
          refine ⟨r', (hr.bind (g := fun fuel table =>
            calls.foldlM (fun table d => Hashtable.addDataPoint fuel table d) table) hr').congr
              fun fuel => ?_, ?_⟩
          · rw [List.foldlM_cons]
          · rw [List.append_assoc] at hrefines'
            exact hrefines'

/-- A run of the table refines the run of the ledger. -/
theorem run_refines (hreadable : cityNamesSize ≤ readable) (hbits : slotsBits ≤ 16)
    (calls : List DataPoint) (valid : ∀ d ∈ calls, d.Valid hashOf) :
    ∃ r, Settles .outOfFuel (Hashtable.run slotsBits readable calls) r ∧
      Refines hashOf slotsBits readable (calls.map DataPoint.reading) r
        (NameLedger.run slotsBits readable (calls.map DataPoint.name)) := by
  obtain ⟨r, hr, hrefines⟩ :=
    (records_new hashOf hbits readable).foldlM_refines hreadable hbits calls valid
  refine ⟨r, hr.congr fun fuel => ?_, hrefines⟩
  rw [Hashtable.run, FastShardProcessorState.newHashtable]
  simp only [hbits, if_true]
  rfl

end Run

namespace NameLedger

variable {slotsBits readable : ℕ} {names : List (List Byte)}

theorem run_append (slotsBits readable : ℕ) (names : List (List Byte)) (name : List Byte) :
    run slotsBits readable (names ++ [name]) =
      run slotsBits readable names >>= fun seen => add slotsBits readable seen name := by
  rw [run, List.foldlM_append]
  simp [run]

theorem eraseDups_append_singleton (names : List (List Byte)) (name : List Byte) :
    (names ++ [name]).eraseDups =
      if name ∈ names then names.eraseDups else names.eraseDups ++ [name] := by
  rw [List.eraseDups_append]
  split
  · rename_i h
    simp [List.removeAll, h]
  · rename_i h
    simp [List.removeAll, h, List.eraseDups_cons]

/-- What the table can hold: tables of up to `2 ^ 8` slots never grow, a table of `2 ^ 16`
slots never has to, and between them only the tails are bounded. -/
def Holdable (slotsBits : ℕ) (seen : List (List Byte)) : Prop :=
  if slotsBits ≤ 8 then seen.length ≤ 2 ^ slotsBits
  else if slotsBits ≤ 15 then tailBytes seen ≤ cityNamesSize ∧ seen.length ≤ 2 ^ 16
  else seen.length < 450

theorem tailSize_le {name : List Byte} (h : name.length ≤ 100) : tailSize name ≤ 88 := by
  have hlen : name.length - strFieldLen ≤ 86 := by
    simp only [strFieldLen]
    omega
  rw [tailSize, roundUp_eq]
  omega

theorem tailBytes_le {seen : List (List Byte)} (h : ∀ name ∈ seen, name.length ≤ 100) :
    tailBytes seen ≤ 88 * seen.length := by
  induction seen with
  | nil => exact Nat.zero_le _
  | cons name seen ih =>
      have hrest := ih fun other hother => h other (List.mem_cons_of_mem _ hother)
      have hfirst := tailSize_le (h name (List.mem_cons_self ..))
      rw [tailBytes, List.map_cons, List.sum_cons, List.length_cons]
      rw [tailBytes] at hrest
      omega

/-- The fault of a table that cannot hold the names. -/
def faultOf (slotsBits : ℕ) : Fault :=
  if slotsBits ≤ 8 then .outOfFuel else if slotsBits ≤ 15 then .outOfRegion else .checkArg

theorem two_pow_le_256 (h : slotsBits ≤ 8) : 2 ^ slotsBits ≤ 256 :=
  Nat.pow_le_pow_right (n := 2) (by decide) h

theorem le_two_pow (h : 9 ≤ slotsBits) : 512 ≤ 2 ^ slotsBits :=
  Nat.pow_le_pow_right (n := 2) (by decide) h

section Add

variable {seen : List (List Byte)} {name : List Byte}

theorem Holdable.of_append (h : Holdable slotsBits (seen ++ [name])) : Holdable slotsBits seen := by
  rw [Holdable] at h ⊢
  rw [tailBytes_append, List.length_append, List.length_singleton] at h
  split
  · rename_i hb
    rw [if_pos hb] at h
    omega
  · rename_i hb
    rw [if_neg hb] at h
    split
    · rename_i hb'
      rw [if_pos hb'] at h
      omega
    · rename_i hb'
      rw [if_neg hb'] at h
      omega

/-- A new name is added if the table can hold it. -/
theorem add_new (readable : ℕ) (hpos : 1 ≤ slotsBits) (hbits : slotsBits ≤ 16) (hnew : name ∉ seen)
    (hlen : ∀ other ∈ seen ++ [name], other.length ≤ 100) (few : seen.length < 2 ^ 16)
    (h : Holdable slotsBits seen) :
    (Holdable slotsBits (seen ++ [name]) →
      add slotsBits readable seen name = .ok (seen ++ [name])) ∧
    (¬ Holdable slotsBits (seen ++ [name]) →
      add slotsBits readable seen name = .error (faultOf slotsBits)) := by
  have hsize : cityNamesSize = 131072 := rfl
  have hstr : strFieldLen = 14 := rfl
  have hseen := tailBytes_le fun other hother => hlen other (List.mem_append_left _ hother)
  have hname : name.length ≤ 100 := hlen name (by simp)
  have hround := roundUp_eq (name.length - strFieldLen)
  have h8 := eight_dvd_tailBytes seen
  rw [add, if_neg hnew]
  rw [Holdable] at h ⊢
  rw [tailBytes_append, tailBytes_singleton, List.length_append, List.length_singleton, tailSize,
    faultOf]
  by_cases h8bits : slotsBits ≤ 8
  · have hpow := two_pow_le_256 h8bits
    rw [if_pos h8bits] at h
    have hcount : bitsAt slotsBits seen.length = slotsBits := if_pos (by omega)
    rw [if_pos h8bits, if_pos h8bits, hcount]
    by_cases hfull : seen.length = 2 ^ slotsBits
    · rw [if_pos hfull]
      exact ⟨fun _ => by omega, fun _ => rfl⟩
    · rw [if_neg hfull, if_neg (by omega), if_neg (by omega)]
      exact ⟨fun _ => rfl, fun _ => by omega⟩
  · rw [if_neg h8bits] at h ⊢
    rw [if_neg h8bits]
    have hpow := le_two_pow (Nat.lt_of_not_le h8bits)
    have hopen : seen.length ≠ 2 ^ bitsAt slotsBits seen.length := by
      rw [bitsAt]
      split <;> omega
    rw [if_neg hopen]
    by_cases h15 : slotsBits ≤ 15
    · rw [if_pos h15] at h ⊢
      rw [if_pos h15]
      by_cases htail : cityNamesSize < tailBytes seen + (name.length - strFieldLen)
      · rw [if_pos htail]
        exact ⟨fun _ => by omega, fun _ => rfl⟩
      · rw [if_neg htail, if_neg (by omega)]
        exact ⟨fun _ => rfl, fun _ => by omega⟩
    · rw [if_neg h15] at h ⊢
      rw [if_neg h15, if_neg (by omega)]
      by_cases h450 : seen.length + 1 = 450
      · rw [if_pos ⟨h450, by omega⟩]
        exact ⟨fun _ => by omega, fun _ => rfl⟩
      · rw [if_neg (by omega)]
        exact ⟨fun _ => rfl, fun _ => by omega⟩

end Add

/-- A name of 22 bytes, whose tail of eight is followed by less than eight bytes that can
be read, comes a second time. -/
def OverRead (readable : ℕ) (names : List (List Byte)) : Prop :=
  ∃ name ∈ names, name.length = strFieldLen + 8 ∧ 2 ≤ names.count name ∧
    readable < offsetOf names.eraseDups name + 16

section OverRead

variable {name : List Byte}

theorem offsetOf_eraseDups_append {other : List Byte} (h : other ∈ names) (name : List Byte) :
    offsetOf (names ++ [name]).eraseDups other = offsetOf names.eraseDups other := by
  rw [eraseDups_append_singleton]
  split
  · rfl
  · exact offsetOf_append_of_mem (List.mem_eraseDups.mpr h) _

/-- Only a name that is not new can be read too far. -/
theorem overRead_append_iff : OverRead readable (names ++ [name]) ↔
    OverRead readable names ∨ name ∈ names ∧ name.length = strFieldLen + 8 ∧
      readable < offsetOf names.eraseDups name + 16 := by
  constructor
  · rintro ⟨other, hother, hlen, hcount, hreadable⟩
    rw [List.count_append] at hcount
    by_cases same : name = other
    · subst same
      have hmem : name ∈ names := by
        rw [List.count_singleton_self] at hcount
        exact List.count_pos_iff.mp (by omega)
      rw [offsetOf_eraseDups_append hmem] at hreadable
      exact Or.inr ⟨hmem, hlen, hreadable⟩
    · have hnone : [name].count other = 0 := List.count_eq_zero.mpr (by simpa using Ne.symm same)
      have hmem : other ∈ names := List.count_pos_iff.mp (by omega)
      rw [offsetOf_eraseDups_append hmem] at hreadable
      exact Or.inl ⟨other, hmem, hlen, by omega, hreadable⟩
  · rintro (⟨other, hmem, hlen, hcount, hreadable⟩ | ⟨hmem, hlen, hreadable⟩)
    · refine ⟨other, List.mem_append_left _ hmem, hlen, ?_, ?_⟩
      · rw [List.count_append]
        omega
      · rwa [offsetOf_eraseDups_append hmem]
    · refine ⟨name, List.mem_append_left _ hmem, hlen, ?_, ?_⟩
      · have := List.count_pos_iff.mpr hmem
        rw [List.count_append, List.count_singleton_self]
        omega
      · rwa [offsetOf_eraseDups_append hmem]

/-- The small region that other tables use is read inside `cityNamesSize`. -/
theorem not_overRead_of_holdable (hreadable : cityNamesSize ≤ readable)
    (hlen : ∀ name ∈ names, name.length ≤ 100) (h : Holdable slotsBits names.eraseDups)
    (hbits : slotsBits ≤ 8 ∨ 16 ≤ slotsBits) {name : List Byte} (hmem : name ∈ names) :
    offsetOf names.eraseDups name + 16 ≤ readable := by
  have hsize : cityNamesSize = 131072 := rfl
  have hoffset := offsetOf_add_le (List.mem_eraseDups.mpr hmem)
  have htotal := tailBytes_le fun other hother => hlen other (List.mem_eraseDups.mp hother)
  have hcount : names.eraseDups.length < 450 := by
    rw [Holdable] at h
    split at h
    · rename_i h8
      have := two_pow_le_256 h8
      omega
    · rw [if_neg (by omega)] at h
      exact h
  omega

end OverRead

/-- The outcome of a run of the ledger. -/
theorem run_eq (hpos : 1 ≤ slotsBits) (hbits : slotsBits ≤ 16)
    (hreadable : cityNamesSize ≤ readable)
    (hlen : ∀ name ∈ names, name.length ≤ 100) (few : names.eraseDups.length ≤ 10000) :
    (Holdable slotsBits names.eraseDups ∧ ¬ OverRead readable names →
      run slotsBits readable names = .ok names.eraseDups) ∧
    (¬ (Holdable slotsBits names.eraseDups ∧ ¬ OverRead readable names) →
      run slotsBits readable names = .error (faultOf slotsBits)) := by
  induction names using List.reverseRecOn with
  | nil =>
      refine ⟨fun _ => rfl, fun h => absurd ⟨?_, ?_⟩ h⟩
      · rw [Holdable]
        split
        · exact Nat.zero_le _
        · split <;> decide
      · rintro ⟨name, hname, -⟩
        simp at hname
  | append_singleton names name ih =>
      have hlen' : ∀ other ∈ names, other.length ≤ 100 :=
        fun other hother => hlen other (List.mem_append_left _ hother)
      have hdups := eraseDups_append_singleton names name
      have few' : names.eraseDups.length ≤ 10000 := by
        rw [hdups] at few
        split at few
        · exact few
        · rw [List.length_append] at few
          omega
      obtain ⟨ih_ok, ih_error⟩ := ih hlen' few'
      rw [run_append]
      by_cases before : Holdable slotsBits names.eraseDups ∧ ¬ OverRead readable names
      · rw [ih_ok before]
        change (_ → add slotsBits readable names.eraseDups name = _) ∧
          (_ → add slotsBits readable names.eraseDups name = _)
        obtain ⟨hold, hread⟩ := before
        by_cases hmem : name ∈ names
        · rw [hdups, if_pos hmem, overRead_append_iff, add, if_pos (List.mem_eraseDups.mpr hmem)]
          by_cases outside : name.length = strFieldLen + 8 ∧
              readable < offsetOf names.eraseDups name + 16
          · have hfault : faultOf slotsBits = .outOfRegion := by
              by_cases hb : slotsBits ≤ 8 ∨ 16 ≤ slotsBits
              · have := not_overRead_of_holdable hreadable hlen' hold hb hmem
                omega
              · rw [faultOf, if_neg (by omega), if_pos (by omega)]
            rw [if_pos outside, hfault]
            exact ⟨fun h => absurd (Or.inr ⟨hmem, outside⟩) h.2, fun _ => rfl⟩
          · rw [if_neg outside]
            refine ⟨fun _ => rfl, fun h => absurd ⟨hold, ?_⟩ h⟩
            rintro (hover | ⟨-, hover⟩)
            · exact hread hover
            · exact outside hover
        · have hnew : name ∉ names.eraseDups := fun hin => hmem (List.mem_eraseDups.mp hin)
          have hover : ¬ OverRead readable (names ++ [name]) := by
            rw [overRead_append_iff]
            rintro (hover | ⟨hin, -⟩)
            · exact hread hover
            · exact hmem hin
          have hall : ∀ other ∈ names.eraseDups ++ [name], other.length ≤ 100 := by
            intro other hother
            obtain hin | hin := List.mem_append.mp hother
            · exact hlen' other (List.mem_eraseDups.mp hin)
            · rw [List.mem_singleton.mp hin]
              exact hlen name (by simp)
          obtain ⟨hok, herror⟩ := add_new readable hpos hbits hnew hall (by omega) hold
          rw [hdups, if_neg hmem]
          exact ⟨fun h => hok h.1, fun h => herror fun hholds => h ⟨hholds, hover⟩⟩
      · rw [ih_error before]
        refine ⟨fun h => absurd ⟨?_, ?_⟩ before, fun _ => rfl⟩
        · have hholds := h.1
          rw [hdups] at hholds
          split at hholds
          · exact hholds
          · exact hholds.of_append
        · exact fun hover => h.2 (overRead_append_iff.mpr (Or.inl hover))

end NameLedger

end Explore.OneBrc
