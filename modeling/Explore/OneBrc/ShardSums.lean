import Explore.OneBrc.Aggregation
import Explore.OneBrc.HashtableResult
import Explore.OneBrc.Swar

/-!
# Sums of stations over all shards

A shard of the non-idiomatic program keeps the lines of the tail of the file in a map
of its own and all others in its off-heap table, whose entries have sums of 32 bits.
`merge` adds up the maps of the shards in 64 bits. A sum of one shard that leaves
the range of an `int` wraps without an error, so the merged sum is off by the wraps of
all shards together.
-/

namespace Explore.OneBrc

open LittleEndian Memory Std

/-- A line that a shard meets somewhere in its buffer. Lines in the tail of the file go
to the slow parser, so the reads of the fast one stay in the buffer. -/
structure MappedLine where
  line : Line
  slow : Bool
  before : List Byte
  after : List Byte
  room : slow = false → 4 ≤ after.length

namespace MappedLine

def mem (l : MappedLine) : Buffer := l.before ++ (l.line.bytes ++ l.after)

def pos (l : MappedLine) : ℕ := l.before.length

theorem drop_mem (l : MappedLine) : l.mem.drop l.pos = l.line.bytes ++ l.after :=
  List.drop_left ..

end MappedLine

/-- The call of `addDataPoint` for a line. -/
def FastLine.dataPoint (mem : Buffer) (fast : FastLine) : DataPoint :=
  ⟨fun a => mem.getD a 0, fast.srcAddr, fast.len, fast.hash32, fast.temperature⟩

structure FastShardProcessorState where
  hashtable : Hashtable
  slowProcessStats : StatMap

namespace FastShardProcessorState

def updateStat (map : StatMap) (key : String) (curValue : Stat) : StatMap :=
  map.alter key fun value =>
    match value with
    | none => some curValue
    | some value => some (Stat.merge value curValue)

/-- The call that `processLine` or `processLineSlow` ends with. -/
def process (fuel : ℕ) (st : FastShardProcessorState) (l : MappedLine) :
    Except Fault FastShardProcessorState :=
  if l.slow then do
    let (name, temperature, _) ← orFault (processLineSlow l.mem l.pos)
    let stats := updateStat st.slowProcessStats (newString name) (Stat.firstReading temperature)
    .ok { st with slowProcessStats := stats }
  else do
    let fast ← orFault (processLine l.mem l.pos)
    let table ← st.hashtable.addDataPoint fuel (fast.dataPoint l.mem)
    .ok { st with hashtable := table }

/-- The statistics of the tail are folded into those of the table. -/
def result (st : FastShardProcessorState) : Option StatMap := do
  let map ← st.hashtable.result
  some (combine map st.slowProcessStats)

/-- `processShard`, given the lines it meets. -/
def processShard (slotsBits readable fuel : ℕ) (lines : List MappedLine) :
    Except Fault StatMap := do
  let table ← newHashtable slotsBits readable
  let st ← lines.foldlM (process fuel) ⟨table, ∅⟩
  orFault st.result

end FastShardProcessorState

section Parsed

variable {l : MappedLine}

theorem readBytes_getD {mem : Buffer} {pos : ℕ} {bs tail : List Byte}
    (h : mem.drop pos = bs ++ tail) :
    Memory.readBytes (fun a => mem.getD a 0) pos bs.length = bs := by
  apply List.ext_getElem?
  intro i
  by_cases hi : i < bs.length
  · have hget : mem[pos + i]? = bs[i]? := by
      rw [← List.getElem?_drop, h, List.getElem?_append_left hi]
    rw [getElem?_readBytes hi, List.getD, hget, List.getElem?_eq_getElem hi]
    rfl
  · rw [List.getElem?_eq_none (by rw [length_readBytes]; omega),
      List.getElem?_eq_none (Nat.le_of_not_lt hi)]

/-- The call of `addDataPoint` for a line that the fast parser meets. -/
def MappedLine.dataPoint (l : MappedLine) : DataPoint :=
  ⟨fun a => l.mem.getD a 0, l.pos, l.line.name.length,
    FastShardProcessorState.nameHash l.line.name, BitVec.ofInt 16 l.line.temp.value⟩

theorem MappedLine.name_dataPoint (l : MappedLine) : l.dataPoint.name = l.line.name := by
  have h : l.mem.drop l.pos =
      l.line.name ++ (semicolon :: (l.line.temp.bytes ++ [newline]) ++ l.after) := by
    rw [l.drop_mem, Line.bytes, List.append_assoc]
  exact readBytes_getD h

theorem MappedLine.reading_dataPoint (l : MappedLine) : l.dataPoint.reading = l.line.reading := by
  obtain ⟨hlow, hhigh⟩ := l.line.temp.value_bounds
  rw [DataPoint.reading, l.name_dataPoint, Line.reading]
  change (_, (BitVec.ofInt 16 l.line.temp.value).toInt) = _
  rw [BitVec.toInt_ofInt, Int.bmod_eq_of_le (by omega) (by omega)]

theorem MappedLine.valid_dataPoint (l : MappedLine) :
    l.dataPoint.Valid FastShardProcessorState.nameHash :=
  ⟨l.line.name_pos, l.line.name_le,
    congrArg FastShardProcessorState.nameHash l.name_dataPoint.symm⟩

end Parsed

namespace FastShardProcessorState

section Shard

def fastLines (lines : List MappedLine) : List MappedLine := lines.filter fun l => !l.slow

def slowLines (lines : List MappedLine) : List MappedLine := lines.filter MappedLine.slow

/-- The map of the tail after some lines of it. -/
def slowStats (map : StatMap) (lines : List MappedLine) : StatMap :=
  lines.foldl (fun map l => updateStat map l.line.station (Stat.firstReading l.line.temp.value)) map

theorem process_of_slow {l : MappedLine} (h : l.slow = true) (fuel : ℕ)
    (st : FastShardProcessorState) :
    st.process fuel l = .ok ⟨st.hashtable, updateStat st.slowProcessStats l.line.station
      (Stat.firstReading l.line.temp.value)⟩ := by
  rw [process, if_pos h, processLineSlow_eq l.drop_mem]
  rfl

theorem process_of_fast {l : MappedLine} (h : l.slow = false) (fuel : ℕ)
    (st : FastShardProcessorState) :
    st.process fuel l = st.hashtable.addDataPoint fuel l.dataPoint >>= fun table =>
      .ok ⟨table, st.slowProcessStats⟩ := by
  rw [process, if_neg (by simp [h]), processLine_eq l.drop_mem (l.room h)]
  rfl

/-- The lines of the table and those of the tail do not interfere. -/
theorem foldlM_process (fuel : ℕ) (lines : List MappedLine) (st : FastShardProcessorState) :
    lines.foldlM (process fuel) st =
      ((fastLines lines).map MappedLine.dataPoint).foldlM (Hashtable.addDataPoint fuel)
        st.hashtable >>= fun table =>
          .ok ⟨table, slowStats st.slowProcessStats (slowLines lines)⟩ := by
  induction lines generalizing st with
  | nil => rfl
  | cons l lines ih =>
      rw [List.foldlM_cons]
      cases h : l.slow with
      | true =>
          have hfast : fastLines (l :: lines) = fastLines lines := by simp [fastLines, h]
          have hslow : slowLines (l :: lines) = l :: slowLines lines := by simp [slowLines, h]
          rw [process_of_slow h, hfast, hslow]
          exact ih _
      | false =>
          have hfast : fastLines (l :: lines) = l :: fastLines lines := by simp [fastLines, h]
          have hslow : slowLines (l :: lines) = slowLines lines := by simp [slowLines, h]
          rw [process_of_fast h, hfast, hslow, List.map_cons, List.foldlM_cons, bind_assoc,
            bind_assoc]
          exact bind_congr fun table => ih _

/-- A shard runs its table on the lines outside the tail. -/
theorem processShard_eq (slotsBits readable fuel : ℕ) (lines : List MappedLine) :
    processShard slotsBits readable fuel lines =
      Hashtable.run slotsBits readable ((fastLines lines).map MappedLine.dataPoint) fuel >>=
        fun table => orFault (result ⟨table, slowStats ∅ (slowLines lines)⟩) := by
  rw [processShard, Hashtable.run, bind_assoc]
  refine bind_congr fun table => ?_
  rw [foldlM_process, bind_assoc]
  rfl

theorem map_reading_dataPoint (lines : List MappedLine) :
    (lines.map MappedLine.dataPoint).map DataPoint.reading = lines.map fun l => l.line.reading := by
  rw [List.map_map]
  exact List.map_congr_left fun l _ => l.reading_dataPoint

theorem forall_valid_dataPoint (lines : List MappedLine) :
    ∀ d ∈ lines.map MappedLine.dataPoint, d.Valid nameHash := by
  intro d hd
  obtain ⟨l, -, rfl⟩ := List.mem_map.mp hd
  exact l.valid_dataPoint

end Shard

end FastShardProcessorState

section Totals

variable {field : Stat → JLong} {key : String}

theorem Stat.sum_merge (left right : Stat) :
    (Stat.merge left right).sum = left.sum + right.sum := rfl

theorem Stat.count_merge (left right : Stat) :
    (Stat.merge left right).count = left.count + right.count := rfl

/-- A field of the statistics of a station, with zero for a station that is missing. -/
def totalAt (field : Stat → JLong) (map : StatMap) (key : String) : JLong :=
  (map[key]?.map field).getD 0

theorem totalAt_combine (additive : ∀ l r, field (Stat.merge l r) = field l + field r)
    (left right : StatMap) (key : String) :
    totalAt field (combine left right) key = totalAt field left key + totalAt field right key := by
  rw [totalAt, totalAt, totalAt, getElem?_combine]
  cases left[key]? <;> cases right[key]? <;> simp [combineAt, additive]

theorem totalAt_updateStat (additive : ∀ l r, field (Stat.merge l r) = field l + field r)
    (map : StatMap) (other : String) (stat : Stat) (key : String) :
    totalAt field (FastShardProcessorState.updateStat map other stat) key =
      totalAt field map key + if other = key then field stat else 0 := by
  rw [totalAt, totalAt, FastShardProcessorState.updateStat, TreeMap.getElem?_alter]
  by_cases same : other = key
  · subst same
    rw [compare_self, if_pos rfl, if_pos rfl]
    cases map[other]? <;> simp [additive]
  · have hcmp : compare other key ≠ .eq := fun h => same (LawfulEqCmp.eq_of_compare h)
    rw [if_neg hcmp, if_neg same]
    exact (BitVec.add_zero _).symm

/-- The total of a field over the lists of maps that `merge` folds in. -/
theorem totalAt_mergedOf (additive : ∀ l r, field (Stat.merge l r) = field l + field r)
    {results : List StatMap} {order : List ℕ} (lt : ∀ i ∈ order, i < results.length)
    (key : String) :
    (mergedOf results order).elim 0 (totalAt field · key) =
      (order.map fun i => (results[i]?.map (totalAt field · key)).getD 0).sum := by
  induction order using List.reverseRecOn with
  | nil => rfl
  | append_singleton order i ih =>
      have hres := List.getElem?_eq_getElem (lt i (by simp))
      have hprev := ih fun j hj => lt j (by simp [hj])
      rw [mergedOf_append_singleton order hres, List.map_append, List.sum_append, ← hprev,
        List.map_singleton, List.sum_singleton, hres]
      cases mergedOf results order with
      | none => simp
      | some map => exact totalAt_combine additive map _ key

/-- Whatever the order in which the shards finish, `merge` adds up their totals. -/
theorem totalAt_merge (additive : ∀ l r, field (Stat.merge l r) = field l + field r)
    {results : List StatMap} {order : List ℕ} (hperm : order.Perm (List.range results.length))
    (key : String) :
    (mergedOf results order).elim 0 (totalAt field · key) =
      (results.map (totalAt field · key)).sum := by
  have hlt : ∀ i ∈ order, i < results.length :=
    fun i hi => List.mem_range.mp (hperm.mem_iff.mp hi)
  rw [totalAt_mergedOf additive hlt, (hperm.map _).sum_eq]
  congr 1
  refine List.ext_getElem (by simp) fun i hi hi' => ?_
  have hi : i < results.length := by simpa using hi
  simp [List.getElem?_eq_getElem hi]

end Totals

section Table

variable {hashOf : List Byte → JInt} {slotsBits readable : ℕ} {table : Hashtable}
  {readings : List (List Byte × Int)}

theorem records_of_run {calls : List DataPoint} {fuel : ℕ} (hreadable : cityNamesSize ≤ readable)
    (hbits : slotsBits ≤ 16) (valid : ∀ d ∈ calls, d.Valid hashOf)
    (h : Hashtable.run slotsBits readable calls fuel = .ok table) :
    Records hashOf slotsBits readable table (calls.map DataPoint.reading) := by
  obtain ⟨r, hr, hrefines⟩ := run_refines hreadable hbits calls valid
  obtain rfl := hr.eq_of_ok h
  cases hledger : NameLedger.run slotsBits readable (calls.map DataPoint.name) with
  | error fault =>
      rw [hledger] at hrefines
      cases hrefines
  | ok seen =>
      rw [hledger] at hrefines
      obtain ⟨-, table', htable, hrecords⟩ := hrefines
      rwa [Except.ok.inj htable]

/-- The map of a table has the sums and counts of 32 bits of what it recorded. -/
theorem Records.result_map (h : Records hashOf slotsBits readable table readings)
    (hreadable : cityNamesSize ≤ readable) (utf8 : ∀ r ∈ readings, ValidUTF8 r.1) :
    ∃ map, table.result = some map ∧ ∀ name, ValidUTF8 name →
      totalAt Stat.sum map (newString name) =
        BitVec.ofInt 64 ((tempsOf name readings).sum.bmod (2 ^ 32)) ∧
      totalAt Stat.count map (newString name) =
        BitVec.ofInt 64 (((tempsOf name readings).length : ℤ).bmod (2 ^ 32)) := by
  obtain ⟨entries, hentries, hnodup, hmem, hstat⟩ := h.result hreadable
  have hutf8 : ∀ e ∈ entries, ValidUTF8 e.1 := by
    intro e he
    obtain ⟨r, hr, hre⟩ := List.mem_map.mp ((hmem e.1).mp (List.mem_map_of_mem he))
    exact hre ▸ utf8 r hr
  refine ⟨_, by rw [Hashtable.result, hentries]; rfl, fun name hname => ?_⟩
  rw [totalAt, totalAt, getElem?_insertAll hnodup hutf8 hname]
  cases hfind : entries.find? fun e => e.1 = name with
  | none =>
      have habsent : tempsOf name readings = [] := by
        rw [tempsOf_eq_nil_iff, ← hmem name]
        intro hin
        obtain ⟨e, he, hsame⟩ := List.mem_map.mp hin
        exact (List.find?_eq_none.mp hfind e he) (by simp [hsame])
      rw [habsent]
      simp
  | some e =>
      obtain rfl : e.1 = name := by simpa using List.find?_some hfind
      have hsummary := hstat e (List.mem_of_find?_eq_some hfind)
      rw [← hsummary.sum_eq, ← hsummary.count_eq]
      simp

end Table

section Sums

variable {slotsBits readable fuel : ℕ} {shard : List MappedLine} {name : List Byte}

/-- The readings of some lines. -/
def readingsOf (lines : List MappedLine) : List (List Byte × Int) :=
  lines.map fun l => l.line.reading

/-- The temperatures of a station that go to the table of a shard. -/
def fastTemps (name : List Byte) (shard : List MappedLine) : List Int :=
  tempsOf name (readingsOf (FastShardProcessorState.fastLines shard))

def slowTemps (name : List Byte) (shard : List MappedLine) : List Int :=
  tempsOf name (readingsOf (FastShardProcessorState.slowLines shard))

theorem totalAt_slowStats (field : Stat → JLong) (value : Int → Int)
    (additive : ∀ l r, field (Stat.merge l r) = field l + field r)
    (first : ∀ temp, field (Stat.firstReading temp) = BitVec.ofInt 64 (value temp))
    {lines : List MappedLine} (utf8 : ∀ l ∈ lines, ValidUTF8 l.line.name) (hname : ValidUTF8 name)
    (map : StatMap) :
    totalAt field (FastShardProcessorState.slowStats map lines) (newString name) =
      totalAt field map (newString name) +
        BitVec.ofInt 64 ((tempsOf name (readingsOf lines)).map value).sum := by
  induction lines generalizing map with
  | nil => exact (BitVec.add_zero _).symm
  | cons l lines ih =>
      have hrest := ih (fun l hl => utf8 l (List.mem_cons_of_mem _ hl))
        (FastShardProcessorState.updateStat map l.line.station
          (Stat.firstReading l.line.temp.value))
      change totalAt field (FastShardProcessorState.slowStats (FastShardProcessorState.updateStat
        map l.line.station (Stat.firstReading l.line.temp.value)) lines) (newString name) = _
      rw [hrest, totalAt_updateStat additive, first]
      change _ = _ + BitVec.ofInt 64
        ((tempsOf name ((l.line.name, l.line.temp.value) :: readingsOf lines)).map value).sum
      by_cases same : l.line.name = name
      · rw [if_pos (by rw [Line.station, same]), same, tempsOf_cons_self, List.map_cons,
          List.sum_cons, BitVec.ofInt_add, BitVec.add_assoc]
      · have hne : l.line.station ≠ newString name := fun h =>
          same (newString_injOn (utf8 l (List.mem_cons_self ..)) hname h)
        rw [if_neg hne, tempsOf_cons_ne _ same]
        exact congrArg (· + _) (BitVec.add_zero _)

/-- What a shard reports for a station: the part of the table went through 32 bits. -/
theorem totalAt_processShard (hbits : slotsBits ≤ 16) (hreadable : cityNamesSize ≤ readable)
    (utf8 : ∀ l ∈ shard, ValidUTF8 l.line.name) (hname : ValidUTF8 name) {map : StatMap}
    (h : FastShardProcessorState.processShard slotsBits readable fuel shard = .ok map) :
    totalAt Stat.sum map (newString name) =
      BitVec.ofInt 64 ((fastTemps name shard).sum.bmod (2 ^ 32) + (slowTemps name shard).sum) ∧
    totalAt Stat.count map (newString name) =
      BitVec.ofInt 64 (((fastTemps name shard).length : ℤ).bmod (2 ^ 32) +
        (slowTemps name shard).length) := by
  rw [FastShardProcessorState.processShard_eq] at h
  cases hrun : Hashtable.run slotsBits readable
      ((FastShardProcessorState.fastLines shard).map MappedLine.dataPoint) fuel with
  | error fault =>
      rw [hrun] at h
      cases h
  | ok table =>
      have hrecords := records_of_run hreadable hbits
        (FastShardProcessorState.forall_valid_dataPoint _) hrun
      rw [FastShardProcessorState.map_reading_dataPoint] at hrecords
      obtain ⟨fast, hfast, htotals⟩ := hrecords.result_map hreadable fun r hr => by
        obtain ⟨l, hl, rfl⟩ := List.mem_map.mp hr
        exact utf8 l (List.mem_of_mem_filter hl)
      obtain ⟨hsum, hcount⟩ := htotals name hname
      have hmap : combine fast (FastShardProcessorState.slowStats ∅
          (FastShardProcessorState.slowLines shard)) = map := by
        rw [hrun] at h
        change orFault (FastShardProcessorState.result _) = _ at h
        rw [FastShardProcessorState.result, hfast] at h
        exact Except.ok.inj h
      have hslow : ∀ l ∈ FastShardProcessorState.slowLines shard, ValidUTF8 l.line.name :=
        fun l hl => utf8 l (List.mem_of_mem_filter hl)
      have hsums := totalAt_slowStats Stat.sum id Stat.sum_merge (fun _ => rfl) hslow hname ∅
      have hcounts := totalAt_slowStats Stat.count (fun _ => 1) Stat.count_merge (fun _ => rfl)
        hslow hname ∅
      rw [← hmap, totalAt_combine Stat.sum_merge, totalAt_combine Stat.count_merge, hsum, hcount,
        hsums, hcounts, BitVec.ofInt_add, BitVec.ofInt_add]
      simp [totalAt, fastTemps, slowTemps, readingsOf]

/-- How often a sum goes around the range of an `int`. -/
def wraps (sum : ℤ) : ℤ := (sum + 2 ^ 31) / 2 ^ 32

theorem bmod_eq_sub_wraps (sum : ℤ) : sum.bmod (2 ^ 32) = sum - 2 ^ 32 * wraps sum := by
  rw [wraps, Int.bmod_def]
  split <;> omega

/-- The sum that a shard reports for a station. -/
def shardSum (name : List Byte) (shard : List MappedLine) : ℤ :=
  (fastTemps name shard).sum.bmod (2 ^ 32) + (slowTemps name shard).sum

/-- Every line goes to the table or to the tail. -/
theorem fastTemps_append_perm (name : List Byte) (shard : List MappedLine) :
    (fastTemps name shard ++ slowTemps name shard).Perm (tempsOf name (readingsOf shard)) := by
  rw [fastTemps, slowTemps, ← tempsOf_append]
  refine tempsOf_perm ?_
  rw [readingsOf, readingsOf, ← List.map_append]
  refine List.Perm.map _ ?_
  rw [FastShardProcessorState.fastLines, FastShardProcessorState.slowLines]
  refine List.perm_append_comm.trans ?_
  exact List.filter_append_perm MappedLine.slow shard

theorem shardSum_eq (name : List Byte) (shard : List MappedLine) :
    shardSum name shard = (tempsOf name (readingsOf shard)).sum -
      2 ^ 32 * wraps (fastTemps name shard).sum := by
  rw [shardSum, bmod_eq_sub_wraps, ← (fastTemps_append_perm name shard).sum_eq, List.sum_append]
  omega

theorem bounds_of_mem_tempsOf {lines : List MappedLine} {t : ℤ}
    (ht : t ∈ tempsOf name (readingsOf lines)) : -999 ≤ t ∧ t ≤ 999 := by
  obtain ⟨r, hr, rfl⟩ := List.mem_map.mp (mem_of_mem_tempsOf ht)
  obtain ⟨l, -, rfl⟩ := List.mem_map.mp hr
  exact l.line.temp.value_bounds

/-- Going through 32 bits never makes a sum larger. -/
theorem shardSum_bounds (name : List Byte) (shard : List MappedLine) :
    -999 * ((tempsOf name (readingsOf shard)).length : ℤ) ≤ shardSum name shard ∧
      shardSum name shard ≤ 999 * ((tempsOf name (readingsOf shard)).length : ℤ) := by
  have hlen := (fastTemps_append_perm name shard).length_eq
  have hfast := Stat.Summarizes.sum_bounds (fastTemps name shard) fun t => bounds_of_mem_tempsOf
  have hslow := Stat.Summarizes.sum_bounds (slowTemps name shard) fun t => bounds_of_mem_tempsOf
  rw [List.length_append] at hlen
  rw [shardSum, Int.bmod_def]
  split <;> omega

end Sums

section Merge

variable {slotsBits readable fuel rounds : ℕ} {finished : ℕ → ℕ → Bool}
  {lines : List Line} {shards : List (List MappedLine)} {results : List StatMap}
  {output : StatMap}

/-- The output has the sum and the count of the temperatures of each station. -/
def ReportsSums (output : StatMap) (lines : List Line) : Prop :=
  ∀ line ∈ lines, ∃ stat, output[line.station]? = some stat ∧
    stat.sum.toInt = (tempsOf line.name (lines.map Line.reading)).sum ∧
    stat.count.toInt = (tempsOf line.name (lines.map Line.reading)).length

/-- Each shard adds what it reports to the totals of a station. -/
theorem totals_results (hbits : slotsBits ≤ 16) (hreadable : cityNamesSize ≤ readable)
    {name : List Byte} (hname : ValidUTF8 name)
    (utf8 : ∀ shard ∈ shards, ∀ l ∈ shard, ValidUTF8 l.line.name)
    (few : ∀ shard ∈ shards, (fastTemps name shard).length < 2 ^ 31)
    (hresults : shards.mapM (FastShardProcessorState.processShard slotsBits readable fuel) =
      .ok results) :
    (results.map (totalAt Stat.sum · (newString name))).sum =
      BitVec.ofInt 64 (shards.map (shardSum name)).sum ∧
    (results.map (totalAt Stat.count · (newString name))).sum =
      BitVec.ofInt 64
        ((shards.flatMap fun shard => tempsOf name (readingsOf shard)).length : ℤ) := by
  induction shards generalizing results with
  | nil =>
      cases hresults
      exact ⟨rfl, rfl⟩
  | cons shard shards ih =>
      rw [List.mapM_cons] at hresults
      cases hfirst : FastShardProcessorState.processShard slotsBits readable fuel shard with
      | error fault =>
          rw [hfirst] at hresults
          cases hresults
      | ok map =>
          rw [hfirst] at hresults
          cases hrest : shards.mapM
              (FastShardProcessorState.processShard slotsBits readable fuel) with
          | error fault =>
              rw [hrest] at hresults
              cases hresults
          | ok maps =>
              rw [hrest] at hresults
              cases hresults
              obtain ⟨hsum, hcount⟩ := totalAt_processShard hbits hreadable
                (utf8 shard (List.mem_cons_self ..)) hname hfirst
              obtain ⟨hsums, hcounts⟩ := ih (fun s hs => utf8 s (List.mem_cons_of_mem _ hs))
                (fun s hs => few s (List.mem_cons_of_mem _ hs)) hrest
              have hlen := (fastTemps_append_perm name shard).length_eq
              have hfew := few shard (List.mem_cons_self ..)
              have hexact : ((fastTemps name shard).length : ℤ).bmod (2 ^ 32) =
                  (fastTemps name shard).length := Int.bmod_eq_of_le (by omega) (by omega)
              rw [List.length_append] at hlen
              rw [List.map_cons, List.map_cons, List.map_cons, List.sum_cons, List.sum_cons,
                List.sum_cons, hsum, hcount, hsums, hcounts, ← BitVec.ofInt_add,
                ← BitVec.ofInt_add, hexact, List.flatMap_cons, List.length_append, ← hlen,
                Nat.cast_add, Nat.cast_add]
              exact ⟨rfl, rfl⟩

theorem tempsOf_flatten (name : List Byte) (shards : List (List MappedLine)) :
    tempsOf name (readingsOf shards.flatten) =
      shards.flatMap fun shard => tempsOf name (readingsOf shard) := by
  induction shards with
  | nil => rfl
  | cons shard shards ih =>
      rw [List.flatten_cons, readingsOf, List.map_append, tempsOf_append, List.flatMap_cons, ← ih]
      rfl

theorem sum_shardSum (name : List Byte) (shards : List (List MappedLine)) :
    (shards.map (shardSum name)).sum =
      (shards.flatMap fun shard => tempsOf name (readingsOf shard)).sum -
        2 ^ 32 * (shards.map fun shard => wraps (fastTemps name shard).sum).sum := by
  induction shards with
  | nil => rfl
  | cons shard shards ih =>
      rw [List.map_cons, List.sum_cons, List.flatMap_cons, List.sum_append, List.map_cons,
        List.sum_cons, ih, shardSum_eq]
      omega

theorem sum_shardSum_bounds (name : List Byte) (shards : List (List MappedLine)) :
    -999 * ((shards.flatMap fun shard => tempsOf name (readingsOf shard)).length : ℤ) ≤
        (shards.map (shardSum name)).sum ∧
      (shards.map (shardSum name)).sum ≤
        999 * ((shards.flatMap fun shard => tempsOf name (readingsOf shard)).length : ℤ) := by
  induction shards with
  | nil => exact ⟨Int.le_refl _, Int.le_refl _⟩
  | cons shard shards ih =>
      have hfirst := shardSum_bounds name shard
      rw [List.map_cons, List.sum_cons, List.flatMap_cons, List.length_append, Nat.cast_add]
      omega

/-- What the output has for a station: the count, and the sum up to the wraps. -/
theorem reported (hbits : slotsBits ≤ 16) (hreadable : cityNamesSize ≤ readable)
    (utf8 : ∀ line ∈ lines, ValidUTF8 line.name)
    (assigned : (shards.flatten.map MappedLine.line).Perm lines) (few : lines.length ≤ 10 ^ 9)
    (hresults : shards.mapM (FastShardProcessorState.processShard slotsBits readable fuel) =
      .ok results)
    (hmerge : merge results finished rounds = some (some output)) {line : Line}
    (hline : line ∈ lines) :
    ∃ stat, output[line.station]? = some stat ∧
      stat.sum.toInt = (tempsOf line.name (lines.map Line.reading)).sum -
        2 ^ 32 * (shards.map fun shard => wraps (fastTemps line.name shard).sum).sum ∧
      stat.count.toInt = (tempsOf line.name (lines.map Line.reading)).length := by
  have hname := utf8 line hline
  have hall : (tempsOf line.name (lines.map Line.reading)).Perm
      (shards.flatMap fun shard => tempsOf line.name (readingsOf shard)) := by
    rw [← tempsOf_flatten]
    refine tempsOf_perm ?_
    have hmap := (assigned.map Line.reading).symm
    rwa [List.map_map] at hmap
  have hcount_le : (tempsOf line.name (lines.map Line.reading)).length ≤ lines.length := by
    rw [tempsOf, List.length_map]
    exact (List.length_filter_le _ _).trans (by simp)
  have hcount_pos : 0 < (tempsOf line.name (lines.map Line.reading)).length := by
    refine List.length_pos_iff.mpr fun hnil => ?_
    rw [tempsOf_eq_nil_iff] at hnil
    exact hnil (List.mem_map.mpr ⟨line.reading, List.mem_map_of_mem hline, rfl⟩)
  have hutf8 : ∀ shard ∈ shards, ∀ l ∈ shard, ValidUTF8 l.line.name := fun shard hshard l hl =>
    utf8 l.line (assigned.mem_iff.mp (List.mem_map_of_mem (List.mem_flatten_of_mem hshard hl)))
  have hfew : ∀ shard ∈ shards, (fastTemps line.name shard).length < 2 ^ 31 := by
    intro shard hshard
    have htemps : (fastTemps line.name shard).length ≤
        (readingsOf (FastShardProcessorState.fastLines shard)).length := by
      rw [fastTemps, tempsOf, List.length_map]
      exact List.length_filter_le _ _
    have hfast : (FastShardProcessorState.fastLines shard).length ≤ shard.length :=
      List.length_filter_le _ _
    have hflat : shard.length ≤ shards.flatten.length :=
      (List.sublist_flatten_of_mem hshard).length_le
    have hlines : shards.flatten.length = lines.length := by
      rw [← assigned.length_eq, List.length_map]
    rw [readingsOf, List.length_map] at htemps
    omega
  obtain ⟨hsum, hcount⟩ := totals_results hbits hreadable hname hutf8 hfew hresults
  obtain ⟨order, hperm, houtput⟩ := (mergeInv_init results).of_mergeFrom hmerge
  have hsums := totalAt_merge Stat.sum_merge hperm line.station
  have hcounts := totalAt_merge Stat.count_merge hperm line.station
  rw [← houtput, Option.elim_some] at hsums hcounts
  rw [show line.station = newString line.name from rfl] at hsums hcounts ⊢
  rw [hsum] at hsums
  rw [hcount, ← hall.length_eq] at hcounts
  cases hstat : output[newString line.name]? with
  | none =>
      rw [totalAt, hstat] at hcounts
      have hzero := congrArg BitVec.toInt hcounts
      rw [BitVec.toInt_ofInt, Int.bmod_eq_of_le (by omega) (by omega)] at hzero
      change (0 : ℤ) = _ at hzero
      omega
  | some stat =>
      rw [totalAt, hstat, Option.map_some, Option.getD_some] at hsums hcounts
      have hbounds := sum_shardSum_bounds line.name shards
      rw [← hall.length_eq] at hbounds
      refine ⟨stat, rfl, ?_, ?_⟩
      · rw [hsums, BitVec.toInt_ofInt, Int.bmod_eq_of_le (by omega) (by omega), sum_shardSum,
          hall.sum_eq]
      · rw [hcounts, BitVec.toInt_ofInt, Int.bmod_eq_of_le (by omega) (by omega)]

/-- The sums and counts of the stations are right if and only if for each station the wraps
of the tables of all shards cancel, as they do when no sum of a table leaves an `int`. -/
theorem reportsSums_iff (hbits : slotsBits ≤ 16) (hreadable : cityNamesSize ≤ readable)
    (utf8 : ∀ line ∈ lines, ValidUTF8 line.name)
    (assigned : (shards.flatten.map MappedLine.line).Perm lines) (few : lines.length ≤ 10 ^ 9)
    (hresults : shards.mapM (FastShardProcessorState.processShard slotsBits readable fuel) =
      .ok results)
    (hmerge : merge results finished rounds = some (some output)) :
    ReportsSums output lines ↔
      ∀ line ∈ lines, (shards.map fun shard => wraps (fastTemps line.name shard).sum).sum = 0 := by
  constructor
  · intro h line hline
    obtain ⟨stat, hstat, hsum, -⟩ := h line hline
    obtain ⟨stat', hstat', hsum', -⟩ :=
      reported hbits hreadable utf8 assigned few hresults hmerge hline
    rw [hstat] at hstat'
    obtain rfl := Option.some.inj hstat'
    omega
  · intro h line hline
    obtain ⟨stat, hstat, hsum, hcount⟩ :=
      reported hbits hreadable utf8 assigned few hresults hmerge hline
    rw [h line hline] at hsum
    exact ⟨stat, hstat, by omega, hcount⟩

/-- A shard whose table does not fail returns a map. -/
theorem exists_processShard (hbits : slotsBits ≤ 16) (hreadable : cityNamesSize ≤ readable)
    {shard : List MappedLine} (utf8 : ∀ l ∈ shard, ValidUTF8 l.line.name)
    (completes : Completes slotsBits readable
      ((FastShardProcessorState.fastLines shard).map MappedLine.dataPoint)) :
    ∃ map enough, ∀ fuel ≥ enough,
      FastShardProcessorState.processShard slotsBits readable fuel shard = .ok map := by
  obtain ⟨fuel, table, hrun⟩ := completes
  have hvalid := FastShardProcessorState.forall_valid_dataPoint
    (FastShardProcessorState.fastLines shard)
  obtain ⟨r, hr, -⟩ := run_refines hreadable hbits _ hvalid
  obtain rfl := hr.eq_of_ok hrun
  obtain ⟨-, enough, henough⟩ := hr
  have hrecords := records_of_run hreadable hbits hvalid hrun
  rw [FastShardProcessorState.map_reading_dataPoint] at hrecords
  obtain ⟨map, hmap, -⟩ := hrecords.result_map hreadable fun r hr => by
    obtain ⟨l, hl, rfl⟩ := List.mem_map.mp hr
    exact utf8 l (List.mem_of_mem_filter hl)
  refine ⟨combine map (FastShardProcessorState.slowStats ∅
    (FastShardProcessorState.slowLines shard)), enough, fun fuel hfuel => ?_⟩
  rw [FastShardProcessorState.processShard_eq, henough fuel hfuel]
  change orFault (FastShardProcessorState.result _) = _
  rw [FastShardProcessorState.result, hmap]
  rfl

theorem exists_results (hbits : slotsBits ≤ 16) (hreadable : cityNamesSize ≤ readable)
    (utf8 : ∀ shard ∈ shards, ∀ l ∈ shard, ValidUTF8 l.line.name)
    (completes : ∀ shard ∈ shards, Completes slotsBits readable
      ((FastShardProcessorState.fastLines shard).map MappedLine.dataPoint)) :
    ∃ results, results.length = shards.length ∧ ∃ enough, ∀ fuel ≥ enough,
      shards.mapM (FastShardProcessorState.processShard slotsBits readable fuel) =
        .ok results := by
  induction shards with
  | nil => exact ⟨[], rfl, 0, fun fuel _ => rfl⟩
  | cons shard shards ih =>
      obtain ⟨map, enough, henough⟩ := exists_processShard hbits hreadable
        (utf8 shard (List.mem_cons_self ..)) (completes shard (List.mem_cons_self ..))
      obtain ⟨results, hlength, enough', henough'⟩ :=
        ih (fun s hs => utf8 s (List.mem_cons_of_mem _ hs))
          fun s hs => completes s (List.mem_cons_of_mem _ hs)
      refine ⟨map :: results, by simp [hlength], max enough enough', fun fuel hfuel => ?_⟩
      rw [List.mapM_cons, henough fuel ((le_max_left ..).trans hfuel),
        henough' fuel ((le_max_right ..).trans hfuel)]
      rfl

/-- A run in which no table fails gives an output. -/
theorem exists_output (hbits : slotsBits ≤ 16) (hreadable : cityNamesSize ≤ readable)
    (hsome : shards ≠ []) (utf8 : ∀ shard ∈ shards, ∀ l ∈ shard, ValidUTF8 l.line.name)
    (completes : ∀ shard ∈ shards, Completes slotsBits readable
      ((FastShardProcessorState.fastLines shard).map MappedLine.dataPoint)) :
    ∃ fuel results output,
      shards.mapM (FastShardProcessorState.processShard slotsBits readable fuel) = .ok results ∧
        merge results (fun _ _ => true) 1 = some (some output) := by
  obtain ⟨results, hlength, fuel, hresults⟩ := exists_results hbits hreadable utf8 completes
  have hfair : ∀ i < results.length, i ∈ ([] : List ℕ) ∨
      ∃ r, 0 ≤ r ∧ r < 0 + 1 ∧ (fun _ _ => true : ℕ → ℕ → Bool) r i = true :=
    fun i _ => Or.inr ⟨0, Nat.le_refl _, by omega, rfl⟩
  obtain ⟨order, hperm, hrun⟩ := (mergeInv_init results).mergeFrom hfair
  have hne : order ≠ [] := by
    rintro rfl
    have hzero := hperm.length_eq
    rw [List.length_nil, List.length_range, hlength] at hzero
    exact hsome (List.length_eq_zero_iff.mp hzero.symm)
  obtain ⟨seen, i, rfl⟩ := (List.eq_nil_or_concat order).resolve_left hne
  have hi : i < results.length := List.mem_range.mp (hperm.mem_iff.mp (by simp))
  rw [List.concat_eq_append,
    mergedOf_append_singleton seen (List.getElem?_eq_getElem hi)] at hrun
  exact ⟨fuel, results, _, hresults fuel (Nat.le_refl _), hrun⟩

section Hot

/-- A line of 99.9 degrees, the highest temperature the rules allow. -/
def hotLine : Line :=
  ⟨[0x41], ⟨false, some 9, 9, 9⟩, by decide, by decide, by decide, by decide⟩

/-- It is followed by another one. -/
def hotMapped (slow : Bool) : MappedLine := ⟨hotLine, slow, [], hotLine.bytes, fun _ => by decide⟩

theorem validUTF8_hotLine : ValidUTF8 hotLine.name := ⟨['A'], rfl⟩

/-- A table takes any number of lines of one short name. -/
theorem completes_hotLine {lines : List MappedLine} (h : ∀ l ∈ lines, l.line = hotLine) :
    Completes 14 (2 ^ 18) (lines.map MappedLine.dataPoint) := by
  have hnames : ∀ name ∈ distinctNames (lines.map MappedLine.dataPoint), name = hotLine.name := by
    intro name hname
    obtain ⟨d, hd, rfl⟩ := List.mem_map.mp (List.mem_eraseDups.mp hname)
    obtain ⟨l, hl, rfl⟩ := List.mem_map.mp hd
    rw [l.name_dataPoint, h l hl]
  have hnodup : (distinctNames (lines.map MappedLine.dataPoint)).Nodup := by
    have hseen := nodup_seenOf ((lines.map MappedLine.dataPoint).map DataPoint.reading)
    rw [seenOf, List.map_map] at hseen
    exact hseen
  have hfew : (distinctNames (lines.map MappedLine.dataPoint)).length ≤ 1 :=
    (hnodup.subperm fun name hname => List.mem_singleton.mpr (hnames name hname)).length_le
  have hshort : NameLedger.tailBytes (distinctNames (lines.map MappedLine.dataPoint)) = 0 := by
    rw [NameLedger.tailBytes, List.sum_eq_zero]
    intro size hsize
    obtain ⟨name, hname, rfl⟩ := List.mem_map.mp hsize
    rw [hnames name hname]
    rfl
  refine (completes_iff (by decide) (by decide) (by decide)
    (FastShardProcessorState.forall_valid_dataPoint lines) (by omega)).mpr (Or.inr (Or.inl ?_))
  rw [hshort]
  decide

/-- Shards of hot lines give an output. -/
theorem exists_output_hotLine {shards : List (List MappedLine)} (hsome : shards ≠ [])
    (h : ∀ shard ∈ shards, ∀ l ∈ shard, l.line = hotLine) :
    ∃ fuel results output,
      shards.mapM (FastShardProcessorState.processShard 14 (2 ^ 18) fuel) = .ok results ∧
        merge results (fun _ _ => true) 1 = some (some output) := by
  refine exists_output (by decide) (by decide) hsome (fun shard hshard l hl => ?_)
    fun shard hshard => completes_hotLine fun l hl => h shard hshard l (List.mem_of_mem_filter hl)
  rw [h shard hshard l hl]
  exact validUTF8_hotLine

/-- Three lines over two shards, one of them in the tail. -/
theorem reportsSums_three : ∃ fuel results output,
    [[hotMapped true, hotMapped false], [hotMapped false]].mapM
        (FastShardProcessorState.processShard 14 (2 ^ 18) fuel) = .ok results ∧
      merge results (fun _ _ => true) 1 = some (some output) ∧
      ReportsSums output [hotLine, hotLine, hotLine] := by
  have hsome : [[hotMapped true, hotMapped false], [hotMapped false]] ≠ [] := by simp
  obtain ⟨fuel, results, output, hresults, hmerge⟩ :=
    exists_output_hotLine hsome (by simp [hotMapped])
  refine ⟨fuel, results, output, hresults, hmerge, ?_⟩
  refine (reportsSums_iff (by decide) (by decide) ?_ ?_ (by decide) hresults hmerge).mpr (by decide)
  · simp [validUTF8_hotLine]
  · exact List.Perm.refl _

theorem fastTemps_replicate (n : ℕ) :
    fastTemps hotLine.name (List.replicate n (hotMapped false)) = List.replicate n 999 := by
  have htemp : hotLine.temp.value = 999 := rfl
  simp [fastTemps, readingsOf, FastShardProcessorState.fastLines, hotMapped,
    Line.reading, tempsOf, htemp]

/-- One shard with more hot lines than an `int` holds in tenths of a degree. -/
theorem exists_not_reportsSums {n : ℕ} (hmany : 2 ^ 31 ≤ 999 * n) (hle : n ≤ 10 ^ 9) :
    ∃ fuel results output,
      [List.replicate n (hotMapped false)].mapM
          (FastShardProcessorState.processShard 14 (2 ^ 18) fuel) = .ok results ∧
        merge results (fun _ _ => true) 1 = some (some output) ∧
        ¬ ReportsSums output (List.replicate n hotLine) := by
  have hsome : [List.replicate n (hotMapped false)] ≠ [] := List.cons_ne_nil _ _
  have hall : ∀ shard ∈ [List.replicate n (hotMapped false)], ∀ l ∈ shard, l.line = hotLine := by
    intro shard hshard l hl
    rw [List.mem_singleton.mp hshard] at hl
    rw [(List.mem_replicate.mp hl).2]
    rfl
  obtain ⟨fuel, results, output, hresults, hmerge⟩ := exists_output_hotLine hsome hall
  refine ⟨fuel, results, output, hresults, hmerge, fun hsums => ?_⟩
  have hassigned : ([List.replicate n (hotMapped false)].flatten.map MappedLine.line).Perm
      (List.replicate n hotLine) := by
    rw [List.flatten_singleton, List.map_replicate]
    exact List.Perm.refl _
  have hmem : hotLine ∈ List.replicate n hotLine := List.mem_replicate.mpr ⟨by omega, rfl⟩
  obtain ⟨stat, hstat, hsum, -⟩ := hsums hotLine hmem
  obtain ⟨stat', hstat', hsum', -⟩ := reported (by decide) (by decide)
    (fun line hline => (List.mem_replicate.mp hline).2 ▸ validUTF8_hotLine) hassigned
    (by simpa using hle) hresults hmerge hmem
  rw [hstat] at hstat'
  obtain rfl := Option.some.inj hstat'
  have hwraps : ([List.replicate n (hotMapped false)].map fun shard =>
      wraps (fastTemps hotLine.name shard).sum).sum = wraps (999 * n) := by
    rw [List.map_singleton, List.sum_singleton, fastTemps_replicate, List.sum_replicate]
    simp [Int.mul_comm]
  rw [hwraps] at hsum'
  have hone : 1 ≤ wraps (999 * n) := by
    rw [wraps]
    omega
  omega

/-- 2149634 lines are enough. -/
theorem not_reportsSums_hot : ∃ fuel results output,
    [List.replicate 2149634 (hotMapped false)].mapM
        (FastShardProcessorState.processShard 14 (2 ^ 18) fuel) = .ok results ∧
      merge results (fun _ _ => true) 1 = some (some output) ∧
      ¬ ReportsSums output (List.replicate 2149634 hotLine) :=
  exists_not_reportsSums (by omega) (by omega)

end Hot

end Merge

end Explore.OneBrc
