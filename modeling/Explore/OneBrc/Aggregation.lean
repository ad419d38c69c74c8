import Explore.OneBrc.Merge

/-!
# Aggregation over all distributions of the work

A distribution of the lines gives each shard a list of visits: a line, the
parser that reads it and the buffer it lies in. Whatever the distribution, the
order within each shard and the order in which `merge` sees the shards finish,
the output is a group-by of the lines, as long as the station names are ASCII
and fewer than the slots of a table.
-/

namespace Explore.OneBrc

open LittleEndian LinearProbe ShardProcessorState Std

/-- The reading of a line. -/
def Line.reading (line : Line) : List Byte × Int := (line.name, line.temp.value)

/-- The station of a line, as a string. -/
def Line.station (line : Line) : String := newString line.name

/-- One line met by a shard, read by the slow or the fast parser somewhere in a
buffer. -/
structure Visit where
  line : Line
  slow : Bool
  order : ByteOrder
  before : List Byte
  after : List Byte

def Visit.process (v : Visit) (st : ShardProcessorState) : Option ShardProcessorState := do
  let mmb := v.before ++ (v.line.bytes ++ v.after)
  let (st', _) ←
    if v.slow then st.processLineSlow mmb v.before.length
    else st.processLine v.order mmb v.before.length
  some st'

/-- `processShard`, given the lines it meets. -/
def processShard (slotsBits : JInt) (visits : List Visit) : Option StatMap := do
  let st ← ShardProcessorState.new slotsBits
  let st' ← visits.foldlM (fun st v => v.process st) st
  st'.result

section Shard

variable {b : ℕ} {st : ShardProcessorState} {readings : List (List Byte × Int)}
  {names : List (List Byte)}

/-- A visit records the reading of its line, whichever parser it takes. -/
theorem TableOf.process (h : TableOf b st readings) (v : Visit)
    (ascii : ∀ b ∈ v.line.name, b.toNat < 128)
    (hnames : ∀ n ∈ readings.map Prod.fst, n ∈ names) (few : names.length < 2 ^ b) :
    ∃ st', v.process st = some st' ∧ TableOf b st' (v.line.reading :: readings) := by
  have hdrop : (v.before ++ (v.line.bytes ++ v.after)).drop v.before.length =
      v.line.bytes ++ v.after := List.drop_left ..
  have hname : (v.before ++ (v.line.bytes ++ v.after)).drop v.before.length =
      v.line.name ++ (semicolon :: (v.line.temp.bytes ++ [newline]) ++ v.after) := by
    rw [hdrop, Line.bytes, List.append_assoc]
  obtain ⟨st', hprobe, table⟩ := h.linearProbe v.line.temp.value hname hnames few
  refine ⟨st', ?_, table⟩
  cases hslow : v.slow with
  | true =>
      simp only [Visit.process, hslow, if_true, processLineSlow, parseLineSlow_eq hdrop, record,
        polyHash_signedWord_ascii ascii, hprobe, Option.bind_eq_bind, Option.bind_some]
  | false =>
      simp only [Visit.process, hslow, Bool.false_eq_true, if_false, processLine,
        parseLine_eq hdrop, record, hprobe, Option.bind_eq_bind, Option.bind_some]

theorem TableOf.processAll (h : TableOf b st readings) (visits : List Visit)
    (ascii : ∀ v ∈ visits, ∀ b ∈ v.line.name, b.toNat < 128)
    (hnames : ∀ n ∈ readings.map Prod.fst, n ∈ names)
    (hvisits : ∀ v ∈ visits, v.line.name ∈ names) (few : names.length < 2 ^ b) :
    ∃ st', visits.foldlM (fun st v => Visit.process v st) st = some st' ∧
      TableOf b st' ((visits.map fun v => v.line.reading).reverse ++ readings) := by
  induction visits generalizing st readings with
  | nil => exact ⟨st, rfl, by simpa using h⟩
  | cons v visits ih =>
      obtain ⟨st₁, hstep, h₁⟩ := h.process v (ascii v (by simp)) hnames few
      have hnames₁ : ∀ n ∈ (v.line.reading :: readings).map Prod.fst, n ∈ names := by
        intro n hn
        rw [List.map_cons, List.mem_cons] at hn
        obtain rfl | hn := hn
        · exact hvisits v (by simp)
        · exact hnames n hn
      obtain ⟨st', hrun, h'⟩ := ih h₁ (fun v hv => ascii v (by simp [hv])) hnames₁
        (fun v hv => hvisits v (by simp [hv]))
      refine ⟨st', ?_, by simpa using h'⟩
      rw [List.foldlM_cons, hstep]
      exact hrun

/-- A shard returns a group-by of the lines it was given, in any order. -/
theorem processShard_groupedBy {slotsBits : JInt} (hb : b ≤ 30)
    (hbits : slotsBits.toNat % 32 = b) (visits : List Visit)
    (ascii : ∀ v ∈ visits, ∀ b ∈ v.line.name, b.toNat < 128)
    (hvisits : ∀ v ∈ visits, v.line.name ∈ names) (few : names.length < 2 ^ b) :
    ∃ map, processShard slotsBits visits = some map ∧
      GroupedBy map (visits.map fun v => (v.line.station, v.line.temp.value)) := by
  obtain ⟨st, hnew, h⟩ := TableOf.new hb hbits
  obtain ⟨st', hrun, h'⟩ := h.processAll visits ascii (by simp) hvisits few
  have hascii : ∀ r ∈ (visits.map fun v => v.line.reading).reverse ++ [], ∀ b ∈ r.1,
      b.toNat < 128 := by
    intro r hr
    rw [List.append_nil, List.mem_reverse, List.mem_map] at hr
    obtain ⟨v, hv, rfl⟩ := hr
    exact ascii v hv
  obtain ⟨map, hmap, grouped⟩ := h'.result hascii
  refine ⟨map, by simp [processShard, hnew, hrun, hmap], grouped.perm ?_⟩
  rw [List.append_nil, byStation, List.map_reverse, List.map_map]
  exact List.reverse_perm _

end Shard

section Merge

variable {results : List StatMap} {readings : ℕ → List (String × Int)}
  {finished : ℕ → ℕ → Bool}

/-- The output after the maps of the shards `seen` are folded in, in that order. -/
def mergedOf (results : List StatMap) (seen : List ℕ) : Option StatMap :=
  (seen.filterMap fun i => results[i]?).foldl
    (fun output tempStats => some (match output with
      | none => tempStats
      | some output => combine output tempStats)) none

theorem mergedOf_append_singleton {i : ℕ} {tempStats : StatMap} (seen : List ℕ)
    (hi : results[i]? = some tempStats) :
    mergedOf results (seen ++ [i]) = some (match mergedOf results seen with
      | none => tempStats
      | some output => combine output tempStats) := by
  rw [mergedOf, List.filterMap_append, List.foldl_append]
  simp [hi, mergedOf]

/-- Folding in group-bys gives a group-by of all their readings. -/
theorem groupedBy_mergedOf {seen : List ℕ} (lt : ∀ i ∈ seen, i < results.length)
    (grouped : ∀ (i : ℕ) map, results[i]? = some map → GroupedBy map (readings i)) :
    (seen = [] ∧ mergedOf results seen = none) ∨
      ∃ map, mergedOf results seen = some map ∧ GroupedBy map (seen.flatMap readings) := by
  induction seen using List.reverseRecOn with
  | nil => exact Or.inl ⟨rfl, rfl⟩
  | append_singleton seen i ih =>
      have hres := List.getElem?_eq_getElem (lt i (by simp))
      have hfirst := grouped i _ hres
      refine Or.inr ⟨_, mergedOf_append_singleton seen hres, ?_⟩
      obtain ⟨rfl, hnone⟩ | ⟨map, hmap, hgrouped⟩ := ih fun j hj => lt j (by simp [hj])
      · rw [hnone]
        simpa using hfirst
      · rw [hmap]
        simpa using hgrouped.combine hfirst

theorem mergeFrom_done {s : MergeState} (round fuel : ℕ) (h : s.remaining = 0) :
    mergeFrom results finished round fuel s = some s.output := by
  cases fuel <;> simp [mergeFrom, h]

theorem mergeFrom_succ {s : MergeState} (round fuel : ℕ) (h : s.remaining ≠ 0) :
    mergeFrom results finished round (fuel + 1) s =
      mergeFrom results finished (round + 1) fuel (sweep results (finished round) s) := by
  rw [mergeFrom, if_neg h]

/-- The merge loop has folded in the shards `seen`, in that order. -/
structure MergeInv (results : List StatMap) (s : MergeState) (seen : List ℕ) : Prop where
  nodup : seen.Nodup
  lt_length : ∀ i ∈ seen, i < results.length
  isDone : ∀ i < results.length, s.isDone[i]? = some (decide (i ∈ seen))
  remaining : s.remaining + seen.length = results.length
  output : s.output = mergedOf results seen

theorem mergeInv_init (results : List StatMap) :
    MergeInv results ⟨none, List.replicate results.length false, results.length⟩ [] where
  nodup := List.nodup_nil
  lt_length := by simp
  isDone i hi := by simp [hi]
  remaining := rfl
  output := rfl

/-- No more shards are seen than there are. -/
theorem length_le_of_nodup {n : ℕ} {seen : List ℕ} (nodup : seen.Nodup)
    (lt : ∀ i ∈ seen, i < n) : seen.length ≤ n := by
  have hsub : seen ⊆ List.range n := fun i hi => List.mem_range.mpr (lt i hi)
  simpa using (nodup.subperm hsub).length_le

/-- Looking at one shard folds it in if it is finished and was not yet seen. -/
theorem MergeInv.observe {s : MergeState} {seen : List ℕ} (h : MergeInv results s seen)
    (now : ℕ → Bool) {i : ℕ} (hi : i < results.length) :
    ∃ seen', MergeInv results (observe results now s i) seen' ∧ seen ⊆ seen' ∧
      (now i = true → i ∈ seen') := by
  have hres := List.getElem?_eq_getElem hi
  have hdone := h.isDone i hi
  by_cases hseen : i ∈ seen
  · refine ⟨seen, ?_, List.Subset.refl _, fun _ => hseen⟩
    simpa [OneBrc.observe, hdone, hseen] using h
  by_cases hnow : now i = true
  · have hbound : i < s.isDone.length := (List.getElem?_eq_some_iff.mp hdone).1
    have hnodup : (seen ++ [i]).Nodup := by
      simpa [List.nodup_append, h.nodup] using fun a ha (same : a = i) => hseen (same ▸ ha)
    have hlt : ∀ j ∈ seen ++ [i], j < results.length := by
      intro j hj
      rw [List.mem_append, List.mem_singleton] at hj
      obtain hj | rfl := hj
      · exact h.lt_length j hj
      · exact hi
    have hcount := length_le_of_nodup hnodup hlt
    have hremaining := h.remaining
    refine ⟨seen ++ [i], ?_, List.subset_append_left .., fun _ => by simp⟩
    rw [OneBrc.observe, hdone, hres]
    simp only [hseen, decide_false, hnow, if_true]
    refine ⟨hnodup, hlt, fun j hj => ?_, ?_, ?_⟩
    · by_cases same : i = j
      · subst same
        simp [List.getElem?_set_self hbound]
      · have hmem : j ∈ seen ++ [i] ↔ j ∈ seen := by simp [Ne.symm same]
        rw [List.getElem?_set_ne same, h.isDone j hj, decide_eq_decide.mpr hmem.symm]
    · rw [List.length_append, List.length_singleton] at hcount ⊢
      change s.remaining - 1 + (seen.length + 1) = results.length
      omega
    · refine Eq.trans ?_ (mergedOf_append_singleton seen hres).symm
      exact congrArg (fun output => some (match output with
        | none => results[i]
        | some output => combine output results[i])) h.output
  · refine ⟨seen, ?_, List.Subset.refl _, fun hn => absurd hn hnow⟩
    simpa [OneBrc.observe, hdone, hseen, hres, hnow] using h

/-- After a sweep every shard that it saw finished has been folded in. -/
theorem MergeInv.sweep {s : MergeState} {seen : List ℕ} (h : MergeInv results s seen)
    (now : ℕ → Bool) :
    ∃ seen', MergeInv results (sweep results now s) seen' ∧ seen ⊆ seen' ∧
      ∀ i < results.length, now i = true → i ∈ seen' := by
  have loop : ∀ n ≤ results.length, ∃ seen',
      MergeInv results ((List.range n).foldl (OneBrc.observe results now) s) seen' ∧
        seen ⊆ seen' ∧ ∀ i < n, now i = true → i ∈ seen' := by
    intro n
    induction n with
    | zero =>
        intro _
        exact ⟨seen, h, List.Subset.refl _, by omega⟩
    | succ n ih =>
        intro hn
        obtain ⟨seen₁, h₁, hsub₁, hall₁⟩ := ih (by omega)
        obtain ⟨seen₂, h₂, hsub₂, hlast⟩ := h₁.observe now (i := n) (by omega)
        refine ⟨seen₂, ?_, fun j hj => hsub₂ (hsub₁ hj), fun i hi hnow => ?_⟩
        · rw [List.range_succ, List.foldl_append]
          exact h₂
        · obtain hlt | rfl : i < n ∨ i = n := by omega
          · exact hsub₂ (hall₁ i hlt hnow)
          · exact hlast hnow
  exact loop _ (Nat.le_refl _)

/-- With nothing remaining the shards seen are all the shards. -/
theorem MergeInv.perm_of_done {s : MergeState} {seen : List ℕ} (h : MergeInv results s seen)
    (hzero : s.remaining = 0) : seen.Perm (List.range results.length) := by
  have hlen : seen.length = results.length := by
    have := h.remaining
    omega
  have hsub : seen ⊆ List.range results.length :=
    fun i hi => List.mem_range.mpr (h.lt_length i hi)
  exact (h.nodup.subperm hsub).perm_of_length_le (by simp [hlen])

/-- A loop that ends has folded in the maps of all shards. -/
theorem MergeInv.of_mergeFrom {s : MergeState} {seen : List ℕ} {fuel round : ℕ}
    (h : MergeInv results s seen) {output : Option StatMap}
    (hrun : OneBrc.mergeFrom results finished round fuel s = some output) :
    ∃ order : List ℕ, order.Perm (List.range results.length) ∧
      output = mergedOf results order := by
  induction fuel generalizing s seen round with
  | zero =>
      by_cases hzero : s.remaining = 0
      · rw [mergeFrom_done _ _ hzero, h.output] at hrun
        exact ⟨seen, h.perm_of_done hzero, (Option.some.inj hrun).symm⟩
      · rw [OneBrc.mergeFrom, if_neg hzero] at hrun
        cases hrun
  | succ fuel ih =>
      by_cases hzero : s.remaining = 0
      · rw [mergeFrom_done _ _ hzero, h.output] at hrun
        exact ⟨seen, h.perm_of_done hzero, (Option.some.inj hrun).symm⟩
      · rw [mergeFrom_succ _ _ hzero] at hrun
        obtain ⟨seen', h', -⟩ := h.sweep (finished round)
        exact ih h' hrun

/-- The loop ends once every shard was seen finished in some round, with the maps of all
of them folded in. -/
theorem MergeInv.mergeFrom {s : MergeState} {seen : List ℕ} {fuel round : ℕ}
    (h : MergeInv results s seen)
    (fair : ∀ i < results.length, i ∈ seen ∨
      ∃ r, round ≤ r ∧ r < round + fuel ∧ finished r i = true) :
    ∃ order : List ℕ, order.Perm (List.range results.length) ∧
      mergeFrom results finished round fuel s = some (mergedOf results order) := by
  induction fuel generalizing s seen round with
  | zero =>
      have hall : ∀ i < results.length, i ∈ seen := by
        intro i hi
        obtain hseen | ⟨r, hle, hlt, -⟩ := fair i hi
        · exact hseen
        · omega
      have hsub : List.range results.length ⊆ seen := fun i hi => hall i (List.mem_range.mp hi)
      have hlen : results.length ≤ seen.length := by
        simpa using (List.nodup_range.subperm hsub).length_le
      have hzero : s.remaining = 0 := by
        have := h.remaining
        omega
      exact ⟨seen, h.perm_of_done hzero, by rw [mergeFrom_done _ _ hzero, h.output]⟩
  | succ fuel ih =>
      by_cases hzero : s.remaining = 0
      · exact ⟨seen, h.perm_of_done hzero, by rw [mergeFrom_done _ _ hzero, h.output]⟩
      · obtain ⟨seen', h', hsub, hnow⟩ := h.sweep (finished round)
        obtain ⟨order, hperm, hrun⟩ := ih h' fun i hi => by
          obtain hseen | ⟨r, hle, hlt, hfin⟩ := fair i hi
          · exact Or.inl (hsub hseen)
          · obtain rfl | hgt : r = round ∨ round + 1 ≤ r := by omega
            · exact Or.inl (hnow i hi hfin)
            · exact Or.inr ⟨r, hgt, by omega, hfin⟩
        exact ⟨order, hperm, by rw [mergeFrom_succ _ _ hzero, hrun]⟩

/-- More rounds do not change what the loop returns. -/
theorem mergeFrom_mono {fuel round extra : ℕ} {s : MergeState} {output : Option StatMap}
    (h : mergeFrom results finished round fuel s = some output) :
    mergeFrom results finished round (fuel + extra) s = some output := by
  induction fuel generalizing s round with
  | zero =>
      have hzero : s.remaining = 0 := by
        by_contra hne
        rw [mergeFrom, if_neg hne] at h
        simp at h
      rw [mergeFrom_done _ _ hzero] at h ⊢
      exact h
  | succ fuel ih =>
      by_cases hzero : s.remaining = 0
      · rw [mergeFrom_done _ _ hzero] at h ⊢
        exact h
      · rw [mergeFrom_succ _ _ hzero] at h
        rw [show fuel + 1 + extra = fuel + extra + 1 by omega, mergeFrom_succ _ _ hzero]
        exact ih h

/-- Finitely many events that each happen in some round happen before a common one. -/
theorem exists_common_round {n : ℕ} {happens : ℕ → ℕ → Bool}
    (h : ∀ i < n, ∃ round, happens round i = true) :
    ∃ rounds, ∀ i < n, ∃ round < rounds, happens round i = true := by
  induction n with
  | zero => exact ⟨0, by omega⟩
  | succ n ih =>
      obtain ⟨rounds, hall⟩ := ih fun i hi => h i (by omega)
      obtain ⟨last, hlast⟩ := h n (by omega)
      refine ⟨max rounds (last + 1), fun i hi => ?_⟩
      obtain hlt | rfl : i < n ∨ i = n := by omega
      · obtain ⟨round, hround, hhappens⟩ := hall i hlt
        exact ⟨round, by omega, hhappens⟩
      · exact ⟨last, by omega, hlast⟩

end Merge

/-- The shards of a distribution all finish, each with a group-by of its lines. -/
theorem mapM_processShard {slotsBits : JInt} {b : ℕ} (hb : b ≤ 30)
    (hbits : slotsBits.toNat % 32 = b) {names : List (List Byte)} (few : names.length < 2 ^ b)
    (shards : List (List Visit))
    (ascii : ∀ shard ∈ shards, ∀ v ∈ shard, ∀ b ∈ v.line.name, b.toNat < 128)
    (hnames : ∀ shard ∈ shards, ∀ v ∈ shard, v.line.name ∈ names) :
    ∃ results, shards.mapM (processShard slotsBits) = some results ∧
      List.Forall₂ (fun map shard =>
        GroupedBy map (shard.map fun v => (v.line.station, v.line.temp.value))) results shards := by
  induction shards with
  | nil => exact ⟨[], rfl, List.Forall₂.nil⟩
  | cons shard shards ih =>
      obtain ⟨map, hmap, grouped⟩ := processShard_groupedBy hb hbits shard
        (ascii shard (by simp)) (hnames shard (by simp)) few
      obtain ⟨results, hresults, hall⟩ := ih (fun s hs => ascii s (by simp [hs]))
        (fun s hs => hnames s (by simp [hs]))
      refine ⟨map :: results, ?_, List.Forall₂.cons grouped hall⟩
      rw [List.mapM_cons, hmap, hresults]
      rfl

/-- The number of slots is a power of two whenever it is positive. -/
theorem slotCount_eq_two_pow {slotsBits : JInt} (h : 0 < (slotCount slotsBits).toInt) :
    slotsBits.toNat % 32 ≤ 30 ∧ (slotCount slotsBits).toInt = 2 ^ (slotsBits.toNat % 32) := by
  have hlt : slotsBits.toNat % 32 < 32 := Nat.mod_lt _ (by decide)
  have hle : slotsBits.toNat % 32 ≤ 30 := by
    by_contra hgt
    have h31 : slotsBits.toNat % 32 = 31 := by omega
    rw [slotCount, h31] at h
    exact absurd h (by decide)
  have hpow : 2 ^ (slotsBits.toNat % 32) ≤ 2 ^ 30 := Nat.pow_le_pow_right (by decide) hle
  refine ⟨hle, ?_⟩
  rw [BitVec.toInt_eq_toNat_cond, slotCount_toNat hle, if_pos (by omega)]
  push_cast
  rfl

/-- Every distribution of the lines over at least one shard, with either parser
and in any order, merged in any order in which the shards may be seen to finish,
gives the naive group-by: the stations of the input are the keys, and each has
the statistics of its temperatures. Up to `2 ^ 53` lines the `long` sum and
count are exact. -/
theorem merge_processShard_groupedBy (lines : List Line) (slotsBits : JInt)
    (shards : List (List Visit)) (finished : ℕ → ℕ → Bool)
    (ascii : ∀ line ∈ lines, ∀ b ∈ line.name, b.toNat < 128)
    (few : ((lines.map Line.name).dedup.length : Int) < (slotCount slotsBits).toInt)
    (some_shard : shards ≠ [])
    (assigned : (shards.flatten.map Visit.line).Perm lines)
    (fair : ∀ i < shards.length, ∃ round, finished round i = true) :
    ∃ results output rounds, shards.mapM (processShard slotsBits) = some results ∧
      (∀ fuel ≥ rounds, merge results finished fuel = some (some output)) ∧
      (∀ key, key ∈ output ↔ ∃ line ∈ lines, line.station = key) ∧
      ∀ (key : String) stat, output[key]? = some stat →
        stat.Summarizes (tempsOf key (lines.map fun l => (l.station, l.temp.value))) ∧
        (lines.length ≤ 2 ^ 53 →
          stat.sum.toInt = (tempsOf key (lines.map fun l => (l.station, l.temp.value))).sum ∧
          stat.count.toNat =
            (tempsOf key (lines.map fun l => (l.station, l.temp.value))).length) := by
  have hmem {shard : List Visit} (hshard : shard ∈ shards) {v : Visit} (hv : v ∈ shard) :
      v.line ∈ lines :=
    assigned.mem_iff.mp (List.mem_map_of_mem (List.mem_flatten_of_mem hshard hv))
  obtain ⟨hb, hcount⟩ := slotCount_eq_two_pow (show 0 < (slotCount slotsBits).toInt by omega)
  have few' : (lines.map Line.name).dedup.length < 2 ^ (slotsBits.toNat % 32) := by
    rw [hcount] at few
    exact_mod_cast few
  obtain ⟨results, hresults, grouped⟩ := mapM_processShard hb rfl few' shards
    (fun shard hshard v hv => ascii v.line (hmem hshard hv))
    (fun shard hshard v hv => List.mem_dedup.mpr (List.mem_map_of_mem (hmem hshard hv)))
  have hlen : results.length = shards.length := grouped.length_eq
  let readings (i : ℕ) : List (String × Int) :=
    (shards[i]?.getD []).map fun v => (v.line.station, v.line.temp.value)
  have hgrouped (i : ℕ) (map : StatMap) (hi : results[i]? = some map) :
      GroupedBy map (readings i) := by
    have hlt : i < results.length := (List.getElem?_eq_some_iff.mp hi).1
    have hlt' : i < shards.length := hlen ▸ hlt
    have hmap : results[i] = map := by
      rw [List.getElem?_eq_getElem hlt] at hi
      exact Option.some.inj hi
    have hshard := grouped.get hlt hlt'
    rw [List.get_eq_getElem, List.get_eq_getElem, hmap] at hshard
    simpa only [readings, List.getElem?_eq_getElem hlt', Option.getD_some] using hshard
  obtain ⟨rounds, hrounds⟩ := exists_common_round fair
  have hsome : results ≠ [] := by
    rintro rfl
    exact some_shard (List.length_eq_zero_iff.mp hlen.symm)
  have hfair : ∀ i < results.length, i ∈ ([] : List ℕ) ∨
      ∃ r, 0 ≤ r ∧ r < 0 + rounds ∧ finished r i = true := by
    intro i hi
    obtain ⟨r, hr, hfin⟩ := hrounds i (hlen ▸ hi)
    exact Or.inr ⟨r, Nat.zero_le _, by omega, hfin⟩
  obtain ⟨order, hperm, hrun⟩ := (mergeInv_init results).mergeFrom hfair
  obtain ⟨output, hout, houtput⟩ : ∃ output, mergedOf results order = some output ∧
      GroupedBy output ((List.range results.length).flatMap readings) := by
    obtain ⟨rfl, -⟩ | ⟨output, hout, houtput⟩ := groupedBy_mergedOf
      (fun i hi => List.mem_range.mp (hperm.mem_iff.mp hi)) hgrouped
    · exact absurd (List.length_eq_zero_iff.mp (by simpa using hperm.length_eq.symm)) hsome
    · exact ⟨output, hout, houtput.perm (hperm.flatMap_right _)⟩
  rw [hout] at hrun
  have hall : ((List.range results.length).flatMap readings).Perm
      (lines.map fun l => (l.station, l.temp.value)) := by
    have hshards : (List.range results.length).map (fun i => shards[i]?.getD []) = shards :=
      List.ext_getElem (by simp [hlen]) fun i hi hi' => by simp [hi']
    have hflat : (List.range results.length).flatMap readings =
        (shards.flatten.map Visit.line).map fun l => (l.station, l.temp.value) := by
      rw [List.map_map, List.map_flatten, ← List.flatMap_def, ← hshards, List.flatMap_map]
      rfl
    rw [hflat]
    exact assigned.map _
  have hfinal := houtput.perm hall
  refine ⟨results, output, rounds, hresults, fun fuel hfuel => ?_, fun key => ?_, ?_⟩
  · obtain ⟨extra, rfl⟩ := Nat.exists_eq_add_of_le hfuel
    exact mergeFrom_mono hrun
  · rw [hfinal.mem_iff]
    simp
  · intro key stat hstat
    have summary := hfinal.summarizes key stat hstat
    refine ⟨summary, fun hfew => ?_⟩
    have hlength : (tempsOf key (lines.map fun l => (l.station, l.temp.value))).length ≤
        lines.length := by
      rw [tempsOf, List.length_map]
      exact (List.length_filter_le _ _).trans (by simp)
    refine ⟨summary.sum_toInt (fun t ht => ?_) (by omega), summary.count_toNat (by omega)⟩
    obtain ⟨r, hr, rfl⟩ := List.mem_map.mp (mem_of_mem_tempsOf ht)
    obtain ⟨line, -, rfl⟩ := List.mem_map.mp hr
    exact line.temp.value_bounds

/-- Two stations over two shards: the first line is read by the slow parser, and
the second shard is the first to be seen finished. -/
theorem merge_processShard_groupedBy_two :
    ∃ results output rounds,
      [[Visit.mk ⟨[0x41], ⟨false, none, 1, 0⟩, by decide, by decide, by decide, by decide⟩
          true .littleEndian [] []],
        [Visit.mk ⟨[0x42], ⟨true, some 2, 3, 4⟩, by decide, by decide, by decide, by decide⟩
          false .bigEndian [newline] []]].mapM (processShard 2) = some results ∧
      (∀ fuel ≥ rounds, merge results (fun round i => decide (i = 1 ∨ round = 1)) fuel =
        some (some output)) ∧ newString [0x41] ∈ output := by
  let a : Line := ⟨[0x41], ⟨false, none, 1, 0⟩, by decide, by decide, by decide, by decide⟩
  let b : Line := ⟨[0x42], ⟨true, some 2, 3, 4⟩, by decide, by decide, by decide, by decide⟩
  obtain ⟨results, output, rounds, hresults, hmerge, hkeys, -⟩ :=
    merge_processShard_groupedBy [a, b] 2
      [[⟨a, true, .littleEndian, [], []⟩], [⟨b, false, .bigEndian, [newline], []⟩]]
      (fun round i => decide (i = 1 ∨ round = 1)) (by decide) (by decide) (by simp)
      (List.Perm.refl _) (fun i _ => ⟨1, by simp⟩)
  exact ⟨results, output, rounds, hresults, hmerge,
    (hkeys _).mpr ⟨a, List.mem_cons_self .., rfl⟩⟩

end Explore.OneBrc
