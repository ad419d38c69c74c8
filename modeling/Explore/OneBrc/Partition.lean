import Explore.Lib.FairRun
import Explore.OneBrc.Tiling

/-!
# Every line is processed exactly once

At any moment the lines of the file are the lines processed so far, the lines
each shard is responsible for (those of the range it holds, those of its unclaimed
chunks and, for shard 0 at its start, the tail) and the lines left in the common
pool. `Inv` says so, and that no shard is about to fail. Every step of every shard
keeps it, and every step of an unfinished shard decreases `workLeft`.
-/

namespace Explore.OneBrc

open ByteRange

/-- What the constructor of the queue and the line parsers provide: the file is
cut at a line boundary into a body shared by the shards and a tail. -/
structure Setup (p : Program) (left right : List Line) (c cc slack : ℕ) : Prop where
  file : p.queue.file = fileBytes (left ++ right)
  effective : p.queue.effectiveFileSize = (fileBytes left).length
  chunk : p.queue.chunkSize = c
  common : p.queue.commonChunkSize = cc
  chunk_pos : 0 < c
  common_pos : 0 < cc
  chunk_le : (c : ℤ) + 1024 ≤ p.queue.variant.bufSize
  common_le : (cc : ℤ) + 1024 ≤ p.queue.variant.bufSize
  advances : p.queue.fakeAdvance = false
  fast : StepsOverLines slack p.processLine
  slow : StepsOverLines 0 p.processLineSlow
  slack_le : slack ≤ 8
  tail_slack : left ≠ [] → slack ≤ (fileBytes right).length
  tail_small : (fileBytes right).length ≤ 2 ^ 20

section Work

variable (p : Program) (left right : List Line) (c : ℕ) (s : Shards)

/-- The lines that shard `i` is about to process. -/
def heldWork (i : ℕ) : List ℤ :=
  match s.pcs[i]? with
  | some .start => if i = 0 then (startsFrom (fileBytes left).length right).map Int.ofNat else []
  | some .holding => ((s.queue.byteRanges[i]?).bind (processRange p.processLine)).getD []
  | _ => []

/-- The lines of the chunks of shard `i` that it has not taken yet. -/
def unclaimedWork (i : ℕ) : List ℤ :=
  match s.queue.perThreadData[i]? with
  | some d =>
      (chunkLines (left ++ right) (fileBytes left).length c d.nextBegin.toNat
        d.remaining.toNat).map Int.ofNat
  | none => []

/-- The lines left in the common pool. -/
def poolWork : List ℤ :=
  if ((fileBytes left).length : ℤ) ≤ s.queue.commonPool then []
  else (owned (left ++ right) (fileBytes left).length s.queue.commonPool.toNat
    (fileBytes left).length).map Int.ofNat

def shardWork (i : ℕ) : List ℤ := heldWork p left right s i ++ unclaimedWork left right c s i

/-- All lines, wherever they are. -/
def allWork (shards : ℕ) : List ℤ :=
  s.processed ++ ((List.range shards).flatMap (shardWork p left right c s) ++ poolWork left right s)

/-- The invariant of every run. -/
structure Inv (shards : ℕ) : Prop where
  pcs_length : s.pcs.length = shards
  data_length : s.queue.perThreadData.length = shards
  ranges_length : s.queue.byteRanges.length = shards
  pool_nonneg : 0 ≤ s.queue.commonPool
  window : ∀ (i : ℕ) br, s.queue.byteRanges[i]? = some br → Window (fileBytes (left ++ right)) br
  data : ∀ (i : ℕ) d, s.queue.perThreadData[i]? = some d → 0 ≤ d.nextBegin ∧ 0 ≤ d.remaining ∧
    d.nextBegin + d.remaining * c ≤ (fileBytes left).length
  held : ∀ i : ℕ, s.pcs[i]? = some .holding →
    ∃ br starts, s.queue.byteRanges[i]? = some br ∧ processRange p.processLine br = some starts
  finished : ∀ i : ℕ, s.pcs[i]? = some .done → ((fileBytes left).length : ℤ) ≤ s.queue.commonPool ∧
    ∃ d, s.queue.perThreadData[i]? = some d ∧ d.remaining = 0
  accounting : (allWork p left right c s shards).Perm
    ((lineStarts (left ++ right)).map Int.ofNat)

end Work

/-- Only shard `i` and the pool have changed, and between them nothing is lost or
gained. -/
theorem allWork_perm {p : Program} {left right : List Line} {c shards i : ℕ} {s s' : Shards}
    (hi : i < shards)
    (others : ∀ j, j ≠ i → shardWork p left right c s' j = shardWork p left right c s j)
    (balance : (s'.processed ++ (shardWork p left right c s' i ++ poolWork left right s')).Perm
      (s.processed ++ (shardWork p left right c s i ++ poolWork left right s))) :
    (allWork p left right c s' shards).Perm (allWork p left right c s shards) := by
  have extract (f : ℕ → List ℤ) : ((List.range shards).flatMap f).Perm
      (f i ++ ((List.range shards).erase i).flatMap f) :=
    (List.perm_cons_erase (List.mem_range.mpr hi)).flatMap_right f
  have same : ((List.range shards).erase i).flatMap (shardWork p left right c s') =
      ((List.range shards).erase i).flatMap (shardWork p left right c s) := by
    rw [List.flatMap_def, List.flatMap_def]
    congr 1
    apply List.map_congr_left
    intro j hj
    exact others j ((List.nodup_range.mem_erase_iff).mp hj).1
  rw [List.perm_iff_count] at balance ⊢
  intro a
  have h := (extract (shardWork p left right c s)).count_eq a
  have h' := (extract (shardWork p left right c s')).count_eq a
  have hb := balance a
  simp only [allWork, List.count_append, same] at h h' hb ⊢
  omega

/-- What holds of all entries of a list holds after one is replaced, if it holds of that one. -/
theorem forall_getElem?_set {α : Type*} {l : List α} {P : ℕ → α → Prop} {i : ℕ} {x : α}
    (h : ∀ j y, l[j]? = some y → P j y) (hx : P i x) : ∀ j y, (l.set i x)[j]? = some y → P j y := by
  intro j y hj
  by_cases hne : i = j
  · subst hne
    obtain ⟨hlt, rfl⟩ := List.getElem?_eq_some_iff.mp hj
    rwa [List.getElem_set_self]
  · rw [List.getElem?_set_ne hne] at hj
    exact h j y hj

section Steps

variable {p : Program} {left right : List Line} {c cc slack shards i : ℕ} {s : Shards}

/-- Replacing the entries of shard `i` leaves the work of the others alone. -/
theorem shardWork_congr {s' : Shards} {j : ℕ} (hpc : s'.pcs[j]? = s.pcs[j]?)
    (hdata : s'.queue.perThreadData[j]? = s.queue.perThreadData[j]?)
    (hrange : s'.queue.byteRanges[j]? = s.queue.byteRanges[j]?) :
    shardWork p left right c s' j = shardWork p left right c s j := by
  rw [shardWork, shardWork, heldWork, heldWork, unclaimedWork, unclaimedWork, hpc, hdata, hrange]

/-- The tail of the file is set up and processed without failing. -/
theorem processTail_eq (h : Setup p left right c cc slack) (i : ℕ) :
    p.processTail i =
      some (if i = 0 then (startsFrom (fileBytes left).length right).map Int.ofNat else []) := by
  have hF : (fileBytes (left ++ right)).length =
      (fileBytes left).length + (fileBytes right).length := by
    rw [fileBytes_append, List.length_append]
  have hbuf : 2 ^ 28 ≤ p.queue.variant.bufSize := by cases p.queue.variant <;> decide
  have hsmall := h.tail_small
  by_cases hi : i = 0
  · by_cases hright : (fileBytes right).length = 0
    · have hnil : startsFrom (fileBytes left).length right = [] := by
        cases right with
        | nil => rfl
        | cons line right =>
            have := line.length_bytes.1
            rw [fileBytes_cons, List.length_append] at hright
            omega
      rw [Program.processTail, SerialLazyShardQueue.fileTailEndWork, h.effective, h.file,
        if_neg (by omega), if_pos hi, hnil]
      rfl
    · have hstart : (if p.queue.effectiveFileSize = 0 then 0 else p.queue.effectiveFileSize - 1) =
          (((fileBytes left).length - 1 : ℕ) : ℤ) := by
        rw [h.effective]
        split <;> omega
      have hset := processRange_setRange p.queue.variant h.slow (by omega)
        (show 0 ≤ (fileBytes ([] : List Line)).length by simp)
        (show Window (fileBytes ((left ++ right) ++ [])) _ by
          rw [List.append_nil]
          exact window_new _)
        (s := (fileBytes left).length - 1) (e := (fileBytes (left ++ right)).length) (by omega)
        (by omega) (by omega)
      rw [List.append_nil] at hset
      obtain ⟨br, hbr, -, hrun⟩ := hset
      rw [owned_tail] at hrun
      rw [Program.processTail, SerialLazyShardQueue.fileTailEndWork, hstart, h.effective, h.file,
        if_pos (by omega), if_pos hi, hbr]
      exact hrun
  · rw [Program.processTail, SerialLazyShardQueue.fileTailEndWork, if_neg (by omega), if_neg hi]
    rfl

/-- `serve` sets the range, with or without a cleanup before. -/
theorem serve_eq (h : Setup p left right c cc slack) {st : QueueState} {br : ByteRange}
    (hbr : st.byteRanges[i]? = some br) (hwindow : Window (fileBytes (left ++ right)) br)
    (data : ThreadData) (acquired : Bool) {a b : ℕ} (ha : a < (fileBytes left).length)
    (hab : a < b) (hsize : (b : ℤ) - a + 1024 ≤ p.queue.variant.bufSize) :
    ∃ unmaps br', p.queue.serve st i data a b acquired =
        some { st with
          perThreadData := st.perThreadData.set i { data with unmaps := unmaps }
          byteRanges := st.byteRanges.set i br' } ∧
      Window (fileBytes (left ++ right)) br' ∧
      processRange p.processLine br' =
        some ((owned (left ++ right) (fileBytes left).length a b).map Int.ofNat) := by
  have hslack : slack ≤ (fileBytes right).length := by
    apply h.tail_slack
    rintro rfl
    simp at ha
  generalize hcleans : (decide (data.remaining < data.threshold ∧ data.unmaps > 0) && acquired) =
    cleans
  have hwindow' : Window (fileBytes (left ++ right)) (if cleans then br.close else br) := by
    cases cleans
    · exact hwindow
    · exact hwindow.close
  obtain ⟨br', hset, hwin, hrun⟩ := processRange_setRange p.queue.variant h.fast h.slack_le hslack
    hwindow' ha hab hsize
  refine ⟨if cleans then data.unmaps - 1 else data.unmaps, br', ?_, hwin, hrun⟩
  simp only [SerialLazyShardQueue.serve, hbr, h.file, h.effective, hcleans, hset,
    Option.bind_eq_bind, Option.bind_some]

/-- Shard `i` has processed the lines it held. -/
def Shards.release (s : Shards) (i : ℕ) (starts : List ℤ) : Shards :=
  { s with pcs := s.pcs.set i .ready, processed := s.processed ++ starts }

/-- A shard at its start processes the tail, if it is shard 0. -/
theorem step_start (h : Setup p left right c cc slack) (hpc : s.pcs[i]? = some .start)
    (acquired : Bool) : p.step s i acquired = some (s.release i (heldWork p left right s i)) := by
  simp only [Program.step, heldWork, Shards.release, hpc, processTail_eq h i, Option.bind_eq_bind,
    Option.bind_some]

/-- A shard that holds a range processes its lines. -/
theorem step_holding (inv : Inv p left right c s shards) (hpc : s.pcs[i]? = some .holding)
    (acquired : Bool) : p.step s i acquired = some (s.release i (heldWork p left right s i)) := by
  obtain ⟨br, starts, hbr, hrun⟩ := inv.held i hpc
  simp [Program.step, heldWork, Shards.release, hpc, hbr, hrun]

/-- Lines move from the shard that held them to those processed. -/
theorem Inv.release (inv : Inv p left right c s shards) (hi : i < shards) :
    Inv p left right c (s.release i (heldWork p left right s i)) shards := by
  have hlt : i < s.pcs.length := by rw [inv.pcs_length]; exact hi
  have hpc : (s.release i (heldWork p left right s i)).pcs[i]? = some .ready :=
    List.getElem?_set_self hlt
  have hother {j : ℕ} (hne : j ≠ i) :
      (s.release i (heldWork p left right s i)).pcs[j]? = s.pcs[j]? :=
    List.getElem?_set_ne (Ne.symm hne)
  refine { inv with
    pcs_length := by simpa [Shards.release] using inv.pcs_length
    held := fun j hj => ?_
    finished := fun j hj => ?_
    accounting := (allWork_perm hi (fun j hne => shardWork_congr (hother hne) rfl rfl) ?_).trans
      inv.accounting }
  · by_cases hne : j = i
    · subst hne
      rw [hpc] at hj
      simp at hj
    · rw [hother hne] at hj
      exact inv.held j hj
  · by_cases hne : j = i
    · subst hne
      rw [hpc] at hj
      simp at hj
    · rw [hother hne] at hj
      exact inv.finished j hj
  · have hnone : heldWork p left right (s.release i (heldWork p left right s i)) i = [] := by
      rw [heldWork, hpc]
    rw [shardWork, hnone, List.nil_append, shardWork, List.append_assoc]
    exact (List.append_assoc s.processed _ _) ▸ List.Perm.refl _

/-- The state after shard `i` took a range. -/
def Shards.taken (s : Shards) (i : ℕ) (commonPool : ℤ) (data : ThreadData) (br : ByteRange) :
    Shards :=
  { s with
    queue :=
      { commonPool := commonPool
        perThreadData := s.queue.perThreadData.set i data
        byteRanges := s.queue.byteRanges.set i br }
    pcs := s.pcs.set i .holding }

/-- Lines move from the unclaimed chunks or the pool to the shard that took them. -/
theorem Inv.taken (inv : Inv p left right c s shards) (hi : i < shards)
    (hpc : s.pcs[i]? = some .ready) {commonPool : ℤ} (hpool : s.queue.commonPool ≤ commonPool)
    {data : ThreadData} (hdata : 0 ≤ data.nextBegin ∧ 0 ≤ data.remaining ∧
      data.nextBegin + data.remaining * c ≤ (fileBytes left).length)
    {br : ByteRange} (hwindow : Window (fileBytes (left ++ right)) br) {starts : List ℤ}
    (hrun : processRange p.processLine br = some starts)
    (balance : (starts ++ (unclaimedWork left right c (s.taken i commonPool data br) i ++
      poolWork left right (s.taken i commonPool data br))).Perm
        (unclaimedWork left right c s i ++ poolWork left right s)) :
    Inv p left right c (s.taken i commonPool data br) shards := by
  have hlt : i < s.pcs.length := by rw [inv.pcs_length]; exact hi
  have hlt_data : i < s.queue.perThreadData.length := by rw [inv.data_length]; exact hi
  have hlt_br : i < s.queue.byteRanges.length := by rw [inv.ranges_length]; exact hi
  have hpc' : (s.taken i commonPool data br).pcs[i]? = some .holding := List.getElem?_set_self hlt
  have hbr' : (s.taken i commonPool data br).queue.byteRanges[i]? = some br :=
    List.getElem?_set_self hlt_br
  have hdata' : (s.taken i commonPool data br).queue.perThreadData[i]? = some data :=
    List.getElem?_set_self hlt_data
  have other_pc {j : ℕ} (hne : j ≠ i) : (s.taken i commonPool data br).pcs[j]? = s.pcs[j]? :=
    List.getElem?_set_ne (Ne.symm hne)
  have other_br {j : ℕ} (hne : j ≠ i) :
      (s.taken i commonPool data br).queue.byteRanges[j]? = s.queue.byteRanges[j]? :=
    List.getElem?_set_ne (Ne.symm hne)
  have other_data {j : ℕ} (hne : j ≠ i) :
      (s.taken i commonPool data br).queue.perThreadData[j]? = s.queue.perThreadData[j]? :=
    List.getElem?_set_ne (Ne.symm hne)
  refine
    { pcs_length := by simpa [Shards.taken] using inv.pcs_length
      data_length := by simpa [Shards.taken] using inv.data_length
      ranges_length := by simpa [Shards.taken] using inv.ranges_length
      pool_nonneg := le_trans inv.pool_nonneg hpool
      window := fun j b hj => ?_
      data := fun j d hj => ?_
      held := fun j hj => ?_
      finished := fun j hj => ?_
      accounting := (allWork_perm hi (fun j hne => shardWork_congr (other_pc hne) (other_data hne)
        (other_br hne)) ?_).trans inv.accounting }
  · by_cases hne : j = i
    · subst hne
      rw [hbr'] at hj
      obtain rfl : br = b := by simpa using hj
      exact hwindow
    · rw [other_br hne] at hj
      exact inv.window j b hj
  · by_cases hne : j = i
    · subst hne
      rw [hdata'] at hj
      obtain rfl : data = d := by simpa using hj
      exact hdata
    · rw [other_data hne] at hj
      exact inv.data j d hj
  · by_cases hne : j = i
    · subst hne
      exact ⟨br, starts, hbr', hrun⟩
    · rw [other_pc hne] at hj
      rw [other_br hne]
      exact inv.held j hj
  · by_cases hne : j = i
    · subst hne
      rw [hpc'] at hj
      simp at hj
    · rw [other_pc hne] at hj
      rw [other_data hne]
      obtain ⟨hdone, hrest⟩ := inv.finished j hj
      exact ⟨le_trans hdone hpool, hrest⟩
  · have hheld : heldWork p left right (s.taken i commonPool data br) i = starts := by
      rw [heldWork, hpc', hbr', Option.bind_some, hrun, Option.getD_some]
    have hbefore : heldWork p left right s i = [] := by
      rw [heldWork, hpc]
    rw [shardWork, hheld, shardWork, hbefore, List.nil_append, List.append_assoc]
    exact balance.append_left _

/-- The state after shard `i` found nothing left to take. -/
def Shards.exhausted (s : Shards) (i : ℕ) (commonPool : ℤ) : Shards :=
  { s with queue := { s.queue with commonPool := commonPool }, pcs := s.pcs.set i .done }

theorem Inv.exhausted (inv : Inv p left right c s shards) (hi : i < shards)
    (hpc : s.pcs[i]? = some .ready) {data : ThreadData}
    (hdata : s.queue.perThreadData[i]? = some data) (hnone : data.remaining = 0)
    (hempty : ((fileBytes left).length : ℤ) ≤ s.queue.commonPool) {commonPool : ℤ}
    (hpool : s.queue.commonPool ≤ commonPool) :
    Inv p left right c (s.exhausted i commonPool) shards := by
  have hlt : i < s.pcs.length := by rw [inv.pcs_length]; exact hi
  have hpc' : (s.exhausted i commonPool).pcs[i]? = some .done := List.getElem?_set_self hlt
  have other_pc {j : ℕ} (hne : j ≠ i) : (s.exhausted i commonPool).pcs[j]? = s.pcs[j]? :=
    List.getElem?_set_ne (Ne.symm hne)
  refine { inv with
    pcs_length := by simpa [Shards.exhausted] using inv.pcs_length
    pool_nonneg := le_trans inv.pool_nonneg hpool
    held := fun j hj => ?_
    finished := fun j hj => ?_
    accounting := (allWork_perm hi (fun j hne => shardWork_congr (other_pc hne) rfl rfl) ?_).trans
      inv.accounting }
  · by_cases hne : j = i
    · subst hne
      rw [hpc'] at hj
      simp at hj
    · rw [other_pc hne] at hj
      exact inv.held j hj
  · refine ⟨le_trans hempty hpool, ?_⟩
    by_cases hne : j = i
    · subst hne
      exact ⟨data, hdata, hnone⟩
    · rw [other_pc hne] at hj
      exact (inv.finished j hj).2
  · have hheld : heldWork p left right (s.exhausted i commonPool) i = [] := by
      rw [heldWork, hpc']
    have hbefore : heldWork p left right s i = [] := by
      rw [heldWork, hpc]
    have hpool' : poolWork left right (s.exhausted i commonPool) = [] :=
      if_pos (le_trans hempty hpool)
    have hpool₀ : poolWork left right s = [] := if_pos hempty
    rw [shardWork, hheld, shardWork, hbefore, hpool', hpool₀]
    exact List.Perm.refl _

/-- How far a shard is from being done, apart from its chunks. -/
def ShardPc.distance : ShardPc → ℕ
  | .start => 2
  | .ready => 1
  | .holding => 2
  | .done => 0

/-- The steps that shard `i` may still take on its own. -/
def shardLeft (s : Shards) (i : ℕ) : ℕ :=
  ((s.pcs[i]?).map ShardPc.distance).getD 0 +
    2 * ((s.queue.perThreadData[i]?).map fun d => d.remaining.toNat).getD 0

/-- A bound on the steps that are left, counting two for each byte of the pool. -/
def workLeft (left : List Line) (shards : ℕ) (s : Shards) : ℕ :=
  ((List.range shards).map (shardLeft s)).sum +
    2 * (((fileBytes left).length : ℤ) - s.queue.commonPool).toNat

theorem workLeft_lt {s' : Shards} (hi : i < shards)
    (others : ∀ j, j ≠ i → shardLeft s' j = shardLeft s j)
    (own : shardLeft s' i + 2 * (((fileBytes left).length : ℤ) - s'.queue.commonPool).toNat <
      shardLeft s i + 2 * (((fileBytes left).length : ℤ) - s.queue.commonPool).toNat) :
    workLeft left shards s' < workLeft left shards s := by
  have extract (f : ℕ → ℕ) : ((List.range shards).map f).sum =
      f i + (((List.range shards).erase i).map f).sum :=
    ((List.perm_cons_erase (List.mem_range.mpr hi)).map f).sum_eq
  have same : ((List.range shards).erase i).map (shardLeft s') =
      ((List.range shards).erase i).map (shardLeft s) := by
    apply List.map_congr_left
    intro j hj
    exact others j ((List.nodup_range.mem_erase_iff).mp hj).1
  rw [workLeft, workLeft, extract, extract, same]
  omega

theorem shardLeft_congr {s' : Shards} {j : ℕ} (hpc : s'.pcs[j]? = s.pcs[j]?)
    (hdata : s'.queue.perThreadData[j]? = s.queue.perThreadData[j]?) :
    shardLeft s' j = shardLeft s j := by
  rw [shardLeft, shardLeft, hpc, hdata]

/-- Processing what it holds brings a shard closer to being done. -/
theorem workLeft_release (inv : Inv p left right c s shards) (hi : i < shards)
    (hpc : s.pcs[i]? = some .start ∨ s.pcs[i]? = some .holding) (starts : List ℤ) :
    workLeft left shards (s.release i starts) < workLeft left shards s := by
  have hlt : i < s.pcs.length := by rw [inv.pcs_length]; exact hi
  refine workLeft_lt hi (fun j hne => shardLeft_congr (List.getElem?_set_ne (Ne.symm hne)) rfl) ?_
  have hpc' : (s.release i starts).pcs[i]? = some .ready := List.getElem?_set_self hlt
  have hdata : (s.release i starts).queue = s.queue := rfl
  obtain hpc | hpc := hpc <;>
    simp only [shardLeft, hpc, hpc', hdata, Option.map_some, Option.getD_some, ShardPc.distance] <;>
    omega

/-- Taking a range uses up a chunk or a part of the pool. -/
theorem workLeft_taken (inv : Inv p left right c s shards) (hi : i < shards)
    (hpc : s.pcs[i]? = some .ready) {commonPool : ℤ} {data data' : ThreadData}
    (hdata : s.queue.perThreadData[i]? = some data) (br : ByteRange)
    (less : data'.remaining.toNat + (((fileBytes left).length : ℤ) - commonPool).toNat <
      data.remaining.toNat + (((fileBytes left).length : ℤ) - s.queue.commonPool).toNat) :
    workLeft left shards (s.taken i commonPool data' br) < workLeft left shards s := by
  have hlt : i < s.pcs.length := by rw [inv.pcs_length]; exact hi
  have hlt_data : i < s.queue.perThreadData.length := by rw [inv.data_length]; exact hi
  refine workLeft_lt hi (fun j hne => shardLeft_congr (List.getElem?_set_ne (Ne.symm hne))
    (List.getElem?_set_ne (Ne.symm hne))) ?_
  have hpc' : (s.taken i commonPool data' br).pcs[i]? = some .holding := List.getElem?_set_self hlt
  have hdata' : (s.taken i commonPool data' br).queue.perThreadData[i]? = some data' :=
    List.getElem?_set_self hlt_data
  have hpool : (s.taken i commonPool data' br).queue.commonPool = commonPool := rfl
  simp only [shardLeft, hpc, hpc', hdata, hdata', hpool, Option.map_some, Option.getD_some,
    ShardPc.distance]
  omega

theorem workLeft_exhausted (inv : Inv p left right c s shards) (hi : i < shards)
    (hpc : s.pcs[i]? = some .ready) {commonPool : ℤ} (hpool : s.queue.commonPool ≤ commonPool) :
    workLeft left shards (s.exhausted i commonPool) < workLeft left shards s := by
  have hlt : i < s.pcs.length := by rw [inv.pcs_length]; exact hi
  refine workLeft_lt hi (fun j hne => shardLeft_congr (List.getElem?_set_ne (Ne.symm hne)) rfl) ?_
  have hpc' : (s.exhausted i commonPool).pcs[i]? = some .done := List.getElem?_set_self hlt
  have hdata : (s.exhausted i commonPool).queue.perThreadData = s.queue.perThreadData := rfl
  have hpool' : (s.exhausted i commonPool).queue.commonPool = commonPool := rfl
  simp only [shardLeft, hpc, hpc', hdata, hpool', Option.map_some, Option.getD_some,
    ShardPc.distance]
  omega

/-- A shard takes the next of its own chunks. -/
theorem step_own (h : Setup p left right c cc slack) (inv : Inv p left right c s shards)
    (hi : i < shards) (hpc : s.pcs[i]? = some .ready) (acquired : Bool) {data : ThreadData}
    (hdata : s.queue.perThreadData[i]? = some data) (some_left : 1 ≤ data.remaining) :
    ∃ s', p.step s i acquired = some s' ∧ Inv p left right c s' shards ∧
      workLeft left shards s' < workLeft left shards s := by
  have hlt_data : i < s.queue.perThreadData.length := by rw [inv.data_length]; exact hi
  obtain ⟨br, hbr⟩ : ∃ br, s.queue.byteRanges[i]? = some br :=
    ⟨_, List.getElem?_eq_getElem (by rw [inv.ranges_length]; exact hi)⟩
  obtain ⟨hbegin, -, hfit⟩ := inv.data i data hdata
  obtain ⟨a, ha⟩ := Int.eq_ofNat_of_zero_le hbegin
  obtain ⟨r, hr⟩ : ∃ r : ℕ, data.remaining = r + 1 := ⟨(data.remaining - 1).toNat, by omega⟩
  have hc := h.chunk_pos
  have hac : a + c + r * c ≤ (fileBytes left).length := by
    rw [ha, hr] at hfit
    have : a + c + r * c = a + (r + 1) * c := by ring
    rw [this]
    exact_mod_cast hfit
  obtain ⟨unmaps, br', hserve, hwin, hrun⟩ := serve_eq h hbr (inv.window i br hbr)
    { data with remaining := data.remaining - 1, nextBegin := data.nextBegin + c } acquired
    (a := a) (b := a + c) (by omega) (by omega) (by have := h.chunk_le; push_cast; omega)
  have hend : ((a + c : ℕ) : ℤ) = data.nextBegin + c := by push_cast; omega
  rw [hend, ← ha] at hserve
  refine ⟨s.taken i s.queue.commonPool
    ⟨data.nextBegin + c, data.remaining - 1, data.threshold, unmaps⟩ br', ?_, ?_,
    workLeft_taken inv hi hpc hdata br' (by simp only; omega)⟩
  · simp only [Program.step, hpc, SerialLazyShardQueue.take, hdata, Option.bind_eq_bind,
      Option.bind_some, if_pos (ge_iff_le.mpr some_left), h.advances, h.chunk, Bool.false_eq_true,
      if_false]
    rw [hserve]
    rfl
  · refine inv.taken hi hpc (le_refl _) ⟨by simp only; omega, by simp only; omega, ?_⟩ hwin hrun ?_
    · have hrest : data.remaining - 1 = r := by omega
      simp only [ha, hrest]
      exact_mod_cast hac
    · have hnew : (s.taken i s.queue.commonPool
          ⟨data.nextBegin + c, data.remaining - 1, data.threshold, unmaps⟩
          br').queue.perThreadData[i]? =
          some ⟨data.nextBegin + c, data.remaining - 1, data.threshold, unmaps⟩ :=
        List.getElem?_set_self hlt_data
      have h1 : (data.nextBegin + (c : ℤ)).toNat = a + c := by omega
      have h2 : (data.remaining - 1).toNat = r := by omega
      have h3 : data.nextBegin.toNat = a := by omega
      have h4 : data.remaining.toNat = r + 1 := by omega
      have hsame : poolWork left right (s.taken i s.queue.commonPool
          ⟨data.nextBegin + c, data.remaining - 1, data.threshold, unmaps⟩ br') =
          poolWork left right s := rfl
      rw [unclaimedWork, hnew, unclaimedWork, hdata, hsame]
      simp only [h1, h2, h3, h4]
      rw [chunkLines_succ, List.map_append, List.append_assoc]

theorem poolWork_eq (left right : List Line) {pool : ℕ} (hpool : s.queue.commonPool = pool) :
    poolWork left right s = (if (fileBytes left).length ≤ pool then []
      else owned (left ++ right) (fileBytes left).length pool
        (fileBytes left).length).map Int.ofNat := by
  rw [poolWork, hpool, Int.toNat_natCast]
  by_cases hle : (fileBytes left).length ≤ pool
  · rw [if_pos (by exact_mod_cast hle), if_pos hle, List.map_nil]
  · rw [if_neg (by exact_mod_cast hle), if_neg hle]

/-- The pool before a chunk is taken from it, as the chunk and the pool after. -/
theorem poolWork_perm (left right : List Line) (hcc : 0 < cc) {pool : ℕ}
    (hpool : s.queue.commonPool = pool)
    (some_left : pool < (fileBytes left).length) {s' : Shards}
    (hpool' : s'.queue.commonPool = s.queue.commonPool + cc) :
    ((owned (left ++ right) (fileBytes left).length pool (pool + cc)).map Int.ofNat ++
      poolWork left right s').Perm (poolWork left right s) := by
  have hperm := (owned_pool_perm (left ++ right) (M := (fileBytes left).length)
    (s := pool) (m := pool + cc) (by omega) (by omega)).map Int.ofNat
  have hafter := poolWork_eq left right
    (show s'.queue.commonPool = (pool + cc : ℕ) by rw [hpool', hpool]; push_cast; rfl)
  have hbefore : poolWork left right s = (owned (left ++ right) (fileBytes left).length pool
      (fileBytes left).length).map Int.ofNat := by
    rw [poolWork_eq left right hpool, if_neg (by omega)]
  rw [hafter, hbefore, ← List.map_append]
  exact hperm

/-- A shard without own chunks takes one from the common pool. -/
theorem step_pool (h : Setup p left right c cc slack) (inv : Inv p left right c s shards)
    (hi : i < shards) (hpc : s.pcs[i]? = some .ready) (acquired : Bool) {data : ThreadData}
    (hdata : s.queue.perThreadData[i]? = some data) (none_left : data.remaining = 0)
    (pool_left : s.queue.commonPool < (fileBytes left).length) :
    ∃ s', p.step s i acquired = some s' ∧ Inv p left right c s' shards ∧
      workLeft left shards s' < workLeft left shards s := by
  have hlt_data : i < s.queue.perThreadData.length := by rw [inv.data_length]; exact hi
  obtain ⟨br, hbr⟩ : ∃ br, s.queue.byteRanges[i]? = some br :=
    ⟨_, List.getElem?_eq_getElem (by rw [inv.ranges_length]; exact hi)⟩
  obtain ⟨pool, hpool⟩ := Int.eq_ofNat_of_zero_le inv.pool_nonneg
  have hcc := h.common_pos
  obtain ⟨unmaps, br', hserve, hwin, hrun⟩ := serve_eq h
    (show { s.queue with commonPool := s.queue.commonPool + cc }.byteRanges[i]? = some br from hbr)
    (inv.window i br hbr) data
    acquired (a := pool) (b := pool + cc) (by omega) (by omega)
    (by have := h.common_le; push_cast; omega)
  have hend : ((pool + cc : ℕ) : ℤ) = s.queue.commonPool + cc := by push_cast; omega
  rw [hend, ← hpool] at hserve
  refine ⟨s.taken i (s.queue.commonPool + cc) { data with unmaps := unmaps } br', ?_, ?_,
    workLeft_taken inv hi hpc hdata br' (by simp only; omega)⟩
  · simp only [Program.step, hpc, SerialLazyShardQueue.take, hdata, Option.bind_eq_bind,
      Option.bind_some, if_neg (show ¬ data.remaining ≥ 1 by omega), h.common, h.effective,
      if_neg (show ¬ s.queue.commonPool ≥ ((fileBytes left).length : ℤ) by omega)]
    rw [hserve]
    rfl
  · refine inv.taken hi hpc (by omega)
      (show (0 : ℤ) ≤ { data with unmaps := unmaps }.nextBegin ∧ _ from inv.data i data hdata)
      hwin hrun ?_
    have hnew : (s.taken i (s.queue.commonPool + cc) { data with unmaps := unmaps }
        br').queue.perThreadData[i]? = some { data with unmaps := unmaps } :=
      List.getElem?_set_self hlt_data
    have hunclaimed : unclaimedWork left right c (s.taken i (s.queue.commonPool + cc)
        { data with unmaps := unmaps } br') i = unclaimedWork left right c s i := by
      rw [unclaimedWork, hnew, unclaimedWork, hdata]
    have hpools := poolWork_perm left right hcc hpool (by omega)
      (show (s.taken i (s.queue.commonPool + cc) { data with unmaps := unmaps }
        br').queue.commonPool = s.queue.commonPool + cc from rfl)
    rw [hunclaimed]
    refine List.Perm.trans ?_ (hpools.append_left _)
    rw [← List.append_assoc, ← List.append_assoc]
    exact List.perm_append_comm.append_right _

/-- `take` returns null when nothing is left for this shard. -/
theorem step_exhausted (h : Setup p left right c cc slack) (inv : Inv p left right c s shards)
    (hi : i < shards) (hpc : s.pcs[i]? = some .ready) (acquired : Bool) {data : ThreadData}
    (hdata : s.queue.perThreadData[i]? = some data) (none_left : data.remaining = 0)
    (pool_empty : ((fileBytes left).length : ℤ) ≤ s.queue.commonPool) :
    ∃ s', p.step s i acquired = some s' ∧ Inv p left right c s' shards ∧
      workLeft left shards s' < workLeft left shards s := by
  refine ⟨s.exhausted i (s.queue.commonPool + cc), ?_,
    inv.exhausted hi hpc hdata none_left pool_empty (by omega),
    workLeft_exhausted inv hi hpc (by omega)⟩
  simp only [Program.step, hpc, SerialLazyShardQueue.take, hdata, Option.bind_eq_bind,
    Option.bind_some, if_neg (show ¬ data.remaining ≥ 1 by omega), h.common, h.effective,
    if_pos (ge_iff_le.mpr pool_empty)]
  rfl

/-- No step fails, every step keeps the invariant, and a step of an unfinished
shard leaves less to do. -/
theorem Inv.step (h : Setup p left right c cc slack) (inv : Inv p left right c s shards) (i : ℕ)
    (acquired : Bool) :
    ∃ s', p.step s i acquired = some s' ∧ Inv p left right c s' shards ∧
      (workLeft left shards s' < workLeft left shards s ∨
        s' = s ∧ (i < shards → s.pcs[i]? = some .done)) := by
  by_cases hi : i < shards
  · obtain ⟨pc, hpc⟩ : ∃ pc, s.pcs[i]? = some pc :=
      ⟨_, List.getElem?_eq_getElem (by rw [inv.pcs_length]; exact hi)⟩
    obtain ⟨data, hdata⟩ : ∃ data, s.queue.perThreadData[i]? = some data :=
      ⟨_, List.getElem?_eq_getElem (by rw [inv.data_length]; exact hi)⟩
    cases pc with
    | start =>
        exact ⟨_, step_start h hpc acquired, inv.release hi,
          Or.inl (workLeft_release inv hi (Or.inl hpc) _)⟩
    | holding =>
        exact ⟨_, step_holding inv hpc acquired, inv.release hi,
          Or.inl (workLeft_release inv hi (Or.inr hpc) _)⟩
    | done => exact ⟨s, by rw [Program.step, hpc], inv, Or.inr ⟨rfl, fun _ => hpc⟩⟩
    | ready =>
        obtain ⟨-, hremaining, -⟩ := inv.data i data hdata
        obtain ⟨s', hstep, inv', hless⟩ : ∃ s', p.step s i acquired = some s' ∧
            Inv p left right c s' shards ∧ workLeft left shards s' < workLeft left shards s := by
          by_cases some_left : 1 ≤ data.remaining
          · exact step_own h inv hi hpc acquired hdata some_left
          by_cases pool_left : s.queue.commonPool < (fileBytes left).length
          · exact step_pool h inv hi hpc acquired hdata (by omega) pool_left
          · exact step_exhausted h inv hi hpc acquired hdata (by omega) (by omega)
        exact ⟨s', hstep, inv', Or.inl hless⟩
  · have hnone : s.pcs[i]? = none := List.getElem?_eq_none (by rw [inv.pcs_length]; omega)
    exact ⟨s, by rw [Program.step, hnone], inv, Or.inr ⟨rfl, fun hlt => absurd hlt hi⟩⟩

end Steps

section Runs

variable {p : Program} {left right : List Line} {c cc slack shards : ℕ} {s : Shards}

/-- No run fails, and every run keeps the invariant. -/
theorem Inv.run (h : Setup p left right c cc slack) (inv : Inv p left right c s shards)
    (schedule : List (ℕ × Bool)) :
    ∃ s', p.run s schedule = some s' ∧ Inv p left right c s' shards := by
  induction schedule generalizing s with
  | nil => exact ⟨s, rfl, inv⟩
  | cons turn schedule ih =>
      obtain ⟨s₁, hstep, inv₁, -⟩ := inv.step h turn.1 turn.2
      obtain ⟨s', hrun, inv'⟩ := ih inv₁
      refine ⟨s', ?_, inv'⟩
      rw [Program.run, List.foldlM_cons, hstep]
      exact hrun

/-- All shards have finished. -/
def Shards.allDone (s : Shards) (shards : ℕ) : Prop :=
  ∀ i < shards, s.pcs[i]? = some .done

/-- When all shards are done, exactly the lines of the file have been processed. -/
theorem Inv.processed_perm (inv : Inv p left right c s shards) (some_shard : 0 < shards)
    (done : s.allDone shards) :
    s.processed.Perm ((lineStarts (left ++ right)).map Int.ofNat) := by
  have hpool : poolWork left right s = [] := if_pos (inv.finished 0 (done 0 some_shard)).1
  have hwork : (List.range shards).flatMap (shardWork p left right c s) = [] := by
    rw [List.flatMap_eq_nil_iff]
    intro i hi
    have hpc := done i (List.mem_range.mp hi)
    obtain ⟨-, d, hd, hzero⟩ := inv.finished i hpc
    rw [shardWork, heldWork, hpc, unclaimedWork, hd]
    simp [hzero, chunkLines]
  have haccounting := inv.accounting
  rw [allWork, hwork, hpool, List.append_nil, List.append_nil] at haccounting
  exact haccounting

/-- If every shard keeps getting turns, all of them finish. -/
theorem Inv.exists_allDone (h : Setup p left right c cc slack)
    (inv : Inv p left right c s shards) {turns : ℕ → ℕ × Bool}
    (fair : ∀ i < shards, ∀ n, ∃ m ≥ n, (turns m).1 = i) :
    ∃ n s', p.run s ((List.range n).map turns) = some s' ∧ s'.allDone shards := by
  have runs (n : ℕ) := inv.run h ((List.range n).map turns)
  choose state hrun hinv using runs
  have hstep (n : ℕ) : p.step (state n) (turns n).1 (turns n).2 = some (state (n + 1)) := by
    have hlast := hrun (n + 1)
    rw [List.range_succ, List.map_append, Program.run, List.foldlM_append] at hlast
    have hbefore := hrun n
    rw [Program.run] at hbefore
    rw [hbefore] at hlast
    simpa using hlast
  have progress : FairRun.Progress state (fun n => (turns n).1)
      (fun s i => i < shards → s.pcs[i]? = some .done) (workLeft left shards) := by
    intro n
    obtain ⟨s', hs', -, hprogress⟩ := (hinv n).step h (turns n).1 (turns n).2
    rw [hstep n] at hs'
    obtain rfl : state (n + 1) = s' := Option.some.inj hs'
    exact hprogress
  obtain ⟨n, hn⟩ := progress.exists_finished fair
  exact ⟨n, state n, hrun n, fun i hi => hn i hi hi⟩

/-- A list visited by index. -/
theorem flatMap_range_getElem? {α β : Type*} (l : List α) (f : Option α → List β) :
    (List.range l.length).flatMap (fun i => f l[i]?) = l.flatMap fun a => f (some a) := by
  have hget : (List.range l.length).map (fun i => l[i]?) = l.map some :=
    List.ext_getElem (by simp) fun i hi hi' => by simp
  calc (List.range l.length).flatMap (fun i => f l[i]?)
      = ((List.range l.length).map fun i => l[i]?).flatMap f := by rw [List.flatMap_map]
    _ = l.flatMap fun a => f (some a) := by rw [hget, List.flatMap_map]

/-- The shards before any of them acts. -/
def Shards.initial (queue : QueueState) (shards : ℕ) : Shards where
  queue := queue
  pcs := List.replicate shards .start
  processed := []

/-- Before any shard acts, the tail, the chunks of the shards and the pool make up
the file. -/
theorem initial_accounting (s : Shards) {data : List ThreadData} {n : ℕ}
    (hpcs : s.pcs = List.replicate (shards + 1) .start)
    (hdata : s.queue.perThreadData = data) (hpool : s.queue.commonPool = (n * c : ℕ))
    (hprocessed : s.processed = []) (hc : 0 < c) (hfit : n * c ≤ (fileBytes left).length)
    (hlines : data.flatMap (fun d => chunkLines (left ++ right) (fileBytes left).length c
      d.nextBegin.toNat d.remaining.toNat) =
        chunkLines (left ++ right) (fileBytes left).length c 0 n)
    (hlength : data.length = shards + 1) :
    (allWork p left right c s (shards + 1)).Perm ((lineStarts (left ++ right)).map Int.ofNat) := by
  have hheld : (List.range (shards + 1)).flatMap (heldWork p left right s) =
      (startsFrom (fileBytes left).length right).map Int.ofNat := by
    have hrest : (List.range shards).flatMap (fun i => heldWork p left right s i.succ) = [] := by
      rw [List.flatMap_eq_nil_iff]
      intro i hi
      have hlt : i < shards := List.mem_range.mp hi
      simp [heldWork, hpcs, hlt]
    rw [List.range_succ_eq_map, List.flatMap_cons, List.flatMap_map, hrest, List.append_nil]
    simp [heldWork, hpcs]
  have hunclaimed : (List.range (shards + 1)).flatMap (unclaimedWork left right c s) =
      (chunkLines (left ++ right) (fileBytes left).length c 0 n).map Int.ofNat := by
    have h := flatMap_range_getElem? data (fun d =>
      match d with
      | some d => (chunkLines (left ++ right) (fileBytes left).length c d.nextBegin.toNat
          d.remaining.toNat).map Int.ofNat
      | none => [])
    rw [← hlength, ← hlines, List.map_flatMap, ← h, ← hdata]
    rfl
  have hbody := (chunkLines_pool_perm (left ++ right) hc n hfit).map Int.ofNat
  have hsum := List.flatMap_append_perm (List.range (shards + 1)) (heldWork p left right s)
    (unclaimedWork left right c s)
  rw [hheld, hunclaimed] at hsum
  rw [List.map_append] at hbody
  rw [lineStarts_boundary, List.map_append, allWork, hprocessed, List.nil_append,
    poolWork_eq left right hpool]
  refine (hsum.symm.append_right _).trans ?_
  rw [List.append_assoc]
  exact (hbody.append_left _).trans List.perm_append_comm

/-- The invariant holds at the start. -/
theorem inv_initial {v : Variant} {threshold : ℕ → ℤ → ℤ} {poolTarget : ℤ} {fakeAdvance : Bool}
    {file : List Byte} {n : ℕ} (hc : 0 < c) (some_shard : 0 < shards)
    (hstart : SerialLazyShardQueue.commonPoolStart c (fileBytes left).length poolTarget =
      (n * c : ℕ)) :
    Inv p left right c (Shards.initial (SerialLazyShardQueue.new v file c cc
      (fileBytes left).length shards poolTarget threshold fakeAdvance).2 shards) shards := by
  obtain ⟨shards, rfl⟩ : ∃ k, shards = k + 1 := ⟨shards - 1, by omega⟩
  have hfit : n * c ≤ (fileBytes left).length := by
    have : SerialLazyShardQueue.commonPoolStart c (fileBytes left).length poolTarget ≤
        (fileBytes left).length := min_le_right _ _
    rw [hstart] at this
    exact_mod_cast this
  have hchunks : (((n * c : ℕ) : ℤ) + c - 1).tdiv c = n := by
    have h1 : ((n * c : ℕ) : ℤ) + c - 1 = (n * c + (c - 1) : ℕ) := by
      push_cast [Nat.cast_sub (show 1 ≤ c by omega)]
      ring
    rw [h1]
    change (((n * c + (c - 1)) / c : ℕ) : ℤ) = n
    rw [Nat.mul_comm, Nat.mul_add_div hc, Nat.div_eq_of_lt (by omega), Nat.add_zero]
  obtain ⟨hdata, hlines⟩ := distribute_spec (c := c) (left ++ right)
    (fileBytes left).length 0 0 n shards
  have hqueue : (SerialLazyShardQueue.new v file c cc (fileBytes left).length (shards + 1)
      poolTarget threshold fakeAdvance).2 = ⟨(n * c : ℕ), distribute c threshold 0 0 n (shards + 1),
        List.replicate (shards + 1) ByteRange.new⟩ := by
    simp only [SerialLazyShardQueue.new, hstart, hchunks]
  rw [hqueue]
  refine
    { pcs_length := by simp [Shards.initial]
      data_length := length_distribute ..
      ranges_length := by simp [Shards.initial]
      pool_nonneg := by simp only [Shards.initial]; omega
      window := fun i br hbr => ?_
      data := fun i d hd => ?_
      held := fun i hi => ?_
      finished := fun i hi => ?_
      accounting := ?_ }
  · simp only [Shards.initial, List.getElem?_replicate] at hbr
    split at hbr
    · obtain rfl : ByteRange.new = br := by simpa using hbr
      exact window_new _
    · simp at hbr
  · obtain ⟨h1, h2, h3⟩ := hdata d (List.mem_of_getElem? hd)
    refine ⟨h1, h2, ?_⟩
    push_cast at h3
    have : ((n * c : ℕ) : ℤ) ≤ (fileBytes left).length := by exact_mod_cast hfit
    push_cast at this
    omega
  · simp only [Shards.initial, List.getElem?_replicate] at hi
    split at hi <;> simp at hi
  · simp only [Shards.initial, List.getElem?_replicate] at hi
    split at hi <;> simp at hi
  · exact initial_accounting (Shards.initial _ _) rfl rfl rfl rfl hc hfit hlines
      (length_distribute ..)

end Runs

end Explore.OneBrc
