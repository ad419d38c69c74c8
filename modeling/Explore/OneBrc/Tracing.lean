import Explore.Lib.StraightLine
import Explore.OneBrc.ShardQueue

/-!
# The times that a cleanup records

A `ByteRange` records when a cleanup of its buffers begins and when it ends, in an
array with two places for each of 64 threads, or of 512. The shards of `ShardQueue`
record nothing; here they do. A shard without places fails in the cleanup, when
`take` has already counted the range as given away. So the runs with records are
those runs without in which only shards with places clean their buffers.
-/

namespace Explore.OneBrc

open ByteRange StraightLine

/-- The length of the array `timestamps`. -/
def Variant.timestamps : Variant → ℕ
  | .vemana => 1 <<< 6 <<< 1
  | .nonIdiomatic => 1 <<< 10

namespace Tracing

/-- `recordWorkStart`, which writes the time to `timestamps[2 * idx]`. -/
def recordWorkStart (v : Variant) (idx : ℕ) : Option Unit :=
  if 2 * idx < v.timestamps then some () else none

/-- `recordWorkEnd`, which writes the time to `timestamps[2 * idx + 1]`. -/
def recordWorkEnd (v : Variant) (idx : ℕ) : Option Unit :=
  if 2 * idx + 1 < v.timestamps then some () else none

/-- `ByteRange.close`, with its records. -/
def close (v : Variant) (br : ByteRange) (shardIdx : ℕ) : Option ByteRange := do
  recordWorkStart v shardIdx
  let closed := br.close
  recordWorkEnd v shardIdx
  return closed

/-- The end of `take`, with the records of an intermediate cleanup. -/
def serve (q : SerialLazyShardQueue) (st : QueueState) (shardIdx : ℕ) (data : ThreadData)
    (rangeStart rangeEnd : ℤ) (acquired : Bool) : Option QueueState := do
  let range ← st.byteRanges[shardIdx]?
  let cleans := decide (data.remaining < data.threshold ∧ data.unmaps > 0) && acquired
  let range ← if cleans then close q.variant range shardIdx else some range
  let chunk ← setRange q.variant q.file q.effectiveFileSize range rangeStart rangeEnd
  some { st with
    perThreadData := st.perThreadData.set shardIdx
      { data with unmaps := if cleans then data.unmaps - 1 else data.unmaps }
    byteRanges := st.byteRanges.set shardIdx chunk }

/-- `take`, with the records of an intermediate cleanup. -/
def take (q : SerialLazyShardQueue) (st : QueueState) (shardIdx : ℕ) (acquired : Bool) :
    Option (QueueState × Bool) := do
  let data ← st.perThreadData[shardIdx]?
  if data.remaining ≥ 1 then
    let rangeEnd := data.nextBegin + q.chunkSize
    let data' : ThreadData :=
      { data with
        remaining := data.remaining - 1
        nextBegin := if q.fakeAdvance then data.nextBegin else rangeEnd }
    (serve q st shardIdx data' data.nextBegin rangeEnd acquired).map (·, true)
  else
    let rangeStart := st.commonPool
    let st' := { st with commonPool := st.commonPool + q.commonChunkSize }
    if rangeStart ≥ q.effectiveFileSize then some (st', false)
    else
      (serve q st' shardIdx data rangeStart (rangeStart + q.commonChunkSize) acquired).map (·, true)

/-- Shard `i` acts, with the records of an intermediate cleanup. -/
def step (p : Program) (s : Shards) (i : ℕ) (acquired : Bool) : Option Shards :=
  match s.pcs[i]? with
  | some .ready => do
      let (queue, taken) ← take p.queue s.queue i acquired
      some { s with queue := queue, pcs := s.pcs.set i (if taken then .holding else .done) }
  | _ => p.step s i acquired

def run (p : Program) (s : Shards) (schedule : List (ℕ × Bool)) : Option Shards :=
  schedule.foldlM (fun s turn => step p s turn.1 turn.2) s

/-- There is a place for both times of thread `idx`. -/
def HasPlaces (v : Variant) (idx : ℕ) : Prop := 2 * idx + 1 < v.timestamps

instance (v : Variant) (idx : ℕ) : Decidable (HasPlaces v idx) := Nat.decLt _ _

/-- `take` cleans up before it returns a range, of the shard's own or of the pool. -/
def Cleans (q : SerialLazyShardQueue) (st : QueueState) (shardIdx : ℕ) (acquired : Bool) : Prop :=
  acquired = true ∧ ∃ data, st.perThreadData[shardIdx]? = some data ∧ data.unmaps > 0 ∧
    (1 ≤ data.remaining ∧ data.remaining - 1 < data.threshold ∨
      data.remaining < 1 ∧ st.commonPool < q.effectiveFileSize ∧ data.remaining < data.threshold)

/-- A shard whose turn it is cleans up only if it has places for its times. -/
def Recorded (p : Program) (s : Shards) (turn : ℕ × Bool) : Prop :=
  s.pcs[turn.1]? = some .ready → Cleans p.queue s.queue turn.1 turn.2 →
    HasPlaces p.queue.variant turn.1

/-- In a run of the schedule only shards that have places clean up. -/
abbrev AllRecorded (p : Program) (s : Shards) (schedule : List (ℕ × Bool)) : Prop :=
  Along (fun s turn => p.step s turn.1 turn.2) (Recorded p) s schedule

section Steps

variable {p : Program} {q : SerialLazyShardQueue} {s s' : Shards} {st : QueueState} {i : ℕ}
  {acquired : Bool}

theorem close_eq (v : Variant) (br : ByteRange) (shardIdx : ℕ) :
    close v br shardIdx = if HasPlaces v shardIdx then some br.close else none := by
  by_cases hplaces : HasPlaces v shardIdx
  · have hend : 2 * shardIdx + 1 < v.timestamps := hplaces
    rw [close, recordWorkStart, recordWorkEnd, if_pos (by omega), if_pos hend, if_pos hplaces]
    rfl
  · have hend : ¬ 2 * shardIdx + 1 < v.timestamps := hplaces
    rw [close, recordWorkStart, recordWorkEnd, if_neg hplaces, if_neg hend]
    split <;> rfl

/-- A range is served as without records, unless its cleanup has no places. -/
theorem serve_eq (q : SerialLazyShardQueue) (st : QueueState) (shardIdx : ℕ) (data : ThreadData)
    (a b : ℤ) (acquired : Bool) :
    serve q st shardIdx data a b acquired =
      if acquired = true ∧ data.remaining < data.threshold ∧ data.unmaps > 0 ∧
        ¬ HasPlaces q.variant shardIdx then none
      else q.serve st shardIdx data a b acquired := by
  rw [serve, SerialLazyShardQueue.serve]
  cases st.byteRanges[shardIdx]? with
  | none => split <;> rfl
  | some range =>
      simp only [Option.bind_eq_bind, Option.bind_some, close_eq]
      by_cases hcleans : data.remaining < data.threshold ∧ data.unmaps > 0
      · cases acquired with
        | false => simp
        | true =>
            by_cases hplaces : HasPlaces q.variant shardIdx
            · simp [hcleans, hplaces]
            · simp [hcleans, hplaces]
      · have hnot : ¬ (acquired = true ∧ data.remaining < data.threshold ∧ data.unmaps > 0 ∧
            ¬ HasPlaces q.variant shardIdx) := fun h => hcleans ⟨h.2.1, h.2.2.1⟩
        rw [if_neg hnot, decide_eq_false hcleans]
        rfl

/-- `take` fails when it cleans up without places, and is as without records otherwise. -/
theorem take_eq_none (hcleans : Cleans q st i acquired) (hplaces : ¬ HasPlaces q.variant i) :
    take q st i acquired = none := by
  obtain ⟨hacquired, data, hdata, hunmaps, hremaining⟩ := hcleans
  rw [take, hdata]
  simp only [Option.bind_eq_bind, Option.bind_some, serve_eq]
  obtain ⟨hown, hlow⟩ | ⟨hnone, hpool, hlow⟩ := hremaining
  · rw [if_pos hown, if_pos ⟨hacquired, hlow, hunmaps, hplaces⟩]
    rfl
  · rw [if_neg (by omega), if_neg (by omega), if_pos ⟨hacquired, hlow, hunmaps, hplaces⟩]
    rfl

theorem take_eq (h : Cleans q st i acquired → HasPlaces q.variant i) :
    take q st i acquired = q.take st i acquired := by
  rw [take, SerialLazyShardQueue.take]
  cases hdata : st.perThreadData[i]? with
  | none => rfl
  | some data =>
      simp only [Option.bind_eq_bind, Option.bind_some, serve_eq]
      by_cases hown : data.remaining ≥ 1
      · rw [if_pos hown, if_pos hown, if_neg]
        rintro ⟨hacquired, hlow, hunmaps, hplaces⟩
        exact hplaces (h ⟨hacquired, data, hdata, hunmaps, Or.inl ⟨hown, hlow⟩⟩)
      · rw [if_neg hown, if_neg hown]
        by_cases hpool : st.commonPool ≥ q.effectiveFileSize
        · rw [if_pos hpool, if_pos hpool]
        · rw [if_neg hpool, if_neg hpool, if_neg]
          rintro ⟨hacquired, hlow, hunmaps, hplaces⟩
          exact hplaces (h ⟨hacquired, data, hdata, hunmaps, Or.inr ⟨by omega, by omega, hlow⟩⟩)

/-- A turn that is recorded is as without records. -/
theorem step_eq (h : Recorded p s (i, acquired)) : step p s i acquired = p.step s i acquired := by
  rw [step]
  split
  · rename_i hready
    rw [Program.step, hready, take_eq (h hready)]
  · rfl

theorem step_eq_none (h : ¬ Recorded p s (i, acquired)) : step p s i acquired = none := by
  simp only [Recorded, Classical.not_imp] at h
  obtain ⟨hready, hcleans, hplaces⟩ := h
  rw [step, hready]
  simp only [take_eq_none hcleans hplaces, Option.bind_eq_bind, Option.bind_none]

end Steps

section Runs

variable {p : Program} {s s' : Shards} {schedule : List (ℕ × Bool)}

/-- The runs with records are those without in which only shards with places clean up. -/
theorem run_eq_some_iff :
    run p s schedule = some s' ↔ p.run s schedule = some s' ∧ AllRecorded p s schedule := by
  induction schedule generalizing s with
  | nil => exact ⟨fun h => ⟨h, trivial⟩, And.left⟩
  | cons turn schedule ih =>
      rw [run, Program.run, List.foldlM_cons, List.foldlM_cons, AllRecorded, Along]
      by_cases hturn : Recorded p s turn
      · rw [step_eq hturn]
        cases hstep : p.step s turn.1 turn.2 with
        | none => exact ⟨(nomatch ·), fun h => nomatch h.1⟩
        | some mid =>
            refine ih.trans (and_congr_right fun _ => ⟨fun h => ⟨hturn, fun s₁ hs₁ => ?_⟩,
              fun h => h.2 mid rfl⟩)
            obtain rfl := Option.some.inj hs₁
            exact h
      · rw [step_eq_none hturn]
        exact ⟨(nomatch ·), fun h => absurd h.2.1 hturn⟩

theorem length_pcs_step {i : ℕ} {acquired : Bool} (h : p.step s i acquired = some s') :
    s'.pcs.length = s.pcs.length := by
  rw [Program.step] at h
  split at h
  · rw [Option.some.inj h]
  · obtain ⟨starts, -, hs⟩ := Option.bind_eq_some_iff.mp h
    rw [← Option.some.inj hs, List.length_set]
  · obtain ⟨taken, -, hs⟩ := Option.bind_eq_some_iff.mp h
    rw [← Option.some.inj hs, List.length_set]
  · obtain ⟨range, -, h⟩ := Option.bind_eq_some_iff.mp h
    obtain ⟨starts, -, hs⟩ := Option.bind_eq_some_iff.mp h
    rw [← Option.some.inj hs, List.length_set]
  · rw [Option.some.inj h]

/-- With places for all shards every run is recorded. -/
theorem allRecorded_of_length (h : 2 * s.pcs.length ≤ p.queue.variant.timestamps) :
    AllRecorded p s schedule := by
  induction schedule generalizing s with
  | nil => trivial
  | cons turn schedule ih =>
      refine ⟨fun hready _ => ?_, fun s' hs' => ih ?_⟩
      · have hlt := (List.getElem?_eq_some_iff.mp hready).1
        rw [HasPlaces]
        omega
      · rw [length_pcs_step hs']
        exact h

end Runs

end Tracing

end Explore.OneBrc
