import Explore.OneBrc.ByteRange

/-!
# The queue of ranges and the shards that drain it

`SerialLazyShardQueue` reserves the end of the file for shard 0, hands each shard
its own run of big chunks, and lets all shards share a pool of small chunks. The
shards run concurrently: a schedule says which of them acts next, and whether it
gets the lock that a cleanup of its buffers needs. The only shared counter, the
common pool, is advanced by one atomic `getAndAdd` in each step.

Two products with floating-point fractions are left as parameters: the target of
the pool's start, and the number of chunks left below which a shard tries to
unmap its buffers.
-/

namespace Explore.OneBrc

open ByteRange

/-- The backward loop of `consumeToPreviousNewLineExclusive` and the increment
after it, on `pos + 1`. -/
def scanBack (buf : Buffer) (start : ℕ) : ℕ → Option ℕ
  | 0 => some 0
  | pos + 1 => do
      let b ← if pos < start then none else buf[pos - start]?
      if b ≠ newline then scanBack buf start pos else some (pos + 1)

def consumeToPreviousNewLineExclusive (file : List Byte) (minReservedBytes : ℤ) : Option ℤ :=
  let pos := max (file.length - minReservedBytes - 1) (-1)
  if pos < 0 then some (intCast file.length)
  else do
    let start := max (pos - 512) 0
    let buf ← mapFile file start (pos + 1)
    let newPos ← scanBack buf start.toNat (pos + 1).toNat
    some (intCast (file.length - newPos))

def roundToNearestLowerMultipleOf (divisor value : ℤ) : ℤ := value.tdiv divisor * divisor

/-- The slots of `perThreadData` of one shard. -/
structure ThreadData where
  nextBegin : ℤ
  remaining : ℤ
  threshold : ℤ
  unmaps : ℤ

structure SerialLazyShardQueue where
  variant : Variant
  file : List Byte
  chunkSize : ℤ
  commonChunkSize : ℤ
  effectiveFileSize : ℤ
  fakeAdvance : Bool

/-- The mutable part of the queue. -/
structure QueueState where
  commonPool : ℤ
  perThreadData : List ThreadData
  byteRanges : List ByteRange

/-- The loop that distributes chunks to shards, from shard `i` on. -/
def distribute (chunkSize : ℤ) (threshold : ℕ → ℤ → ℤ) (i : ℕ)
    (currentStart remainingChunks : ℤ) : ℕ → List ThreadData
  | 0 => []
  | n + 1 =>
      let remainingShards : ℤ := n + 1
      let currentChunks := (remainingChunks + remainingShards - 1).tdiv remainingShards
      ⟨currentStart, currentChunks, threshold i currentChunks, 1⟩ ::
        distribute chunkSize threshold (i + 1) (currentStart + currentChunks * chunkSize)
          (remainingChunks - currentChunks) n

namespace SerialLazyShardQueue

/-- Where the common pool starts, from `(long) (effectiveFileSize * (1 - commonChunkFraction))`. -/
def commonPoolStart (chunkSize effectiveFileSize poolTarget : ℤ) : ℤ :=
  min (roundToNearestLowerMultipleOf chunkSize poolTarget) effectiveFileSize

/-- The bytes of the file before the reserved tail. -/
def effectiveSize (file : List Byte) (fileTailReservedBytes : ℤ) : Option ℤ := do
  let reserved ←
    if fileTailReservedBytes = 0 then some 0
    else consumeToPreviousNewLineExclusive file fileTailReservedBytes
  some (file.length - reserved)

/-- The constructor, given the effective file size. -/
def new (v : Variant) (file : List Byte) (chunkSize commonChunkSize effectiveFileSize : ℤ)
    (shards : ℕ) (poolTarget : ℤ) (threshold : ℕ → ℤ → ℤ) (fakeAdvance : Bool) :
    SerialLazyShardQueue × QueueState :=
  let start := commonPoolStart chunkSize effectiveFileSize poolTarget
  (⟨v, file, chunkSize, commonChunkSize, effectiveFileSize, fakeAdvance⟩,
    ⟨start,
      distribute chunkSize threshold 0 0 ((start + chunkSize - 1).tdiv chunkSize) shards,
      List.replicate shards ByteRange.new⟩)

/-- `fileTailEndWork`: the outer `none` is an exception, the inner one the empty
`Optional`. -/
def fileTailEndWork (q : SerialLazyShardQueue) (idx : ℕ) : Option (Option ByteRange) :=
  if idx = 0 ∧ q.effectiveFileSize < q.file.length then
    (setRange q.variant q.file q.file.length ByteRange.new
      (if q.effectiveFileSize = 0 then 0 else q.effectiveFileSize - 1) q.file.length).map some
  else some none

/-- The end of `take`: an intermediate cleanup if it is due and `acquired` the
lock, then the range is set. The times that the cleanup records are in `Tracing`. -/
def serve (q : SerialLazyShardQueue) (st : QueueState) (shardIdx : ℕ) (data : ThreadData)
    (rangeStart rangeEnd : ℤ) (acquired : Bool) : Option QueueState := do
  let range ← st.byteRanges[shardIdx]?
  let cleans := decide (data.remaining < data.threshold ∧ data.unmaps > 0) && acquired
  let chunk ← setRange q.variant q.file q.effectiveFileSize (if cleans then range.close else range)
    rangeStart rangeEnd
  some { st with
    perThreadData := st.perThreadData.set shardIdx
      { data with unmaps := if cleans then data.unmaps - 1 else data.unmaps }
    byteRanges := st.byteRanges.set shardIdx chunk }

/-- `take`, with whether it returned a range rather than null. -/
def take (q : SerialLazyShardQueue) (st : QueueState) (shardIdx : ℕ) (acquired : Bool) :
    Option (QueueState × Bool) := do
  let data ← st.perThreadData[shardIdx]?
  if data.remaining ≥ 1 then
    let rangeEnd := data.nextBegin + q.chunkSize
    let data' : ThreadData :=
      { data with
        remaining := data.remaining - 1
        nextBegin := if q.fakeAdvance then data.nextBegin else rangeEnd }
    (q.serve st shardIdx data' data.nextBegin rangeEnd acquired).map (·, true)
  else
    let rangeStart := st.commonPool
    let st' := { st with commonPool := st.commonPool + q.commonChunkSize }
    if rangeStart ≥ q.effectiveFileSize then some (st', false)
    else
      (q.serve st' shardIdx data rangeStart (rangeStart + q.commonChunkSize) acquired).map (·, true)

end SerialLazyShardQueue

/-- Where a shard is in `processShard`: before the tail work, about to take, about
to process the range it took, or finished. -/
inductive ShardPc where
  | start
  | ready
  | holding
  | done
  deriving DecidableEq, Repr

/-- The queue, the shards, and the positions of the lines processed so far. -/
structure Shards where
  queue : QueueState
  pcs : List ShardPc
  processed : List ℤ

/-- What the shards run: the queue and the two line parsers, as the positions
they step to. -/
structure Program where
  queue : SerialLazyShardQueue
  processLine : Buffer → ℕ → Option ℕ
  processLineSlow : Buffer → ℕ → Option ℕ

namespace Program

/-- `fileTailEndWork(i).ifPresent(this::processRangeSlow)`. -/
def processTail (p : Program) (i : ℕ) : Option (List ℤ) :=
  (p.queue.fileTailEndWork i).bind fun tail =>
    match tail with
    | none => some []
    | some range => processRange p.processLineSlow range

/-- Shard `i` acts. `none` is an exception. -/
def step (p : Program) (s : Shards) (i : ℕ) (acquired : Bool) : Option Shards :=
  match s.pcs[i]? with
  | none => some s
  | some .start => do
      let starts ← p.processTail i
      some { s with pcs := s.pcs.set i .ready, processed := s.processed ++ starts }
  | some .ready => do
      let (queue, taken) ← p.queue.take s.queue i acquired
      some { s with queue := queue, pcs := s.pcs.set i (if taken then .holding else .done) }
  | some .holding => do
      let range ← s.queue.byteRanges[i]?
      let starts ← processRange p.processLine range
      some { s with pcs := s.pcs.set i .ready, processed := s.processed ++ starts }
  | some .done => some s

/-- The shards act in the order of the schedule. -/
def run (p : Program) (s : Shards) (schedule : List (ℕ × Bool)) : Option Shards :=
  schedule.foldlM (fun s turn => p.step s turn.1 turn.2) s

end Program

section Tail

variable {lines : List Line}

theorem scanBack_eq {start pos hi : ℕ} (hhi : hi ≤ (fileBytes lines).length) (hpos : pos ≤ hi)
    (hstart : start ≤ floorCut lines pos - 1) :
    scanBack (((fileBytes lines).drop start).take (hi - start)) start pos =
      some (floorCut lines pos) := by
  induction pos with
  | zero =>
      have : floorCut lines 0 = 0 := Nat.le_zero.mp (floorCut_le _ 0)
      rw [scanBack, this]
  | succ pos ih =>
      have hsucc := floorCut_succ (show pos < (fileBytes lines).length by omega)
      have hle := floorCut_le lines (pos + 1)
      have hget : (((fileBytes lines).drop start).take (hi - start))[pos - start]? =
          (fileBytes lines)[pos]? := by
        rw [List.getElem?_take_of_lt (by omega), List.getElem?_drop]
        congr 1
        omega
      have hbyte := List.getElem?_eq_getElem (l := fileBytes lines) (i := pos) (by omega)
      rw [scanBack, if_neg (by omega), hget, hbyte]
      simp only [Option.bind_eq_bind, Option.bind_some]
      by_cases hnewline : (fileBytes lines)[pos] = newline
      · rw [hbyte, if_pos (by rw [hnewline])] at hsucc
        simp [hnewline, hsucc]
      · rw [hbyte, if_neg (by simpa using hnewline)] at hsucc
        rw [if_pos hnewline, hsucc]
        exact ih (by omega) (by omega)

/-- The reserved tail begins at a line boundary, and has at least the requested
number of bytes unless it is the whole file. -/
theorem effectiveSize_eq (lines : List Line) {reserved : ℕ} (hpos : 0 < reserved)
    (small : reserved ≤ 2 ^ 16) :
    SerialLazyShardQueue.effectiveSize (fileBytes lines) reserved =
      some (floorCut lines ((fileBytes lines).length - reserved) : ℤ) := by
  have hle := floorCut_le lines ((fileBytes lines).length - reserved)
  by_cases hshort : (fileBytes lines).length ≤ reserved
  · have hmax : max (((fileBytes lines).length : ℤ) - reserved - 1) (-1) = -1 := by omega
    have hcast : intCast (fileBytes lines).length = (fileBytes lines).length :=
      intCast_eq (by omega) (by omega)
    have hzero : floorCut lines ((fileBytes lines).length - reserved) = 0 := by omega
    simp only [SerialLazyShardQueue.effectiveSize, consumeToPreviousNewLineExclusive, hmax, hcast,
      hzero, if_neg (show ¬ ((reserved : ℤ) = 0) by omega), if_pos (show (-1 : ℤ) < 0 by omega),
      Option.bind_eq_bind, Option.bind_some, sub_self]
    rfl
  · obtain ⟨p, hp⟩ : ∃ p, (fileBytes lines).length - reserved = p + 1 :=
      ⟨(fileBytes lines).length - reserved - 1, by omega⟩
    rw [hp] at hle ⊢
    have hfloor := le_floorCut_add (show p + 1 ≤ (fileBytes lines).length by omega)
    have hmax : max (((fileBytes lines).length : ℤ) - reserved - 1) (-1) = p := by omega
    have hstart : (max ((p : ℤ) - 512) 0) = (p - 512 : ℕ) := by omega
    have hmap : mapFile (fileBytes lines) (p - 512 : ℕ) ((p : ℤ) + 1) =
        some (((fileBytes lines).drop (p - 512)).take (p + 1 - (p - 512))) := by
      have hlen : ((p : ℤ) + 1 - (p - 512 : ℕ)).toNat = p + 1 - (p - 512) := by omega
      rw [mapFile, if_neg (by omega), hlen, Int.toNat_natCast]
    have hscan := scanBack_eq (show p + 1 ≤ (fileBytes lines).length by omega) (Nat.le_refl _)
      (show p - 512 ≤ floorCut lines (p + 1) - 1 by omega)
    have hcast : intCast ((fileBytes lines).length - floorCut lines (p + 1) : ℤ) =
        (fileBytes lines).length - floorCut lines (p + 1) := intCast_eq (by omega) (by omega)
    have hnat : ((p : ℤ) + 1).toNat = p + 1 := by omega
    simp only [SerialLazyShardQueue.effectiveSize, consumeToPreviousNewLineExclusive, hmax, hstart,
      hmap, hnat, Int.toNat_natCast, hscan, hcast, if_neg (show ¬ ((reserved : ℤ) = 0) by omega),
      if_neg (show ¬ ((p : ℤ) < 0) by omega), Option.bind_eq_bind, Option.bind_some]
    simp

end Tail

end Explore.OneBrc
