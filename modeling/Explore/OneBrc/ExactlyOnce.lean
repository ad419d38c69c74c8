import Explore.OneBrc.Partition
import Explore.OneBrc.Swar
import Explore.OneBrc.Tracing

/-!
# The two programs process every line exactly once

Both programs are instances of the shards of `Partition`: their line parsers step
over lines, and the constructor of the queue cuts the file at a line boundary. So
in every run in which all shards finish, the lines processed are those of the
file, and every fair run gets there. A run fails exactly if a shard cleans its
buffers for whose times there is no place. Both programs process the same lines for
the same chunk.
-/

namespace Explore.OneBrc

open ByteRange ShardProcessorState

/-- The position that `processLine` returns. -/
def Variant.lineStep (order : ByteOrder) : Variant → Buffer → ℕ → Option ℕ
  | .vemana => fun mmb pos => (parseLine order mmb pos).map ParsedLine.nextPos
  | .nonIdiomatic => fun mem pos => (FastShardProcessorState.processLine mem pos).map FastLine.next

/-- The position that `processLineSlow` returns. -/
def Variant.lineStepSlow : Variant → Buffer → ℕ → Option ℕ
  | .vemana => fun mmb pos => (parseLineSlow mmb pos).map ParsedLine.nextPos
  | .nonIdiomatic => fun mem pos =>
      (FastShardProcessorState.processLineSlow mem pos).map fun r => r.2.2

theorem stepsOverLines_lineStep (order : ByteOrder) (v : Variant) :
    StepsOverLines 4 (v.lineStep order) := by
  intro mmb pos line after h room
  cases v with
  | vemana =>
      change (parseLine order mmb pos).map ParsedLine.nextPos = _
      rw [parseLine_eq h]
      rfl
  | nonIdiomatic =>
      change (FastShardProcessorState.processLine mmb pos).map FastLine.next = _
      rw [FastShardProcessorState.processLine_eq h room, Option.map_some]

theorem stepsOverLines_lineStepSlow (v : Variant) : StepsOverLines 0 v.lineStepSlow := by
  intro mmb pos line after h _
  cases v with
  | vemana =>
      change (parseLineSlow mmb pos).map ParsedLine.nextPos = _
      rw [parseLineSlow_eq h]
      rfl
  | nonIdiomatic =>
      change (FastShardProcessorState.processLineSlow mmb pos).map (fun r => r.2.2) = _
      rw [FastShardProcessorState.processLineSlow_eq h]
      rfl

/-- The queue on a file and the shards before any of them acts. -/
def startUp (v : Variant) (order : ByteOrder) (file : List Byte)
    (shards chunkSizeBits commonChunkSizeBits : ℕ) (effectiveFileSize poolTarget : ℤ)
    (threshold : ℕ → ℤ → ℤ) : Program × Shards :=
  let q := SerialLazyShardQueue.new v file (2 ^ chunkSizeBits : ℕ) (2 ^ commonChunkSizeBits : ℕ)
    effectiveFileSize shards poolTarget threshold false
  (⟨q.1, v.lineStep order, v.lineStepSlow⟩, Shards.initial q.2 shards)

/-- The effective size of a file of lines cuts it into a body and a short tail
that still leaves room for reads past the body. -/
theorem exists_cut (lines : List Line) :
    ∃ left right, lines = left ++ right ∧
      SerialLazyShardQueue.effectiveSize (fileBytes lines) 9 = some ((fileBytes left).length : ℤ) ∧
      (left ≠ [] → 9 ≤ (fileBytes right).length) ∧ (fileBytes right).length ≤ 115 := by
  obtain ⟨left, right, hsplit, hlen⟩ :=
    exists_floorCut lines ((fileBytes lines).length - 9)
  have hsize := effectiveSize_eq lines (show 0 < 9 by decide) (by decide)
  have hF : (fileBytes lines).length = (fileBytes left).length + (fileBytes right).length := by
    rw [hsplit, fileBytes_append, List.length_append]
  have hle := floorCut_le lines ((fileBytes lines).length - 9)
  have hge : (fileBytes lines).length - 9 ≤ floorCut lines ((fileBytes lines).length - 9) + 106 :=
    le_floorCut_add (by omega)
  refine ⟨left, right, hsplit, by rw [hlen]; exact_mod_cast hsize, fun hne => ?_, by omega⟩
  have hpos : 6 ≤ (fileBytes left).length := by
    cases left with
    | nil => exact absurd rfl hne
    | cons line left =>
        have := line.length_bytes.1
        rw [fileBytes_cons, List.length_append]
        omega
  omega

/-- Either program, on any file of lines, with any number of shards and any chunk
sizes that fit the buffer, under any schedule: the run does not fail and processes
the lines of the file, each once, when all shards are done, if and only if no shard
cleans its buffers for whose times there is no place; a fair schedule of this kind
gets all shards done. For the same chunk both programs process the same lines. -/
theorem lines_processed_exactly_once_iff (v : Variant) (order : ByteOrder) (lines : List Line)
    (shards chunkSizeBits commonChunkSizeBits : ℕ) (some_shard : 1 ≤ shards)
    (chunk_le : (2 : ℤ) ^ chunkSizeBits + 1024 ≤ v.bufSize)
    (common_le : (2 : ℤ) ^ commonChunkSizeBits + 1024 ≤ v.bufSize) :
    ∃ E : ℕ, SerialLazyShardQueue.effectiveSize (fileBytes lines) 9 = some (E : ℤ) ∧
      (∀ (poolTarget : ℤ) (threshold : ℕ → ℤ → ℤ),
        (∃ n : ℕ, SerialLazyShardQueue.commonPoolStart (2 ^ chunkSizeBits) E poolTarget =
          n * 2 ^ chunkSizeBits) →
        let (p, s₀) := startUp v order (fileBytes lines) shards chunkSizeBits commonChunkSizeBits E
          poolTarget threshold
        (∀ schedule, (∃ s, Tracing.run p s₀ schedule = some s ∧
            (s.allDone shards → s.processed.Perm ((lineStarts lines).map Int.ofNat))) ↔
          Tracing.AllRecorded p s₀ schedule) ∧
        ∀ turns : ℕ → ℕ × Bool, (∀ i < shards, ∀ n, ∃ m ≥ n, (turns m).1 = i) →
          (∀ n, Tracing.AllRecorded p s₀ ((List.range n).map turns)) →
            ∃ n s, Tracing.run p s₀ ((List.range n).map turns) = some s ∧ s.allDone shards) ∧
      ∀ rangeStart rangeEnd : ℕ, rangeStart < E → rangeStart < rangeEnd →
        (rangeEnd : ℤ) - rangeStart + 1024 ≤ Variant.nonIdiomatic.bufSize →
        ∀ br br', Window (fileBytes lines) br → Window (fileBytes lines) br' →
          ∃ starts range range',
            setRange .vemana (fileBytes lines) E br rangeStart rangeEnd = some range ∧
            setRange .nonIdiomatic (fileBytes lines) E br' rangeStart rangeEnd = some range' ∧
            processRange (Variant.vemana.lineStep order) range = some starts ∧
            processRange (Variant.nonIdiomatic.lineStep order) range' = some starts := by
  obtain ⟨left, right, rfl, hsize, hroom, hsmall⟩ := exists_cut lines
  refine ⟨(fileBytes left).length, hsize, ?_, ?_⟩
  · rintro poolTarget threshold ⟨n, hstart⟩
    have setup : Setup (startUp v order (fileBytes (left ++ right)) shards chunkSizeBits
        commonChunkSizeBits (fileBytes left).length poolTarget threshold).1 left right
          (2 ^ chunkSizeBits) (2 ^ commonChunkSizeBits) 4 :=
      { file := rfl
        effective := rfl
        chunk := rfl
        common := rfl
        chunk_pos := Nat.two_pow_pos _
        common_pos := Nat.two_pow_pos _
        chunk_le := by exact_mod_cast chunk_le
        common_le := by exact_mod_cast common_le
        advances := rfl
        fast := stepsOverLines_lineStep order v
        slow := stepsOverLines_lineStepSlow v
        slack_le := by decide
        tail_slack := fun hne => le_trans (by decide) (hroom hne)
        tail_small := le_trans hsmall (by decide) }
    have inv : Inv (startUp v order (fileBytes (left ++ right)) shards chunkSizeBits
        commonChunkSizeBits (fileBytes left).length poolTarget threshold).1 left right
          (2 ^ chunkSizeBits) (startUp v order (fileBytes (left ++ right)) shards chunkSizeBits
        commonChunkSizeBits (fileBytes left).length poolTarget threshold).2 shards :=
      inv_initial (n := n) (Nat.two_pow_pos _) some_shard (by exact_mod_cast hstart)
    refine ⟨fun schedule => ⟨?_, fun recorded => ?_⟩, fun turns fair recorded => ?_⟩
    · rintro ⟨s, hrun, -⟩
      exact (Tracing.run_eq_some_iff.mp hrun).2
    · obtain ⟨s, hrun, inv'⟩ := inv.run setup schedule
      exact ⟨s, Tracing.run_eq_some_iff.mpr ⟨hrun, recorded⟩,
        fun done => inv'.processed_perm some_shard done⟩
    · obtain ⟨n, s, hrun, done⟩ := inv.exists_allDone setup fair
      exact ⟨n, s, Tracing.run_eq_some_iff.mpr ⟨hrun, recorded n⟩, done⟩
  · intro a b ha hab hfit br br' hbr hbr'
    have hslack : 4 ≤ (fileBytes right).length := by
      refine le_trans (by decide) (hroom ?_)
      rintro rfl
      simp at ha
    have hbuf : Variant.nonIdiomatic.bufSize ≤ Variant.vemana.bufSize := by decide
    obtain ⟨range, hset, -, hrun⟩ := processRange_setRange .vemana
      (stepsOverLines_lineStep order .vemana) (by decide) hslack hbr ha hab (le_trans hfit hbuf)
    obtain ⟨range', hset', -, hrun'⟩ := processRange_setRange .nonIdiomatic
      (stepsOverLines_lineStep order .nonIdiomatic) (by decide) hslack hbr' ha hab hfit
    exact ⟨_, range, range', hset, hset', hrun, hrun'⟩

/-- There are places for as many shards as half the array is long. -/
theorem allRecorded_startUp {v : Variant} {order : ByteOrder} {file : List Byte}
    {shards chunkSizeBits commonChunkSizeBits : ℕ} {E poolTarget : ℤ} {threshold : ℕ → ℤ → ℤ}
    (few : 2 * shards ≤ v.timestamps) (schedule : List (ℕ × Bool)) :
    let start :=
      startUp v order file shards chunkSizeBits commonChunkSizeBits E poolTarget threshold
    Tracing.AllRecorded start.1 start.2 schedule := by
  apply Tracing.allRecorded_of_length
  change 2 * (List.replicate shards ShardPc.start).length ≤ _
  rwa [List.length_replicate]

/-- A line of six bytes. -/
def sixBytes : Line := ⟨[0x42], ⟨false, none, 1, 0⟩, by decide, by decide, by decide, by decide⟩

/-- Two shards on three lines, of which the last two are the tail and the first is split over
the chunks of two bytes and the common pool. -/
theorem lines_processed_exactly_once_iff_two :
    let (p, s₀) := startUp .nonIdiomatic .littleEndian (fileBytes (List.replicate 3 sixBytes)) 2 1 0
      6 5 fun _ chunks => chunks
    (∀ schedule, ∃ s, Tracing.run p s₀ schedule = some s ∧ (s.allDone 2 →
      s.processed.Perm ((lineStarts (List.replicate 3 sixBytes)).map Int.ofNat))) ∧
    ∃ n s, Tracing.run p s₀ ((List.range n).map fun m => (m % 2, true)) = some s ∧ s.allDone 2 := by
  obtain ⟨E, hE, hrun, -⟩ := lines_processed_exactly_once_iff .nonIdiomatic .littleEndian
    (List.replicate 3 sixBytes) 2 1 0 (by decide) (by decide) (by decide)
  obtain rfl : E = 6 := by
    have hsix : SerialLazyShardQueue.effectiveSize (fileBytes (List.replicate 3 sixBytes)) 9 =
        some 6 := by
      decide +kernel
    exact_mod_cast (Option.some.inj (hsix.symm.trans hE)).symm
  obtain ⟨hall, hfair⟩ := hrun 5 (fun _ chunks => chunks) ⟨2, by decide⟩
  have few : 2 * 2 ≤ Variant.nonIdiomatic.timestamps := by decide
  exact ⟨fun schedule => (hall schedule).mpr (allRecorded_startUp few schedule),
    hfair _ (fun i hi n => ⟨2 * n + i, by omega, by simp; omega⟩)
      fun n => allRecorded_startUp few _⟩

/-- With 65 shards the last one fails when it cleans up in its first `take`. -/
theorem not_lines_processed_exactly_once_65 :
    SerialLazyShardQueue.effectiveSize (fileBytes (List.replicate 30 sixBytes)) 9 = some 168 ∧
    let (p, s₀) := startUp .vemana .littleEndian (fileBytes (List.replicate 30 sixBytes)) 65 1 0
      168 132 fun i chunks => chunks * (65 - i)
    SerialLazyShardQueue.commonPoolStart 2 168 132 = 66 * 2 ∧
      (Tracing.run p s₀ [(64, true), (64, true)]).isNone := by
  decide +kernel

end Explore.OneBrc
