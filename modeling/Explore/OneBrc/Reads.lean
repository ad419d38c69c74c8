import Explore.OneBrc.ExactlyOnce

/-!
# The reads of the non-idiomatic program

The line parsers read through raw addresses and nothing checks them. The functions of
this module observe the reads of the parsers, of the newline search and of a whole step
of a shard: they follow the control flow of what they observe and list where it reads,
up to and including a read that leaves the buffer. What the observed function does after
such a read is not modelled. A function that returns has therefore read inside of the
buffer only.
-/

namespace Explore.OneBrc

open ByteRange

/-- A read of `width` bytes at a position of the file, through a buffer that maps the
positions from `extentStart` to `extentEnd`. -/
structure Access where
  extentStart : ℤ
  extentEnd : ℤ
  address : ℤ
  width : ℕ
  deriving DecidableEq, Repr

/-- All bytes of the read are mapped. -/
def Access.Within (a : Access) : Prop :=
  a.extentStart ≤ a.address ∧ a.address + a.width ≤ a.extentEnd

instance (a : Access) : Decidable a.Within := inferInstanceAs (Decidable (_ ∧ _))

namespace FastShardProcessorState

/-- The words that the loop of `processLine` reads, from `nextPos` on. -/
def findSemicolonReads (mem : Buffer) (nextPos : ℕ) : List ℕ :=
  match _h : readLong mem nextPos with
  | none => [nextPos]
  | some x => nextPos :: if hasSemicolon x = 0 then findSemicolonReads mem (nextPos + 8) else []
  termination_by mem.length - nextPos
  decreasing_by
    rw [readLong] at _h
    split at _h
    · omega
    · simp at _h

/-- The words that `processLine` reads, the last of them in `readTemperature`. -/
def processLineReads (mem : Buffer) (origPos : ℕ) : List ℕ :=
  origPos ::
    match readLong mem origPos with
    | none => []
    | some firstLong =>
        if hasSemicolon firstLong = 0 then
          findSemicolonReads mem (origPos + 8) ++
            match findSemicolon mem (origPos + 8) with
            | none => []
            | some (nextPos, s) => [nextPos + (numberOfTrailingZeros s + 1) / 8]
        else [origPos + (numberOfTrailingZeros (hasSemicolon firstLong) + 1) / 8]

/-- The bytes that the name loop of `processLineSlow` reads. -/
def collectNameReads (mem : Buffer) (nextPos : ℕ) : List ℕ :=
  match _h : mem[nextPos]? with
  | none => [nextPos]
  | some nextByte =>
      nextPos :: if nextByte ≠ semicolon then collectNameReads mem (nextPos + 1) else []
  termination_by mem.length - nextPos
  decreasing_by
    have := (List.getElem?_eq_some_iff.mp _h).1
    omega

/-- The bytes that its temperature loop reads. -/
def scanTemperatureReads (mem : Buffer) (nextPos : ℕ) : List ℕ :=
  match _h : mem[nextPos]? with
  | none => [nextPos]
  | some nextByte =>
      nextPos :: if nextByte ≠ newline then scanTemperatureReads mem (nextPos + 1) else []
  termination_by mem.length - nextPos
  decreasing_by
    have := (List.getElem?_eq_some_iff.mp _h).1
    omega

/-- The bytes that `processLineSlow` reads. The first one of the temperature is read twice. -/
def processLineSlowReads (mem : Buffer) (nextPos : ℕ) : List ℕ :=
  collectNameReads mem nextPos ++
    match collectName mem nextPos [] with
    | none => []
    | some (_, nextPos) => nextPos :: scanTemperatureReads mem nextPos

end FastShardProcessorState

namespace ByteRange

/-- A read at an offset into the buffer. -/
def access (br : ByteRange) (width : ℕ) (offset : ℤ) : Access :=
  ⟨br.bufferStart, br.bufferEnd, br.bufferStart + offset, width⟩

def scanNewLineReads (b : Buffer) (nextPos : ℕ) : List ℕ :=
  match _h : b[nextPos]? with
  | none => [nextPos]
  | some x => nextPos :: if x = newline then [] else scanNewLineReads b (nextPos + 1)
  termination_by b.length - nextPos
  decreasing_by
    have := (List.getElem?_eq_some_iff.mp _h).1
    omega

/-- The bytes that `nextNewLine` reads. -/
def nextNewLineReads (br : ByteRange) (pos : ℤ) : List Access :=
  match br.byteBuffer with
  | none => []
  | some b =>
      let nextPos := intCast (pos - br.bufferStart)
      if nextPos < 0 then [br.access 1 nextPos]
      else (scanNewLineReads b nextPos.toNat).map fun a : ℕ => br.access 1 a

/-- The bytes that `setRange` reads, after it has remapped the buffer. -/
def setRangeReads (file : List Byte) (br : ByteRange) (rangeStart rangeEnd : ℤ) : List Access :=
  match remap .nonIdiomatic file br rangeStart rangeEnd with
  | none => []
  | some br => if rangeStart > 0 then br.nextNewLineReads rangeStart else []

/-- The reads of the loop of `processRange`, for a line parser with the given reads. -/
def processFromReads (step : Buffer → ℕ → Option ℕ) (reads : Buffer → ℕ → List ℕ) (mmb : Buffer)
    (end_ : ℤ) : ℕ → ℕ → List ℕ
  | fuel, nextPos =>
      if (nextPos : ℤ) < end_ then
        match fuel with
        | 0 => []
        | fuel + 1 => reads mmb nextPos ++
            match step mmb nextPos with
            | none => []
            | some next => processFromReads step reads mmb end_ fuel next
      else []

/-- The reads of `processRange`. -/
def processRangeReads (step : Buffer → ℕ → Option ℕ) (reads : Buffer → ℕ → List ℕ) (width : ℕ)
    (br : ByteRange) : List Access :=
  match br.byteBuffer with
  | none => if br.startInBuf < br.endInBuf then [br.access width br.startInBuf] else []
  | some mmb =>
      if br.startInBuf < 0 then [br.access width br.startInBuf]
      else (processFromReads step reads mmb br.endInBuf (mmb.length + 1)
        br.startInBuf.toNat).map fun a : ℕ => br.access width a

end ByteRange

namespace SerialLazyShardQueue

/-- The reads of `fileTailEndWork`. -/
def fileTailEndWorkReads (q : SerialLazyShardQueue) (idx : ℕ) : List Access :=
  if idx = 0 ∧ q.effectiveFileSize < q.file.length then
    setRangeReads q.file ByteRange.new
      (if q.effectiveFileSize = 0 then 0 else q.effectiveFileSize - 1) q.file.length
  else []

/-- The reads at the end of `take`. -/
def serveReads (q : SerialLazyShardQueue) (st : QueueState) (shardIdx : ℕ) (data : ThreadData)
    (rangeStart rangeEnd : ℤ) (acquired : Bool) : List Access :=
  match st.byteRanges[shardIdx]? with
  | none => []
  | some range =>
      let cleans := decide (data.remaining < data.threshold ∧ data.unmaps > 0) && acquired
      setRangeReads q.file (if cleans then range.close else range) rangeStart rangeEnd

/-- The reads of `take`. -/
def takeReads (q : SerialLazyShardQueue) (st : QueueState) (shardIdx : ℕ) (acquired : Bool) :
    List Access :=
  match st.perThreadData[shardIdx]? with
  | none => []
  | some data =>
      if data.remaining ≥ 1 then
        let rangeEnd := data.nextBegin + q.chunkSize
        let data' : ThreadData :=
          { data with
            remaining := data.remaining - 1
            nextBegin := if q.fakeAdvance then data.nextBegin else rangeEnd }
        q.serveReads st shardIdx data' data.nextBegin rangeEnd acquired
      else
        let rangeStart := st.commonPool
        let st' := { st with commonPool := st.commonPool + q.commonChunkSize }
        if rangeStart ≥ q.effectiveFileSize then []
        else q.serveReads st' shardIdx data rangeStart (rangeStart + q.commonChunkSize) acquired

end SerialLazyShardQueue

namespace Program

/-- The reads of shard `i` when it acts. -/
def stepReads (p : Program) (s : Shards) (i : ℕ) (acquired : Bool) : List Access :=
  match s.pcs[i]? with
  | some .start =>
      p.queue.fileTailEndWorkReads i ++
        match p.queue.fileTailEndWork i with
        | some (some range) => processRangeReads p.processLineSlow
            FastShardProcessorState.processLineSlowReads 1 range
        | _ => []
  | some .ready => p.queue.takeReads s.queue i acquired
  | some .holding =>
      match s.queue.byteRanges[i]? with
      | none => []
      | some range =>
          processRangeReads p.processLine FastShardProcessorState.processLineReads 8 range
  | _ => []

end Program

/-- A parser that returns has made the reads of the given width inside of the buffer. -/
def ReadsInside (width : ℕ) (step : Buffer → ℕ → Option ℕ) (reads : Buffer → ℕ → List ℕ) : Prop :=
  ∀ (mem : Buffer) (pos next : ℕ), step mem pos = some next →
    ∀ a ∈ reads mem pos, a + width ≤ mem.length

section Lines

open FastShardProcessorState

theorem le_length_of_readLong {mem : Buffer} {addr : ℕ} {x : JLong}
    (h : readLong mem addr = some x) : addr + 8 ≤ mem.length := by
  by_contra hle
  rw [readLong, if_neg hle] at h
  simp at h

theorem lt_length_of_getElem? {mem : Buffer} {addr : ℕ} {b : Byte} (h : mem[addr]? = some b) :
    addr + 1 ≤ mem.length := (List.getElem?_eq_some_iff.mp h).1

theorem findSemicolonReads_inside {mem : Buffer} {pos : ℕ} {found : ℕ × JLong}
    (h : findSemicolon mem pos = some found) :
    ∀ a ∈ findSemicolonReads mem pos, a + 8 ≤ mem.length := by
  fun_induction findSemicolon mem pos with
  | case1 pos hread => simp at h
  | case2 pos x hread hzero ih =>
      rw [findSemicolonReads, hread]
      refine List.forall_mem_cons.mpr ⟨le_length_of_readLong hread, ?_⟩
      simp only [if_pos hzero]
      exact ih h
  | case3 pos x hread hsome =>
      rw [findSemicolonReads, hread]
      refine List.forall_mem_cons.mpr ⟨le_length_of_readLong hread, ?_⟩
      rw [if_neg hsome]
      exact List.forall_mem_nil _

/-- The end of a line is read where the temperature is. -/
theorem le_length_of_finishLine {mem : Buffer} {origPos pos : ℕ} {hash : JInt} {fast : FastLine}
    (h : finishLine mem origPos pos hash = some fast) : pos + 8 ≤ mem.length := by
  obtain ⟨temp, htemp, -⟩ := Option.bind_eq_some_iff.mp h
  obtain ⟨data, hdata, -⟩ := Option.bind_eq_some_iff.mp htemp
  exact le_length_of_readLong hdata

theorem processLineReads_inside {mem : Buffer} {pos : ℕ} {fast : FastLine}
    (h : processLine mem pos = some fast) :
    ∀ a ∈ processLineReads mem pos, a + 8 ≤ mem.length := by
  obtain ⟨firstLong, hfirst, h⟩ := Option.bind_eq_some_iff.mp h
  rw [processLineReads, hfirst]
  refine List.forall_mem_cons.mpr ⟨le_length_of_readLong hfirst, ?_⟩
  by_cases hzero : hasSemicolon firstLong = 0
  · simp only [if_pos hzero] at h ⊢
    obtain ⟨⟨nextPos, s⟩, hfound, h⟩ := Option.bind_eq_some_iff.mp h
    rw [hfound]
    refine List.forall_mem_append.mpr ⟨findSemicolonReads_inside hfound, ?_⟩
    exact List.forall_mem_singleton.mpr (le_length_of_finishLine h)
  · simp only [if_neg hzero] at h ⊢
    exact List.forall_mem_singleton.mpr (le_length_of_finishLine h)

theorem readsInside_lineStep (order : ByteOrder) :
    ReadsInside 8 (Variant.nonIdiomatic.lineStep order) processLineReads := by
  intro mem pos next h
  obtain ⟨fast, hfast, -⟩ := Option.map_eq_some_iff.mp h
  exact processLineReads_inside hfast

theorem collectNameReads_inside {mem : Buffer} {pos : ℕ} {baos : List Byte}
    {found : List Byte × ℕ} (h : collectName mem pos baos = some found) :
    ∀ a ∈ collectNameReads mem pos, a + 1 ≤ mem.length := by
  fun_induction collectName mem pos baos with
  | case1 pos baos hread => simp at h
  | case2 pos baos nextByte hread hne ih =>
      rw [collectNameReads, hread]
      refine List.forall_mem_cons.mpr ⟨lt_length_of_getElem? hread, ?_⟩
      simp only [if_pos hne]
      exact ih h
  | case3 pos baos nextByte hread heq =>
      rw [collectNameReads, hread]
      refine List.forall_mem_cons.mpr ⟨lt_length_of_getElem? hread, ?_⟩
      simp [heq]

theorem scanTemperatureReads_inside {mem : Buffer} {pos : ℕ} {temperature : ℤ} {found : ℤ × ℕ}
    (h : ShardProcessorState.scanTemperatureSlow mem pos temperature = some found) :
    ∀ a ∈ scanTemperatureReads mem pos, a + 1 ≤ mem.length := by
  fun_induction ShardProcessorState.scanTemperatureSlow mem pos temperature with
  | case1 pos temperature hread => simp at h
  | case2 pos temperature hread =>
      rw [scanTemperatureReads, hread]
      exact List.forall_mem_cons.mpr ⟨lt_length_of_getElem? hread, by simp⟩
  | case3 pos temperature nextByte hread hne _ ih =>
      rw [scanTemperatureReads, hread]
      refine List.forall_mem_cons.mpr ⟨lt_length_of_getElem? hread, ?_⟩
      simp only [ne_eq, hne, not_false_eq_true, if_true]
      exact ih h
  | case4 pos temperature nextByte hread hne _ ih =>
      rw [scanTemperatureReads, hread]
      refine List.forall_mem_cons.mpr ⟨lt_length_of_getElem? hread, ?_⟩
      simp only [ne_eq, hne, not_false_eq_true, if_true]
      exact ih h

theorem readsInside_lineStepSlow :
    ReadsInside 1 Variant.nonIdiomatic.lineStepSlow processLineSlowReads := by
  intro mem pos next h
  obtain ⟨result, hresult, -⟩ := Option.map_eq_some_iff.mp h
  obtain ⟨⟨name, nextPos⟩, hname, hresult⟩ := Option.bind_eq_some_iff.mp hresult
  obtain ⟨temperature, htemperature, -⟩ := Option.bind_eq_some_iff.mp hresult
  obtain ⟨first, hfirst, hrest⟩ := Option.bind_eq_some_iff.mp htemperature
  obtain ⟨found, hfound, -⟩ := Option.bind_eq_some_iff.mp hrest
  rw [processLineSlowReads, hname]
  refine List.forall_mem_append.mpr ⟨collectNameReads_inside hname, ?_⟩
  exact List.forall_mem_cons.mpr ⟨lt_length_of_getElem? hfirst, scanTemperatureReads_inside hfound⟩

end Lines

section Ranges

namespace ByteRange

variable {file : List Byte} {br : ByteRange}

theorem scanNewLineReads_inside {b : Buffer} {pos found : ℕ} (h : scanNewLine b pos = some found) :
    ∀ a ∈ scanNewLineReads b pos, a + 1 ≤ b.length := by
  fun_induction scanNewLine b pos with
  | case1 pos hread => simp at h
  | case2 pos hread =>
      rw [scanNewLineReads, hread]
      exact List.forall_mem_cons.mpr ⟨lt_length_of_getElem? hread, by simp⟩
  | case3 pos x hread hne ih =>
      rw [scanNewLineReads, hread]
      refine List.forall_mem_cons.mpr ⟨lt_length_of_getElem? hread, ?_⟩
      simp only [if_neg hne]
      exact ih h

/-- Offsets inside of the buffer are positions inside of the extent. -/
theorem Window.within (window : Window file br) {mmb : Buffer} (hmmb : br.byteBuffer = some mmb)
    {width a : ℕ} (h : a + width ≤ mmb.length) : (br.access width a).Within := by
  cases window with
  | closed => simp at hmmb
  | @mapped _ _ lo hi hle hhi _ =>
      obtain rfl := Option.some.inj hmmb
      rw [List.length_take, List.length_drop] at h
      simp only [access, Access.Within]
      omega

/-- Remapping leaves a window of the file. -/
theorem Window.remap (v : Variant) (window : Window file br) {rangeStart rangeEnd : ℤ}
    {br' : ByteRange} (h : ByteRange.remap v file br rangeStart rangeEnd = some br') :
    Window file br' := by
  rw [ByteRange.remap] at h
  split at h
  · obtain ⟨b, hb, h⟩ := Option.bind_eq_some_iff.mp h
    obtain rfl := Option.some.inj h
    rw [mapFile] at hb
    split at hb
    · simp at hb
    · obtain rfl := Option.some.inj hb
      obtain ⟨lo, rfl⟩ := Int.eq_ofNat_of_zero_le (show 0 ≤ rangeStart by omega)
      obtain ⟨hi, hhi⟩ := Int.eq_ofNat_of_zero_le
        (show 0 ≤ min ((lo : ℤ) + v.bufSize) file.length by omega)
      rw [hhi]
      have hdiff : ((hi : ℤ) - lo).toNat = hi - lo := by omega
      rw [hdiff, Int.toNat_natCast]
      exact .mapped br.startInBuf br.endInBuf (by omega) (by omega) (by omega)
  · obtain rfl := Option.some.inj h
    exact window

theorem Window.setRange {v : Variant} (window : Window file br)
    {maxEndPos rangeStart rangeEnd : ℤ} {br' : ByteRange}
    (h : ByteRange.setRange v file maxEndPos br rangeStart rangeEnd = some br') :
    Window file br' := by
  obtain ⟨mapped, hmapped, h⟩ := Option.bind_eq_some_iff.mp h
  obtain ⟨start, -, h⟩ := Option.bind_eq_some_iff.mp h
  obtain ⟨end_, -, h⟩ := Option.bind_eq_some_iff.mp h
  obtain rfl := Option.some.inj h
  cases window.remap v hmapped with
  | closed => exact .closed _ _
  | mapped _ _ le hi_le small => exact .mapped _ _ le hi_le small

theorem nextNewLineReads_within (window : Window file br) {pos found : ℤ}
    (h : br.nextNewLine pos = some found) : ∀ a ∈ br.nextNewLineReads pos, a.Within := by
  obtain ⟨mmb, hmmb, h⟩ := Option.bind_eq_some_iff.mp h
  rw [nextNewLineReads, hmmb]
  by_cases hneg : intCast (pos - br.bufferStart) < 0
  · simp [hneg] at h
  · simp only [if_neg hneg] at h ⊢
    obtain ⟨q, hq, -⟩ := Option.bind_eq_some_iff.mp h
    refine List.forall_mem_map.mpr fun a ha => ?_
    exact window.within hmmb (scanNewLineReads_inside hq a ha)

theorem setRangeReads_within (window : Window file br) {maxEndPos rangeStart rangeEnd : ℤ}
    {br' : ByteRange}
    (h : setRange .nonIdiomatic file maxEndPos br rangeStart rangeEnd = some br') :
    ∀ a ∈ setRangeReads file br rangeStart rangeEnd, a.Within := by
  obtain ⟨mapped, hmapped, h⟩ := Option.bind_eq_some_iff.mp h
  obtain ⟨start, hstart, -⟩ := Option.bind_eq_some_iff.mp h
  rw [setRangeReads, hmapped]
  by_cases hpos : rangeStart > 0
  · simp only [if_pos hpos]
    rw [advanceStart, if_pos hpos] at hstart
    obtain ⟨found, hfound, -⟩ := Option.map_eq_some_iff.mp hstart
    exact nextNewLineReads_within (window.remap .nonIdiomatic hmapped) hfound
  · simp [hpos]

theorem processFromReads_inside {width : ℕ} {step : Buffer → ℕ → Option ℕ}
    {reads : Buffer → ℕ → List ℕ} (inside : ReadsInside width step reads) {mmb : Buffer} {end_ : ℤ}
    {fuel pos : ℕ} {starts : List ℕ} (h : processFrom step mmb end_ fuel pos = some starts) :
    ∀ a ∈ processFromReads step reads mmb end_ fuel pos, a + width ≤ mmb.length := by
  induction fuel generalizing pos starts with
  | zero =>
      rw [processFromReads]
      split
      · simp
      · simp
  | succ fuel ih =>
      rw [processFrom] at h
      rw [processFromReads]
      by_cases hlt : (pos : ℤ) < end_
      · simp only [if_pos hlt] at h ⊢
        obtain ⟨next, hnext, h⟩ := Option.bind_eq_some_iff.mp h
        obtain ⟨rest, hrest, -⟩ := Option.bind_eq_some_iff.mp h
        rw [hnext]
        exact List.forall_mem_append.mpr ⟨inside mmb pos next hnext, ih hrest⟩
      · simp [hlt]

theorem processRangeReads_within (window : Window file br) {width : ℕ}
    {step : Buffer → ℕ → Option ℕ} {reads : Buffer → ℕ → List ℕ}
    (inside : ReadsInside width step reads) {starts : List ℤ}
    (h : processRange step br = some starts) :
    ∀ a ∈ processRangeReads step reads width br, a.Within := by
  obtain ⟨mmb, hmmb, h⟩ := Option.bind_eq_some_iff.mp h
  rw [processRangeReads, hmmb]
  by_cases hneg : br.startInBuf < 0
  · simp [hneg] at h
  · simp only [if_neg hneg] at h ⊢
    obtain ⟨found, hfound, -⟩ := Option.bind_eq_some_iff.mp h
    refine List.forall_mem_map.mpr fun a ha => ?_
    exact window.within hmmb (processFromReads_inside inside hfound a ha)

end ByteRange

end Ranges

section Steps

variable {p : Program} {s s' : Shards} {i : ℕ} {acquired : Bool}

namespace SerialLazyShardQueue

variable {q : SerialLazyShardQueue} {st st' : QueueState}

theorem serveReads_within (variant : q.variant = .nonIdiomatic)
    (windows : ∀ (j : ℕ) br, st.byteRanges[j]? = some br → Window q.file br) {data : ThreadData}
    {rangeStart rangeEnd : ℤ} (h : q.serve st i data rangeStart rangeEnd acquired = some st') :
    ∀ a ∈ q.serveReads st i data rangeStart rangeEnd acquired, a.Within := by
  obtain ⟨range, hrange, h⟩ := Option.bind_eq_some_iff.mp h
  obtain ⟨chunk, hchunk, -⟩ := Option.bind_eq_some_iff.mp h
  rw [variant] at hchunk
  rw [serveReads, hrange]
  refine setRangeReads_within ?_ hchunk
  split
  · exact (windows i range hrange).close
  · exact windows i range hrange

theorem takeReads_within (variant : q.variant = .nonIdiomatic)
    (windows : ∀ (j : ℕ) br, st.byteRanges[j]? = some br → Window q.file br) {taken : Bool}
    (h : q.take st i acquired = some (st', taken)) : ∀ a ∈ q.takeReads st i acquired, a.Within := by
  obtain ⟨data, hdata, h⟩ := Option.bind_eq_some_iff.mp h
  rw [takeReads, hdata]
  by_cases hown : data.remaining ≥ 1
  · simp only [if_pos hown] at h ⊢
    obtain ⟨served, hserved, -⟩ := Option.map_eq_some_iff.mp h
    exact serveReads_within variant windows hserved
  · by_cases hempty : st.commonPool ≥ q.effectiveFileSize
    · simp [hown, hempty]
    · simp only [if_neg hown, if_neg hempty] at h ⊢
      obtain ⟨served, hserved, -⟩ := Option.map_eq_some_iff.mp h
      refine serveReads_within variant ?_ hserved
      exact windows

theorem fileTailEndWorkReads_within (variant : q.variant = .nonIdiomatic) {range : Option ByteRange}
    (h : q.fileTailEndWork i = some range) : ∀ a ∈ q.fileTailEndWorkReads i, a.Within := by
  rw [fileTailEndWork] at h
  rw [fileTailEndWorkReads]
  by_cases hzero : i = 0 ∧ q.effectiveFileSize < q.file.length
  · simp only [if_pos hzero] at h ⊢
    obtain ⟨chunk, hchunk, -⟩ := Option.map_eq_some_iff.mp h
    rw [variant] at hchunk
    exact setRangeReads_within (window_new q.file) hchunk
  · simp [hzero]

/-- The range of the tail maps a window of the file. -/
theorem window_fileTailEndWork {range : ByteRange} (h : q.fileTailEndWork i = some (some range)) :
    Window q.file range := by
  rw [fileTailEndWork] at h
  split at h
  · obtain ⟨chunk, hchunk, hsome⟩ := Option.map_eq_some_iff.mp h
    obtain rfl := Option.some.inj hsome
    exact (window_new q.file).setRange hchunk
  · simp at h

end SerialLazyShardQueue

/-- A step that does not fail has read inside of the mapped buffers only. -/
theorem Program.stepReads_within (variant : p.queue.variant = .nonIdiomatic)
    (fast : ReadsInside 8 p.processLine FastShardProcessorState.processLineReads)
    (slow : ReadsInside 1 p.processLineSlow FastShardProcessorState.processLineSlowReads)
    (windows : ∀ (j : ℕ) br, s.queue.byteRanges[j]? = some br → Window p.queue.file br)
    (h : p.step s i acquired = some s') : ∀ a ∈ p.stepReads s i acquired, a.Within := by
  rw [Program.step] at h
  rw [Program.stepReads]
  cases hpc : s.pcs[i]? with
  | none => simp
  | some pc =>
      rw [hpc] at h
      cases pc with
      | start =>
          obtain ⟨starts, hstarts, -⟩ := Option.bind_eq_some_iff.mp h
          obtain ⟨tail, htail, hstarts⟩ := Option.bind_eq_some_iff.mp hstarts
          rw [htail]
          refine List.forall_mem_append.mpr
            ⟨SerialLazyShardQueue.fileTailEndWorkReads_within variant htail, ?_⟩
          cases tail with
          | none => exact List.forall_mem_nil _
          | some range =>
              exact processRangeReads_within (SerialLazyShardQueue.window_fileTailEndWork htail)
                slow hstarts
      | ready =>
          obtain ⟨⟨queue, taken⟩, htake, -⟩ := Option.bind_eq_some_iff.mp h
          exact SerialLazyShardQueue.takeReads_within variant windows htake
      | holding =>
          obtain ⟨range, hrange, h⟩ := Option.bind_eq_some_iff.mp h
          obtain ⟨starts, hstarts, -⟩ := Option.bind_eq_some_iff.mp h
          rw [hrange]
          exact processRangeReads_within (windows i range hrange) fast hstarts
      | done => exact List.forall_mem_nil _

end Steps

section Runs

variable {p : Program} {left right : List Line} {c cc slack shards : ℕ} {s : Shards}

/-- The invariant of every run, with any start of the common pool: nothing is about to be
taken from behind the body of the file, and what is held can be processed. -/
structure Serves (p : Program) (left right : List Line) (c : ℕ) (s : Shards) (shards : ℕ) :
    Prop where
  pcs_length : s.pcs.length = shards
  data_length : s.queue.perThreadData.length = shards
  ranges_length : s.queue.byteRanges.length = shards
  pool_nonneg : 0 ≤ s.queue.commonPool
  window : ∀ (i : ℕ) br, s.queue.byteRanges[i]? = some br → Window (fileBytes (left ++ right)) br
  data : ∀ (i : ℕ) d, s.queue.perThreadData[i]? = some d → 0 ≤ d.nextBegin ∧
    d.nextBegin + d.remaining * c < (fileBytes left).length + c
  held : ∀ i : ℕ, s.pcs[i]? = some .holding →
    ∃ br starts, s.queue.byteRanges[i]? = some br ∧ processRange p.processLine br = some starts

/-- The program without `fakeAdvance`, which decides only what is taken next. -/
def Program.advancing (p : Program) : Program :=
  { p with queue := { p.queue with fakeAdvance := false } }

/-- A shard that has just become something else than `holding` holds nothing. -/
theorem pcs_of_holding_set {i j : ℕ} {pc : ShardPc} (hpc : pc ≠ .holding)
    (h : (s.pcs.set i pc)[j]? = some .holding) : s.pcs[j]? = some .holding := by
  by_cases hne : i = j
  · subst hne
    obtain ⟨hlt, hget⟩ := List.getElem?_eq_some_iff.mp h
    rw [List.getElem_set_self] at hget
    exact absurd hget hpc
  · rwa [List.getElem?_set_ne hne] at h

/-- Shard `i` has processed what it held. -/
theorem Serves.release (serves : Serves p left right c s shards) (i : ℕ) (starts : List ℤ) :
    Serves p left right c (s.release i starts) shards :=
  { serves with
    pcs_length := by simpa [Shards.release] using serves.pcs_length
    held := fun j hj => serves.held j (pcs_of_holding_set (by decide) hj) }

/-- Shard `i` has found nothing left. -/
theorem Serves.exhausted (serves : Serves p left right c s shards) (i : ℕ) {commonPool : ℤ}
    (hpool : s.queue.commonPool ≤ commonPool) :
    Serves p left right c (s.exhausted i commonPool) shards :=
  { serves with
    pcs_length := by simpa [Shards.exhausted] using serves.pcs_length
    pool_nonneg := serves.pool_nonneg.trans hpool
    held := fun j hj => serves.held j (pcs_of_holding_set (by decide) hj) }

/-- Shard `i` has taken a range. -/
theorem Serves.taken (serves : Serves p left right c s shards) {i : ℕ} (hi : i < shards)
    {commonPool : ℤ} (hpool : s.queue.commonPool ≤ commonPool) {data : ThreadData}
    (hdata : 0 ≤ data.nextBegin ∧
      data.nextBegin + data.remaining * c < (fileBytes left).length + c)
    {br : ByteRange} (hwindow : Window (fileBytes (left ++ right)) br) {starts : List ℤ}
    (hrun : processRange p.processLine br = some starts) :
    Serves p left right c (s.taken i commonPool data br) shards where
  pcs_length := by simpa [Shards.taken] using serves.pcs_length
  data_length := by simpa [Shards.taken] using serves.data_length
  ranges_length := by simpa [Shards.taken] using serves.ranges_length
  pool_nonneg := serves.pool_nonneg.trans hpool
  window := forall_getElem?_set serves.window hwindow
  data := forall_getElem?_set serves.data hdata
  held := by
    intro j hj
    by_cases hne : i = j
    · subst hne
      refine ⟨br, starts, ?_, hrun⟩
      exact List.getElem?_set_self (by rw [serves.ranges_length]; exact hi)
    · obtain ⟨b, found, hb, hfound⟩ := serves.held j (by rwa [← List.getElem?_set_ne hne])
      exact ⟨b, found, (List.getElem?_set_ne hne).trans hb, hfound⟩

/-- A shard takes a range that begins in the body of the file. -/
theorem Serves.serve (h : Setup p.advancing left right c cc slack)
    (serves : Serves p left right c s shards) {i : ℕ} (hi : i < shards) (st : QueueState)
    (hranges : st.byteRanges = s.queue.byteRanges) (data : ThreadData) (acquired : Bool) {a b : ℕ}
    (ha : a < (fileBytes left).length) (hab : a < b)
    (hsize : (b : ℤ) - a + 1024 ≤ p.queue.variant.bufSize) :
    ∃ unmaps br starts, p.queue.serve st i data a b acquired =
        some { st with
          perThreadData := st.perThreadData.set i { data with unmaps := unmaps }
          byteRanges := st.byteRanges.set i br } ∧
      Window (fileBytes (left ++ right)) br ∧ processRange p.processLine br = some starts := by
  obtain ⟨br, hbr⟩ : ∃ br, st.byteRanges[i]? = some br :=
    ⟨_, List.getElem?_eq_getElem (by rw [hranges, serves.ranges_length]; exact hi)⟩
  obtain ⟨unmaps, br', hserve, hwin, hrun⟩ := serve_eq h hbr
    (serves.window i br (by rwa [← hranges])) data acquired ha hab hsize
  exact ⟨unmaps, br', _, hserve, hwin, hrun⟩

/-- A shard takes the next of its own chunks, or the same one again. -/
theorem Serves.step_own (h : Setup p.advancing left right c cc slack)
    (serves : Serves p left right c s shards) {i : ℕ} (hi : i < shards)
    (hpc : s.pcs[i]? = some .ready) (acquired : Bool) {data : ThreadData}
    (hdata : s.queue.perThreadData[i]? = some data) (some_left : 1 ≤ data.remaining) :
    ∃ s', p.step s i acquired = some s' ∧ Serves p left right c s' shards := by
  obtain ⟨hbegin, hfit⟩ := serves.data i data hdata
  obtain ⟨a, ha⟩ := Int.eq_ofNat_of_zero_le hbegin
  have hchunk : p.queue.chunkSize = c := h.chunk
  have hc := h.chunk_pos
  have hone : (c : ℤ) ≤ data.remaining * c := by nlinarith
  have hend : ((a + c : ℕ) : ℤ) = data.nextBegin + p.queue.chunkSize := by push_cast; omega
  have hsize : ((a + c : ℕ) : ℤ) - a + 1024 ≤ p.queue.variant.bufSize := by
    have : (c : ℤ) + 1024 ≤ p.queue.variant.bufSize := h.chunk_le
    push_cast
    omega
  obtain ⟨nextBegin, hnext⟩ : ∃ nextBegin, nextBegin =
      if p.queue.fakeAdvance then data.nextBegin else data.nextBegin + p.queue.chunkSize :=
    ⟨_, rfl⟩
  have hnext_le : 0 ≤ nextBegin ∧ nextBegin ≤ data.nextBegin + c := by
    rw [hnext]
    split
    · omega
    · omega
  obtain ⟨unmaps, br, starts, hserve, hwin, hrun⟩ := serves.serve h hi s.queue rfl
    ⟨nextBegin, data.remaining - 1, data.threshold, data.unmaps⟩ acquired
    (show a < (fileBytes left).length by omega) (show a < a + c by omega) hsize
  rw [hend, ← ha, hnext] at hserve
  refine ⟨s.taken i s.queue.commonPool ⟨nextBegin, data.remaining - 1, data.threshold, unmaps⟩ br,
    ?_, serves.taken hi (le_refl _) ⟨hnext_le.1, ?_⟩ hwin hrun⟩
  · simp only [Program.step, hpc, SerialLazyShardQueue.take, hdata, Option.bind_eq_bind,
      Option.bind_some, if_pos (ge_iff_le.mpr some_left)]
    rw [hserve, hnext]
    rfl
  · have hless : (data.remaining - 1) * c = data.remaining * c - c := by ring
    change nextBegin + (data.remaining - 1) * c < (fileBytes left).length + c
    rw [hless]
    omega

/-- A shard takes a chunk of the common pool. -/
theorem Serves.step_pool (h : Setup p.advancing left right c cc slack)
    (serves : Serves p left right c s shards) {i : ℕ} (hi : i < shards)
    (hpc : s.pcs[i]? = some .ready) (acquired : Bool) {data : ThreadData}
    (hdata : s.queue.perThreadData[i]? = some data) (none_left : ¬ data.remaining ≥ 1)
    (pool_left : s.queue.commonPool < (fileBytes left).length) :
    ∃ s', p.step s i acquired = some s' ∧ Serves p left right c s' shards := by
  obtain ⟨pool, hpool⟩ := Int.eq_ofNat_of_zero_le serves.pool_nonneg
  have hcommon : p.queue.commonChunkSize = cc := h.common
  have heffective : p.queue.effectiveFileSize = (fileBytes left).length := h.effective
  have hcc := h.common_pos
  have hend : ((pool + cc : ℕ) : ℤ) = s.queue.commonPool + p.queue.commonChunkSize := by
    push_cast
    omega
  have hsize : ((pool + cc : ℕ) : ℤ) - pool + 1024 ≤ p.queue.variant.bufSize := by
    have : (cc : ℤ) + 1024 ≤ p.queue.variant.bufSize := h.common_le
    push_cast
    omega
  obtain ⟨unmaps, br, starts, hserve, hwin, hrun⟩ := serves.serve h hi
    { s.queue with commonPool := s.queue.commonPool + p.queue.commonChunkSize } rfl data acquired
    (show pool < (fileBytes left).length by omega) (show pool < pool + cc by omega) hsize
  rw [hend, ← hpool] at hserve
  have hpool : s.queue.commonPool ≤ s.queue.commonPool + p.queue.commonChunkSize := by omega
  have hdata' : (0 : ℤ) ≤ { data with unmaps := unmaps }.nextBegin ∧ _ := serves.data i data hdata
  refine ⟨s.taken i (s.queue.commonPool + p.queue.commonChunkSize)
    { data with unmaps := unmaps } br, ?_, serves.taken hi hpool hdata' hwin hrun⟩
  simp only [Program.step, hpc, SerialLazyShardQueue.take, hdata, Option.bind_eq_bind,
    Option.bind_some, if_neg none_left, if_neg (show ¬ s.queue.commonPool ≥
      p.queue.effectiveFileSize by omega)]
  rw [hserve]
  rfl

/-- No step fails, and every step keeps the invariant. -/
theorem Serves.step (h : Setup p.advancing left right c cc slack)
    (serves : Serves p left right c s shards) (i : ℕ) (acquired : Bool) :
    ∃ s', p.step s i acquired = some s' ∧ Serves p left right c s' shards := by
  cases hpc : s.pcs[i]? with
  | none => exact ⟨s, by rw [Program.step, hpc], serves⟩
  | some pc =>
      have hi : i < shards := serves.pcs_length ▸ (List.getElem?_eq_some_iff.mp hpc).1
      cases pc with
      | start =>
          obtain ⟨starts, htail⟩ : ∃ starts, p.processTail i = some starts :=
            ⟨_, processTail_eq h i⟩
          refine ⟨s.release i starts, ?_, serves.release i starts⟩
          simp [Program.step, hpc, htail, Shards.release]
      | holding =>
          obtain ⟨br, starts, hbr, hrun⟩ := serves.held i hpc
          refine ⟨s.release i starts, ?_, serves.release i starts⟩
          simp [Program.step, hpc, hbr, hrun, Shards.release]
      | done => exact ⟨s, by rw [Program.step, hpc], serves⟩
      | ready =>
          obtain ⟨data, hdata⟩ : ∃ data, s.queue.perThreadData[i]? = some data :=
            ⟨_, List.getElem?_eq_getElem (by rw [serves.data_length]; exact hi)⟩
          have heffective : p.queue.effectiveFileSize = (fileBytes left).length := h.effective
          have hcommon : p.queue.commonChunkSize = cc := h.common
          by_cases some_left : 1 ≤ data.remaining
          · exact serves.step_own h hi hpc acquired hdata some_left
          by_cases pool_left : s.queue.commonPool < (fileBytes left).length
          · exact serves.step_pool h hi hpc acquired hdata some_left pool_left
          refine ⟨s.exhausted i (s.queue.commonPool + p.queue.commonChunkSize), ?_,
            serves.exhausted i (by omega)⟩
          simp only [Program.step, hpc, SerialLazyShardQueue.take, hdata, Option.bind_eq_bind,
            Option.bind_some, ge_iff_le, if_neg some_left, heffective, if_pos (not_lt.mp pool_left)]
          rfl

/-- No run fails, and every run keeps the invariant. -/
theorem Serves.run (h : Setup p.advancing left right c cc slack)
    (serves : Serves p left right c s shards) (schedule : List (ℕ × Bool)) :
    ∃ s', p.run s schedule = some s' ∧ Serves p left right c s' shards := by
  induction schedule generalizing s with
  | nil => exact ⟨s, rfl, serves⟩
  | cons turn schedule ih =>
      obtain ⟨s₁, hstep, serves₁⟩ := serves.step h turn.1 turn.2
      obtain ⟨s', hrun, serves'⟩ := ih serves₁
      refine ⟨s', ?_, serves'⟩
      rw [Program.run, List.foldlM_cons, hstep]
      exact hrun

/-- The shares of the shards begin below the start of the common pool. -/
theorem serves_initial {threshold : ℕ → ℤ → ℤ} {poolTarget : ℤ} {fakeAdvance : Bool}
    {file : List Byte} (hc : 0 < c) (target : 0 ≤ poolTarget) :
    Serves p left right c (Shards.initial (SerialLazyShardQueue.new .nonIdiomatic file c cc
      (fileBytes left).length shards poolTarget threshold fakeAdvance).2 shards) shards := by
  obtain ⟨start, hstart⟩ : ∃ start : ℕ,
      SerialLazyShardQueue.commonPoolStart c (fileBytes left).length poolTarget = start :=
    Int.eq_ofNat_of_zero_le (by
      rw [SerialLazyShardQueue.commonPoolStart, roundToNearestLowerMultipleOf]
      have := Int.tdiv_nonneg target (Int.natCast_nonneg c)
      exact le_min (mul_nonneg this (Int.natCast_nonneg c)) (Int.natCast_nonneg _))
  have hle : start ≤ (fileBytes left).length := by
    have : SerialLazyShardQueue.commonPoolStart c (fileBytes left).length poolTarget ≤
        (fileBytes left).length := min_le_right _ _
    rw [hstart] at this
    exact_mod_cast this
  have hchunks : ((start : ℤ) + c - 1).tdiv c = ((start + (c - 1)) / c : ℕ) := by
    have h1 : (start : ℤ) + c - 1 = (start + (c - 1) : ℕ) := by
      push_cast [Nat.cast_sub (show 1 ≤ c by omega)]
      ring
    rw [h1]
    rfl
  have hceil : (start + (c - 1)) / c * c < start + c := by
    have := Nat.div_mul_le_self (start + (c - 1)) c
    omega
  have hqueue : (SerialLazyShardQueue.new .nonIdiomatic file c cc (fileBytes left).length shards
      poolTarget threshold fakeAdvance).2 =
      ⟨start, distribute c threshold 0 0 ((start + (c - 1)) / c : ℕ) shards,
        List.replicate shards ByteRange.new⟩ := by
    simp only [SerialLazyShardQueue.new, hstart, hchunks]
  rw [hqueue]
  refine
    { pcs_length := by simp [Shards.initial]
      data_length := length_distribute ..
      ranges_length := by simp [Shards.initial]
      pool_nonneg := Int.natCast_nonneg start
      window := fun i br hbr => ?_
      data := fun i d hd => ?_
      held := fun i hi => ?_ }
  · obtain rfl := List.eq_of_mem_replicate (List.mem_of_getElem? hbr)
    exact window_new _
  · obtain ⟨n, rfl⟩ : ∃ n, shards = n + 1 := by
      have hlt := (List.getElem?_eq_some_iff.mp hd).1
      have hlen : (distribute c threshold 0 0 ((start + (c - 1)) / c : ℕ) shards).length = shards :=
        length_distribute ..
      exact ⟨shards - 1, by simp only [Shards.initial] at hlt; omega⟩
    obtain ⟨hall, -⟩ := @distribute_spec c threshold (left ++ right)
      (fileBytes left).length 0 0 ((start + (c - 1)) / c) n
    obtain ⟨hbegin, -, hfit⟩ := hall d (List.mem_of_getElem? hd)
    refine ⟨hbegin, ?_⟩
    have hbound : (((start + (c - 1)) / c : ℕ) : ℤ) * c < start + c := by exact_mod_cast hceil
    have hbody : (start : ℤ) ≤ (fileBytes left).length := by exact_mod_cast hle
    calc d.nextBegin + d.remaining * c
        ≤ (0 : ℕ) + (((start + (c - 1)) / c : ℕ) : ℤ) * c := hfit
      _ = (((start + (c - 1)) / c : ℕ) : ℤ) * c := by rw [Nat.cast_zero, zero_add]
      _ < start + c := hbound
      _ ≤ (fileBytes left).length + c := by omega
  · have := List.eq_of_mem_replicate (List.mem_of_getElem? hi)
    simp at this

end Runs

/-- The shards of the non-idiomatic program on a file, before any of them acts. -/
def startShards (file : List Byte) (shards : ℕ) (chunkSize commonChunkSize effectiveFileSize : ℤ)
    (poolTarget : ℤ) (threshold : ℕ → ℤ → ℤ) (fakeAdvance : Bool) : Program × Shards :=
  let q := SerialLazyShardQueue.new .nonIdiomatic file chunkSize commonChunkSize effectiveFileSize
    shards poolTarget threshold fakeAdvance
  (⟨q.1, Variant.nonIdiomatic.lineStep .littleEndian, Variant.nonIdiomatic.lineStepSlow⟩,
    Shards.initial q.2 shards)

/-- On every file of lines, with chunks of any size that fits the buffer, no run fails, and
whatever a shard reads next in a state that is reached is mapped: the words of `processLine`
and `readTemperature`, and the bytes of `nextNewLine` and `processLineSlow`. -/
theorem stepReads_within_extent (lines : List Line) (shards chunkSize commonChunkSize : ℕ)
    (chunk_pos : 0 < chunkSize) (common_pos : 0 < commonChunkSize)
    (chunk_le : (chunkSize : ℤ) + 1024 ≤ Variant.nonIdiomatic.bufSize)
    (common_le : (commonChunkSize : ℤ) + 1024 ≤ Variant.nonIdiomatic.bufSize) :
    ∃ E : ℕ, SerialLazyShardQueue.effectiveSize (fileBytes lines) 9 = some (E : ℤ) ∧
      ∀ (poolTarget : ℤ) (threshold : ℕ → ℤ → ℤ) (fakeAdvance : Bool), 0 ≤ poolTarget →
        let (p, s₀) := startShards (fileBytes lines) shards chunkSize commonChunkSize E poolTarget
          threshold fakeAdvance
        ∀ schedule, ∃ s, p.run s₀ schedule = some s ∧
          ∀ (i : ℕ) (acquired : Bool), ∀ a ∈ p.stepReads s i acquired, a.Within := by
  obtain ⟨left, right, rfl, hsize, hroom, hsmall⟩ := exists_cut lines
  refine ⟨(fileBytes left).length, hsize, fun poolTarget threshold fakeAdvance target => ?_⟩
  intro schedule
  have setup : Setup (startShards (fileBytes (left ++ right)) shards chunkSize commonChunkSize
      (fileBytes left).length poolTarget threshold fakeAdvance).1.advancing left right chunkSize
      commonChunkSize 4 :=
    { file := rfl
      effective := rfl
      chunk := rfl
      common := rfl
      chunk_pos := chunk_pos
      common_pos := common_pos
      chunk_le := chunk_le
      common_le := common_le
      advances := rfl
      fast := stepsOverLines_lineStep .littleEndian .nonIdiomatic
      slow := stepsOverLines_lineStepSlow .nonIdiomatic
      slack_le := by decide
      tail_slack := fun hne => le_trans (by decide) (hroom hne)
      tail_small := le_trans hsmall (by decide) }
  have initial : Serves (startShards (fileBytes (left ++ right)) shards chunkSize commonChunkSize
      (fileBytes left).length poolTarget threshold fakeAdvance).1 left right chunkSize
      (startShards (fileBytes (left ++ right)) shards chunkSize commonChunkSize
      (fileBytes left).length poolTarget threshold fakeAdvance).2 shards :=
    serves_initial chunk_pos target
  obtain ⟨s, hrun, serves⟩ := initial.run setup schedule
  refine ⟨s, hrun, fun i acquired => ?_⟩
  obtain ⟨s', hstep, -⟩ := serves.step setup i acquired
  exact Program.stepReads_within rfl (readsInside_lineStep .littleEndian) readsInside_lineStepSlow
    serves.window hstep

/-- Two shards on three lines of six bytes with chunks of four and of one byte, where the
common pool does not start at a multiple of the chunk size. -/
theorem stepReads_within_extent_two :
    let line : Line := ⟨[0x41], ⟨false, none, 1, 0⟩, by decide, by decide, by decide, by decide⟩
    let (p, s₀) := startShards (fileBytes [line, line, line]) 2 4 1 6 9
      (fun _ chunks => chunks) true
    ∀ schedule, ∃ s, p.run s₀ schedule = some s ∧
      ∀ (i : ℕ) (acquired : Bool), ∀ a ∈ p.stepReads s i acquired, a.Within := by
  intro line
  obtain ⟨E, hE, hrun⟩ := stepReads_within_extent [line, line, line] 2 4 1 (by decide) (by decide)
    (by decide) (by decide)
  obtain rfl : E = 6 := by
    have hsix : SerialLazyShardQueue.effectiveSize (fileBytes [line, line, line]) 9 = some 6 := by
      decide +kernel
    exact_mod_cast (Option.some.inj (hsix.symm.trans hE)).symm
  exact hrun 9 (fun _ chunks => chunks) true (by decide)

end Explore.OneBrc
