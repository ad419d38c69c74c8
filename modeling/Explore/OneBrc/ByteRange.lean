import Explore.OneBrc.LineStarts

/-!
# Mapped ranges and the lines processed from them

A `ByteRange` maps a window of the file and remaps it when a range does not fit.
`setRange` turns a range of the file into the part of the window whose lines are
processed; the two programs differ in where that part ends. The main result is
that both process the lines of `owned`: those that start after the range's first
byte and not after its end, or at the start of the file.

File positions are Java `long`s and stay far from overflow, so they are
integers; the narrowing casts to `int` are kept. Reading through a null buffer or
outside of a buffer, and mapping outside of the file, is `none`.
-/

namespace Explore.OneBrc

/-- The two programs: `CalculateAverage_vemana` and `CalculateAverage_vemanaNonIdiomatic`. -/
inductive Variant where
  | vemana
  | nonIdiomatic
  deriving DecidableEq, Repr

/-- `BUF_SIZE`. -/
def Variant.bufSize : Variant → ℤ
  | .vemana => 2 ^ 30
  | .nonIdiomatic => 2 ^ 28

/-- The cast `(int) x`. -/
def intCast (x : ℤ) : ℤ := x.bmod (2 ^ 32)

structure ByteRange where
  byteBuffer : Option Buffer
  startInBuf : ℤ
  endInBuf : ℤ
  bufferEnd : ℤ
  bufferStart : ℤ

/-- `raf.getChannel().map(READ_ONLY, start, end - start)`. -/
def mapFile (file : List Byte) (start end_ : ℤ) : Option Buffer :=
  if start < 0 ∨ end_ < start ∨ (file.length : ℤ) < end_ ∨ 2 ^ 31 ≤ end_ - start then none
  else some ((file.drop start.toNat).take (end_ - start).toNat)

namespace ByteRange

/-- A range that maps nothing yet. -/
def new : ByteRange := ⟨none, 0, 0, -1, -1⟩

/-- `close`, less the times that it records: `Tracing.close` has them. -/
def close (br : ByteRange) : ByteRange :=
  { br with byteBuffer := none, bufferEnd := -1, bufferStart := -1 }

def scanNewLine (b : Buffer) (nextPos : ℕ) : Option ℕ :=
  match _h : b[nextPos]? with
  | none => none
  | some x => if x = newline then some nextPos else scanNewLine b (nextPos + 1)
  termination_by b.length - nextPos
  decreasing_by
    have := (List.getElem?_eq_some_iff.mp _h).1
    omega

def nextNewLine (br : ByteRange) (pos : ℤ) : Option ℤ := do
  let b ← br.byteBuffer
  let nextPos := intCast (pos - br.bufferStart)
  if nextPos < 0 then none
  else do
    let found ← scanNewLine b nextPos.toNat
    some (found + br.bufferStart)

/-- The first part of `setRange`: remap when the range, with some slack for the
line after it, does not lie in the window. -/
def remap (v : Variant) (file : List Byte) (br : ByteRange) (rangeStart rangeEnd : ℤ) :
    Option ByteRange :=
  if rangeEnd + 1024 > br.bufferEnd ∨ rangeStart < br.bufferStart then do
    let bufferEnd := min (rangeStart + v.bufSize) file.length
    let b ← mapFile file rangeStart bufferEnd
    some { br with byteBuffer := some b, bufferEnd := bufferEnd, bufferStart := rangeStart }
  else some br

/-- Where the lines of a range start: after the newline at or after its first
byte, except at the start of the file. -/
def advanceStart (br : ByteRange) (rangeStart : ℤ) : Option ℤ :=
  if rangeStart > 0 then (br.nextNewLine rangeStart).map (1 + ·) else some 0

/-- Where they end. Here the two programs differ. -/
def advanceEnd (v : Variant) (maxEndPos : ℤ) (br : ByteRange) (rangeEnd : ℤ) : Option ℤ :=
  if rangeEnd < maxEndPos then
    match v with
    | .vemana => (br.nextNewLine rangeEnd).map (1 + ·)
    | .nonIdiomatic => some (1 + rangeEnd)
  else some maxEndPos

def setRange (v : Variant) (file : List Byte) (maxEndPos : ℤ) (br : ByteRange)
    (rangeStart rangeEnd : ℤ) : Option ByteRange := do
  let br ← remap v file br rangeStart rangeEnd
  let rangeStart ← br.advanceStart rangeStart
  let rangeEnd ← advanceEnd v maxEndPos br rangeEnd
  some { br with
    startInBuf := intCast (rangeStart - br.bufferStart)
    endInBuf := intCast (rangeEnd - br.bufferStart) }

/-- The loop of `processRange`: `step` is the position that the line parser
returns. The result lists the positions that it was called at. -/
def processFrom (step : Buffer → ℕ → Option ℕ) (mmb : Buffer) (end_ : ℤ) :
    ℕ → ℕ → Option (List ℕ)
  | fuel, nextPos =>
      if (nextPos : ℤ) < end_ then
        match fuel with
        | 0 => none
        | fuel + 1 => do
            let next ← step mmb nextPos
            let rest ← processFrom step mmb end_ fuel next
            some (nextPos :: rest)
      else some []

/-- `processRange`, as the positions in the file of the lines it processes. A
line takes at least one byte, so there are at most as many rounds as bytes. -/
def processRange (step : Buffer → ℕ → Option ℕ) (br : ByteRange) : Option (List ℤ) := do
  let mmb ← br.byteBuffer
  if br.startInBuf < 0 then none
  else do
    let starts ← processFrom step mmb br.endInBuf (mmb.length + 1) br.startInBuf.toNat
    some (starts.map fun start : ℕ => br.bufferStart + start)

end ByteRange

/-- A parser steps from the first byte of a line to the byte after it, provided
that `slack` more bytes can be read. -/
def StepsOverLines (slack : ℕ) (step : Buffer → ℕ → Option ℕ) : Prop :=
  ∀ (mmb : Buffer) (pos : ℕ) (line : Line) (after : List Byte),
    mmb.drop pos = line.bytes ++ after → slack ≤ after.length →
      step mmb pos = some (pos + line.bytes.length)

/-- The starts of the lines that a range `[rangeStart, rangeEnd)` of the first
`maxEndPos` bytes is responsible for. -/
def owned (lines : List Line) (maxEndPos rangeStart rangeEnd : ℕ) : List ℕ :=
  (lineStarts lines).filter fun l =>
    decide ((rangeStart = 0 ∨ rangeStart < l) ∧ l ≤ rangeEnd ∧ l < maxEndPos)

namespace ByteRange

theorem processFrom_stop (step : Buffer → ℕ → Option ℕ) (mmb : Buffer) {end_ : ℤ} {pos : ℕ}
    (fuel : ℕ) (h : end_ ≤ pos) : processFrom step mmb end_ fuel pos = some [] := by
  cases fuel <;> rw [processFrom, if_neg (by omega)]

/-- The loop visits the lines that start before its end, as long as those lines
and the slack lie in the buffer. -/
theorem processFrom_eq {slack : ℕ} {step : Buffer → ℕ → Option ℕ}
    (law : StepsOverLines slack step) {mmb : Buffer} {lines : List Line} {rest : List Byte}
    {pos fuel : ℕ} {end_ : ℤ} (h : mmb.drop pos = fileBytes lines ++ rest)
    (hslack : slack ≤ rest.length) (hend : end_ ≤ pos + (fileBytes lines).length)
    (hfuel : (fileBytes lines).length ≤ fuel) :
    processFrom step mmb end_ fuel pos =
      some ((startsFrom pos lines).filter fun l : ℕ => decide ((l : ℤ) < end_)) := by
  induction lines generalizing pos fuel with
  | nil => exact processFrom_stop step mmb fuel (by simpa using hend)
  | cons line lines ih =>
      have hlen := line.length_bytes.1
      rw [fileBytes_cons, List.length_append] at hend hfuel
      by_cases hlt : (pos : ℤ) < end_
      · obtain ⟨fuel, rfl⟩ : ∃ n, fuel = n + 1 := ⟨fuel - 1, by omega⟩
        have hline : mmb.drop pos = line.bytes ++ (fileBytes lines ++ rest) := by
          rw [h, fileBytes_cons, List.append_assoc]
        have hstep := law mmb pos line _ hline (by
          rw [List.length_append]
          omega)
        have hnext : mmb.drop (pos + line.bytes.length) = fileBytes lines ++ rest := by
          rw [← List.drop_drop, hline, List.drop_left]
        have hrest := ih hnext (by push_cast; omega)
          (show (fileBytes lines).length ≤ fuel by omega)
        rw [processFrom, if_pos hlt]
        simp [hstep, hrest, startsFrom, hlt]
      · rw [processFrom_stop step mmb fuel (by omega)]
        have hnone : (startsFrom pos (line :: lines)).filter
            (fun l : ℕ => decide ((l : ℤ) < end_)) = [] := by
          rw [List.filter_eq_nil_iff]
          intro l hl
          have := off_le_of_mem_startsFrom hl
          simp only [decide_eq_true_eq]
          omega
        rw [hnone]

/-- The first newline from a position on. -/
theorem scanNewLine_eq {b : Buffer} {pos q : ℕ} (hpos : pos ≤ q) (hq : b[q]? = some newline)
    (before : ∀ i, pos ≤ i → i < q → b[i]? ≠ some newline) : scanNewLine b pos = some q := by
  obtain ⟨d, rfl⟩ := Nat.exists_eq_add_of_le hpos
  induction d generalizing pos with
  | zero =>
      rw [Nat.add_zero] at hq ⊢
      rw [scanNewLine, hq]
      simp
  | succ d ih =>
      have hlt : pos < b.length := by
        have := (List.getElem?_eq_some_iff.mp hq).1
        omega
      have hne : b[pos] ≠ newline := by
        intro same
        exact before pos (Nat.le_refl _) (by omega) (by rw [List.getElem?_eq_getElem hlt, same])
      rw [scanNewLine, List.getElem?_eq_getElem hlt]
      simp only [hne, if_false]
      rw [ih (by omega) (by rw [← hq]; congr 1; omega)
        (fun i h1 h2 => before i (by omega) (by omega))]
      congr 1
      omega

theorem intCast_eq {x : ℤ} (h0 : 0 ≤ x) (h : x < 2 ^ 31) : intCast x = x := by
  rw [intCast, Int.bmod_eq_of_le] <;> omega

/-- The window of a range is closed, or maps the bytes it says it maps. -/
inductive Window (file : List Byte) : ByteRange → Prop where
  | closed (startInBuf endInBuf : ℤ) : Window file ⟨none, startInBuf, endInBuf, -1, -1⟩
  | mapped (startInBuf endInBuf : ℤ) {lo hi : ℕ} (le : lo ≤ hi) (hi_le : hi ≤ file.length)
      (small : hi < lo + 2 ^ 31) :
      Window file ⟨some ((file.drop lo).take (hi - lo)), startInBuf, endInBuf, hi, lo⟩

theorem window_new (file : List Byte) : Window file new := .closed 0 0

theorem Window.close {file : List Byte} {br : ByteRange} (h : Window file br) :
    Window file br.close := by
  cases h <;> exact .closed _ _

section Mapped

variable {file : List Byte} {br : ByteRange}

/-- After remapping the window reaches from below the range to the slack above
it, or to the end of the file. -/
theorem remap_eq (v : Variant) (h : Window file br) {s e : ℕ} (hs : s ≤ file.length)
    (hse : s ≤ e) (hsize : (e : ℤ) - s + 1024 ≤ v.bufSize) :
    ∃ startInBuf endInBuf lo hi, lo ≤ s ∧ lo ≤ hi ∧ hi ≤ file.length ∧ hi < lo + 2 ^ 31 ∧
      (e + 1024 ≤ hi ∨ hi = file.length) ∧
      remap v file br s e =
        some ⟨some ((file.drop lo).take (hi - lo)), startInBuf, endInBuf, hi, lo⟩ := by
  have hbuf : v.bufSize ≤ 2 ^ 30 := by cases v <;> decide
  by_cases hcond : (e : ℤ) + 1024 > br.bufferEnd ∨ (s : ℤ) < br.bufferStart
  · obtain ⟨hi, hhi⟩ : ∃ hi : ℕ, (hi : ℤ) = min (s + v.bufSize) file.length :=
      ⟨(min (s + v.bufSize) file.length).toNat, Int.toNat_of_nonneg (by omega)⟩
    refine ⟨br.startInBuf, br.endInBuf, s, hi, Nat.le_refl _, by omega, by omega, by omega,
      by omega, ?_⟩
    have hmap : mapFile file s hi = some ((file.drop s).take (hi - s)) := by
      have hdiff : ((hi : ℤ) - s).toNat = hi - s := by omega
      rw [mapFile, if_neg (by omega), hdiff, Int.toNat_natCast]
    rw [remap, if_pos hcond, ← hhi]
    simp only [hmap, Option.bind_eq_bind, Option.bind_some]
  · cases h with
    | closed a b =>
        exfalso
        simp only [not_or] at hcond
        omega
    | @mapped a b lo hi hle hhi hsmall =>
        simp only [not_or] at hcond
        exact ⟨a, b, lo, hi, by omega, hle, hhi, hsmall, by omega,
          by rw [remap, if_neg (by simp only [not_or]; exact hcond)]⟩

private theorem getElem?_window {lo hi i : ℕ} (hi_le : i < hi - lo) :
    ((file.drop lo).take (hi - lo))[i]? = file[lo + i]? := by
  rw [List.getElem?_take_of_lt hi_le, List.getElem?_drop]

/-- A newline search inside the window finds the next line boundary. -/
theorem nextNewLine_eq {lines : List Line} {lo hi p : ℕ} (startInBuf endInBuf : ℤ)
    (hlo : lo ≤ p) (hp : p < (fileBytes lines).length) (hhi : cut lines (p + 1) ≤ hi)
    (small : hi < lo + 2 ^ 31) :
    nextNewLine ⟨some (((fileBytes lines).drop lo).take (hi - lo)), startInBuf, endInBuf, hi, lo⟩
      p = some ((cut lines (p + 1) : ℤ) - 1) := by
  obtain ⟨hlt, hnewline, hfree⟩ := newline_at_cut hp
  have hcast : intCast ((p : ℤ) - lo) = (p : ℤ) - lo := intCast_eq (by omega) (by omega)
  have hnat : ((p : ℤ) - lo).toNat = p - lo := by omega
  have hscan : scanNewLine (((fileBytes lines).drop lo).take (hi - lo)) (p - lo) =
      some (cut lines (p + 1) - 1 - lo) := by
    apply scanNewLine_eq (by omega)
    · rw [getElem?_window (by omega), ← hnewline]
      congr 1
      omega
    · intro i h1 h2
      rw [getElem?_window (by omega)]
      exact hfree _ (by omega) (by omega)
  simp only [nextNewLine, Option.bind_eq_bind, Option.bind_some, hcast, hnat, hscan,
    if_neg (show ¬ ((p : ℤ) - lo < 0) by omega), Option.some.injEq]
  omega

end Mapped

end ByteRange

section Owned

variable {lines : List Line} {M s e : ℕ}

/-- Where the lines owned by a range start and end, and what they are. -/
structure OwnedSplit (lines : List Line) (M s e : ℕ) (before inside after : List Line) : Prop where
  lines_eq : lines = before ++ (inside ++ after)
  start_eq : (fileBytes before).length = if s = 0 then 0 else cut lines (s + 1)
  end_eq : (fileBytes before).length + (fileBytes inside).length = cut lines (min (e + 1) M)
  owned_eq : owned lines M s e = startsFrom (fileBytes before).length inside
  lt : ∀ l ∈ startsFrom (fileBytes before).length inside, l < min (e + 1) M

theorem owned_of_split {before inside after : List Line}
    (hlines : lines = before ++ (inside ++ after))
    (hbefore : ∀ l ∈ startsFrom 0 before, s ≠ 0 ∧ l ≤ s)
    (hinside : s = 0 ∨ s < (fileBytes before).length)
    (hlt : ∀ l ∈ startsFrom (fileBytes before).length inside, l < min (e + 1) M)
    (hafter : after ≠ [] →
      min (e + 1) M ≤ (fileBytes before).length + (fileBytes inside).length) :
    owned lines M s e = startsFrom (fileBytes before).length inside := by
  rw [owned, lineStarts, hlines, startsFrom_append, startsFrom_append, Nat.zero_add,
    List.filter_append, List.filter_append]
  have h1 : (startsFrom 0 before).filter (fun l =>
      decide ((s = 0 ∨ s < l) ∧ l ≤ e ∧ l < M)) = [] := by
    rw [List.filter_eq_nil_iff]
    intro l hl
    have := hbefore l hl
    simp only [decide_eq_true_eq]
    omega
  have h2 : (startsFrom (fileBytes before).length inside).filter (fun l =>
      decide ((s = 0 ∨ s < l) ∧ l ≤ e ∧ l < M)) = startsFrom (fileBytes before).length inside := by
    rw [List.filter_eq_self]
    intro l hl
    have := hlt l hl
    have := off_le_of_mem_startsFrom hl
    simp only [decide_eq_true_eq]
    omega
  have h3 : (startsFrom ((fileBytes before).length + (fileBytes inside).length) after).filter
      (fun l => decide ((s = 0 ∨ s < l) ∧ l ≤ e ∧ l < M)) = [] := by
    rw [List.filter_eq_nil_iff]
    intro l hl
    have hne : after ≠ [] := by
      rintro rfl
      simp [startsFrom] at hl
    have := hafter hne
    have := off_le_of_mem_startsFrom hl
    simp only [decide_eq_true_eq]
    omega
  rw [h1, h2, h3, List.nil_append, List.append_nil]

theorem exists_ownedSplit (hM : M ≤ (fileBytes lines).length) (hs : s < M) (hse : s < e) :
    ∃ before inside after, OwnedSplit lines M s e before inside after := by
  have hm : min (e + 1) M ≤ cut lines (min (e + 1) M) := le_cut (by omega)
  have hlt (l : ℕ) (hl : l ∈ startsFrom 0 (takeLines lines (min (e + 1) M))) :
      l < min (e + 1) M := by
    simpa using lt_of_mem_startsFrom_takeLines hl
  have hafter {total : ℕ} (h : total = cut lines (min (e + 1) M)) :
      dropLines lines (min (e + 1) M) ≠ [] → min (e + 1) M ≤ total := by
    intro _
    omega
  by_cases hzero : s = 0
  · have hlines : lines = [] ++
        (takeLines lines (min (e + 1) M) ++ dropLines lines (min (e + 1) M)) := by
      rw [List.nil_append, takeLines_append_dropLines]
    have hend : (fileBytes []).length + (fileBytes (takeLines lines (min (e + 1) M))).length =
        cut lines (min (e + 1) M) := Nat.zero_add _
    refine ⟨[], takeLines lines (min (e + 1) M), _, hlines, by simp [hzero], hend, ?_, hlt⟩
    exact owned_of_split hlines (by simp [startsFrom]) (Or.inl hzero) hlt (hafter hend)
  · have hsplit := takeLines_append_dropLines (takeLines lines (min (e + 1) M)) (s + 1)
    have hlines : lines = takeLines (takeLines lines (min (e + 1) M)) (s + 1) ++
        (dropLines (takeLines lines (min (e + 1) M)) (s + 1) ++
          dropLines lines (min (e + 1) M)) := by
      rw [← List.append_assoc, hsplit, takeLines_append_dropLines]
    have hstart : cut (takeLines lines (min (e + 1) M)) (s + 1) = cut lines (s + 1) := by
      have hcut := cut_append_left (takeLines lines (min (e + 1) M))
        (dropLines lines (min (e + 1) M)) (p := s + 1)
        (show s + 1 ≤ cut lines (min (e + 1) M) by omega)
      rw [takeLines_append_dropLines] at hcut
      exact hcut.symm
    have hend : (fileBytes (takeLines (takeLines lines (min (e + 1) M)) (s + 1))).length +
        (fileBytes (dropLines (takeLines lines (min (e + 1) M)) (s + 1))).length =
          cut lines (min (e + 1) M) := by
      rw [← List.length_append, ← fileBytes_append, hsplit, cut]
    have habove : s + 1 ≤ cut lines (s + 1) := le_cut (by omega)
    have hinside : ∀ l ∈ startsFrom
        (fileBytes (takeLines (takeLines lines (min (e + 1) M)) (s + 1))).length
        (dropLines (takeLines lines (min (e + 1) M)) (s + 1)), l < min (e + 1) M := by
      intro l hl
      apply hlt
      rw [← hsplit, startsFrom_append, Nat.zero_add]
      exact List.mem_append_right _ hl
    refine ⟨_, _, _, hlines, by rw [if_neg hzero, ← hstart, cut], hend, ?_, hinside⟩
    refine owned_of_split hlines (fun l hl => ⟨hzero, ?_⟩) (Or.inr ?_) hinside (hafter hend)
    · have := lt_of_mem_startsFrom_takeLines hl
      omega
    · change s < cut (takeLines lines (min (e + 1) M)) (s + 1)
      omega

end Owned

namespace ByteRange

theorem startsFrom_shift (lo off : ℕ) (lines : List Line) :
    startsFrom (lo + off) lines = (startsFrom off lines).map (lo + ·) := by
  induction lines generalizing off with
  | nil => rfl
  | cons line lines ih => rw [startsFrom, startsFrom, List.map_cons, Nat.add_assoc, ih]

/-- The lines processed from a window whose part to process runs from a line
boundary `x` to `end_`. -/
theorem processRange_eq {slack : ℕ} {step : Buffer → ℕ → Option ℕ}
    (law : StepsOverLines slack step) {before inside after : List Line} {lo hi : ℕ} {end_ : ℤ}
    (hlo : lo ≤ (fileBytes before).length)
    (hhi : (fileBytes before).length + (fileBytes inside).length + slack ≤ hi)
    (hfile : hi ≤ (fileBytes (before ++ (inside ++ after))).length)
    (hend : end_ ≤ (fileBytes before).length + (fileBytes inside).length)
    (hlt : ∀ l ∈ startsFrom (fileBytes before).length inside, (l : ℤ) < end_) :
    processRange step
        ⟨some (((fileBytes (before ++ (inside ++ after))).drop lo).take (hi - lo)),
          (fileBytes before).length - lo, end_ - lo, hi, lo⟩ =
      some ((startsFrom (fileBytes before).length inside).map Int.ofNat) := by
  obtain ⟨x, hx⟩ := Nat.exists_eq_add_of_le hlo
  have hdrop : (((fileBytes (before ++ (inside ++ after))).drop lo).take (hi - lo)).drop x =
      fileBytes inside ++
        (fileBytes after).take (hi - lo - x - (fileBytes inside).length) := by
    rw [List.drop_take, List.drop_drop, ← hx, fileBytes_append, fileBytes_append, List.drop_left,
      List.take_append, List.take_of_length_le (by omega)]
  have hrest : slack ≤
      ((fileBytes after).take (hi - lo - x - (fileBytes inside).length)).length := by
    rw [fileBytes_append, fileBytes_append, List.length_append, List.length_append] at hfile
    rw [List.length_take]
    omega
  have hloop := processFrom_eq law hdrop hrest
    (show end_ - lo ≤ (x : ℤ) + (fileBytes inside).length by omega)
    (show (fileBytes inside).length ≤
      (((fileBytes (before ++ (inside ++ after))).drop lo).take (hi - lo)).length + 1 by
      rw [List.length_take, List.length_drop]
      omega)
  have hstart : (((fileBytes before).length : ℤ) - lo).toNat = x := by omega
  have hall : (startsFrom x inside).filter (fun l : ℕ => decide ((l : ℤ) < end_ - lo)) =
      startsFrom x inside := by
    rw [List.filter_eq_self]
    intro l hl
    have := hlt (lo + l) (by rw [hx, startsFrom_shift]; exact List.mem_map_of_mem hl)
    simp only [decide_eq_true_eq]
    push_cast at this
    omega
  simp only [processRange, Option.bind_eq_bind, Option.bind_some, hstart, hloop, hall,
    if_neg (show ¬ (((fileBytes before).length : ℤ) - lo < 0) by omega)]
  rw [hx, startsFrom_shift, List.map_map]
  rfl

section Advance

variable {lines : List Line} {lo hi M s e : ℕ} (a b : ℤ)

theorem advanceStart_eq (hlo : lo ≤ s) (hs : s < (fileBytes lines).length)
    (hhi : cut lines (s + 1) ≤ hi) (small : hi < lo + 2 ^ 31) :
    advanceStart ⟨some (((fileBytes lines).drop lo).take (hi - lo)), a, b, hi, lo⟩ s =
      some ((if s = 0 then 0 else cut lines (s + 1) : ℕ) : ℤ) := by
  by_cases hzero : s = 0
  · rw [advanceStart, if_neg (by omega), if_pos hzero]
    rfl
  · rw [advanceStart, if_pos (by omega), if_neg hzero, nextNewLine_eq a b hlo hs hhi small]
    simp

/-- Both programs stop at or before the cut above the range, and not before the
last line that starts in it. -/
theorem advanceEnd_eq (v : Variant) (hM : M ≤ (fileBytes lines).length)
    (hlo : lo ≤ e) (hhi : cut lines (min (e + 1) M) ≤ hi) (small : hi < lo + 2 ^ 31) :
    ∃ end_ : ℕ,
      advanceEnd v M ⟨some (((fileBytes lines).drop lo).take (hi - lo)), a, b, hi, lo⟩ e =
        some (end_ : ℤ) ∧
      end_ ≤ cut lines (min (e + 1) M) ∧ min (e + 1) M ≤ end_ := by
  have hcut : min (e + 1) M ≤ cut lines (min (e + 1) M) := le_cut (by omega)
  by_cases hlast : e < M
  · have hmin : min (e + 1) M = e + 1 := by omega
    rw [hmin] at hhi hcut ⊢
    rw [advanceEnd.eq_def, if_pos (by omega)]
    cases v with
    | vemana =>
        refine ⟨cut lines (e + 1), ?_, le_refl _, hcut⟩
        simp [nextNewLine_eq a b hlo (show e < (fileBytes lines).length by omega) hhi small]
    | nonIdiomatic => exact ⟨1 + e, by simp, by omega, by omega⟩
  · have hmin : min (e + 1) M = M := by omega
    rw [hmin] at hcut ⊢
    exact ⟨M, by rw [advanceEnd.eq_def, if_neg (by omega)], hcut, le_refl _⟩

end Advance

/-- Setting a range of the first `maxEndPos` bytes of the file and processing it
visits exactly the lines that the range owns, in either program. -/
theorem processRange_setRange (v : Variant) {slack : ℕ} {step : Buffer → ℕ → Option ℕ}
    (law : StepsOverLines slack step) (slack_le : slack ≤ 8) {left right : List Line}
    (hslack : slack ≤ (fileBytes right).length) {br : ByteRange}
    (hwindow : Window (fileBytes (left ++ right)) br) {s e : ℕ}
    (hs : s < (fileBytes left).length) (hse : s < e)
    (hsize : (e : ℤ) - s + 1024 ≤ v.bufSize) :
    ∃ br', setRange v (fileBytes (left ++ right)) (fileBytes left).length br s e = some br' ∧
      Window (fileBytes (left ++ right)) br' ∧
      processRange step br' =
        some ((owned (left ++ right) (fileBytes left).length s e).map Int.ofNat) := by
  have hF : (fileBytes (left ++ right)).length =
      (fileBytes left).length + (fileBytes right).length := by
    rw [fileBytes_append, List.length_append]
  obtain ⟨before, inside, after, split⟩ :=
    exists_ownedSplit
      (show (fileBytes left).length ≤ (fileBytes (left ++ right)).length by omega) hs hse
  obtain ⟨a, b, lo, hi, hlo, hle, hhi, hsmall, hroom, hremap⟩ :=
    remap_eq v hwindow (s := s) (e := e) (by omega) (by omega) hsize
  have hcutM : cut (left ++ right) (fileBytes left).length = (fileBytes left).length :=
    cut_boundary left right
  have hend_le : cut (left ++ right) (min (e + 1) (fileBytes left).length) ≤
      (fileBytes left).length := by
    rw [← hcutM]
    exact cut_mono (by omega)
  have hend_line := cut_le_add (left ++ right) (min (e + 1) (fileBytes left).length)
  have hcut_s : cut (left ++ right) (s + 1) ≤
      cut (left ++ right) (min (e + 1) (fileBytes left).length) := cut_mono (by omega)
  have habove : s + 1 ≤ cut (left ++ right) (s + 1) := le_cut (by omega)
  have hhi' : cut (left ++ right) (min (e + 1) (fileBytes left).length) + slack ≤ hi := by omega
  have hstart := advanceStart_eq a b hlo (show s < (fileBytes (left ++ right)).length by omega)
    (by omega) hsmall
  obtain ⟨end_, hend, hend_cut, hend_lt⟩ := advanceEnd_eq a b v
    (show (fileBytes left).length ≤ (fileBytes (left ++ right)).length by omega)
    (show lo ≤ e by omega) (by omega) hsmall
  rw [← split.start_eq] at hstart
  have hbefore := split.start_eq
  have hinside := split.end_eq
  have hstart_lo : lo ≤ (fileBytes before).length := by
    rw [hbefore]
    split <;> omega
  refine ⟨⟨some (((fileBytes (left ++ right)).drop lo).take (hi - lo)),
    (fileBytes before).length - lo, end_ - lo, hi, lo⟩, ?_, .mapped _ _ hle hhi hsmall, ?_⟩
  · have hcast_start : intCast ((fileBytes before).length - lo) = (fileBytes before).length - lo :=
      intCast_eq (by omega) (by omega)
    have hcast_end : intCast (end_ - lo) = end_ - lo := intCast_eq (by omega) (by omega)
    simp only [setRange, hremap, hstart, hend, Option.bind_eq_bind, Option.bind_some, hcast_start,
      hcast_end]
  · rw [split.owned_eq]
    have hlines := split.lines_eq
    rw [hlines] at hhi ⊢
    refine processRange_eq law hstart_lo (by omega) hhi (by omega) fun l hl => ?_
    have := split.lt l hl
    omega

end ByteRange

end Explore.OneBrc
