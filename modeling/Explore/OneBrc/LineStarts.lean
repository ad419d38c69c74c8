import Explore.OneBrc.Line

/-!
# Where the lines of a file start

A position of a file of lines is cut upwards to the start of the next line and
downwards to the start of the last. `cut lines p` is the length of all lines that
start before `p`, so it is the least line boundary at or above `p`; `floorCut`
is the greatest one at or below `p`. The newline loops of the program find
exactly these boundaries.
-/

namespace Explore.OneBrc

/-- The starts of consecutive lines, the first at `off`. -/
def startsFrom (off : ℕ) : List Line → List ℕ
  | [] => []
  | line :: lines => off :: startsFrom (off + line.bytes.length) lines

/-- The starts of the lines of a file. -/
def lineStarts (lines : List Line) : List ℕ := startsFrom 0 lines

/-- The lines that start before position `p`. -/
def takeLines : List Line → ℕ → List Line
  | [], _ => []
  | line :: lines, p => if p = 0 then [] else line :: takeLines lines (p - line.bytes.length)

/-- The lines that start at position `p` or later. -/
def dropLines : List Line → ℕ → List Line
  | [], _ => []
  | line :: lines, p => if p = 0 then line :: lines else dropLines lines (p - line.bytes.length)

/-- The least line boundary at or above `p`, within the file. -/
def cut (lines : List Line) (p : ℕ) : ℕ := (fileBytes (takeLines lines p)).length

/-- The greatest line boundary at or below `p`. -/
def floorCut : List Line → ℕ → ℕ
  | [], _ => 0
  | line :: lines, p =>
      if line.bytes.length ≤ p then line.bytes.length + floorCut lines (p - line.bytes.length)
      else 0

theorem fileBytes_append (left right : List Line) :
    fileBytes (left ++ right) = fileBytes left ++ fileBytes right :=
  List.flatMap_append

theorem startsFrom_append (off : ℕ) (left right : List Line) :
    startsFrom off (left ++ right) =
      startsFrom off left ++ startsFrom (off + (fileBytes left).length) right := by
  induction left generalizing off with
  | nil => simp [startsFrom]
  | cons line left ih =>
      rw [List.cons_append, startsFrom, startsFrom, ih, fileBytes_cons, List.length_append,
        Nat.add_assoc, List.cons_append]

theorem off_le_of_mem_startsFrom {off l : ℕ} {lines : List Line} (h : l ∈ startsFrom off lines) :
    off ≤ l := by
  induction lines generalizing off with
  | nil => simp [startsFrom] at h
  | cons line lines ih =>
      rw [startsFrom, List.mem_cons] at h
      obtain rfl | h := h
      · exact Nat.le_refl _
      · have := ih h
        omega

theorem lt_end_of_mem_startsFrom {off l : ℕ} {lines : List Line} (h : l ∈ startsFrom off lines) :
    l < off + (fileBytes lines).length := by
  induction lines generalizing off with
  | nil => simp [startsFrom] at h
  | cons line lines ih =>
      have hpos := line.length_bytes.1
      rw [fileBytes_cons, List.length_append]
      rw [startsFrom, List.mem_cons] at h
      obtain rfl | h := h
      · omega
      · have := ih h
        omega

section Cut

variable (lines : List Line)

theorem takeLines_append_dropLines (p : ℕ) : takeLines lines p ++ dropLines lines p = lines := by
  induction lines generalizing p with
  | nil => rfl
  | cons line lines ih =>
      rw [takeLines, dropLines]
      split
      · rfl
      · rw [List.cons_append, ih]

@[simp] theorem takeLines_zero : takeLines lines 0 = [] := by
  cases lines <;> simp [takeLines]

@[simp] theorem cut_zero : cut lines 0 = 0 := by
  simp [cut]

theorem cut_cons {line : Line} {p : ℕ} (hp : 0 < p) :
    cut (line :: lines) p = line.bytes.length + cut lines (p - line.bytes.length) := by
  rw [cut, takeLines, if_neg (by omega), fileBytes_cons, List.length_append, cut]

variable {lines}

theorem cut_le_length (p : ℕ) : cut lines p ≤ (fileBytes lines).length := by
  have h := congrArg (fun ls => (fileBytes ls).length) (takeLines_append_dropLines lines p)
  simp only [fileBytes_append, List.length_append] at h
  rw [cut]
  omega

/-- A cut is not below its position. -/
theorem le_cut {p : ℕ} (hp : p ≤ (fileBytes lines).length) : p ≤ cut lines p := by
  induction lines generalizing p with
  | nil =>
      obtain rfl : p = 0 := by simpa using hp
      exact Nat.zero_le _
  | cons line lines ih =>
      obtain rfl | hpos := Nat.eq_zero_or_pos p
      · exact Nat.zero_le _
      · rw [fileBytes_cons, List.length_append] at hp
        have := ih (p := p - line.bytes.length) (by omega)
        rw [cut_cons lines hpos]
        omega

/-- A cut is less than a line above its position. -/
theorem cut_le_add (lines : List Line) (p : ℕ) : cut lines p ≤ p + 106 := by
  induction lines generalizing p with
  | nil => simp [cut, takeLines]
  | cons line lines ih =>
      obtain rfl | hpos := Nat.eq_zero_or_pos p
      · rw [cut_zero]
        exact Nat.zero_le _
      · have hlen := line.length_bytes
        have := ih (p - line.bytes.length)
        rw [cut_cons lines hpos]
        by_cases hle : line.bytes.length ≤ p
        · omega
        · have hzero : p - line.bytes.length = 0 := by omega
          rw [hzero, cut_zero]
          omega

theorem cut_mono {p q : ℕ} (h : p ≤ q) : cut lines p ≤ cut lines q := by
  induction lines generalizing p q with
  | nil => exact Nat.le_refl _
  | cons line lines ih =>
      obtain rfl | hpos := Nat.eq_zero_or_pos p
      · rw [cut_zero]
        exact Nat.zero_le _
      · have := ih (p := p - line.bytes.length) (q := q - line.bytes.length) (by omega)
        rw [cut_cons lines hpos, cut_cons lines (by omega)]
        omega

/-- Between a line boundary and the cuts above it there is nothing to cut. -/
theorem cut_append_left (left right : List Line) {p : ℕ} (hp : p ≤ (fileBytes left).length) :
    cut (left ++ right) p = cut left p := by
  induction left generalizing p with
  | nil =>
      obtain rfl : p = 0 := by simpa using hp
      simp
  | cons line left ih =>
      obtain rfl | hpos := Nat.eq_zero_or_pos p
      · simp
      · rw [fileBytes_cons, List.length_append] at hp
        rw [List.cons_append, cut_cons _ hpos, cut_cons _ hpos, ih (by omega)]

/-- A line boundary is its own cut. -/
theorem cut_boundary (left right : List Line) :
    cut (left ++ right) (fileBytes left).length = (fileBytes left).length := by
  rw [cut_append_left _ _ (Nat.le_refl _)]
  exact Nat.le_antisymm (cut_le_length _) (le_cut (Nat.le_refl _))

theorem lt_of_mem_startsFrom_takeLines {off l p : ℕ}
    (h : l ∈ startsFrom off (takeLines lines p)) : l < off + p := by
  induction lines generalizing off p with
  | nil => simp [takeLines, startsFrom] at h
  | cons line lines ih =>
      have hlen := line.length_bytes.1
      rw [takeLines] at h
      split at h
      · simp [startsFrom] at h
      · rw [startsFrom, List.mem_cons] at h
        obtain rfl | h := h
        · omega
        · obtain hle | hgt := Nat.le_total line.bytes.length p
          · have := ih h
            omega
          · have hzero : p - line.bytes.length = 0 := by omega
            rw [hzero, takeLines_zero] at h
            simp [startsFrom] at h

end Cut

section Newline

variable {lines : List Line}

/-- A line ends with a newline and has no other. -/
theorem Line.getElem?_bytes (line : Line) {i : ℕ} (hi : i < line.bytes.length) :
    line.bytes[i]? = some newline ↔ i + 1 = line.bytes.length := by
  obtain ⟨body, hbody, free⟩ := line.bytes_eq_append_newline
  rw [hbody] at hi ⊢
  rw [List.length_append, List.length_singleton] at hi ⊢
  constructor
  · intro h
    by_contra hne
    rw [List.getElem?_append_left (by omega)] at h
    exact free (List.mem_of_getElem? h)
  · intro h
    obtain rfl : i = body.length := by omega
    simp

/-- The first newline at or after a position ends the line there. -/
theorem newline_at_cut {p : ℕ} (hp : p < (fileBytes lines).length) :
    p < cut lines (p + 1) ∧ (fileBytes lines)[cut lines (p + 1) - 1]? = some newline ∧
      ∀ i, p ≤ i → i + 1 < cut lines (p + 1) → (fileBytes lines)[i]? ≠ some newline := by
  induction lines generalizing p with
  | nil => simp at hp
  | cons line lines ih =>
      rw [fileBytes_cons, List.length_append] at hp
      have hlen := line.length_bytes.1
      rw [cut_cons lines (by omega), fileBytes_cons]
      by_cases hin : p < line.bytes.length
      · rw [show p + 1 - line.bytes.length = 0 by omega, cut_zero, Nat.add_zero]
        refine ⟨hin, ?_, fun i hpi hi => ?_⟩
        · rw [List.getElem?_append_left (by omega), line.getElem?_bytes (by omega)]
          omega
        · rw [List.getElem?_append_left (by omega), Ne, line.getElem?_bytes (by omega)]
          omega
      · obtain ⟨hlt, hnewline, hfree⟩ := ih (p := p - line.bytes.length) (by omega)
        rw [show p + 1 - line.bytes.length = p - line.bytes.length + 1 by omega]
        refine ⟨by omega, ?_, fun i hpi hi => ?_⟩
        · rw [List.getElem?_append_right (by omega), ← hnewline]
          congr 1
          omega
        · rw [List.getElem?_append_right (by omega)]
          exact hfree _ (by omega) (by omega)

theorem floorCut_le (lines : List Line) (p : ℕ) : floorCut lines p ≤ p := by
  induction lines generalizing p with
  | nil => exact Nat.zero_le _
  | cons line lines ih =>
      rw [floorCut]
      split
      · have := ih (p - line.bytes.length)
        omega
      · exact Nat.zero_le _

/-- A position inside the file is less than a line above the boundary below it. -/
theorem le_floorCut_add {p : ℕ} (hp : p ≤ (fileBytes lines).length) :
    p ≤ floorCut lines p + 106 := by
  induction lines generalizing p with
  | nil =>
      obtain rfl : p = 0 := by simpa using hp
      exact Nat.zero_le _
  | cons line lines ih =>
      rw [fileBytes_cons, List.length_append] at hp
      have hlen := line.length_bytes
      rw [floorCut]
      split
      · have := ih (p := p - line.bytes.length) (by omega)
        omega
      · omega

/-- Cutting downwards splits the file between two lines. -/
theorem exists_floorCut (lines : List Line) (p : ℕ) :
    ∃ left right, lines = left ++ right ∧ (fileBytes left).length = floorCut lines p := by
  induction lines generalizing p with
  | nil => exact ⟨[], [], rfl, rfl⟩
  | cons line lines ih =>
      rw [floorCut]
      split
      · obtain ⟨left, right, hsplit, hlen⟩ := ih (p - line.bytes.length)
        refine ⟨line :: left, right, by rw [hsplit, List.cons_append], ?_⟩
        rw [fileBytes_cons, List.length_append, hlen]
      · exact ⟨[], line :: lines, rfl, rfl⟩

/-- Going back over a newline is where the boundary below changes. -/
theorem floorCut_succ {p : ℕ} (hp : p < (fileBytes lines).length) :
    floorCut lines (p + 1) =
      if (fileBytes lines)[p]? = some newline then p + 1 else floorCut lines p := by
  induction lines generalizing p with
  | nil => simp at hp
  | cons line lines ih =>
      rw [fileBytes_cons, List.length_append] at hp
      have hlen := line.length_bytes.1
      have hzero : floorCut lines 0 = 0 := Nat.le_zero.mp (floorCut_le _ 0)
      rw [fileBytes_cons, floorCut, floorCut]
      by_cases hin : p < line.bytes.length
      · have hnewline : (line.bytes ++ fileBytes lines)[p]? = some newline ↔
            p + 1 = line.bytes.length := by
          rw [List.getElem?_append_left hin, line.getElem?_bytes hin]
        rw [if_neg (c := line.bytes.length ≤ p) (by omega)]
        by_cases hlast : p + 1 = line.bytes.length
        · rw [if_pos (by omega), if_pos (hnewline.mpr hlast), ← hlast, Nat.sub_self, hzero]
        · rw [if_neg (by omega), if_neg (fun h => hlast (hnewline.mp h))]
      · have hnext : p + 1 - line.bytes.length = p - line.bytes.length + 1 := by omega
        have hle : line.bytes.length ≤ p := by omega
        rw [List.getElem?_append_right hle, if_pos (by omega), if_pos hle, hnext, ih (by omega)]
        split <;> omega

end Newline

end Explore.OneBrc
