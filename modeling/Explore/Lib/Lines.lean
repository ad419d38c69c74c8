import Mathlib.Data.List.Basic
import Mathlib.Tactic.Common

/-!
# Lines of a text

Texts are lists of characters. Lines can be indented, and a fixed text can be replaced wherever
it occurs. To indent a text inserts spaces after line breaks, and nothing else: `Widened` is the
general relation, which can be split along the text.
-/

namespace Explore.Lines

/-- The characters at which a line may end. -/
def isLineBreak (c : Char) : Bool :=
  c.toNat ∈ [0x0A, 0x0B, 0x0C, 0x0D, 0x1C, 0x1D, 0x1E, 0x85, 0x2028, 0x2029]

def isWhitespace (c : Char) : Bool :=
  isLineBreak c || c.toNat ∈ [0x09, 0x1F, 0x20, 0xA0, 0x1680, 0x202F, 0x205F, 0x3000] ||
    (0x2000 ≤ c.toNat && c.toNat ≤ 0x200A)

/-- The lines of a text with their line breaks. A line feed after a carriage return belongs to the
same line break. -/
def splitlines : List Char → List (List Char)
  | [] => []
  | c :: rest =>
      match splitlines rest with
      | [] => [[c]]
      | line :: lines =>
          if isLineBreak c && !(c = '\r' && line.head? = some '\n') then [c] :: line :: lines
          else (c :: line) :: lines

/-- Spaces in front of a line that has more than white space. -/
def indentLine (width : ℕ) (line : List Char) : List Char :=
  if line.all isWhitespace then line else List.replicate width ' ' ++ line

def indent (width : ℕ) (text : List Char) : List Char :=
  (splitlines text).flatMap (indentLine width)

/-- `replace`, after a number of characters that have been replaced already. -/
def replaceFrom (old new : List Char) : ℕ → List Char → List Char
  | _, [] => []
  | skip + 1, _ :: rest => replaceFrom old new skip rest
  | 0, c :: rest =>
      if old.isPrefixOf (c :: rest) then new ++ replaceFrom old new (old.length - 1) rest
      else c :: replaceFrom old new 0 rest

/-- Replace a text that is not empty wherever it occurs, from left to right. -/
def replace (old new text : List Char) : List Char := replaceFrom old new 0 text

/-- The second text is the first one with more spaces after line breaks. -/
inductive Widened : List Char → List Char → Prop
  | nil : Widened [] []
  | cons {w w' : List Char} (c : Char) (spaces : ℕ) (hc : spaces = 0 ∨ isLineBreak c = true)
      (h : Widened w w') : Widened (c :: w) (c :: (List.replicate spaces ' ' ++ w'))

section Widened

variable {w w' w₁ w₂ : List Char}

theorem Widened.split (h : Widened (w₁ ++ w₂) w') :
    ∃ w₁' w₂', w' = w₁' ++ w₂' ∧ Widened w₁ w₁' ∧ Widened w₂ w₂' := by
  induction w₁ generalizing w' with
  | nil => exact ⟨[], w', rfl, .nil, h⟩
  | cons c w₁ ih =>
      cases h with
      | cons _ spaces hc h =>
          obtain ⟨w₁', w₂', rfl, h₁, h₂⟩ := ih h
          exact ⟨_, w₂', by simp, .cons c spaces hc h₁, h₂⟩

theorem Widened.append {w₁' w₂' : List Char} (h₁ : Widened w₁ w₁') (h₂ : Widened w₂ w₂') :
    Widened (w₁ ++ w₂) (w₁' ++ w₂') := by
  induction h₁ with
  | nil => exact h₂
  | cons c spaces hc _ ih =>
      rw [List.cons_append, List.cons_append, List.append_assoc]
      exact .cons c spaces hc ih

theorem Widened.refl (w : List Char) : Widened w w := by
  induction w with
  | nil => exact .nil
  | cons c w ih => exact .cons c 0 (.inl rfl) ih

/-- There is nothing to widen in a single line. -/
theorem Widened.eq_of_line (h : Widened w w') (hw : ∀ c ∈ w, isLineBreak c = false) : w' = w := by
  induction h with
  | nil => rfl
  | cons c spaces hc _ ih =>
      obtain ⟨hfirst, hrest⟩ := List.forall_mem_cons.mp hw
      obtain rfl : spaces = 0 := hc.resolve_right (by simp [hfirst])
      exact congrArg (c :: ·) (ih hrest)

theorem exists_indentLine (width : ℕ) (line : List Char) :
    ∃ spaces, indentLine width line = List.replicate spaces ' ' ++ line := by
  unfold indentLine
  split
  · exact ⟨0, rfl⟩
  · exact ⟨width, rfl⟩

theorem eq_nil_of_splitlines {text : List Char} (h : splitlines text = []) : text = [] := by
  cases text with
  | nil => rfl
  | cons c rest =>
      rw [splitlines] at h
      split at h
      · cases h
      · split at h <;> cases h

theorem widened_lines (width : ℕ) {text line : List Char} {lines : List (List Char)}
    (h : splitlines text = line :: lines) :
    Widened text (line ++ lines.flatMap (indentLine width)) := by
  induction text generalizing line lines with
  | nil => cases h
  | cons c rest ih =>
      rw [splitlines] at h
      split at h
      · rename_i hrest
        obtain ⟨rfl, rfl⟩ := List.cons.inj h
        obtain rfl := eq_nil_of_splitlines hrest
        exact .refl _
      · rename_i line' lines' hrest
        split at h
        · -- A line that consists of its line break.
          rename_i hbreak
          obtain ⟨rfl, rfl⟩ := List.cons.inj h
          obtain ⟨spaces, hline'⟩ := exists_indentLine width line'
          rw [List.flatMap_cons, hline', List.append_assoc]
          exact .cons c spaces (.inr ((Bool.and_eq_true_iff.mp hbreak).1)) (ih hrest)
        · obtain ⟨rfl, rfl⟩ := List.cons.inj h
          exact .cons c 0 (.inl rfl) (ih hrest)

/-- To indent a text after a line break is to widen it. -/
theorem widened_indent (width : ℕ) (text : List Char) {c : Char} (hc : isLineBreak c = true) :
    Widened (c :: text) (c :: indent width text) := by
  rw [indent]
  cases h : splitlines text with
  | nil =>
      obtain rfl := eq_nil_of_splitlines h
      exact .refl _
  | cons line lines =>
      obtain ⟨spaces, hline⟩ := exists_indentLine width line
      rw [List.flatMap_cons, hline, List.append_assoc]
      exact .cons c spaces (.inr hc) (widened_lines width h)

/-- The characters of an indented text are those of the text, and spaces. -/
theorem mem_of_widened {c : Char} (h : Widened w w') (hc : c ∈ w') : c ∈ w ∨ c = ' ' := by
  induction h with
  | nil => exact .inl hc
  | cons d spaces _ _ ih =>
      obtain rfl | hc := List.mem_cons.mp hc
      · exact .inl List.mem_cons_self
      · obtain hc | hc := List.mem_append.mp hc
        · exact .inr (List.eq_of_mem_replicate hc)
        · exact (ih hc).imp_left (List.mem_cons_of_mem d)

theorem not_mem_indent (width : ℕ) {text : List Char} {c : Char} (hbreak : c ≠ '\n')
    (hspace : c ≠ ' ') (hc : c ∉ text) : c ∉ indent width text := by
  intro hmem
  have hwide := @widened_indent width text '\n' (by decide)
  obtain hmem | rfl := mem_of_widened hwide (List.mem_cons_of_mem _ hmem)
  · exact (List.mem_cons.mp hmem).elim hbreak hc
  · exact hspace rfl

end Widened

section Replace

variable {c : Char} {old new w rest : List Char}

theorem replaceFrom_append (old new w rest : List Char) :
    replaceFrom old new w.length (w ++ rest) = replace old new rest := by
  induction w with
  | nil => rfl
  | cons c w ih => exact ih

theorem replace_append_self (new rest : List Char) :
    replace (c :: old) new (c :: old ++ rest) = new ++ replace (c :: old) new rest := by
  rw [replace, List.cons_append, replaceFrom, if_pos, List.length_cons, Nat.add_sub_cancel,
    replaceFrom_append]
  exact List.isPrefixOf_iff_prefix.mpr (List.prefix_append (c :: old) rest)

/-- Nothing is replaced where the first character does not occur. -/
theorem replace_append_of_not_mem (new rest : List Char) (h : c ∉ w) :
    replace (c :: old) new (w ++ rest) = w ++ replace (c :: old) new rest := by
  induction w with
  | nil => rfl
  | cons d w ih =>
      rw [List.mem_cons, not_or] at h
      rw [List.cons_append, replace, replaceFrom, if_neg]
      · exact congrArg (d :: ·) (ih h.2)
      · simp [h.1]

/-- One occurrence, with other text around it. -/
theorem replace_marked {v : List Char} (new rest : List Char) (hw : c ∉ w) (hv : c ∉ v) :
    replace (c :: old) new (w ++ c :: old ++ v ++ rest) =
      w ++ new ++ v ++ replace (c :: old) new rest := by
  simp only [List.append_assoc]
  rw [replace_append_of_not_mem _ _ hw, replace_append_self, replace_append_of_not_mem _ _ hv]

/-- Texts one after the other, in each of which it is known what is replaced. -/
theorem replace_flatMap {α : Type} {f g : α → List Char} {xs : List α}
    (h : ∀ x ∈ xs, ∀ rest, replace old new (f x ++ rest) = g x ++ replace old new rest) :
    replace old new (xs.flatMap f ++ rest) = xs.flatMap g ++ replace old new rest := by
  induction xs with
  | nil => rfl
  | cons x xs ih =>
      obtain ⟨hx, hxs⟩ := List.forall_mem_cons.mp h
      rw [List.flatMap_cons, List.flatMap_cons, List.append_assoc, hx, ih hxs, List.append_assoc]

theorem replace_of_not_mem (new : List Char) (h : c ∉ w) : replace (c :: old) new w = w := by
  have hall := @replace_append_of_not_mem c old w new [] h
  rw [List.append_nil] at hall
  exact hall.trans (List.append_nil w)

end Replace

end Explore.Lines
