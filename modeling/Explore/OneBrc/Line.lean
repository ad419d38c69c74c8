import Explore.OneBrc.Buffer
import Mathlib.Algebra.GroupWithZero.Nat

/-!
# Lines allowed by the rules

A line is `name;temp` followed by a newline, where the name has 1 to 100 bytes
and contains neither `;` nor a newline, and the temperature has the form
`-?d?d.d`. The rules also ask for the name to be UTF-8; no result below needs
that, so a name is any such byte string. The structure carries these conditions
as fields, and a file of lines is the concatenation of their bytes.
-/

namespace Explore.OneBrc

/-- A numeral of a digit is the same term wherever it is written. -/
instance neZero_ten : NeZero 10 := ⟨by decide⟩

/-- The ASCII byte of a decimal digit. -/
def digitByte (d : Fin 10) : Byte := BitVec.ofNat 8 (0x30 + d.val)

@[simp] theorem digitOf_digitByte (d : Fin 10) : digitOf (digitByte d) = d.val := by
  revert d
  decide

/-- The bytes that separate fields are never digits. -/
theorem digitByte_ne_separator (d : Fin 10) :
    digitByte d ≠ semicolon ∧ digitByte d ≠ newline ∧ digitByte d ≠ minus ∧ digitByte d ≠ dot := by
  revert d
  decide

/-- A temperature field `-?d?d.d`. -/
structure Temperature where
  negative : Bool
  tens : Option (Fin 10)
  ones : Fin 10
  tenths : Fin 10
  deriving DecidableEq, Repr

namespace Temperature

def bytes (t : Temperature) : List Byte :=
  (if t.negative then [minus] else []) ++ (t.tens.map digitByte).toList ++
    [digitByte t.ones, dot, digitByte t.tenths]

/-- The magnitude in tenths of a degree. -/
def magnitude (t : Temperature) : Nat :=
  10 * (10 * (t.tens.map Fin.val).getD 0 + t.ones.val) + t.tenths.val

/-- The temperature in tenths of a degree. -/
def value (t : Temperature) : Int :=
  if t.negative then -(t.magnitude : Int) else t.magnitude

theorem magnitude_le (t : Temperature) : t.magnitude ≤ 999 := by
  have h1 := t.ones.isLt
  have h2 := t.tenths.isLt
  have h3 : (t.tens.map Fin.val).getD 0 ≤ 9 := by
    cases t.tens with
    | none => simp
    | some d =>
        have := d.isLt
        simp only [Option.map_some, Option.getD_some]
        omega
  unfold magnitude
  omega

/-- Every temperature the rules allow is between -99.9 and 99.9 degrees. -/
theorem value_bounds (t : Temperature) : -999 ≤ t.value ∧ t.value ≤ 999 := by
  have h := t.magnitude_le
  unfold value
  split <;> omega

theorem length_bytes (t : Temperature) : 3 ≤ t.bytes.length ∧ t.bytes.length ≤ 5 := by
  obtain ⟨neg, tens, ones, tenths⟩ := t
  cases neg <;> cases tens <;> simp [bytes]

theorem newline_not_mem_bytes (t : Temperature) : newline ∉ t.bytes := by
  obtain ⟨neg, tens, ones, tenths⟩ := t
  have hn (d : Fin 10) : newline ≠ digitByte d := (digitByte_ne_separator d).2.1.symm
  have hd : newline ≠ dot := by decide
  have hm : newline ≠ minus := by decide
  cases neg <;> cases tens <;> simp [bytes, hn, hd, hm]

end Temperature

/-- A line allowed by the rules. -/
structure Line where
  name : List Byte
  temp : Temperature
  name_pos : 1 ≤ name.length
  name_le : name.length ≤ 100
  no_semicolon : semicolon ∉ name
  no_newline : newline ∉ name

namespace Line

/-- The text of a line, with its terminating newline. -/
def bytes (line : Line) : List Byte :=
  line.name ++ semicolon :: (line.temp.bytes ++ [newline])

/-- A line takes between 6 and 107 bytes. -/
theorem length_bytes (line : Line) : 6 ≤ line.bytes.length ∧ line.bytes.length ≤ 107 := by
  have hn := line.name_pos
  have hm := line.name_le
  have ht := line.temp.length_bytes
  simp only [bytes, List.length_append, List.length_cons, List.length_nil]
  omega

/-- The newline ends a line and occurs nowhere else in it. -/
theorem bytes_eq_append_newline (line : Line) :
    ∃ body, line.bytes = body ++ [newline] ∧ newline ∉ body := by
  refine ⟨line.name ++ semicolon :: line.temp.bytes, by simp [bytes], ?_⟩
  have hs : newline ≠ semicolon := by decide
  simp [line.no_newline, line.temp.newline_not_mem_bytes, hs]

end Line

/-- The contents of a file made of the given lines. -/
def fileBytes (lines : List Line) : List Byte := lines.flatMap Line.bytes

@[simp] theorem fileBytes_nil : fileBytes [] = [] := rfl

@[simp] theorem fileBytes_cons (line : Line) (lines : List Line) :
    fileBytes (line :: lines) = line.bytes ++ fileBytes lines := rfl

end Explore.OneBrc
