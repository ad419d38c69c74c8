import Explore.Takehome.Grammar

/-!
# Tokens are read whole

Where a name, a number, an operator or the end of a line is derived the parser reads all of
it, if what follows begins in the right way. The follow conditions speak of the next
character, or of the next one after spaces.
-/

namespace Explore.Takehome.Parse.Grammar

open Peg Peg.Language Parse

/-- The next character is not in the class. -/
def Avoids (P : Char → Bool) (rest : Text) : Prop := ∀ c ∈ rest.head?, P c = false

/-- A name or a number cannot go on. -/
abbrev Delimited : Text → Prop := Avoids isLetter

/-- The next character is not a space. -/
abbrev Unspaced : Text → Prop := Avoids isSpace

/-- The next character after spaces ends the line. -/
def LineEnd (rest : Text) : Prop :=
  ∃ c t, rest.dropWhile isSpace = c :: t ∧ (c = '#' ∨ c = '\n')

/-- The next line has begun. -/
abbrev LineStart : Text → Prop := Avoids fun c => c = ' ' || c = '#' || c = '\n'

section Follow

variable {P Q : Char → Bool} {c : Char} {w rest : Text}

@[simp] theorem avoids_nil : Avoids P [] := fun _ h => by simp at h

@[simp] theorem avoids_cons : Avoids P (c :: rest) ↔ P c = false := by simp [Avoids]

theorem Avoids.mono (h : Avoids P rest) (hPQ : ∀ c, Q c = true → P c = true) : Avoids Q rest := by
  intro c hc
  by_contra hQ
  have hP := hPQ c (by simpa using hQ)
  rw [h c hc] at hP
  simp at hP

/-- What follows spaces decides, if the class has no space. -/
theorem avoids_spaces (hw : ∀ c ∈ w, isSpace c = true) (hspace : P ' ' = false) :
    Avoids P (w ++ rest) ↔ w ≠ [] ∨ Avoids P rest := by
  cases w with
  | nil => simp
  | cons c w =>
      have hc : c = ' ' := by simpa [isSpace] using hw c List.mem_cons_self
      simp [hc, hspace]

theorem Avoids.dropWhile_eq (h : Unspaced rest) : rest.dropWhile isSpace = rest := by
  cases rest with
  | nil => rfl
  | cons c rest => exact List.dropWhile_cons_of_neg (by simpa using h)

theorem dropWhile_spaces (hw : ∀ c ∈ w, isSpace c = true) :
    (w ++ rest).dropWhile isSpace = rest.dropWhile isSpace := by
  rw [List.dropWhile_append_of_pos hw]

/-- At the end of a line neither a name goes on nor any other character comes, except
spaces. -/
theorem LineEnd.avoids (h : LineEnd rest) (hspace : P ' ' = false) (hhash : P '#' = false)
    (hnewline : P '\n' = false) : Avoids P rest := by
  obtain ⟨c, t, hdrop, hc⟩ := h
  cases rest with
  | nil => exact avoids_nil
  | cons d rest =>
      rw [avoids_cons]
      by_cases hd : isSpace d = true
      · rw [show d = ' ' by simpa [isSpace] using hd]
        exact hspace
      · rw [List.dropWhile_cons_of_neg hd] at hdrop
        obtain ⟨rfl, -⟩ := List.cons.inj hdrop
        obtain rfl | rfl := hc
        · exact hhash
        · exact hnewline

theorem LineEnd.avoids_dropWhile (h : LineEnd rest) (hhash : P '#' = false)
    (hnewline : P '\n' = false) : Avoids P (rest.dropWhile isSpace) := by
  obtain ⟨c, t, hdrop, hc⟩ := h
  rw [hdrop, avoids_cons]
  obtain rfl | rfl := hc
  · exact hhash
  · exact hnewline

theorem LineEnd.delimited (h : LineEnd rest) : Delimited rest :=
  h.avoids (by decide) (by decide) (by decide)

theorem lit_none_of_avoids {c : Char} {cs : Text} (h : Avoids (fun d => d = c) rest) :
    Parser.lit (c :: cs) rest = none := by
  refine Parser.lit_none ?_
  rintro ⟨t, rfl⟩
  simp at h

theorem ne_of_class {c d : Char} (hc : P c = true) (hd : P d = false) : c ≠ d := by
  rintro rfl
  rw [hc] at hd
  simp at hd

end Follow

section Names

variable {w rest : Text} {ts : List Token} {α : Type}

/-- The first character of an identifier is small, and the others are letters. -/
def IsName (name : Text) : Prop :=
  ∃ c cs, name = c :: cs ∧ isSmall c = true ∧ ∀ d ∈ cs, isLetter d = true

theorem star_char_iff {P : Char → Bool} {cs : Text} :
    star (char P) w ts cs ↔ w = cs ∧ ts = [] ∧ ∀ c ∈ cs, P c = true := by
  constructor
  · intro h
    induction h with
    | nil => simp
    | cons hchar _ ih =>
        obtain ⟨rfl, rfl, hc⟩ := hchar
        obtain ⟨rfl, rfl, hcs⟩ := ih
        exact ⟨rfl, rfl, by simpa using ⟨hc, hcs⟩⟩
  · rintro ⟨rfl, rfl, hcs⟩
    induction w with
    | nil => exact .nil
    | cons c w ih =>
        have hc : (char P : Language Token Char) [c] [] c := ⟨rfl, rfl, hcs c List.mem_cons_self⟩
        exact .cons hc (ih fun d hd => hcs d (List.mem_cons_of_mem _ hd))

theorem plus_char_iff {P : Char → Bool} {cs : Text} :
    plus (char P) w ts cs ↔ w = cs ∧ ts = [] ∧ cs ≠ [] ∧ ∀ c ∈ cs, P c = true := by
  constructor
  · rintro ⟨w₁, w₂, ts₁, ts₂, c, rfl, rfl, ⟨rfl, rfl, hc⟩, w₃, w₄, ts₃, ts₄, tail, rfl, rfl, hstar,
      rfl, rfl, rfl⟩
    obtain ⟨rfl, rfl, htail⟩ := star_char_iff.mp hstar
    simpa using ⟨hc, htail⟩
  · rintro ⟨rfl, rfl, hne, hcs⟩
    obtain ⟨c, cs, rfl⟩ := List.exists_cons_of_ne_nil hne
    exact ⟨[c], cs, [], [], c, rfl, rfl, ⟨rfl, rfl, hcs c List.mem_cons_self⟩, cs, [], [], [], cs,
      by simp, rfl, star_char_iff.mpr ⟨rfl, rfl, fun d hd => hcs d (List.mem_cons_of_mem _ hd)⟩,
      rfl, rfl, rfl⟩

theorem variableName_iff {name : Text} :
    variableName w ts name ↔ w = name ∧ ts = [.variableName name] ∧ IsName name := by
  constructor
  · rintro ⟨ts', ⟨w₁, w₂, ts₁, ts₂, c, rfl, rfl, ⟨rfl, rfl, hc⟩, w₃, w₄, ts₃, ts₄, cs, rfl, rfl,
      hstar, rfl, rfl, rfl⟩, rfl⟩
    obtain ⟨rfl, rfl, hcs⟩ := star_char_iff.mp hstar
    exact ⟨by simp, rfl, c, w₃, rfl, hc, hcs⟩
  · rintro ⟨rfl, rfl, c, cs, rfl, hc, hcs⟩
    exact ⟨[], ⟨[c], cs, [], [], c, rfl, rfl, ⟨rfl, rfl, hc⟩, cs, [], [], [], cs, by simp, rfl,
      star_char_iff.mpr ⟨rfl, rfl, hcs⟩, rfl, rfl, rfl⟩, rfl⟩

theorem complete_star_char (P : Char → Bool) :
    Complete (Parser.star (Parser.char P)) (star (char P) : Language Token Text) (Avoids P) := by
  refine Complete.star (F := fun _ => True) (.char P) (fun w ts c h => ?_)
    (fun _ _ _ _ _ => trivial)
    (fun _ _ => trivial) fun rest hrest => ?_
  · rw [h.1]
    exact List.cons_ne_nil _ _
  · cases rest with
    | nil => rfl
    | cons c rest => exact if_neg (by simpa using hrest)

theorem complete_plus_char (P : Char → Bool) :
    Complete (Parser.plus (Parser.char P)) (plus (char P) : Language Token Text) (Avoids P) := by
  refine Complete.plus (F := fun _ => True) (.char P) (fun w ts c h => ?_)
    (fun _ _ _ _ _ => trivial)
    (fun _ _ => trivial) fun rest hrest => ?_
  · rw [h.1]
    exact List.cons_ne_nil _ _
  · cases rest with
    | nil => rfl
    | cons c rest => exact if_neg (by simpa using hrest)

theorem complete_variableName : Complete Parse.variableName variableName Delimited :=
  .token (.bind (F := fun _ => True) (.char _) (fun _ => (complete_star_char _).bindPure _)
    fun _ _ _ _ _ _ _ => trivial) _

theorem variableName_none (h : Avoids isSmall rest) : Parse.variableName rest = none := by
  refine Parser.bind_none ?_
  cases rest with
  | nil => rfl
  | cons c rest => exact if_neg (by simpa using h)

end Names

section Constants

variable {w rest : Text} {ts : List Token}

/-- `0x` and hexadecimal digits. -/
def IsHex (value : Text) : Prop :=
  ∃ ds, value = ['0', 'x'] ++ ds ∧ ds ≠ [] ∧ ∀ d ∈ ds, isHexDigit d = true

/-- Digits, with a minus or without. -/
def IsNumber (value : Text) : Prop :=
  ∃ sign ds, value = sign ++ ds ∧ (sign = [] ∨ sign = ['-']) ∧ ds ≠ [] ∧
    ∀ d ∈ ds, isDigit d = true

/-- The text of a constant. -/
def IsIntConstant : IntConstantExpr → Text → Prop
  | .numberStringHex value, w => w = value ∧ IsHex value
  | .numberString value, w => w = value ∧ IsNumber value

theorem intConstantExpr_iff {expr : IntConstantExpr} :
    intConstantExpr w ts expr ↔ ts = [.intConstant expr] ∧ IsIntConstant expr w := by
  constructor
  · rintro ⟨ts', h, rfl⟩
    obtain ⟨w₁, w₂, ts₁, ts₂, start, rfl, rfl, ⟨rfl, rfl, rfl⟩, w₃, w₄, ts₃, ts₄, ds, rfl, rfl,
      hplus, rfl, rfl, rfl⟩ | ⟨w₁, w₂, ts₁, ts₂, sign, rfl, rfl, hsign, w₃, w₄, ts₃, ts₄, ds, rfl,
      rfl, hplus, rfl, rfl, rfl⟩ := h
    · obtain ⟨rfl, rfl, hne, hds⟩ := plus_char_iff.mp hplus
      exact ⟨rfl, by simp, w₃, rfl, hne, hds⟩
    · obtain ⟨rfl, rfl, hne, hds⟩ := plus_char_iff.mp hplus
      cases sign with
      | none =>
          obtain ⟨rfl, rfl⟩ := hsign
          exact ⟨rfl, by simp, [], w₃, rfl, Or.inl rfl, hne, hds⟩
      | some sign =>
          obtain ⟨rfl, rfl, rfl⟩ := hsign
          exact ⟨rfl, by simp, ['-'], w₃, rfl, Or.inr rfl, hne, hds⟩
  · rintro ⟨rfl, h⟩
    cases expr with
    | numberStringHex value =>
        obtain ⟨rfl, ds, rfl, hne, hds⟩ := h
        exact ⟨[], Or.inl ⟨['0', 'x'], ds, [], [], ['0', 'x'], rfl, rfl, ⟨rfl, rfl, rfl⟩, ds, [],
          [], [], ds, by simp, rfl, plus_char_iff.mpr ⟨rfl, rfl, hne, hds⟩, rfl, rfl, rfl⟩, rfl⟩
    | numberString value =>
        obtain ⟨rfl, sign, ds, rfl, hsign, hne, hds⟩ := h
        refine ⟨[], Or.inr ⟨sign, ds, [], [], if sign = [] then none else some sign, rfl, rfl, ?_,
          ds, [], [], [], ds, by simp, rfl, plus_char_iff.mpr ⟨rfl, rfl, hne, hds⟩, rfl, rfl, ?_⟩,
          rfl⟩
        · obtain rfl | rfl := hsign
          · exact ⟨rfl, rfl⟩
          · exact ⟨rfl, rfl, rfl⟩
        · obtain rfl | rfl := hsign
          · rfl
          · rfl

/-- A digit or a minus. -/
def isNumberStart (c : Char) : Bool := isDigit c || c = '-'

theorem IsIntConstant.exists_cons {expr : IntConstantExpr} (h : IsIntConstant expr w) :
    ∃ c t, w = c :: t ∧ isNumberStart c = true := by
  cases expr with
  | numberStringHex value =>
      obtain ⟨rfl, ds, rfl, -, -⟩ := h
      exact ⟨'0', 'x' :: ds, rfl, by decide⟩
  | numberString value =>
      obtain ⟨rfl, sign, ds, rfl, rfl | rfl, hne, hds⟩ := h
      · obtain ⟨d, ds, rfl⟩ := List.exists_cons_of_ne_nil hne
        exact ⟨d, ds, rfl, by simp [isNumberStart, hds d List.mem_cons_self]⟩
      · exact ⟨'-', ds, rfl, by decide⟩

theorem isLetter_of_isHexDigit {c : Char} (h : isHexDigit c = true) : isLetter c = true := by
  simp only [isHexDigit, isLetter, isSmall, Bool.or_eq_true, Bool.and_eq_true, decide_eq_true_eq]
    at h ⊢
  obtain (h | h) | h := h
  · exact Or.inl (Or.inr h)
  · exact Or.inl (Or.inl (Or.inr ⟨h.1, Char.le_trans h.2 (by decide)⟩))
  · exact Or.inl (Or.inl (Or.inl ⟨h.1, Char.le_trans h.2 (by decide)⟩))

theorem isLetter_of_isDigit {c : Char} (h : isDigit c = true) : isLetter c = true := by
  simp [isLetter, h]

theorem complete_digits {P : Char → Bool} (hP : ∀ c, P c = true → isLetter c = true)
    (f : Text → IntConstantExpr) :
    Complete (do
      let digits ← Parser.plus (Parser.char P)
      pure (f digits)) (do
      let digits ← plus (char P)
      pure (f digits) : Language Token IntConstantExpr) Delimited :=
  .bindPure ((complete_plus_char P).mono fun rest (h : Delimited rest) => h.mono hP) f

theorem complete_intConstantExpr : Complete Parse.intConstantExpr intConstantExpr Delimited := by
  refine .token (.orElse ?_ ?_ fun w ts expr rest h hrest => ?_) _
  · exact .bind (F := fun _ => True) (.lit _) (fun _ =>
      complete_digits (fun _ => isLetter_of_isHexDigit) _)
      fun _ _ _ _ _ _ _ => trivial
  · refine .bind (F := Avoids fun c => c = '-') (.opt ((Complete.lit _).mono fun _ _ => trivial) ?_)
      (fun _ => complete_digits (fun _ => isLetter_of_isDigit) _)
        fun sign w ts expr rest h hrest => ?_
    · intro rest hrest
      exact lit_none_of_avoids hrest
    · obtain ⟨w₃, w₄, ts₃, ts₄, ds, rfl, rfl, hplus, rfl, rfl, rfl⟩ := h
      obtain ⟨rfl, rfl, hne, hds⟩ := plus_char_iff.mp hplus
      obtain ⟨d, ds, rfl⟩ := List.exists_cons_of_ne_nil hne
      simpa using ne_of_class (hds d List.mem_cons_self) (by decide)
  · obtain ⟨w₁, w₂, ts₁, ts₂, sign, rfl, rfl, hsign, w₃, w₄, ts₃, ts₄, ds, rfl, rfl, hplus, rfl,
      rfl, rfl⟩ := h
    obtain ⟨rfl, rfl, hne, hds⟩ := plus_char_iff.mp hplus
    refine Parser.bind_none (Parser.lit_none ?_)
    rintro ⟨t, ht⟩
    cases sign with
    | some sign =>
        obtain ⟨rfl, -, -⟩ := hsign
        simp at ht
    | none =>
        obtain ⟨rfl, -⟩ := hsign
        -- The `x` is a digit, or the letter that follows the digits.
        match w₃, hds with
        | d :: e :: ds, hds =>
            have he : isDigit e = true := hds e (by simp)
            obtain rfl : 'x' = e := by simpa using (List.cons.inj (List.cons.inj ht).2).1
            exact absurd he (by decide)
        | [d], _ =>
            have hx : 'x' :: t = rest := by simpa using (List.cons.inj ht).2
            rw [← hx] at hrest
            simp [show isLetter 'x' = true by decide] at hrest

end Constants

section Operands

variable {w rest : Text} {ts : List Token}

/-- An operand begins with a small letter, a digit or a minus. -/
def isOperandStart (c : Char) : Bool := isSmall c || isNumberStart c

theorem varOrConst_iff {operand : VarOrConst} : varOrConst w ts operand ↔
    (∃ name, operand = .name name ∧ variableName w ts name) ∨
      ∃ expr, operand = .const expr ∧ intConstantExpr w ts expr := by
  constructor
  · rintro (⟨w₁, w₂, ts₁, ts₂, name, rfl, rfl, h, rfl, rfl, rfl⟩ |
      ⟨w₁, w₂, ts₁, ts₂, expr, rfl, rfl, h, rfl, rfl, rfl⟩)
    · rw [List.append_nil, List.append_nil]
      exact Or.inl ⟨name, rfl, h⟩
    · rw [List.append_nil, List.append_nil]
      exact Or.inr ⟨expr, rfl, h⟩
  · rintro (⟨name, rfl, h⟩ | ⟨expr, rfl, h⟩)
    · exact Or.inl ⟨w, [], ts, [], name, by simp, by simp, h, rfl, rfl, rfl⟩
    · exact Or.inr ⟨w, [], ts, [], expr, by simp, by simp, h, rfl, rfl, rfl⟩

theorem IsName.exists_cons (h : IsName w) : ∃ c t, w = c :: t ∧ isSmall c = true := by
  obtain ⟨c, cs, rfl, hc, -⟩ := h
  exact ⟨c, cs, rfl, hc⟩

theorem varOrConst_cons {operand : VarOrConst} (h : varOrConst w ts operand) :
    ∃ c t, w = c :: t ∧ isOperandStart c = true := by
  obtain ⟨name, -, h⟩ | ⟨expr, -, h⟩ := varOrConst_iff.mp h
  · obtain ⟨rfl, -, hname⟩ := variableName_iff.mp h
    obtain ⟨c, t, rfl, hc⟩ := hname.exists_cons
    exact ⟨c, t, rfl, by simp [isOperandStart, hc]⟩
  · obtain ⟨c, t, rfl, hc⟩ := (intConstantExpr_iff.mp h).2.exists_cons
    exact ⟨c, t, rfl, by simp [isOperandStart, hc]⟩

theorem intConstantExpr_none (h : Avoids isNumberStart rest) :
    Parse.intConstantExpr rest = none := by
  have hsign : Parser.opt Parse.minus rest = some (none, rest) :=
    Parser.opt_none (lit_none_of_avoids (h.mono (by simp [isNumberStart])))
  have hdigit : Parser.plus Parse.digit rest = none := by
    refine Parser.bind_none ?_
    cases rest with
    | nil => rfl
    | cons c rest =>
        refine if_neg ?_
        rw [avoids_cons, isNumberStart, Bool.or_eq_false_iff] at h
        simp [h.1]
  have hhex : Parse.numberStringHex rest = none := Parser.bind_none
    (lit_none_of_avoids (h.mono (by rintro c hc; rw [of_decide_eq_true hc]; decide)))
  exact (Parser.orElse_none hhex).trans ((Parser.bind_some hsign).trans (Parser.bind_none hdigit))

theorem varOrConst_none (h : Avoids isOperandStart rest) : Parse.varOrConst rest = none := by
  have hname : Parse.variableName rest = none :=
    variableName_none (h.mono fun c hc => by simp [isOperandStart, hc])
  have hexpr : Parse.intConstantExpr rest = none :=
    intConstantExpr_none (h.mono fun c hc => by simp [isOperandStart, hc])
  exact (Parser.orElse_none (Parser.bind_none hname)).trans (Parser.bind_none hexpr)

theorem isSmall_of_isNumberStart {c : Char} (h : isNumberStart c = true) : isSmall c = false := by
  rw [isNumberStart, Bool.or_eq_true, isDigit, Bool.and_eq_true, decide_eq_true_eq,
    decide_eq_true_eq, decide_eq_true_eq] at h
  obtain ⟨-, hle⟩ | rfl := h
  · by_contra hsmall
    rw [Bool.not_eq_false, isSmall, Bool.and_eq_true, decide_eq_true_eq] at hsmall
    exact absurd (Char.le_trans hsmall.1 hle) (by decide)
  · decide

theorem complete_varOrConst : Complete Parse.varOrConst varOrConst Delimited := by
  refine .orElse (complete_variableName.bindPure _) (complete_intConstantExpr.bindPure _)
    fun w ts operand rest h _ => ?_
  obtain ⟨w₁, w₂, ts₁, ts₂, expr, rfl, rfl, h, rfl, rfl, rfl⟩ := h
  obtain ⟨c, t, rfl, hc⟩ := (intConstantExpr_iff.mp h).2.exists_cons
  exact Parser.bind_none (variableName_none (by simpa using isSmall_of_isNumberStart hc))

end Operands

section Spaced

variable {w rest t : Text} {ts : List Token} {L : Language Token Text} {p : Parser Text}

theorem spaced_iff {x : Text} : spaced L w ts x ↔ ∃ before m after, w = before ++ (m ++ after) ∧
    (∀ c ∈ before, isSpace c = true) ∧ (∀ c ∈ after, isSpace c = true) ∧ L m ts x := by
  constructor
  · rintro ⟨before, w₂, ts₁, ts₂, _, rfl, rfl, ⟨rfl, rfl, hbefore⟩, m, w₄, ts₃, ts₄, x', rfl, rfl,
      hL, after, w₆, ts₅, ts₆, _, rfl, rfl, ⟨rfl, rfl, hafter⟩, rfl, rfl, rfl⟩
    exact ⟨before, m, after, by simp, hbefore, hafter, by simpa using hL⟩
  · rintro ⟨before, m, after, rfl, hbefore, hafter, hL⟩
    exact ⟨before, m ++ after, [], ts, before, rfl, rfl, ⟨rfl, rfl, hbefore⟩, m, after, ts, [], x,
      rfl, by simp, hL, after, [], [], [], after, by simp, rfl, ⟨rfl, rfl, hafter⟩, rfl, rfl, rfl⟩

/-- A token with spaces around it, before something that is not a space. -/
theorem complete_spaced (hp : Complete p L fun _ => True)
    (unspaced : ∀ w ts x rest, L w ts x → Unspaced (w ++ rest)) :
    Complete (Parse.spaced p) (spaced L) Unspaced := by
  intro w ts x rest h hrest
  obtain ⟨before, m, after, rfl, hbefore, hafter, hL⟩ := spaced_iff.mp h
  simp only [List.append_assoc]
  refine (Parser.bind_some (Parser.chars_append hbefore (unspaced _ _ _ _ hL))).trans ?_
  refine (Parser.bind_some (hp m ts x _ hL trivial)).trans ?_
  exact Parser.bind_some (Parser.chars_append hafter hrest)

/-- What comes after the spaces is not the token. -/
theorem spaced_none (h : p (rest.dropWhile isSpace) = none) : Parse.spaced p rest = none := by
  have hspaces : Parse.optSpace rest = some (rest.takeWhile isSpace, rest.dropWhile isSpace) := rfl
  exact (Parser.bind_some hspaces).trans (Parser.bind_none h)

theorem complete_spaced_lit {c : Char} (hc : isSpace c = false) :
    Complete (Parse.spaced (Parser.lit [c])) (spaced (lit [c])) Unspaced := by
  refine complete_spaced (.lit _) fun w ts x rest h => ?_
  obtain ⟨rfl, rfl, rfl⟩ := h
  simpa using hc

theorem spaced_lit_none {c : Char} (h : Avoids (fun d => d = c) (rest.dropWhile isSpace)) :
    Parse.spaced (Parser.lit [c]) rest = none :=
  spaced_none (lit_none_of_avoids h)

theorem spaced_lit_iff {string x : Text} : spaced (lit string) w ts x ↔
    x = string ∧ ts = [] ∧ ∃ before after, w = before ++ (string ++ after) ∧
      (∀ c ∈ before, isSpace c = true) ∧ ∀ c ∈ after, isSpace c = true := by
  rw [spaced_iff]
  constructor
  · rintro ⟨before, m, after, rfl, hbefore, hafter, rfl, rfl, rfl⟩
    exact ⟨rfl, rfl, before, after, rfl, hbefore, hafter⟩
  · rintro ⟨rfl, rfl, before, after, rfl, hbefore, hafter⟩
    exact ⟨before, x, after, rfl, hbefore, hafter, rfl, rfl, rfl⟩

/-- The operators of `bin_op_expr`. -/
def operators : List Text := [['*'], ['+'], ['^'], ['>', '>'], ['-'], ['<', '<'], ['%'], ['=', '=']]

/-- The operators of `cond_expr`. -/
def cmpOperators : List Text := [['<'], ['=', '=']]

theorem operator_iff {op : Text} :
    operator w ts op ↔ w = op ∧ ts = [.operator op] ∧ op ∈ operators := by
  constructor
  · rintro ⟨ts', ⟨rfl, rfl, rfl⟩ | ⟨rfl, rfl, rfl⟩ | ⟨rfl, rfl, rfl⟩ | ⟨rfl, rfl, rfl⟩ |
      ⟨rfl, rfl, rfl⟩ | ⟨rfl, rfl, rfl⟩ | ⟨rfl, rfl, rfl⟩ | ⟨rfl, rfl, rfl⟩, rfl⟩ <;>
      exact ⟨rfl, rfl, by decide⟩
  · rintro ⟨rfl, rfl, hop⟩
    refine ⟨[], ?_, rfl⟩
    simp only [operators, List.mem_cons, List.not_mem_nil, or_false] at hop
    obtain rfl | rfl | rfl | rfl | rfl | rfl | rfl | rfl := hop
    · exact Or.inl ⟨rfl, rfl, rfl⟩
    · exact Or.inr (Or.inl ⟨rfl, rfl, rfl⟩)
    · exact Or.inr (Or.inr (Or.inl ⟨rfl, rfl, rfl⟩))
    · exact Or.inr (Or.inr (Or.inr (Or.inl ⟨rfl, rfl, rfl⟩)))
    · exact Or.inr (Or.inr (Or.inr (Or.inr (Or.inl ⟨rfl, rfl, rfl⟩))))
    · exact Or.inr (Or.inr (Or.inr (Or.inr (Or.inr (Or.inl ⟨rfl, rfl, rfl⟩)))))
    · exact Or.inr (Or.inr (Or.inr (Or.inr (Or.inr (Or.inr (Or.inl ⟨rfl, rfl, rfl⟩))))))
    · exact Or.inr (Or.inr (Or.inr (Or.inr (Or.inr (Or.inr (Or.inr ⟨rfl, rfl, rfl⟩))))))

theorem cmpOperator_iff {op : Text} :
    cmpOperator w ts op ↔ w = op ∧ ts = [.operator op] ∧ op ∈ cmpOperators := by
  constructor
  · rintro ⟨ts', ⟨rfl, rfl, rfl⟩ | ⟨rfl, rfl, rfl⟩, rfl⟩ <;> exact ⟨rfl, rfl, by decide⟩
  · rintro ⟨rfl, rfl, hop⟩
    refine ⟨[], ?_, rfl⟩
    simp only [cmpOperators, List.mem_cons, List.not_mem_nil, or_false] at hop
    obtain rfl | rfl := hop
    · exact Or.inl ⟨rfl, rfl, rfl⟩
    · exact Or.inr ⟨rfl, rfl, rfl⟩

theorem complete_operator : Complete Parse.operator operator fun _ => True := by
  intro w ts op rest h _
  obtain ⟨rfl, -, hop⟩ := operator_iff.mp h
  simp only [operators, List.mem_cons, List.not_mem_nil, or_false] at hop
  obtain rfl | rfl | rfl | rfl | rfl | rfl | rfl | rfl := hop <;> rfl

theorem complete_cmpOperator : Complete Parse.cmpOperator cmpOperator fun _ => True := by
  intro w ts op rest h _
  obtain ⟨rfl, -, hop⟩ := cmpOperator_iff.mp h
  simp only [cmpOperators, List.mem_cons, List.not_mem_nil, or_false] at hop
  obtain rfl | rfl := hop <;> rfl

/-- The first characters of the operators. -/
def isOperatorStart (c : Char) : Bool := c ∈ ['*', '+', '^', '>', '-', '<', '%', '=']

theorem operator_none (h : Avoids isOperatorStart rest) : Parse.operator rest = none := by
  have hlit {c : Char} {cs : Text} (hc : isOperatorStart c = true) :
      Parser.lit (c :: cs) rest = none :=
    lit_none_of_avoids (h.mono fun d hd => of_decide_eq_true hd ▸ hc)
  simp only [Parse.operator, Parser.orElse_apply]
  rw [hlit (by decide), hlit (by decide), hlit (by decide), hlit (by decide), hlit (by decide),
    hlit (by decide), hlit (by decide), hlit (by decide)]
  rfl

theorem cmpOperator_none (h : Avoids (fun c => c = '<' || c = '=') rest) :
    Parse.cmpOperator rest = none := by
  have hlt : Parser.lit ['<'] rest = none :=
    lit_none_of_avoids (h.mono fun d hd => by simp [of_decide_eq_true hd])
  have heq : Parser.lit ['=', '='] rest = none :=
    lit_none_of_avoids (h.mono fun d hd => by simp [of_decide_eq_true hd])
  exact (Parser.orElse_none hlt).trans heq

end Spaced

section Lines

variable {w rest : Text} {ts : List Token}

/-- A comment, or nothing. -/
def IsComment (comment : Text) : Prop :=
  comment = [] ∨ ∃ cs, comment = '#' :: cs ∧ ∀ c ∈ cs, c ≠ '\n'

theorem nl_iff : (∃ a, nl w ts a) ↔ ts = [] ∧ ∃ before comment after,
    w = before ++ (comment ++ '\n' :: after) ∧ (∀ c ∈ before, isSpace c = true) ∧
      (∀ c ∈ after, isSpace c = true) ∧ IsComment comment := by
  constructor
  · rintro ⟨a, before, w₂, ts₁, ts₂, _, rfl, rfl, ⟨rfl, rfl, hbefore⟩, comment, w₄, ts₃, ts₄, value,
      rfl, rfl, hcomment, newline, w₆, ts₅, ts₆, _, rfl, rfl, ⟨rfl, rfl, rfl⟩, after, w₈, ts₇, ts₈,
      _, rfl, rfl, ⟨rfl, rfl, hafter⟩, rfl, rfl, rfl⟩
    cases value with
    | none =>
        obtain ⟨rfl, rfl⟩ := hcomment
        exact ⟨rfl, before, [], after, by simp, hbefore, hafter, Or.inl rfl⟩
    | some value =>
        obtain ⟨w₁, w₂, ts₁, ts₂, _, rfl, rfl, ⟨rfl, rfl, rfl⟩, cs, w₄, ts₃, ts₄, _, rfl, rfl,
          ⟨rfl, rfl, hcs⟩, rfl, rfl, rfl⟩ := hcomment
        exact ⟨rfl, before, '#' :: cs, after, by simp, hbefore, hafter, Or.inr ⟨cs, rfl, by
          simpa using hcs⟩⟩
  · rintro ⟨rfl, before, comment, after, rfl, hbefore, hafter, hcomment⟩
    have go (value : Option Text) (h : optComment comment [] value) :
        ∃ a, nl (before ++ (comment ++ '\n' :: after)) [] a :=
      ⟨_, before, _, [], [], before, rfl, rfl, ⟨rfl, rfl, hbefore⟩, comment, _, [], [], value, rfl,
        rfl, h, ['\n'], after, [], [], ['\n'], rfl, rfl, ⟨rfl, rfl, rfl⟩, after, [], [], [], after,
        by simp, rfl, ⟨rfl, rfl, hafter⟩, rfl, rfl, rfl⟩
    obtain rfl | ⟨cs, rfl, hcs⟩ := hcomment
    · exact go none ⟨rfl, rfl⟩
    · exact go (some ('#' :: cs)) ⟨['#'], cs, [], [], ['#'], rfl, rfl, ⟨rfl, rfl, rfl⟩, cs, [], [],
        [], cs, by simp, rfl, ⟨rfl, rfl, by simpa using hcs⟩, rfl, rfl, rfl⟩

/-- The parser takes the spaces after the line break, and what comes with them. -/
theorem nl_append {before comment after : Text} (rest : Text)
    (hbefore : ∀ c ∈ before, isSpace c = true)
    (hafter : ∀ c ∈ after, isSpace c = true) (hcomment : IsComment comment) :
    ∃ v, Parse.nl (before ++ (comment ++ '\n' :: (after ++ rest))) =
      some (v, rest.dropWhile isSpace) := by
  have hspace : Parse.optSpace (before ++ (comment ++ '\n' :: (after ++ rest))) =
      some (before, comment ++ '\n' :: (after ++ rest)) := by
    refine Parser.chars_append hbefore ?_
    obtain rfl | ⟨cs, rfl, -⟩ := hcomment
    · simp [isSpace]
    · simp [isSpace]
  have hopt : ∃ value, Parse.optComment (comment ++ '\n' :: (after ++ rest)) =
      some (value, '\n' :: (after ++ rest)) := by
    obtain rfl | ⟨cs, rfl, hcs⟩ := hcomment
    · exact ⟨none, Parser.opt_none (Parser.bind_none (lit_none_of_avoids (by simp)))⟩
    · refine ⟨some ('#' :: cs), Parser.opt_some
        ((Parser.bind_some (Parser.lit_append ['#'] _)).trans ?_)⟩
      exact Parser.bind_some (Parser.chars_append (by simpa using hcs) (by simp))
  obtain ⟨value, hopt⟩ := hopt
  have hlast : Parse.optSpace (after ++ rest) =
      some ((after ++ rest).takeWhile isSpace, rest.dropWhile isSpace) := by
    rw [← dropWhile_spaces hafter]
    rfl
  exact ⟨_, (Parser.bind_some hspace).trans ((Parser.bind_some hopt).trans
    ((Parser.bind_some (Parser.lit_append ['\n'] _)).trans (Parser.bind_some hlast)))⟩

theorem nl_none (h : Avoids (fun c => c = '#' || c = '\n') (rest.dropWhile isSpace)) :
    Parse.nl rest = none := by
  have hspace : Parse.optSpace rest = some (rest.takeWhile isSpace, rest.dropWhile isSpace) := rfl
  have hopt : Parse.optComment (rest.dropWhile isSpace) = some (none, rest.dropWhile isSpace) :=
    Parser.opt_none (Parser.bind_none (lit_none_of_avoids (h.mono fun c hc => by simp [
      of_decide_eq_true hc])))
  refine (Parser.bind_some hspace).trans ((Parser.bind_some hopt).trans (Parser.bind_none ?_))
  exact lit_none_of_avoids (h.mono fun c hc => by simp [of_decide_eq_true hc])

theorem LineStart.unspaced (h : LineStart rest) : Unspaced rest :=
  h.mono fun c hc => by simp [of_decide_eq_true hc]

theorem nl_none_of_lineStart (h : LineStart rest) : Parse.nl rest = none := by
  refine nl_none ?_
  rw [Avoids.dropWhile_eq h.unspaced]
  exact h.mono fun c hc => by
    obtain hc | hc := Bool.or_eq_true _ _ ▸ hc
    · simp [of_decide_eq_true hc]
    · simp [of_decide_eq_true hc]

/-- Line breaks after the spaces of the one before. -/
theorem star_nl_append {as : List Text} (h : star nl w ts as) (hrest : LineStart rest) :
    ∃ vs, Parser.star Parse.nl ((w ++ rest).dropWhile isSpace) = some (vs, rest) := by
  induction h with
  | nil =>
      rw [List.nil_append, Avoids.dropWhile_eq hrest.unspaced]
      exact ⟨[], Parser.star_none (nl_none_of_lineStart hrest)⟩
  | @cons w w' ts ts' a as hnl _ ih =>
      obtain ⟨vs, hvs⟩ := ih
      obtain ⟨-, before, comment, after, rfl, hbefore, hafter, hcomment⟩ := nl_iff.mp ⟨a, hnl⟩
      have hdrop : ((before ++ (comment ++ '\n' :: after)) ++ w' ++ rest).dropWhile isSpace =
          [] ++ (comment ++ '\n' :: (after ++ (w' ++ rest))) := by
        simp only [List.append_assoc, List.cons_append, List.nil_append]
        rw [dropWhile_spaces hbefore]
        refine Avoids.dropWhile_eq ?_
        obtain rfl | ⟨cs, rfl, -⟩ := hcomment
        · simp [isSpace]
        · simp [isSpace]
      rw [hdrop]
      obtain ⟨v, hv⟩ := nl_append (w' ++ rest) (List.forall_mem_nil _) hafter hcomment
      refine ⟨v :: vs, Parser.star_cons hv ?_ hvs⟩
      have := (List.dropWhile_sublist isSpace (l := w' ++ rest)).length_le
      simp only [List.length_append, List.length_cons, List.length_nil] at this ⊢
      omega

theorem complete_nls : Complete Parse.nls nls LineStart := by
  rintro w ts u rest ⟨w₁, w₂, ts₁, ts₂, as, rfl, rfl,
    ⟨w₃, w₄, ts₃, ts₄, a, rfl, rfl, hnl, w₅, w₆, ts₅,
    ts₆, as', rfl, rfl, hstar, rfl, rfl, rfl⟩, rfl, rfl, rfl⟩ hrest
  obtain ⟨-, before, comment, after, rfl, hbefore, hafter, hcomment⟩ := nl_iff.mp ⟨a, hnl⟩
  obtain ⟨vs, hvs⟩ := star_nl_append hstar hrest
  obtain ⟨v, hv⟩ := nl_append (w₅ ++ rest) hbefore hafter hcomment
  simp only [List.append_assoc, List.cons_append, List.append_nil]
  exact Parser.bind_some ((Parser.bind_some hv).trans (Parser.bind_some hvs))

theorem lineEnd_of_nls {u : Unit} (h : nls w ts u) : LineEnd (w ++ rest) := by
  obtain ⟨w₁, w₂, ts₁, ts₂, as, rfl, rfl, ⟨w₃, w₄, ts₃, ts₄, a, rfl, rfl, hnl, -⟩, rfl, -, -⟩ := h
  obtain ⟨-, before, comment, after, rfl, hbefore, -, hcomment⟩ := nl_iff.mp ⟨a, hnl⟩
  simp only [List.append_assoc]
  rw [LineEnd, dropWhile_spaces hbefore]
  obtain rfl | ⟨cs, rfl, -⟩ := hcomment
  · exact ⟨'\n', _, rfl, Or.inr rfl⟩
  · exact ⟨'#', _, rfl, Or.inl rfl⟩

theorem space_iff {x : Text} : space w ts x ↔
    x = w ∧ ts = [] ∧ w ≠ [] ∧ ∀ c ∈ w, isSpace c = true := by
  constructor
  · rintro ⟨w₁, w₂, ts₁, ts₂, c, rfl, rfl, ⟨rfl, rfl, hc⟩, w₃, w₄, ts₃, ts₄, cs, rfl, rfl,
      ⟨rfl, rfl, hcs⟩, rfl, rfl, rfl⟩
    simpa using ⟨hc, hcs⟩
  · rintro ⟨rfl, rfl, hne, hw⟩
    obtain ⟨c, cs, rfl⟩ := List.exists_cons_of_ne_nil hne
    exact ⟨[c], cs, [], [], c, rfl, rfl, ⟨rfl, rfl, hw c List.mem_cons_self⟩, cs, [], [], [], cs,
      by simp, rfl, ⟨rfl, rfl, fun d hd => hw d (List.mem_cons_of_mem _ hd)⟩, rfl, rfl, rfl⟩

theorem complete_space : Complete Parse.space space Unspaced :=
  .bind (F := fun _ => True) (.char _) (fun _ => .bindPure (.chars _) _)
    fun _ _ _ _ _ _ _ => trivial

theorem space_none (h : Unspaced rest) : Parse.space rest = none := by
  refine Parser.bind_none ?_
  cases rest with
  | nil => rfl
  | cons c rest => exact if_neg (by simpa using h)

end Lines

end Explore.Takehome.Parse.Grammar
