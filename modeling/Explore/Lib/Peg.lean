import Mathlib.Data.List.TakeWhile

/-!
# Parsing expressions and grammars

A parser reads a prefix of a text: alternatives are ordered, a repetition takes as much as
it can, and nothing that was chosen is taken back. A language is what a grammar says of the
same text, with the tokens of a derivation and its value. `Sound` says that what a parser
reads is in a language, and has one rule for each combinator.
-/

namespace Explore.Peg

/-- A text as its characters. -/
abbrev Text := List Char

/-- A parser maps the rest of a text to a value and what it leaves of the text. -/
def Parser (α : Type) : Type := Text → Option (α × Text)

namespace Parser

variable {α β : Type}

instance : Monad Parser where
  pure a := fun s => some (a, s)
  bind p q := fun s => (p s).bind fun r => q r.1 r.2

instance : OrElse (Parser α) where
  orElse p q := fun s => (p s).or (q () s)

/-- A parser that fails. -/
def fail : Parser α := fun _ => none

/-- `star`, for at most `n` results. -/
def starFrom (p : Parser α) : ℕ → Text → Option (List α × Text)
  | 0, s => some ([], s)
  | n + 1, s =>
      match p s with
      | some (a, rest) =>
          if rest.length < s.length then (starFrom p n rest).map fun r => (a :: r.1, r.2)
          else some ([], s)
      | none => some ([], s)

/-- Results as long as there is one and it reads something. -/
def star (p : Parser α) : Parser (List α) := fun s => starFrom p s.length s

def plus (p : Parser α) : Parser (List α) := do
  let value ← p
  let tail ← star p
  pure (value :: tail)

def opt (p : Parser α) : Parser (Option α) := fun s =>
  match p s with
  | some (a, rest) => some (some a, rest)
  | none => some (none, s)

def lit (string : Text) : Parser Text := fun s =>
  if string <+: s then some (string, s.drop string.length) else none

/-- One character of a class. -/
def char (P : Char → Bool) : Parser Char
  | [] => none
  | c :: s => if P c then some (c, s) else none

/-- As many characters of a class as there are. -/
def chars (P : Char → Bool) : Parser Text := fun s => some (s.takeWhile P, s.dropWhile P)

section Apply

variable (p : Parser α) (q : α → Parser β) (s : Text)

@[simp] theorem pure_apply (a : α) : (pure a : Parser α) s = some (a, s) := rfl

theorem bind_apply : (p >>= q) s = (p s).bind fun r => q r.1 r.2 := rfl

theorem orElse_apply (p' : Parser α) : (p <|> p') s = (p s).or (p' s) := rfl

variable {p q s} {a : α} {rest : Text}

theorem bind_some (h : p s = some (a, rest)) : (p >>= q) s = q a rest := by
  rw [bind_apply, h, Option.bind_some]

theorem bind_none (h : p s = none) : (p >>= q) s = none := by
  rw [bind_apply, h, Option.bind_none]

theorem bind_congr {p' : Parser α} {q' : α → Parser β} (hp : p s = p' s)
    (h : ∀ a rest, p s = some (a, rest) → q a rest = q' a rest) : (p >>= q) s = (p' >>= q') s := by
  cases hs : p s with
  | none => rw [bind_none hs, bind_none (hp ▸ hs)]
  | some r => rw [bind_some hs, bind_some (hp ▸ hs), h r.1 r.2 hs]

theorem orElse_some {p' : Parser α} (h : p s = some (a, rest)) :
    (p <|> p') s = some (a, rest) := by
  rw [orElse_apply, h, Option.some_or]

theorem orElse_none {p' : Parser α} (h : p s = none) : (p <|> p') s = p' s := by
  rw [orElse_apply, h, Option.none_or]

theorem opt_some (h : p s = some (a, rest)) : opt p s = some (some a, rest) := by
  rw [opt, h]

theorem opt_none (h : p s = none) : opt p s = some (none, s) := by
  rw [opt, h]

theorem lit_append (string rest : Text) : lit string (string ++ rest) = some (string, rest) := by
  rw [lit, if_pos (List.prefix_append _ _), List.drop_left]

theorem lit_none {string : Text} (h : ¬string <+: s) : lit string s = none := if_neg h

/-- A character that the class does not end at. -/
theorem chars_append {P : Char → Bool} {w : Text} (hw : ∀ c ∈ w, P c = true)
    (hrest : ∀ c ∈ rest.head?, P c = false) : chars P (w ++ rest) = some (w, rest) := by
  have hnil : rest.takeWhile P = [] ∧ rest.dropWhile P = rest := by
    cases rest with
    | nil => exact ⟨rfl, rfl⟩
    | cons c rest =>
        have hc : P c = false := hrest c rfl
        exact ⟨List.takeWhile_cons_of_neg (by simp [hc]), List.dropWhile_cons_of_neg (by simp [hc])⟩
  rw [chars, List.takeWhile_append_of_pos hw, List.dropWhile_append_of_pos hw, hnil.1, hnil.2,
    List.append_nil]

end Apply

section Star

variable {p : Parser α} {s : Text}

/-- The number of results is not what ends a repetition. -/
theorem starFrom_eq (n : ℕ) (hn : s.length ≤ n) : starFrom p n s = star p s := by
  have go : ∀ (m n : ℕ) (s : Text), s.length ≤ m → s.length ≤ n →
      starFrom p m s = starFrom p n s := by
    intro m
    induction m with
    | zero =>
        intro n s hm hn
        obtain rfl : s = [] := List.length_eq_zero_iff.mp (Nat.le_zero.mp hm)
        cases n with
        | zero => rfl
        | succ n => cases hp : p [] <;> simp [starFrom, hp]
    | succ m ih =>
        intro n s hm hn
        cases n with
        | zero =>
            obtain rfl : s = [] := List.length_eq_zero_iff.mp (Nat.le_zero.mp hn)
            cases hp : p [] <;> simp [starFrom, hp]
        | succ n =>
            rw [starFrom, starFrom]
            cases hp : p s with
            | none => rfl
            | some r =>
                dsimp only
                by_cases hlt : r.2.length < s.length
                · rw [if_pos hlt, if_pos hlt, ih n r.2 (by omega) (by omega)]
                · rw [if_neg hlt, if_neg hlt]
  exact go n s.length s hn (Nat.le_refl _)

theorem star_none (h : p s = none) : star p s = some ([], s) := by
  rw [star]
  cases s.length with
  | zero => rfl
  | succ n => rw [starFrom, h]

theorem star_cons {a : α} {as : List α} {rest rest' : Text} (h : p s = some (a, rest))
    (hlt : rest.length < s.length) (hrest : star p rest = some (as, rest')) :
    star p s = some (a :: as, rest') := by
  obtain ⟨n, hn⟩ : ∃ n, s.length = n + 1 := ⟨s.length - 1, by omega⟩
  rw [star, hn, starFrom, h]
  dsimp only
  rw [if_pos hlt, starFrom_eq n (by omega), hrest]
  rfl

end Star

end Parser

/-- A language says which texts are derived, with which tokens and which value. -/
def Language (τ α : Type) : Type := Text → List τ → α → Prop

namespace Language

variable {τ α β : Type}

instance : Monad (Language τ) where
  pure a := fun w ts b => w = [] ∧ ts = [] ∧ b = a
  bind L M := fun w ts b => ∃ w₁ w₂ ts₁ ts₂ a,
    w = w₁ ++ w₂ ∧ ts = ts₁ ++ ts₂ ∧ L w₁ ts₁ a ∧ M a w₂ ts₂ b

instance : OrElse (Language τ α) where
  orElse L M := fun w ts a => L w ts a ∨ M () w ts a

/-- No text. -/
def empty : Language τ α := fun _ _ _ => False

def lit (string : Text) : Language τ Text := fun w ts a => w = string ∧ ts = [] ∧ a = string

def char (P : Char → Bool) : Language τ Char := fun w ts a => w = [a] ∧ ts = [] ∧ P a = true

def chars (P : Char → Bool) : Language τ Text := fun w ts a =>
  w = a ∧ ts = [] ∧ ∀ c ∈ w, P c = true

/-- Derivations one after another. -/
inductive star (L : Language τ α) : Language τ (List α)
  | nil : star L [] [] []
  | cons {w w' : Text} {ts ts' : List τ} {a : α} {as : List α} :
      L w ts a → star L w' ts' as → star L (w ++ w') (ts ++ ts') (a :: as)

def plus (L : Language τ α) : Language τ (List α) := do
  let value ← L
  let tail ← star L
  pure (value :: tail)

def opt (L : Language τ α) : Language τ (Option α) := fun w ts a =>
  match a with
  | some a => L w ts a
  | none => w = [] ∧ ts = []

/-- The value of a derivation is its next token. -/
def token (f : α → τ) (L : Language τ α) : Language τ α := fun w ts a =>
  ∃ ts', L w ts' a ∧ ts = ts' ++ [f a]

section Intro

variable {L : Language τ α} {w w' : Text} {ts ts' : List τ} {a : α} {b : β}

theorem bind_intro {M : α → Language τ β} (hL : L w ts a) (hM : M a w' ts' b) :
    (L >>= M) (w ++ w') (ts ++ ts') b :=
  ⟨w, w', ts, ts', a, rfl, rfl, hL, hM⟩

/-- What comes first has no tokens. -/
theorem bind_first {M : α → Language τ β} (hL : L w [] a) (hM : M a w' ts b) :
    (L >>= M) (w ++ w') ts b :=
  ⟨w, w', [], ts, a, rfl, rfl, hL, hM⟩

/-- What comes last has no tokens. -/
theorem bind_last {M : α → Language τ β} (hL : L w ts a) (hM : M a w' [] b) :
    (L >>= M) (w ++ w') ts b :=
  ⟨w, w', ts, [], a, rfl, (List.append_nil _).symm, hL, hM⟩

/-- What comes first has no text. -/
theorem bind_empty {M : α → Language τ β} (hL : L [] [] a) (hM : M a w ts b) :
    (L >>= M) w ts b := bind_first hL hM

/-- What comes last has no text. -/
theorem bind_end {M : α → Language τ β} (hL : L w ts a) (hM : M a [] [] b) :
    (L >>= M) w ts b :=
  ⟨w, [], ts, [], a, (List.append_nil _).symm, (List.append_nil _).symm, hL, hM⟩

/-- A derivation whose value is only mapped. -/
theorem map_intro (hL : L w ts a) (f : α → β) :
    (L >>= fun a => pure (f a) : Language τ β) w ts (f a) := bind_end hL ⟨rfl, rfl, rfl⟩

theorem star_single (hL : L w ts a) : star L w ts [a] := by
  have hstar := star.cons hL .nil
  rwa [List.append_nil, List.append_nil] at hstar

theorem plus_single (hL : L w ts a) : plus L w ts [a] := by
  have hplus : plus L (w ++ []) (ts ++ []) [a] := bind_intro hL (map_intro .nil _)
  rwa [List.append_nil, List.append_nil] at hplus

theorem opt_iff {o : Option α} : opt L w ts o ↔
    (pure none <|> (L >>= fun a => pure (some a)) : Language τ (Option α)) w ts o := by
  constructor
  · intro h
    cases o with
    | none => exact Or.inl ⟨h.1, h.2, rfl⟩
    | some a =>
        have hL : L w ts a := h
        exact Or.inr (map_intro hL _)
  · rintro (⟨rfl, rfl, rfl⟩ | ⟨w₁, w₂, ts₁, ts₂, a, rfl, rfl, hL, rfl, rfl, rfl⟩)
    · exact ⟨rfl, rfl⟩
    · rwa [List.append_nil, List.append_nil]

/-- At most `n` derivations one after another. -/
def upTo (L : Language τ α) : ℕ → Language τ (List α)
  | 0 => pure []
  | n + 1 => pure [] <|> do
      let a ← L
      let as ← upTo L n
      pure (a :: as)

theorem upTo_of_star {as : List α} (h : star L w ts as) : upTo L as.length w ts as := by
  induction h with
  | nil => exact ⟨rfl, rfl, rfl⟩
  | cons hL _ ih => exact Or.inr (bind_intro hL (map_intro ih _))

theorem star_of_upTo {n : ℕ} {as : List α} (h : upTo L n w ts as) : star L w ts as := by
  induction n generalizing w ts as with
  | zero =>
      obtain ⟨rfl, rfl, rfl⟩ := h
      exact .nil
  | succ n ih =>
      obtain ⟨rfl, rfl, rfl⟩ | ⟨w₁, w₂, ts₁, ts₂, a, rfl, rfl, hL, w₃, w₄, ts₃, ts₄, as, rfl, rfl,
        hstar, rfl, rfl, rfl⟩ := h
      · exact .nil
      · rw [List.append_nil, List.append_nil]
        exact .cons hL (ih hstar)

end Intro

end Language

open Explore.Peg.Parser

variable {τ α β : Type}

/-- What the parser reads is derived, with its value. -/
def Sound (p : Parser α) (L : Language τ α) : Prop :=
  ∀ s a rest, p s = some (a, rest) → ∃ w ts, s = w ++ rest ∧ L w ts a

namespace Sound

variable {p p' : Parser α} {L L' : Language τ α}

theorem pure (a : α) : Sound (pure a : Parser α) (pure a : Language τ α) := by
  intro s b rest h
  obtain ⟨rfl, rfl⟩ := Prod.mk.inj (Option.some.inj h)
  exact ⟨[], [], rfl, rfl, rfl, rfl⟩

theorem bind {q : α → Parser β} {M : α → Language τ β} (hp : Sound p L)
    (hq : ∀ a, Sound (q a) (M a)) : Sound (p >>= q) (L >>= M) := by
  intro s b rest h
  obtain ⟨⟨a, mid⟩, hfirst, hsecond⟩ := Option.bind_eq_some_iff.mp h
  obtain ⟨w₁, ts₁, rfl, hL⟩ := hp s a mid hfirst
  obtain ⟨w₂, ts₂, rfl, hM⟩ := hq a mid b rest hsecond
  exact ⟨w₁ ++ w₂, ts₁ ++ ts₂, (List.append_assoc _ _ _).symm, w₁, w₂, ts₁, ts₂, a, rfl, rfl, hL,
    hM⟩

theorem mono (hp : Sound p L) (h : ∀ w ts a, L w ts a → L' w ts a) : Sound p L' := by
  intro s a rest hs
  obtain ⟨w, ts, hw, hL⟩ := hp s a rest hs
  exact ⟨w, ts, hw, h w ts a hL⟩

/-- An ordered choice may be in either language. -/
theorem orElse (hp : Sound p L) (hp' : Sound p' L') : Sound (p <|> p') (L <|> L') := by
  intro s a rest h
  rw [orElse_apply] at h
  cases hs : p s with
  | none =>
      rw [hs, Option.none_or] at h
      obtain ⟨w, ts, hw, hL⟩ := hp' s a rest h
      exact ⟨w, ts, hw, Or.inr hL⟩
  | some r =>
      rw [hs, Option.some_or] at h
      obtain ⟨w, ts, hw, hL⟩ := hp s a rest (hs.trans h)
      exact ⟨w, ts, hw, Or.inl hL⟩

theorem fail : Sound (fail : Parser α) L := fun _ _ _ h => absurd h (by simp [Parser.fail])

theorem lit (string : Text) : Sound (lit string) (Language.lit string : Language τ Text) := by
  intro s a rest h
  rw [Parser.lit] at h
  split at h
  · rename_i hprefix
    obtain ⟨rfl, rfl⟩ := Prod.mk.inj (Option.some.inj h)
    exact ⟨string, [], (List.prefix_iff_eq_append.mp hprefix).symm, rfl, rfl, rfl⟩
  · simp at h

theorem char (P : Char → Bool) : Sound (char P) (Language.char P : Language τ Char) := by
  intro s a rest h
  cases s with
  | nil => simp [Parser.char] at h
  | cons c s =>
      rw [Parser.char] at h
      split at h
      · obtain ⟨rfl, rfl⟩ := Prod.mk.inj (Option.some.inj h)
        exact ⟨[c], [], rfl, rfl, rfl, ‹_›⟩
      · simp at h

theorem chars (P : Char → Bool) : Sound (chars P) (Language.chars P : Language τ Text) := by
  intro s a rest h
  obtain ⟨rfl, rfl⟩ := Prod.mk.inj (Option.some.inj h)
  exact ⟨s.takeWhile P, [], List.takeWhile_append_dropWhile.symm, rfl, rfl,
    fun c hc => List.mem_takeWhile_imp hc⟩

theorem starFrom (hp : Sound p L) (n : ℕ) : Sound (starFrom p n) (Language.star L) := by
  induction n with
  | zero =>
      intro s a rest h
      obtain ⟨rfl, rfl⟩ := Prod.mk.inj (Option.some.inj h)
      exact ⟨[], [], rfl, .nil⟩
  | succ n ih =>
      intro s as rest h
      have stop (h : some (([] : List α), s) = some (as, rest)) :
          ∃ w ts, s = w ++ rest ∧ Language.star L w ts as := by
        obtain ⟨rfl, rfl⟩ := Prod.mk.inj (Option.some.inj h)
        exact ⟨[], [], rfl, .nil⟩
      rw [Parser.starFrom] at h
      split at h
      · rename_i a mid hfirst
        split at h
        · obtain ⟨⟨tail, rest'⟩, htail, heq⟩ := Option.map_eq_some_iff.mp h
          obtain ⟨rfl, rfl⟩ := Prod.mk.inj heq
          obtain ⟨w₁, ts₁, rfl, hL⟩ := hp s a mid hfirst
          obtain ⟨w₂, ts₂, rfl, hstar⟩ := ih mid tail rest' htail
          exact ⟨w₁ ++ w₂, ts₁ ++ ts₂, (List.append_assoc _ _ _).symm, .cons hL hstar⟩
        · exact stop h
      · exact stop h

theorem star (hp : Sound p L) : Sound (star p) (Language.star L) :=
  fun s => hp.starFrom s.length s

theorem plus (hp : Sound p L) : Sound (plus p) (Language.plus L) :=
  hp.bind fun _ => hp.star.bind fun _ => Sound.pure _

theorem opt (hp : Sound p L) : Sound (opt p) (Language.opt L) := by
  intro s a rest h
  rw [Parser.opt] at h
  split at h
  · rename_i b mid hfirst
    obtain ⟨rfl, rfl⟩ := Prod.mk.inj (Option.some.inj h)
    exact hp s b mid hfirst
  · obtain ⟨rfl, rfl⟩ := Prod.mk.inj (Option.some.inj h)
    exact ⟨[], [], rfl, rfl, rfl⟩

theorem token (hp : Sound p L) (f : α → τ) : Sound p (Language.token f L) := by
  intro s a rest h
  obtain ⟨w, ts, hw, hL⟩ := hp s a rest h
  exact ⟨w, ts ++ [f a], hw, ts, hL, rfl⟩

theorem length_le (hp : Sound p L) {s rest : Text} {a : α} (h : p s = some (a, rest)) :
    rest.length ≤ s.length := by
  obtain ⟨w, -, rfl, -⟩ := hp s a rest h
  rw [List.length_append]
  omega

end Sound

/-- Every derived text begins so that `P` holds, whatever follows it. -/
def Begins (L : Language τ α) (P : Text → Prop) : Prop :=
  ∀ w ts a rest, L w ts a → P (w ++ rest)

namespace Begins

variable {L L' : Language τ α} {P Q : Text → Prop}

theorem bind {M : α → Language τ β} (h : Begins L P) : Begins (L >>= M) P := by
  rintro w ts b rest ⟨w₁, w₂, ts₁, ts₂, a, rfl, rfl, hL, -⟩
  rw [List.append_assoc]
  exact h w₁ ts₁ a _ hL

theorem orElse (h : Begins L P) (h' : Begins L' P) : Begins (L <|> L') P := by
  rintro w ts a rest (hL | hL')
  · exact h w ts a rest hL
  · exact h' w ts a rest hL'

theorem mono (h : Begins L P) (hPQ : ∀ rest, P rest → Q rest) : Begins L Q :=
  fun w ts a rest hL => hPQ _ (h w ts a rest hL)

theorem token (h : Begins L P) (f : α → τ) : Begins (Language.token f L) P := by
  rintro w ts a rest ⟨ts', hL, -⟩
  exact h w ts' a rest hL

end Begins

/-- Before a text that satisfies `F`, the parser reads all of what is derived. -/
def Complete (p : Parser α) (L : Language τ α) (F : Text → Prop) : Prop :=
  ∀ w ts a rest, L w ts a → F rest → p (w ++ rest) = some (a, rest)

namespace Complete

variable {p p' : Parser α} {L L' : Language τ α} {F G : Text → Prop}

theorem mono (hp : Complete p L F) (h : ∀ rest, G rest → F rest) : Complete p L G :=
  fun w ts a rest hL hG => hp w ts a rest hL (h rest hG)

theorem pure (a : α) : Complete (pure a : Parser α) (pure a : Language τ α) F := by
  intro w ts b rest h _
  obtain ⟨rfl, rfl, rfl⟩ := h
  rfl

/-- What comes second has to begin in a way that lets the first parser stop. -/
theorem bind {q : α → Parser β} {M : α → Language τ β} (hp : Complete p L F)
    (hq : ∀ a, Complete (q a) (M a) G)
    (follow : ∀ a w ts b rest, M a w ts b → G rest → F (w ++ rest)) :
    Complete (p >>= q) (L >>= M) G := by
  intro w ts b rest h hG
  obtain ⟨w₁, w₂, ts₁, ts₂, a, rfl, rfl, hL, hM⟩ := h
  rw [List.append_assoc, bind_some (hp w₁ ts₁ a _ hL (follow a w₂ ts₂ b rest hM hG))]
  exact hq a w₂ ts₂ b rest hM hG

theorem bindBegins {q : α → Parser β} {M : α → Language τ β} (hp : Complete p L F)
    (hq : ∀ a, Complete (q a) (M a) G) (begins : ∀ a, Begins (M a) F) :
    Complete (p >>= q) (L >>= M) G :=
  hp.bind hq fun a w ts b rest h _ => begins a w ts b rest h

/-- A parser whose result is only mapped. -/
theorem bindPure (hp : Complete p L F) (f : α → β) :
    Complete (p >>= fun a => Pure.pure (f a)) (L >>= fun a => Pure.pure (f a)) F := by
  refine hp.bind (fun _ => .pure _) fun a w ts b rest h hF => ?_
  obtain ⟨rfl, -, -⟩ := h
  exact hF

/-- The first alternative must not commit to a text of the second language. -/
theorem orElse (hp : Complete p L F) (hp' : Complete p' L' F)
    (reject : ∀ w ts a rest, L' w ts a → F rest → p (w ++ rest) = none) :
    Complete (p <|> p') (L <|> L') F := by
  intro w ts a rest h hF
  obtain h | h := h
  · exact orElse_some (hp w ts a rest h hF)
  · rw [orElse_none (reject w ts a rest h hF)]
    exact hp' w ts a rest h hF

theorem lit (string : Text) : Complete (lit string) (Language.lit string : Language τ Text) F := by
  intro w ts a rest h _
  obtain ⟨rfl, rfl, rfl⟩ := h
  exact lit_append _ _

theorem char (P : Char → Bool) : Complete (char P) (Language.char P : Language τ Char) F := by
  intro w ts c rest h _
  obtain ⟨rfl, rfl, hc⟩ := h
  exact if_pos hc

theorem chars (P : Char → Bool) : Complete (chars P) (Language.chars P : Language τ Text)
    fun rest => ∀ c ∈ rest.head?, P c = false := by
  intro w ts a rest h hrest
  obtain ⟨rfl, rfl, hw⟩ := h
  exact chars_append hw hrest

theorem token (hp : Complete p L F) (f : α → τ) : Complete p (Language.token f L) F := by
  intro w ts a rest h hF
  obtain ⟨ts', hL, -⟩ := h
  exact hp w ts' a rest hL hF

/-- Repeated texts are not empty, each begins in a way that lets the one before stop, and
the parser rejects what follows the last one. -/
theorem star (hp : Complete p L F) (nonempty : ∀ w ts a, L w ts a → w ≠ [])
    (follow : ∀ w ts a rest, L w ts a → F (w ++ rest)) (stop : ∀ rest, G rest → F rest)
    (reject : ∀ rest, G rest → p rest = none) : Complete (star p) (Language.star L) G := by
  intro w ts as rest h hG
  induction h with
  | nil => exact star_none (reject rest hG)
  | @cons w w' ts ts' a as hL hstar ih =>
      have hF : F (w' ++ rest) := by
        cases hstar with
        | nil => exact stop rest hG
        | cons hL' _ =>
            rw [List.append_assoc]
            exact follow _ _ _ _ hL'
      rw [List.append_assoc]
      refine star_cons (hp w ts a _ hL hF) ?_ ih
      have := List.length_pos_iff.mpr (nonempty w ts a hL)
      simp only [List.length_append]
      omega

theorem plus (hp : Complete p L F) (nonempty : ∀ w ts a, L w ts a → w ≠ [])
    (follow : ∀ w ts a rest, L w ts a → F (w ++ rest)) (stop : ∀ rest, G rest → F rest)
    (reject : ∀ rest, G rest → p rest = none) : Complete (plus p) (Language.plus L) G := by
  refine hp.bind (fun _ => (hp.star nonempty follow stop reject).bind (fun _ => .pure _)
    fun _ w ts b rest h hG => ?_) fun a w ts b rest h hG => ?_
  · obtain ⟨rfl, rfl, rfl⟩ := h
    exact hG
  · obtain ⟨w₁, w₂, ts₁, ts₂, as, rfl, rfl, hstar, rfl, rfl, rfl⟩ := h
    cases hstar with
    | nil => exact stop rest hG
    | cons hL _ =>
        rw [List.append_assoc, List.append_assoc]
        exact follow _ _ _ _ hL

theorem opt (hp : Complete p L F) (reject : ∀ rest, F rest → p rest = none) :
    Complete (opt p) (Language.opt L) F := by
  intro w ts a rest h hF
  cases a with
  | some a => exact opt_some (hp w ts a rest h hF)
  | none =>
      obtain ⟨rfl, rfl⟩ := h
      exact opt_none (reject rest hF)

end Complete

end Explore.Peg
