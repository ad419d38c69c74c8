import Explore.Takehome.RoundTrip
import Mathlib.Algebra.GroupWithZero.Nat

/-!
# What the parser reads beyond the grammar

The dialect of the parser differs from the grammar in two places, and both show in the text
once the comments are gone: a bracket that is not closed, and the commas between the
parentheses of a range. Two languages agree when a derivation of the one is a derivation of
the other as far as brackets and commas allow, and no token is lost as long as no range has
a second comma.
-/

namespace Explore.Takehome.Parse.Grammar

open Peg Peg.Language Parse

section Scan

/-- A text without its comments. -/
def uncomment : Bool → Text → Text
  | _, [] => []
  | inComment, c :: s =>
      if c = '\n' then c :: uncomment false s
      else if inComment || c = '#' then uncomment true s
      else c :: uncomment false s

def code (text : Text) : Text := uncomment false text

/-- The number of commas in each pair of parentheses; the argument counts them in the pair
that is open. -/
def rangeCommas : Option ℕ → Text → List ℕ
  | _, [] => []
  | none, c :: s => if c = '(' then rangeCommas (some 0) s else rangeCommas none s
  | some n, c :: s =>
      if c = ')' then n :: rangeCommas none s
      else if c = ',' then rangeCommas (some (n + 1)) s
      else rangeCommas (some n) s

def opens (text : Text) : ℕ := (code text).count '['

def closes (text : Text) : ℕ := (code text).count ']'

def commas (text : Text) : List ℕ := rangeCommas none (code text)

/-- A text that ends outside of comments and parentheses. -/
structure Closed (w : Text) : Prop where
  code_append : ∀ rest, code (w ++ rest) = code w ++ code rest
  commas_append : ∀ s, rangeCommas none (code w ++ s) = commas w ++ rangeCommas none s

variable {w w' : Text}

namespace Closed

theorem opens_append (h : Closed w) : opens (w ++ w') = opens w + opens w' := by
  rw [opens, h.code_append, List.count_append, opens, opens]

theorem closes_append (h : Closed w) : closes (w ++ w') = closes w + closes w' := by
  rw [closes, h.code_append, List.count_append, closes, closes]

theorem commas_append' (h : Closed w) : commas (w ++ w') = commas w ++ commas w' := by
  exact (congrArg _ (h.code_append w')).trans (h.commas_append (code w'))

theorem append (h : Closed w) (h' : Closed w') : Closed (w ++ w') where
  code_append rest := by
    rw [List.append_assoc, h.code_append, h'.code_append, h.code_append, List.append_assoc]
  commas_append s := by
    rw [h.code_append, List.append_assoc, h.commas_append, h'.commas_append, h.commas_append',
      List.append_assoc]

end Closed

/-- A character that is no part of a comment or a range. -/
def isPlain (c : Char) : Bool := c ≠ '#' && c ≠ '('

theorem code_append_of_ne (h : ∀ c ∈ w, c ≠ '#') (rest : Text) :
    code (w ++ rest) = w ++ code rest := by
  induction w with
  | nil => rfl
  | cons c w ih =>
      obtain ⟨hc, hw⟩ := List.forall_mem_cons.mp h
      have htail : uncomment false (w ++ rest) = w ++ uncomment false rest := ih hw
      rw [List.cons_append, code, uncomment]
      by_cases hnewline : c = '\n'
      · rw [if_pos hnewline, htail, List.cons_append, code]
      · rw [if_neg hnewline, if_neg (by simp [hc]), htail, List.cons_append, code]

theorem code_append_of_plain (h : ∀ c ∈ w, isPlain c = true) (rest : Text) :
    code (w ++ rest) = w ++ code rest :=
  code_append_of_ne (fun c hc => by
    rintro rfl
    simpa [isPlain] using h '#' hc) rest

theorem rangeCommas_of_plain (h : ∀ c ∈ w, isPlain c = true) (s : Text) :
    rangeCommas none (w ++ s) = rangeCommas none s := by
  induction w with
  | nil => rfl
  | cons c w ih =>
      obtain ⟨hc, hw⟩ := List.forall_mem_cons.mp h
      have hparen : c ≠ '(' := by
        rintro rfl
        simp [isPlain] at hc
      rw [List.cons_append, rangeCommas, if_neg hparen, ih hw]

/-- A text of which nothing plain is commented out. -/
theorem closed_of_code {v : Text} (hv : ∀ c ∈ v, isPlain c = true)
    (h : ∀ rest, code (w ++ rest) = v ++ code rest) : Closed w ∧ code w = v ∧ commas w = [] := by
  have hcode : code w = v := by
    have happend := h []
    rwa [List.append_nil, code, code, uncomment, List.append_nil] at happend
  have hcommas : commas w = [] := by
    have happend := rangeCommas_of_plain hv []
    rwa [List.append_nil, ← hcode, ← commas, rangeCommas] at happend
  refine ⟨⟨fun rest => ?_, fun s => ?_⟩, hcode, hcommas⟩
  · rw [h, hcode]
  · rw [hcode, rangeCommas_of_plain hv, hcommas, List.nil_append]

theorem closed_of_plain (h : ∀ c ∈ w, isPlain c = true) : Closed w ∧ code w = w ∧ commas w = [] :=
  closed_of_code h (code_append_of_plain h)

end Scan

section Agree

variable {α β : Type}

/-- How the grammar and the dialect of the parser agree on the texts of a production. The
tokens that the value keeps are `tokens`; those before the production are `before`. -/
structure Agree (before : List Token) (Ld Lp : Language Token α) (tokens : α → List Token) :
    Prop where
  closed : ∀ w ts a, Lp w ts a → Closed w
  closes_le : ∀ w ts a, Lp w ts a → closes w ≤ opens w
  commas_pos : ∀ w ts a, Lp w ts a → ∀ n ∈ commas w, 1 ≤ n
  documented : ∀ w ts a, Lp w ts a → opens w = closes w → Ld w ts a
  kept : ∀ w ts a, Lp w ts a → ∃ ks, tokens a = before ++ ks ∧
    ts.length = ks.length + ((commas w).map (· - 1)).sum ∧ ((∀ n ∈ commas w, n ≤ 1) → ts = ks)
  closed' : ∀ w ts a, Ld w ts a → Closed w
  opens_eq : ∀ w ts a, Ld w ts a → opens w = closes w
  parsed : ∀ w ts a, Ld w ts a → (∀ n ∈ commas w, 1 ≤ n) → Lp w ts a

namespace Agree

variable {before : List Token} {Ld Lp L : Language Token α} {tokens : α → List Token}
  {Md Mp : α → Language Token β} {tokens' : β → List Token}

theorem bind (h : Agree [] Ld Lp tokens)
    (h' : ∀ a, Agree (before ++ tokens a) (Md a) (Mp a) tokens') :
    Agree before (Ld >>= Md) (Lp >>= Mp) tokens' where
  closed := by
    rintro w ts b ⟨w₁, w₂, ts₁, ts₂, a, rfl, rfl, hL, hM⟩
    exact (h.closed _ _ _ hL).append ((h' a).closed _ _ _ hM)
  closes_le := by
    rintro w ts b ⟨w₁, w₂, ts₁, ts₂, a, rfl, rfl, hL, hM⟩
    have hclosed := h.closed _ _ _ hL
    rw [hclosed.opens_append, hclosed.closes_append]
    exact Nat.add_le_add (h.closes_le _ _ _ hL) ((h' a).closes_le _ _ _ hM)
  commas_pos := by
    rintro w ts b ⟨w₁, w₂, ts₁, ts₂, a, rfl, rfl, hL, hM⟩ n hn
    rw [(h.closed _ _ _ hL).commas_append'] at hn
    obtain hn | hn := List.mem_append.mp hn
    · exact h.commas_pos _ _ _ hL n hn
    · exact (h' a).commas_pos _ _ _ hM n hn
  documented := by
    rintro w ts b ⟨w₁, w₂, ts₁, ts₂, a, rfl, rfl, hL, hM⟩ heq
    have hclosed := h.closed _ _ _ hL
    have hle := h.closes_le _ _ _ hL
    have hle' := (h' a).closes_le _ _ _ hM
    rw [hclosed.opens_append, hclosed.closes_append] at heq
    exact bind_intro (h.documented _ _ _ hL (by omega)) ((h' a).documented _ _ _ hM (by omega))
  kept := by
    rintro w ts b ⟨w₁, w₂, ts₁, ts₂, a, rfl, rfl, hL, hM⟩
    obtain ⟨ks₁, hks₁, hlen₁, hts₁⟩ := h.kept _ _ _ hL
    obtain ⟨ks₂, hks₂, hlen₂, hts₂⟩ := (h' a).kept _ _ _ hM
    rw [List.nil_append] at hks₁
    have hcommas : commas (w₁ ++ w₂) = commas w₁ ++ commas w₂ :=
      (h.closed _ _ _ hL).commas_append'
    refine ⟨ks₁ ++ ks₂, by rw [hks₂, hks₁, List.append_assoc], ?_, fun hle => ?_⟩
    · rw [hcommas, List.map_append, List.sum_append, List.length_append, List.length_append]
      omega
    · rw [hcommas] at hle
      rw [hts₁ fun n hn => hle n (List.mem_append_left _ hn),
        hts₂ fun n hn => hle n (List.mem_append_right _ hn)]
  closed' := by
    rintro w ts b ⟨w₁, w₂, ts₁, ts₂, a, rfl, rfl, hL, hM⟩
    exact (h.closed' _ _ _ hL).append ((h' a).closed' _ _ _ hM)
  opens_eq := by
    rintro w ts b ⟨w₁, w₂, ts₁, ts₂, a, rfl, rfl, hL, hM⟩
    have hclosed := h.closed' _ _ _ hL
    rw [hclosed.opens_append, hclosed.closes_append, h.opens_eq _ _ _ hL,
      (h' a).opens_eq _ _ _ hM]
  parsed := by
    rintro w ts b ⟨w₁, w₂, ts₁, ts₂, a, rfl, rfl, hL, hM⟩ hpos
    rw [(h.closed' _ _ _ hL).commas_append'] at hpos
    exact bind_intro (h.parsed _ _ _ hL fun n hn => hpos n (List.mem_append_left _ hn))
      ((h' a).parsed _ _ _ hM fun n hn => hpos n (List.mem_append_right _ hn))

/-- A production that both have, without comments or brackets, whose tokens are kept. -/
theorem same (hL : ∀ w ts a, L w ts a → Closed w ∧ opens w = closes w ∧ commas w = [] ∧
    tokens a = before ++ ts) : Agree before L L tokens where
  closed w ts a h := (hL w ts a h).1
  closes_le w ts a h := (hL w ts a h).2.1.ge
  commas_pos w ts a h n hn := by
    rw [(hL w ts a h).2.2.1] at hn
    simp at hn
  documented _ _ _ h _ := h
  kept w ts a h := ⟨ts, (hL w ts a h).2.2.2, by simp [(hL w ts a h).2.2.1], fun _ => rfl⟩
  closed' w ts a h := (hL w ts a h).1
  opens_eq w ts a h := (hL w ts a h).2.1
  parsed _ _ _ h _ := h

theorem pure {a : α} (ha : tokens a = before) : Agree before (pure a) (pure a) tokens := by
  refine .same fun w ts b h => ?_
  obtain ⟨rfl, rfl, rfl⟩ := h
  exact ⟨(closed_of_plain (by simp)).1, rfl, rfl, by rw [ha, List.append_nil]⟩

theorem orElse {Ld' Lp' : Language Token α} (h : Agree before Ld Lp tokens)
    (h' : Agree before Ld' Lp' tokens) : Agree before (Ld <|> Ld') (Lp <|> Lp') tokens where
  closed w ts a := fun hL => hL.elim (h.closed w ts a) (h'.closed w ts a)
  closes_le w ts a := fun hL => hL.elim (h.closes_le w ts a) (h'.closes_le w ts a)
  commas_pos w ts a := fun hL => hL.elim (h.commas_pos w ts a) (h'.commas_pos w ts a)
  documented w ts a := fun hL heq => hL.imp (fun hL => h.documented w ts a hL heq)
    fun hL => h'.documented w ts a hL heq
  kept w ts a := fun hL => hL.elim (h.kept w ts a) (h'.kept w ts a)
  closed' w ts a := fun hL => hL.elim (h.closed' w ts a) (h'.closed' w ts a)
  opens_eq w ts a := fun hL => hL.elim (h.opens_eq w ts a) (h'.opens_eq w ts a)
  parsed w ts a := fun hL hpos => hL.imp (fun hL => h.parsed w ts a hL hpos)
    fun hL => h'.parsed w ts a hL hpos

theorem empty : Agree before (Language.empty : Language Token α) Language.empty tokens :=
  .same fun _ _ _ h => h.elim

theorem upTo (h : Agree [] Ld Lp tokens) (n : ℕ) :
    Agree [] (Language.upTo Ld n) (Language.upTo Lp n) (List.flatMap tokens) := by
  induction n with
  | zero => exact .pure rfl
  | succ n ih => exact .orElse (.pure rfl) (.bind h fun a => .bind ih fun as => .pure (by simp))

/-- Languages with the same derivations. -/
theorem of_iff {Ld' Lp' : Language Token α} (h : Agree before Ld Lp tokens)
    (hLd : ∀ w ts a, Ld' w ts a ↔ Ld w ts a) (hLp : ∀ w ts a, Lp' w ts a ↔ Lp w ts a) :
    Agree before Ld' Lp' tokens := by
  have hd : Ld' = Ld := funext fun w => funext fun ts => funext fun a => propext (hLd w ts a)
  have hp : Lp' = Lp := funext fun w => funext fun ts => funext fun a => propext (hLp w ts a)
  rwa [hd, hp]

theorem star (h : Agree [] Ld Lp tokens) :
    Agree [] (Language.star Ld) (Language.star Lp) (List.flatMap tokens) where
  closed w ts as hL := (h.upTo as.length).closed w ts as (upTo_of_star hL)
  closes_le w ts as hL := (h.upTo as.length).closes_le w ts as (upTo_of_star hL)
  commas_pos w ts as hL := (h.upTo as.length).commas_pos w ts as (upTo_of_star hL)
  documented w ts as hL heq := star_of_upTo
    ((h.upTo as.length).documented w ts as (upTo_of_star hL) heq)
  kept w ts as hL := (h.upTo as.length).kept w ts as (upTo_of_star hL)
  closed' w ts as hL := (h.upTo as.length).closed' w ts as (upTo_of_star hL)
  opens_eq w ts as hL := (h.upTo as.length).opens_eq w ts as (upTo_of_star hL)
  parsed w ts as hL hpos := star_of_upTo
    ((h.upTo as.length).parsed w ts as (upTo_of_star hL) hpos)

theorem opt (h : Agree [] Ld Lp tokens) :
    Agree [] (Language.opt Ld) (Language.opt Lp) fun a => a.toList.flatMap tokens := by
  have hnone : Agree [] (Pure.pure none) (Pure.pure none) fun a : Option α =>
      a.toList.flatMap tokens := .pure rfl
  have hsome : Agree [] (Ld >>= fun a => Pure.pure (some a)) (Lp >>= fun a => Pure.pure (some a))
      fun a : Option α => a.toList.flatMap tokens := .bind h fun _ => .pure (by simp)
  exact (hnone.orElse hsome).of_iff (fun _ _ _ => opt_iff) fun _ _ _ => opt_iff

end Agree

end Agree

section Productions

variable {α : Type}

/-- The value of a production that keeps no token. -/
def noTokens : α → List Token := fun _ => []

def nameTokens (name : Text) : List Token := [.variableName name]

def operatorTokens (op : Text) : List Token := [.operator op]

def constantTokens (expr : IntConstantExpr) : List Token := [.intConstant expr]

theorem agree_of_plain {L : Language Token α} {tokens : α → List Token} (hL : ∀ w ts a, L w ts a →
    (∀ c ∈ w, isPlain c = true) ∧ w.count '[' = w.count ']' ∧ tokens a = ts) :
    Agree [] L L tokens := by
  refine .same fun w ts a h => ?_
  obtain ⟨hplain, hcount, htokens⟩ := hL w ts a h
  obtain ⟨hclosed, hcode, hcommas⟩ := closed_of_plain hplain
  exact ⟨hclosed, by rw [opens, closes, hcode, hcount], hcommas, htokens⟩

theorem agree_lit {string : Text} (h : ∀ c ∈ string, isPlain c = true)
    (hcount : string.count '[' = string.count ']') :
    Agree [] (lit string) (lit string) noTokens := by
  refine agree_of_plain fun w ts a hL => ?_
  obtain ⟨rfl, rfl, rfl⟩ := hL
  exact ⟨h, hcount, rfl⟩

/-- Texts of characters that are neither brackets nor begin a comment or a range. -/
theorem count_of_class {P : Char → Bool} {w : Text} (hw : ∀ c ∈ w, P c = true)
    (hopen : P '[' = false) (hclose : P ']' = false) : w.count '[' = w.count ']' := by
  have hnot {d : Char} (hd : P d = false) : w.count d = 0 :=
    List.count_eq_zero.mpr fun hmem => ne_of_class (hw d hmem) hd rfl
  rw [hnot hopen, hnot hclose]

theorem plain_of_class {P : Char → Bool} {w : Text} (hw : ∀ c ∈ w, P c = true)
    (hhash : P '#' = false) (hparen : P '(' = false) : ∀ c ∈ w, isPlain c = true := by
  intro c hc
  have hhash : c ≠ '#' := ne_of_class (hw c hc) hhash
  have hparen : c ≠ '(' := ne_of_class (hw c hc) hparen
  simp [isPlain, hhash, hparen]

theorem agree_optSpace : Agree [] optSpace optSpace noTokens := by
  refine agree_of_plain fun w ts a hL => ?_
  obtain ⟨rfl, rfl, hw⟩ := hL
  exact ⟨plain_of_class hw (by decide) (by decide), count_of_class hw (by decide) (by decide), rfl⟩

theorem agree_space : Agree [] space space noTokens := by
  refine agree_of_plain fun w ts a hL => ?_
  obtain ⟨-, rfl, -, hw⟩ := space_iff.mp hL
  exact ⟨plain_of_class hw (by decide) (by decide), count_of_class hw (by decide) (by decide), rfl⟩

theorem agree_spaced {L : Language Token Text} {tokens : Text → List Token}
    (hL : Agree [] L L tokens) : Agree [] (spaced L) (spaced L) tokens :=
  .bind agree_optSpace fun _ => .bind hL fun _ => .bind agree_optSpace fun _ =>
    .pure (by simp [noTokens])

theorem agree_variableName : Agree [] variableName variableName nameTokens := by
  refine agree_of_plain fun w ts a hL => ?_
  obtain ⟨rfl, rfl, hname⟩ := variableName_iff.mp hL
  have hw := hname.isLetter
  exact ⟨plain_of_class hw (by decide) (by decide), count_of_class hw (by decide) (by decide), rfl⟩

/-- A letter or a minus. -/
def isConstantChar (c : Char) : Bool := isLetter c || c = '-'

theorem IsIntConstant.isConstantChar {expr : IntConstantExpr} {w : Text}
    (h : IsIntConstant expr w) : ∀ c ∈ w, isConstantChar c = true := by
  intro c hc
  rw [Grammar.isConstantChar, Bool.or_eq_true, decide_eq_true_eq]
  cases expr with
  | numberStringHex value =>
      obtain ⟨rfl, ds, rfl, -, hds⟩ := h
      obtain hc | hc := List.mem_append.mp hc
      · exact Or.inl ((by decide : ∀ c ∈ ['0', 'x'], isLetter c = true) c hc)
      · exact Or.inl (isLetter_of_isHexDigit (hds c hc))
  | numberString value =>
      obtain ⟨rfl, sign, ds, rfl, hsign, -, hds⟩ := h
      obtain hc | hc := List.mem_append.mp hc
      · obtain rfl | rfl := hsign
        · simp at hc
        · exact Or.inr (List.mem_singleton.mp hc)
      · exact Or.inl (isLetter_of_isDigit (hds c hc))

theorem agree_intConstantExpr : Agree [] intConstantExpr intConstantExpr constantTokens := by
  refine agree_of_plain fun w ts a hL => ?_
  obtain ⟨rfl, h⟩ := intConstantExpr_iff.mp hL
  have hw := h.isConstantChar
  exact ⟨plain_of_class hw (by decide) (by decide), count_of_class hw (by decide) (by decide), rfl⟩

theorem agree_operator : Agree [] operator operator operatorTokens := by
  refine agree_of_plain fun w ts a hL => ?_
  obtain ⟨rfl, rfl, hop⟩ := operator_iff.mp hL
  exact ⟨(by decide : ∀ w ∈ operators, ∀ c ∈ w, isPlain c = true) w hop,
    (by decide : ∀ w ∈ operators, w.count '[' = w.count ']') w hop, rfl⟩

theorem agree_cmpOperator : Agree [] cmpOperator cmpOperator operatorTokens := by
  refine agree_of_plain fun w ts a hL => ?_
  obtain ⟨rfl, rfl, hop⟩ := cmpOperator_iff.mp hL
  exact ⟨(by decide : ∀ w ∈ cmpOperators, ∀ c ∈ w, isPlain c = true) w hop,
    (by decide : ∀ w ∈ cmpOperators, w.count '[' = w.count ']') w hop, rfl⟩

theorem agree_spacedLit {c : Char} (hc : isPlain c = true)
    (hcount : [c].count '[' = [c].count ']') :
    Agree [] (spaced (lit [c])) (spaced (lit [c])) noTokens :=
  agree_spaced (agree_lit (by simpa using hc) hcount)

theorem agree_varOrConst : Agree [] varOrConst varOrConst VarOrConst.tokens :=
  .orElse (.bind agree_variableName fun _ => .pure rfl)
    (.bind agree_intConstantExpr fun _ => .pure rfl)

theorem agree_condExpr : Agree [] condExpr condExpr Condition.tokens :=
  .orElse (.bind agree_varOrConst fun _ => .bind (agree_spaced agree_cmpOperator) fun _ =>
    .bind agree_varOrConst fun _ => .pure (by simp [Condition.tokens, operatorTokens]))
    (.bind agree_variableName fun _ => .pure rfl)

theorem agree_nl : Agree [] nl nl noTokens := by
  refine .same fun w ts a hL => ?_
  obtain ⟨rfl, left, comment, right, rfl, hleft, hright, hcomment⟩ := nl_iff.mp ⟨a, hL⟩
  have hspace {v : Text} (hv : ∀ c ∈ v, isSpace c = true) : ∀ c ∈ v, isPlain c = true :=
    plain_of_class hv (by decide) (by decide)
  have hskip (rest : Text) : code (comment ++ '\n' :: rest) = '\n' :: code rest := by
    obtain rfl | ⟨cs, rfl, hcs⟩ := hcomment
    · rfl
    · have hinside : uncomment true (cs ++ '\n' :: rest) = '\n' :: uncomment false rest := by
        clear hL
        induction cs with
        | nil => rfl
        | cons c cs ih =>
            obtain ⟨hc, hcs⟩ := List.forall_mem_cons.mp hcs
            rw [List.cons_append, uncomment, if_neg hc, Bool.true_or, if_pos rfl, ih hcs]
      exact hinside
  have hplain : ∀ c ∈ left ++ '\n' :: right, isPlain c = true := by
    intro c hc
    obtain hc | hc := List.mem_append.mp hc
    · exact hspace hleft c hc
    · obtain rfl | hc := List.mem_cons.mp hc
      · decide
      · exact hspace hright c hc
  obtain ⟨hclosed, hcode, hcommas⟩ := closed_of_code
    (w := left ++ (comment ++ '\n' :: right)) hplain fun rest => by
      simp only [List.append_assoc, List.cons_append]
      rw [code_append_of_plain (hspace hleft), hskip, code_append_of_plain (hspace hright)]
  refine ⟨hclosed, ?_, hcommas, rfl⟩
  rw [opens, closes, hcode, List.count_append, List.count_append, List.count_cons_of_ne (by decide),
    List.count_cons_of_ne (by decide), count_of_class hleft (by decide) (by decide),
    count_of_class hright (by decide) (by decide)]

theorem agree_nls : Agree [] nls nls noTokens := by
  have hplus : Agree [] (plus nl) (plus nl) noTokens :=
    .bind agree_nl fun _ => .bind (.star agree_nl) fun _ => .pure (by simp [noTokens])
  exact .bind hplus fun _ => .pure (by simp [noTokens])

end Productions

section Differences

variable {d : Dialect} {w : Text} {ts : List Token}

/-- The bracket after an index may be missing for the parser. -/
theorem index_iff {expr : IntConstantExpr} : index d w ts expr ↔ ts = [.intConstant expr] ∧
    ∃ c bracket, w = ['['] ++ (c ++ bracket) ∧ IsIntConstant expr c ∧
      (bracket = [']'] ∨ d = .parsed ∧ bracket = []) := by
  constructor
  · rintro ⟨_, w₂, ts₁, ts₂, _, rfl, rfl, ⟨rfl, rfl, rfl⟩, c, w₄, ts₃, ts₄, expr', rfl, rfl, hexpr,
      bracket, w₆, ts₅, ts₆, value, rfl, rfl, hclosing, rfl, rfl, rfl⟩
    obtain ⟨rfl, hc⟩ := intConstantExpr_iff.mp hexpr
    cases d with
    | documented =>
        obtain ⟨w₁, w₂, ts₁, ts₂, _, rfl, rfl, ⟨rfl, rfl, rfl⟩, rfl, rfl, rfl⟩ := hclosing
        exact ⟨rfl, c, [']'], by simp, hc, Or.inl rfl⟩
    | parsed =>
        cases value with
        | none =>
            obtain ⟨rfl, rfl⟩ := hclosing
            exact ⟨rfl, c, [], by simp, hc, Or.inr ⟨rfl, rfl⟩⟩
        | some value =>
            obtain ⟨rfl, rfl, rfl⟩ := hclosing
            exact ⟨rfl, c, [']'], by simp, hc, Or.inl rfl⟩
  · rintro ⟨rfl, c, bracket, rfl, hc, hbracket⟩
    have hclosing : ∃ value, closing d bracket [] value := by
      obtain rfl | ⟨rfl, rfl⟩ := hbracket
      · cases d with
        | documented => exact ⟨_, map_intro (derived_lit _) _⟩
        | parsed => exact ⟨some [']'], derived_lit _⟩
      · exact ⟨none, rfl, rfl⟩
    obtain ⟨value, hclosing⟩ := hclosing
    exact bind_first (derived_lit _) (bind_intro (intConstantExpr_iff.mpr ⟨rfl, hc⟩)
      (map_intro hclosing fun _ => expr))

/-- The counts of brackets in an index. -/
theorem index_counts {expr : IntConstantExpr} {c bracket : Text} (hc : IsIntConstant expr c)
    (hbracket : bracket = [']'] ∨ d = .parsed ∧ bracket = []) :
    Closed (['['] ++ (c ++ bracket)) ∧ commas (['['] ++ (c ++ bracket)) = [] ∧
      opens (['['] ++ (c ++ bracket)) =
        closes (['['] ++ (c ++ bracket)) + (1 - bracket.length) := by
  have hw := hc.isConstantChar
  have hplain : ∀ x ∈ ['['] ++ (c ++ bracket), isPlain x = true := by
    intro x hx
    obtain hx | hx := List.mem_append.mp hx
    · rw [List.mem_singleton.mp hx]
      decide
    · obtain hx | hx := List.mem_append.mp hx
      · exact plain_of_class hw (by decide) (by decide) x hx
      · obtain rfl | ⟨-, rfl⟩ := hbracket
        · rw [List.mem_singleton.mp hx]
          decide
        · simp at hx
  obtain ⟨hclosed, hcode, hcommas⟩ := closed_of_plain hplain
  have hcount := count_of_class hw (by decide) (by decide)
  refine ⟨hclosed, hcommas, ?_⟩
  rw [opens, closes, hcode]
  simp only [List.count_append]
  obtain rfl | ⟨-, rfl⟩ := hbracket
  · simp [hcount, Nat.add_comm]
  · simp [hcount, Nat.add_comm]

theorem agree_index : Agree [] (index .documented) (index .parsed) constantTokens where
  closed w ts expr hL := by
    obtain ⟨rfl, c, bracket, rfl, hc, hbracket⟩ := index_iff.mp hL
    exact (index_counts hc hbracket).1
  closes_le w ts expr hL := by
    obtain ⟨rfl, c, bracket, rfl, hc, hbracket⟩ := index_iff.mp hL
    rw [(index_counts hc hbracket).2.2]
    exact Nat.le_add_right _ _
  commas_pos w ts expr hL n hn := by
    obtain ⟨rfl, c, bracket, rfl, hc, hbracket⟩ := index_iff.mp hL
    rw [(index_counts hc hbracket).2.1] at hn
    simp at hn
  documented w ts expr hL heq := by
    obtain ⟨rfl, c, bracket, rfl, hc, hbracket⟩ := index_iff.mp hL
    rw [(index_counts hc hbracket).2.2] at heq
    obtain rfl | ⟨-, rfl⟩ := hbracket
    · exact index_iff.mpr ⟨rfl, c, [']'], rfl, hc, Or.inl rfl⟩
    · simp at heq
  kept w ts expr hL := by
    obtain ⟨rfl, c, bracket, rfl, hc, hbracket⟩ := index_iff.mp hL
    exact ⟨_, rfl, by rw [(index_counts hc hbracket).2.1]; rfl, fun _ => rfl⟩
  closed' w ts expr hL := by
    obtain ⟨rfl, c, bracket, rfl, hc, hbracket⟩ := index_iff.mp hL
    exact (index_counts hc hbracket).1
  opens_eq w ts expr hL := by
    obtain ⟨rfl, c, bracket, rfl, hc, rfl | ⟨hd, -⟩⟩ := index_iff.mp hL
    · exact (index_counts (d := .documented) hc (Or.inl rfl)).2.2
    · simp at hd
  parsed w ts expr hL _ := by
    obtain ⟨rfl, c, bracket, rfl, hc, rfl | ⟨hd, -⟩⟩ := index_iff.mp hL
    · exact index_iff.mpr ⟨rfl, c, [']'], rfl, hc, Or.inl rfl⟩
    · simp at hd

/-- Between parentheses only the commas are counted. -/
theorem rangeCommas_inside {x : Text} (hx : ∀ c ∈ x, c ≠ ')') (n : ℕ) (s : Text) :
    rangeCommas (some n) (x ++ s) = rangeCommas (some (n + x.count ',')) s := by
  induction x generalizing n with
  | nil => rfl
  | cons c x ih =>
      obtain ⟨hc, hx⟩ := List.forall_mem_cons.mp hx
      rw [List.cons_append, rangeCommas, if_neg hc]
      by_cases hcomma : c = ','
      · rw [if_pos hcomma, ih hx, hcomma, List.count_cons_self]
        congr 2
        omega
      · rw [if_neg hcomma, ih hx, List.count_cons_of_ne hcomma]

/-- A character of the integers of a range. -/
def isRangeChar (c : Char) : Bool := isConstantChar c || isSpace c || c = ','

theorem isRangeChar_of_isConstantChar {c : Char} (h : isConstantChar c = true) :
    isRangeChar c = true := by simp [isRangeChar, h]

theorem isRangeChar_of_isSpace {c : Char} (h : isSpace c = true) : isRangeChar c = true := by
  simp [isRangeChar, h]

theorem count_comma_of_class {P : Char → Bool} {w : Text} (hw : ∀ c ∈ w, P c = true)
    (hcomma : P ',' = false) : w.count ',' = 0 :=
  List.count_eq_zero.mpr fun hmem => ne_of_class (hw ',' hmem) hcomma rfl

/-- The integers of a range have a comma each, and nothing that ends the range. -/
theorem star_nextInt_chars {exprs : List IntConstantExpr} (h : star nextInt w ts exprs) :
    (∀ c ∈ w, isRangeChar c = true) ∧ w.count ',' = exprs.length ∧
      ts = exprs.map .intConstant := by
  induction h with
  | nil => exact ⟨List.forall_mem_nil _, rfl, rfl⟩
  | @cons w w' ts ts' expr exprs hnext _ ih =>
      obtain ⟨hw', hcount, rfl⟩ := ih
      obtain ⟨rfl, left, right, c, last, rfl, hleft, hright, hlast, hc⟩ := nextInt_iff.mp hnext
      have hconstant := hc.isConstantChar
      refine ⟨fun x hx => ?_, ?_, rfl⟩
      · simp only [List.mem_append, List.mem_cons] at hx
        obtain (hx | rfl | hx | hx | hx) | hx := hx
        · exact isRangeChar_of_isSpace (hleft x hx)
        · decide
        · exact isRangeChar_of_isSpace (hright x hx)
        · exact isRangeChar_of_isConstantChar (hconstant x hx)
        · exact isRangeChar_of_isSpace (hlast x hx)
        · exact hw' x hx
      · simp only [List.count_append, List.count_cons_self, List.length_cons]
        rw [count_comma_of_class hleft (by decide), count_comma_of_class hright (by decide),
          count_comma_of_class hconstant (by decide), count_comma_of_class hlast (by decide),
          hcount]
        omega

theorem otherInts_iff {exprs : List IntConstantExpr} : otherInts d w ts exprs ↔
    star nextInt w ts exprs ∧ (d = .parsed → exprs ≠ []) := by
  cases d with
  | documented => exact ⟨fun h => ⟨h, by simp⟩, fun h => h.1⟩
  | parsed =>
      constructor
      · rintro ⟨w₁, w₂, ts₁, ts₂, expr, rfl, rfl, hnext, w₃, w₄, ts₃, ts₄, others, rfl, rfl, hstar,
          rfl, rfl, rfl⟩
        rw [List.append_nil, List.append_nil]
        exact ⟨.cons hnext hstar, fun _ => List.cons_ne_nil _ _⟩
      · rintro ⟨hstar, hne⟩
        cases hstar with
        | nil => exact absurd rfl (hne rfl)
        | cons hnext hstar => exact bind_intro hnext (map_intro hstar _)

/-- A range by its text and its integers. -/
theorem tidRange_iff {range : TidRange} : tidRange d w ts range ↔ ∃ inside others,
    w = rangeText ++ (inside ++ [')']) ∧ (∀ c ∈ inside, isRangeChar c = true) ∧
      inside.count ',' = others.length ∧ ts = .intConstant range.start :: others.map .intConstant ∧
        range.stop = others.headD range.start ∧ (d = .parsed → others ≠ []) ∧
          ∀ d', (d' = .parsed → others ≠ []) → tidRange d' w ts range := by
  constructor
  · rintro ⟨_, w₂, ts₁, ts₂, _, rfl, rfl, ⟨rfl, rfl, rfl⟩, first, w₄, ts₃, ts₄, _, rfl, rfl,
      ⟨rfl, rfl, hfirst⟩, c, w₆, ts₅, ts₆, start, rfl, rfl, hstart, last, w₈, ts₇, ts₈, _, rfl, rfl,
      ⟨rfl, rfl, hlast⟩, w₉, w₁₀, ts₉, ts₁₀, others, rfl, rfl, hothers, _, w₁₂, ts₁₁, ts₁₂, _, rfl,
      rfl, ⟨rfl, rfl, rfl⟩, rfl, rfl, rfl⟩
    obtain ⟨rfl, hc⟩ := intConstantExpr_iff.mp hstart
    obtain ⟨hstar, hne⟩ := otherInts_iff.mp hothers
    obtain ⟨hw₉, hcount, hts₉⟩ := star_nextInt_chars hstar
    have hconstant := hc.isConstantChar
    refine ⟨first ++ (c ++ (last ++ w₉)), others, by simp, fun x hx => ?_, ?_, by simp [hts₉], rfl,
      hne, fun d' hd' => ?_⟩
    · simp only [List.mem_append] at hx
      obtain hx | hx | hx | hx := hx
      · exact isRangeChar_of_isSpace (hfirst x hx)
      · exact isRangeChar_of_isConstantChar (hconstant x hx)
      · exact isRangeChar_of_isSpace (hlast x hx)
      · exact hw₉ x hx
    · simp only [List.count_append]
      rw [count_comma_of_class hfirst (by decide), count_comma_of_class hconstant (by decide),
        count_comma_of_class hlast (by decide), hcount]
      omega
    · exact bind_intro (derived_lit _) (bind_intro ⟨rfl, rfl, hfirst⟩ (bind_intro hstart
        (bind_intro ⟨rfl, rfl, hlast⟩ (bind_intro (otherInts_iff.mpr ⟨hstar, hd'⟩)
          (map_intro (derived_lit _) _)))))
  · rintro ⟨inside, others, -, -, -, -, -, hne, h⟩
    exact h d hne

/-- A range is closed, and its commas are counted. -/
theorem closed_of_range {inside : Text} (h : ∀ c ∈ inside, isRangeChar c = true) :
    Closed (rangeText ++ (inside ++ [')'])) ∧
      commas (rangeText ++ (inside ++ [')'])) = [inside.count ','] ∧
        opens (rangeText ++ (inside ++ [')'])) = closes (rangeText ++ (inside ++ [')'])) := by
  have hne : ∀ c ∈ rangeText ++ (inside ++ [')']), c ≠ '#' := by
    intro c hc
    simp only [List.mem_append, List.mem_singleton] at hc
    obtain hc | hc | rfl := hc
    · exact (by decide : ∀ c ∈ rangeText, c ≠ '#') c hc
    · exact ne_of_class (h c hc) (by decide)
    · decide
  have happend := code_append_of_ne hne
  have hcode : code (rangeText ++ (inside ++ [')'])) = rangeText ++ (inside ++ [')']) := by
    have hnil := happend []
    rwa [List.append_nil, code, code, uncomment, List.append_nil] at hnil
  have hscan (s : Text) : rangeCommas none (rangeText ++ (inside ++ [')']) ++ s) =
      inside.count ',' :: rangeCommas none s := by
    have hopen : rangeCommas none (rangeText ++ (inside ++ ([')'] ++ s))) =
        rangeCommas (some 0) (inside ++ ([')'] ++ s)) := rfl
    rw [List.append_assoc, List.append_assoc, hopen,
      rangeCommas_inside (fun c hc => ne_of_class (h c hc) (by decide)), Nat.zero_add]
    rfl
  have hcommas : commas (rangeText ++ (inside ++ [')'])) = [inside.count ','] := by
    have hnil := hscan []
    rwa [List.append_nil, ← hcode, ← commas, rangeCommas] at hnil
  refine ⟨⟨fun rest => ?_, fun s => ?_⟩, hcommas, ?_⟩
  · rw [happend, hcode]
  · rw [hcode, hscan, hcommas]
    rfl
  · rw [opens, closes, hcode, List.count_append, List.count_append, List.count_append,
      List.count_append, count_of_class h (by decide) (by decide)]
    rfl

theorem agree_tidRange : Agree [] (tidRange .documented) (tidRange .parsed) TidRange.tokens where
  closed w ts range hL := by
    obtain ⟨inside, others, rfl, hinside, -⟩ := tidRange_iff.mp hL
    exact (closed_of_range hinside).1
  closes_le w ts range hL := by
    obtain ⟨inside, others, rfl, hinside, -⟩ := tidRange_iff.mp hL
    exact (closed_of_range hinside).2.2.ge
  commas_pos w ts range hL n hn := by
    obtain ⟨inside, others, rfl, hinside, hcount, -, -, hne, -⟩ := tidRange_iff.mp hL
    rw [(closed_of_range hinside).2.1, List.mem_singleton, hcount] at hn
    exact hn ▸ List.length_pos_iff.mpr (hne rfl)
  documented w ts range hL _ := by
    obtain ⟨inside, others, -, -, -, -, -, -, h⟩ := tidRange_iff.mp hL
    exact h .documented (by simp)
  kept w ts range hL := by
    obtain ⟨inside, others, rfl, hinside, hcount, rfl, hstop, hne, -⟩ := tidRange_iff.mp hL
    obtain ⟨stop, others, rfl⟩ := List.exists_cons_of_ne_nil (hne rfl)
    refine ⟨range.tokens, rfl, ?_, fun hle => ?_⟩
    · rw [(closed_of_range hinside).2.1, hcount]
      simp only [TidRange.tokens, List.length_cons, List.length_map, List.length_nil, List.map_cons,
        List.map_nil, List.sum_cons, List.sum_nil]
      omega
    · have hle := hle _ (by
        rw [(closed_of_range hinside).2.1, hcount]
        exact List.mem_singleton_self _)
      obtain rfl : others = [] := by simpa using hle
      rw [List.headD_cons] at hstop
      rw [TidRange.tokens, hstop]
      rfl
  closed' w ts range hL := by
    obtain ⟨inside, others, rfl, hinside, -⟩ := tidRange_iff.mp hL
    exact (closed_of_range hinside).1
  opens_eq w ts range hL := by
    obtain ⟨inside, others, rfl, hinside, -⟩ := tidRange_iff.mp hL
    exact (closed_of_range hinside).2.2
  parsed w ts range hL hpos := by
    obtain ⟨inside, others, rfl, hinside, hcount, -, -, -, h⟩ := tidRange_iff.mp hL
    refine h .parsed fun _ => ?_
    rw [(closed_of_range hinside).2.1, hcount] at hpos
    exact List.length_pos_iff.mp (hpos _ (List.mem_singleton_self _))

end Differences

end Explore.Takehome.Parse.Grammar
