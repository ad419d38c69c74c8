import Explore.Takehome.ParserTokens

/-!
# The parser reads all of its dialect

An ordered choice does not go back, so for every alternative the ones before it have to
reject its text. Most do at the first character after an operand. `a << b` begins like a
comparison and `a == b` is one, and both are left when no `?` follows; `a * b` is left by
the multiply-add when no `+` follows.
-/

namespace Explore.Takehome.Parse.Grammar

open Peg Peg.Language Parse

section Begin

theorem begins_operand : Begins varOrConst (Avoids fun c => !isOperandStart c) := by
  intro w ts a rest h
  obtain ⟨c, t, rfl, hc⟩ := varOrConst_cons h
  simpa using hc

theorem begins_name : Begins variableName (Avoids fun c => !isSmall c) := by
  intro w ts a rest h
  obtain ⟨rfl, -, hname⟩ := variableName_iff.mp h
  obtain ⟨c, t, rfl, hc⟩ := hname.exists_cons
  simpa using hc

theorem begins_constant : Begins intConstantExpr (Avoids fun c => !isNumberStart c) := by
  intro w ts a rest h
  obtain ⟨c, t, rfl, hc⟩ := (intConstantExpr_iff.mp h).2.exists_cons
  simpa using hc

theorem begins_lit (c : Char) (cs : Text) :
    Begins (lit (c :: cs) : Language Token Text) fun s => ∃ t, s = c :: t := by
  rintro w ts a rest ⟨rfl, -, -⟩
  exact ⟨cs ++ rest, rfl⟩

/-- Texts whose next character after spaces is `c`. -/
def Next (c : Char) (s : Text) : Prop :=
  ∃ before t, s = before ++ c :: t ∧ ∀ d ∈ before, isSpace d = true

theorem begins_spaced_lit (c : Char) : Begins (spaced (lit [c])) (Next c) := by
  intro w ts x rest h
  obtain ⟨-, -, before, after, rfl, hbefore, -⟩ := spaced_lit_iff.mp h
  exact ⟨before, after ++ rest, by simp, hbefore⟩

variable {P : Char → Bool} {c : Char} {s : Text}

theorem Next.avoids (h : Next c s) (hspace : P ' ' = false) (hc : P c = false) : Avoids P s := by
  obtain ⟨before, t, rfl, hbefore⟩ := h
  rw [avoids_spaces hbefore hspace]
  exact Or.inr (avoids_cons.mpr hc)

theorem Next.dropWhile_eq (h : Next c s) (hc : isSpace c = false) :
    ∃ t, s.dropWhile isSpace = c :: t := by
  obtain ⟨before, t, rfl, hbefore⟩ := h
  rw [dropWhile_spaces hbefore, List.dropWhile_cons_of_neg (by simp [hc])]
  exact ⟨t, rfl⟩

theorem Next.avoids_dropWhile (h : Next c s) (hc : isSpace c = false) (hP : P c = false) :
    Avoids P (s.dropWhile isSpace) := by
  obtain ⟨t, ht⟩ := h.dropWhile_eq hc
  rw [ht, avoids_cons]
  exact hP

theorem Avoids.of_not (h : Avoids (fun c => !P c) s) {Q : Char → Bool}
    (hPQ : ∀ c, P c = true → Q c = false) : Avoids Q s := by
  intro c hc
  exact hPQ c (by simpa using h c hc)

end Begin

section Classes

variable {c : Char}

theorem isLetter_of_isSmall (h : isSmall c = true) : isLetter c = true := by simp [isLetter, h]

theorem ne_of_isOperandStart {d : Char} (h : isOperandStart c = true)
    (hd : isOperandStart d = false) : c ≠ d := ne_of_class h hd

theorem isSpace_of_isOperandStart (h : isOperandStart c = true) : isSpace c = false := by
  simpa [isSpace] using ne_of_isOperandStart h (by decide)

theorem begins_operand_unspaced : Begins varOrConst Unspaced :=
  begins_operand.mono fun _ h => h.of_not fun _ => isSpace_of_isOperandStart

theorem isOperandStart_of_isSmall (h : isSmall c = true) : isOperandStart c = true := by
  simp [isOperandStart, h]

theorem begins_name_unspaced : Begins variableName Unspaced :=
  begins_name.mono fun _ h => h.of_not fun _ hc =>
    isSpace_of_isOperandStart (isOperandStart_of_isSmall hc)

theorem begins_spaced_lit_delimited {c : Char} (hc : isLetter c = false) :
    Begins (spaced (lit [c])) Delimited :=
  (begins_spaced_lit c).mono fun _ h => h.avoids (by decide) hc

end Classes

section Values

variable {w rest t : Text} {ts : List Token} {operand : VarOrConst}

/-- The condition of a select reads at most the operand, if no comparison follows. -/
theorem condExpr_operand (h : varOrConst w ts operand) (ht : Delimited t)
    (hcmp : (litCmpOp >>= fun op => Parse.varOrConst >>= fun right =>
      pure (Condition.condExpr operand op right)) t = none) :
    Parse.condExpr (w ++ t) = none ∨ ∃ cond, Parse.condExpr (w ++ t) = some (cond, t) := by
  have hfirst : (Parse.varOrConst >>= fun left => litCmpOp >>= fun op =>
      Parse.varOrConst >>= fun right => pure (Condition.condExpr left op right)) (w ++ t) = none :=
    (Parser.bind_some (complete_varOrConst w ts operand t h ht)).trans hcmp
  obtain ⟨name, rfl, hname⟩ | ⟨expr, rfl, hexpr⟩ := varOrConst_iff.mp h
  · exact Or.inr ⟨.name name, (Parser.orElse_none hfirst).trans
      (Parser.bind_some (complete_variableName w ts name t hname ht))⟩
  · refine Or.inl ((Parser.orElse_none hfirst).trans (Parser.bind_none (variableName_none ?_)))
    exact (begins_constant w ts expr t hexpr).of_not fun _ => isSmall_of_isNumberStart

theorem litCmpOp_none (h : Avoids (fun c => c = '<' || c = '=') (t.dropWhile isSpace)) :
    litCmpOp t = none := spaced_none (cmpOperator_none h)

theorem selectExpr_none_of_operand (h : varOrConst w ts operand) (ht : Delimited t)
    (hcmp : (litCmpOp >>= fun op => Parse.varOrConst >>= fun right =>
      pure (Condition.condExpr operand op right)) t = none)
    (hqu : Avoids (fun c => c = '?') (t.dropWhile isSpace)) :
    Parse.selectExpr (w ++ t) = none := by
  obtain hcond | ⟨cond, hcond⟩ := condExpr_operand h ht hcmp
  · exact Parser.bind_none hcond
  · exact (Parser.bind_some hcond).trans (Parser.bind_none (spaced_lit_none hqu))

/-- What may follow a condition. -/
def AfterCondition (rest : Text) : Prop :=
  Delimited rest ∧ Avoids (fun c => c = '<' || c = '=') (rest.dropWhile isSpace)

theorem complete_litCmpOp : Complete litCmpOp (spaced cmpOperator) Unspaced := by
  refine complete_spaced complete_cmpOperator fun w ts x rest h => ?_
  obtain ⟨rfl, -, hop⟩ := cmpOperator_iff.mp h
  simp only [cmpOperators, List.mem_cons, List.not_mem_nil, or_false] at hop
  obtain rfl | rfl := hop <;> simp [isSpace]

theorem begins_litCmpOp : Begins (spaced cmpOperator) Delimited := by
  intro w ts x rest h
  obtain ⟨before, m, after, rfl, hbefore, -, hL⟩ := spaced_iff.mp h
  obtain ⟨rfl, -, hop⟩ := cmpOperator_iff.mp hL
  simp only [List.append_assoc]
  rw [Delimited, avoids_spaces hbefore (by decide)]
  simp only [cmpOperators, List.mem_cons, List.not_mem_nil, or_false] at hop
  obtain rfl | rfl := hop
  · exact Or.inr (avoids_cons.mpr (by decide))
  · exact Or.inr (avoids_cons.mpr (by decide))

theorem complete_condExpr : Complete Parse.condExpr condExpr AfterCondition := by
  refine .orElse ?_ ?_ fun w ts cond rest h hrest => ?_
  · exact .bindBegins complete_varOrConst (fun _ => .bindBegins complete_litCmpOp
      (fun _ => (complete_varOrConst.mono fun _ h => h.1).bindPure _)
      fun _ => begins_operand_unspaced.bind) fun _ => begins_litCmpOp.bind
  · exact (complete_variableName.mono fun _ h => h.1).bindPure _
  · obtain ⟨w₁, w₂, ts₁, ts₂, name, rfl, rfl, h, rfl, rfl, rfl⟩ := h
    have hname : varOrConst w₁ ts₁ (.name name) := varOrConst_iff.mpr (Or.inl ⟨name, rfl, h⟩)
    rw [List.append_nil]
    exact (Parser.bind_some (complete_varOrConst _ _ _ _ hname hrest.1)).trans
      (Parser.bind_none (litCmpOp_none hrest.2))

theorem complete_selectExpr : Complete Parse.selectExpr selectExpr Delimited := by
  refine .bindBegins complete_condExpr (fun _ => .bindBegins (complete_spaced_lit (by decide))
    (fun _ => .bindBegins complete_varOrConst (fun _ => .bindBegins
      (complete_spaced_lit (by decide)) (fun _ => complete_varOrConst.bindPure _)
      fun _ => begins_operand_unspaced.bind) fun _ =>
        (begins_spaced_lit_delimited (by decide)).bind)
    fun _ => begins_operand_unspaced.bind) fun _ => Begins.bind ?_
  exact (begins_spaced_lit '?').mono fun _ h =>
    ⟨h.avoids (by decide) (by decide), h.avoids_dropWhile (by decide) (by decide)⟩

theorem complete_multAddExpr : Complete Parse.multAddExpr multAddExpr Delimited :=
  .bindBegins complete_variableName (fun _ => .bindBegins (complete_spaced_lit (by decide))
    (fun _ => .bindBegins complete_varOrConst (fun _ => .bindBegins
      (complete_spaced_lit (by decide)) (fun _ => complete_varOrConst.bindPure _)
      fun _ => begins_operand_unspaced.bind) fun _ =>
        (begins_spaced_lit_delimited (by decide)).bind)
    fun _ => begins_operand_unspaced.bind) fun _ => (begins_spaced_lit_delimited (by decide)).bind

theorem complete_litOp : Complete litOp (spaced operator) Unspaced := by
  refine complete_spaced complete_operator fun w ts x rest h => ?_
  obtain ⟨rfl, -, hop⟩ := operator_iff.mp h
  simp only [operators, List.mem_cons, List.not_mem_nil, or_false] at hop
  obtain rfl | rfl | rfl | rfl | rfl | rfl | rfl | rfl := hop <;> simp [isSpace]

theorem begins_litOp : Begins (spaced operator) Delimited := by
  intro w ts x rest h
  obtain ⟨before, m, after, rfl, hbefore, -, hL⟩ := spaced_iff.mp h
  obtain ⟨rfl, -, hop⟩ := operator_iff.mp hL
  simp only [List.append_assoc]
  rw [Delimited, avoids_spaces hbefore (by decide)]
  simp only [operators, List.mem_cons, List.not_mem_nil, or_false] at hop
  obtain rfl | rfl | rfl | rfl | rfl | rfl | rfl | rfl := hop <;>
    exact Or.inr (avoids_cons.mpr (by decide))

theorem complete_binOpExpr : Complete Parse.binOpExpr binOpExpr Delimited :=
  .bindBegins complete_varOrConst (fun _ => .bindBegins complete_litOp
    (fun _ => complete_varOrConst.bindPure _) fun _ => begins_operand_unspaced.bind)
    fun _ => begins_litOp.bind

/-- An operand that another kind of expression follows. -/
theorem multAddExpr_none_of_operand (h : varOrConst w ts operand) (ht : Delimited t)
    (hmult : Avoids (fun c => c = '*') (t.dropWhile isSpace)) :
    Parse.multAddExpr (w ++ t) = none := by
  obtain ⟨name, rfl, hname⟩ | ⟨expr, rfl, hexpr⟩ := varOrConst_iff.mp h
  · exact (Parser.bind_some (complete_variableName w ts name t hname ht)).trans
      (Parser.bind_none (spaced_lit_none hmult))
  · refine Parser.bind_none (variableName_none ?_)
    exact (begins_constant w ts expr t hexpr).of_not fun _ => isSmall_of_isNumberStart

theorem binOpExpr_none_of_operand (h : varOrConst w ts operand) (ht : Delimited t)
    (hop : Avoids isOperatorStart (t.dropWhile isSpace)) : Parse.binOpExpr (w ++ t) = none :=
  (Parser.bind_some (complete_varOrConst w ts operand t h ht)).trans
    (Parser.bind_none (spaced_none (operator_none hop)))

/-- What follows an operand that is not part of an operation. -/
def AfterOperand (t : Text) : Prop :=
  Delimited t ∧ Avoids (fun c => isOperatorStart c || c = '?') (t.dropWhile isSpace)

theorem LineEnd.afterOperand (h : LineEnd t) : AfterOperand t :=
  ⟨h.delimited, h.avoids_dropWhile (by decide) (by decide)⟩

theorem operations_none_of_operand (h : varOrConst w ts operand) (ht : AfterOperand t) :
    Parse.selectExpr (w ++ t) = none ∧ Parse.multAddExpr (w ++ t) = none ∧
      Parse.binOpExpr (w ++ t) = none := by
  obtain ⟨hletter, hnext⟩ := ht
  refine ⟨selectExpr_none_of_operand h hletter (Parser.bind_none (litCmpOp_none (hnext.mono ?_)))
    (hnext.mono ?_), multAddExpr_none_of_operand h hletter (hnext.mono ?_),
    binOpExpr_none_of_operand h hletter (hnext.mono ?_)⟩
  · intro c hc
    obtain hc | hc := Bool.or_eq_true _ _ ▸ hc
    · simp [of_decide_eq_true hc, isOperatorStart]
    · simp [of_decide_eq_true hc, isOperatorStart]
  · intro c hc
    simp [of_decide_eq_true hc]
  · intro c hc
    simp [of_decide_eq_true hc, isOperatorStart]
  · intro c hc
    simp [hc]

/-- A sum of a product is not a select. -/
theorem selectExpr_none_of_multAdd {value : ValueExpr} (h : multAddExpr w ts value) :
    Parse.selectExpr (w ++ rest) = none := by
  obtain ⟨w₁, w₂, ts₁, ts₂, name, rfl, rfl, hname, h⟩ := h
  have hnext : Next '*' (w₂ ++ rest) := (begins_spaced_lit '*').bind w₂ ts₂ value rest h
  rw [List.append_assoc]
  exact selectExpr_none_of_operand (varOrConst_iff.mpr (Or.inl ⟨name, rfl, hname⟩))
    (hnext.avoids (by decide) (by decide))
    (Parser.bind_none (litCmpOp_none (hnext.avoids_dropWhile (by decide) (by decide))))
    (hnext.avoids_dropWhile (by decide) (by decide))

section BinOp

variable {w₁ w₂ w₃ : Text} {ts₁ ts₂ ts₃ : List Token} {left right : VarOrConst} {op : Text}

/-- An operation other than `==` is not a condition, and `a == b` is one without a `?`. -/
theorem selectExpr_none_of_binOp (hleft : varOrConst w₁ ts₁ left) (hop : spaced operator w₂ ts₂ op)
    (hright : varOrConst w₃ ts₃ right) (hrest : LineEnd rest) :
    Parse.selectExpr (w₁ ++ (w₂ ++ (w₃ ++ rest))) = none := by
  have hdelimited : Delimited (w₂ ++ (w₃ ++ rest)) := begins_litOp w₂ ts₂ op (w₃ ++ rest) hop
  obtain ⟨before, m, after, rfl, hbefore, hafter, hoperator⟩ := spaced_iff.mp hop
  obtain ⟨rfl, -, hmem⟩ := operator_iff.mp hoperator
  have hunspaced : Unspaced (w₃ ++ rest) := begins_operand_unspaced w₃ ts₃ right rest hright
  have other {c : Char} {cs : Text} (hm : m = c :: cs) (hspace : isSpace c = false)
      (hcmp : (c = '<' || c = '=') = false) (hqu : decide (c = '?') = false) :
      Parse.selectExpr (w₁ ++ ((before ++ (m ++ after)) ++ (w₃ ++ rest))) = none := by
    have hnext : Next c ((before ++ (m ++ after)) ++ (w₃ ++ rest)) :=
      ⟨before, cs ++ after ++ (w₃ ++ rest), by simp [hm], hbefore⟩
    exact selectExpr_none_of_operand hleft hdelimited
      (Parser.bind_none (litCmpOp_none (hnext.avoids_dropWhile hspace hcmp)))
      (hnext.avoids_dropWhile hspace hqu)
  simp only [operators, List.mem_cons, List.not_mem_nil, or_false] at hmem
  obtain rfl | rfl | rfl | rfl | rfl | rfl | rfl | rfl := hmem
  · exact other rfl (by decide) (by decide) (by decide)
  · exact other rfl (by decide) (by decide) (by decide)
  · exact other rfl (by decide) (by decide) (by decide)
  · exact other rfl (by decide) (by decide) (by decide)
  · exact other rfl (by decide) (by decide) (by decide)
  · -- `<<` is read as `<`, and then no operand comes.
    have hspaces : Parse.optSpace (before ++ ('<' :: '<' :: (after ++ (w₃ ++ rest)))) =
        some (before, '<' :: '<' :: (after ++ (w₃ ++ rest))) :=
      Parser.chars_append hbefore (by simp [isSpace])
    have hcmp : litCmpOp (before ++ ('<' :: '<' :: (after ++ (w₃ ++ rest)))) =
        some (['<'], '<' :: (after ++ (w₃ ++ rest))) := Parser.bind_some hspaces
    simp only [List.append_assoc, List.cons_append, List.nil_append] at hdelimited ⊢
    refine selectExpr_none_of_operand hleft hdelimited ((Parser.bind_some hcmp).trans
      (Parser.bind_none (varOrConst_none (by simp [isOperandStart, isSmall, isNumberStart,
        isDigit])))) ?_
    rw [dropWhile_spaces hbefore, List.dropWhile_cons_of_neg (by decide)]
    simp
  · exact other rfl (by decide) (by decide) (by decide)
  · -- `==` is a condition, and then no `?` comes.
    have hcmp := complete_litCmpOp _ [.operator ['=', '=']] ['=', '='] (w₃ ++ rest) (spaced_iff.mpr
      ⟨before, ['=', '='], after, rfl, hbefore, hafter,
        cmpOperator_iff.mpr ⟨rfl, rfl, by decide⟩⟩) hunspaced
    have hcond : Parse.condExpr (w₁ ++ ((before ++ (['=', '='] ++ after)) ++ (w₃ ++ rest))) =
        some (.condExpr left ['=', '='] right, rest) :=
      Parser.orElse_some ((Parser.bind_some (complete_varOrConst _ _ _ _ hleft hdelimited)).trans
        ((Parser.bind_some hcmp).trans
          (Parser.bind_some (complete_varOrConst _ _ _ _ hright hrest.delimited))))
    exact (Parser.bind_some hcond).trans (Parser.bind_none (spaced_lit_none
      (hrest.avoids_dropWhile (by decide) (by decide))))

/-- A product is the beginning of a multiply-add without a `+`. -/
theorem multAddExpr_none_of_binOp (hleft : varOrConst w₁ ts₁ left) (hop : spaced operator w₂ ts₂ op)
    (hright : varOrConst w₃ ts₃ right) (hrest : LineEnd rest) :
    Parse.multAddExpr (w₁ ++ (w₂ ++ (w₃ ++ rest))) = none := by
  have hdelimited : Delimited (w₂ ++ (w₃ ++ rest)) := begins_litOp w₂ ts₂ op (w₃ ++ rest) hop
  obtain ⟨before, m, after, rfl, hbefore, hafter, hoperator⟩ := spaced_iff.mp hop
  obtain ⟨rfl, -, hmem⟩ := operator_iff.mp hoperator
  have hunspaced : Unspaced (w₃ ++ rest) := begins_operand_unspaced w₃ ts₃ right rest hright
  have other {c : Char} {cs : Text} (hm : m = c :: cs) (hspace : isSpace c = false)
      (hmult : decide (c = '*') = false) :
      Parse.multAddExpr (w₁ ++ ((before ++ (m ++ after)) ++ (w₃ ++ rest))) = none := by
    have hnext : Next c ((before ++ (m ++ after)) ++ (w₃ ++ rest)) :=
      ⟨before, cs ++ after ++ (w₃ ++ rest), by simp [hm], hbefore⟩
    exact multAddExpr_none_of_operand hleft hdelimited (hnext.avoids_dropWhile hspace hmult)
  simp only [operators, List.mem_cons, List.not_mem_nil, or_false] at hmem
  obtain rfl | rfl | rfl | rfl | rfl | rfl | rfl | rfl := hmem
  · obtain ⟨name, rfl, hname⟩ | ⟨expr, rfl, hexpr⟩ := varOrConst_iff.mp hleft
    · have hmult := complete_spaced_lit (c := '*') (by decide) _ [] ['*'] (w₃ ++ rest)
        (spaced_lit_iff.mpr ⟨rfl, rfl, before, after, rfl, hbefore, hafter⟩) hunspaced
      exact (Parser.bind_some (complete_variableName _ _ _ _ hname hdelimited)).trans
        ((Parser.bind_some hmult).trans ((Parser.bind_some
          (complete_varOrConst _ _ _ _ hright hrest.delimited)).trans (Parser.bind_none
            (spaced_lit_none (hrest.avoids_dropWhile (by decide) (by decide))))))
    · exact Parser.bind_none (variableName_none ((begins_constant w₁ ts₁ expr _ hexpr).of_not
        fun _ => isSmall_of_isNumberStart))
  · exact other rfl (by decide) (by decide)
  · exact other rfl (by decide) (by decide)
  · exact other rfl (by decide) (by decide)
  · exact other rfl (by decide) (by decide)
  · exact other rfl (by decide) (by decide)
  · exact other rfl (by decide) (by decide)
  · exact other rfl (by decide) (by decide)

end BinOp

/-- No operation begins with `@`. -/
theorem operations_none_of_at (s : Text) :
    Parse.selectExpr ('@' :: s) = none ∧ Parse.multAddExpr ('@' :: s) = none ∧
      Parse.binOpExpr ('@' :: s) = none := by
  have hname : Parse.variableName ('@' :: s) = none := variableName_none (by simp [isSmall])
  have hoperand : Parse.varOrConst ('@' :: s) = none :=
    varOrConst_none (by simp [isOperandStart, isSmall, isNumberStart, isDigit])
  exact ⟨Parser.bind_none ((Parser.orElse_none (Parser.bind_none hoperand)).trans
    (Parser.bind_none hname)), Parser.bind_none hname, Parser.bind_none hoperand⟩

theorem derefs_none {s : Text} (h : Avoids (fun c => c = '@') s) :
    Parse.derefIndividualWords s = none ∧ Parse.derefVariable s = none ∧
      Parse.derefConstant s = none :=
  ⟨Parser.bind_none (lit_none_of_avoids h), Parser.bind_none (lit_none_of_avoids h),
    Parser.bind_none (lit_none_of_avoids h)⟩

theorem begins_operand_not_at : Begins varOrConst (Avoids fun c => c = '@') :=
  begins_operand.mono fun _ h => h.of_not fun _ hc => by
    simpa using ne_of_isOperandStart hc (by decide)

theorem complete_index : Complete Parse.index (index .parsed) LineEnd := by
  refine .bindBegins (F := fun _ => True) (.lit _) (fun _ => .bind complete_intConstantExpr
    (fun _ => .bindPure (.opt ((Complete.lit _).mono fun _ _ => trivial) fun rest h =>
      lit_none_of_avoids (h.avoids (by decide) (by decide) (by decide))) _)
    fun expr w ts b rest h hrest => ?_) fun _ _ _ _ _ _ => trivial
  obtain ⟨w₁, w₂, ts₁, ts₂, bracket, rfl, rfl, hclosing, rfl, rfl, rfl⟩ := h
  cases bracket with
  | none =>
      obtain ⟨rfl, rfl⟩ := hclosing
      exact hrest.delimited
  | some bracket =>
      obtain ⟨rfl, rfl, rfl⟩ := hclosing
      exact avoids_cons.mpr (by decide)

/-- A name with an index or without. -/
theorem complete_variableExpr : Complete Parse.variableExpr (variableExpr .parsed) LineEnd := by
  refine .bind complete_variableName (fun _ => .bindPure (.opt complete_index fun rest h =>
    Parser.bind_none (lit_none_of_avoids (h.avoids (by decide) (by decide) (by decide)))) _)
    fun name w ts b rest h hrest => ?_
  obtain ⟨w₁, w₂, ts₁, ts₂, index, rfl, rfl, hindex, rfl, rfl, rfl⟩ := h
  cases index with
  | none =>
      obtain ⟨rfl, rfl⟩ := hindex
      exact hrest.delimited
  | some index =>
      obtain ⟨t, ht⟩ := (begins_lit '[' []).bind _ _ _ rest hindex
      rw [List.append_nil, ht]
      exact avoids_cons.mpr (by decide)

/-- A name with an index or without is not an operation. -/
theorem operations_none_of_variable {value : ValueExpr} (h : variableExpr .parsed w ts value)
    (hrest : LineEnd rest) :
    Parse.selectExpr (w ++ rest) = none ∧ Parse.multAddExpr (w ++ rest) = none ∧
      Parse.binOpExpr (w ++ rest) = none := by
  obtain ⟨w₁, w₂, ts₁, ts₂, name, rfl, rfl, hname, w₃, w₄, ts₃, ts₄, index, rfl, rfl, hindex, rfl,
    rfl, rfl⟩ := h
  simp only [List.append_assoc, List.nil_append]
  refine operations_none_of_operand (varOrConst_iff.mpr (Or.inl ⟨name, rfl, hname⟩)) ?_
  cases index with
  | none =>
      obtain ⟨rfl, rfl⟩ := hindex
      exact hrest.afterOperand
  | some index =>
      obtain ⟨t, ht⟩ := (begins_lit '[' []).bind _ _ _ rest hindex
      rw [ht]
      refine ⟨avoids_cons.mpr (by decide), ?_⟩
      rw [List.dropWhile_cons_of_neg (by decide)]
      exact avoids_cons.mpr (by decide)

theorem complete_derefIndividualWords :
    Complete Parse.derefIndividualWords derefIndividualWords LineEnd :=
  .bindBegins (F := fun _ => True) (.lit _) (fun _ => .bindBegins complete_variableName
    (fun _ => .bindBegins (F := fun _ => True) (.lit _) (fun _ => .bindPure (.lit _) _)
      fun _ _ _ _ _ _ => trivial)
    fun _ => Begins.bind ((begins_lit '[' []).mono fun s ⟨t, ht⟩ => by
      rw [ht]
      exact avoids_cons.mpr (by decide))) fun _ _ _ _ _ _ => trivial

theorem complete_derefVariable : Complete Parse.derefVariable derefVariable LineEnd :=
  .bindBegins (F := fun _ => True) (.lit _)
    (fun _ => (complete_variableName.mono fun _ h => h.delimited).bindPure _)
    fun _ _ _ _ _ _ => trivial

theorem complete_derefConstant : Complete Parse.derefConstant derefConstant LineEnd :=
  .bindBegins (F := fun _ => True) (.lit _)
    (fun _ => (complete_intConstantExpr.mono fun _ h => h.delimited).bindPure _)
    fun _ _ _ _ _ _ => trivial

theorem complete_valueExpr : Complete Parse.valueExpr (valueExpr .parsed) LineEnd := by
  have hat {L : Language Token ValueExpr} (hL : Begins L fun s => ∃ t, s = '@' :: t) {w : Text}
      {ts : List Token} {v : ValueExpr} (h : L w ts v) (rest : Text) :
      Parse.selectExpr (w ++ rest) = none ∧ Parse.multAddExpr (w ++ rest) = none := by
    obtain ⟨t, ht⟩ := hL w ts v rest h
    rw [ht]
    exact ⟨(operations_none_of_at t).1, (operations_none_of_at t).2.1⟩
  have hwords : Begins derefIndividualWords fun s => ∃ t, s = '@' :: t := (begins_lit '@' []).bind
  have hvariable : Begins derefVariable fun s => ∃ t, s = '@' :: t := (begins_lit '@' []).bind
  have hconstant : Begins derefConstant fun s => ∃ t, s = '@' :: t := (begins_lit '@' []).bind
  have hint {w : Text} {ts : List Token} {v : ValueExpr} (h : intConstant w ts v) {rest : Text}
      (hrest : LineEnd rest) : Parse.selectExpr (w ++ rest) = none ∧
        Parse.multAddExpr (w ++ rest) = none ∧ Parse.binOpExpr (w ++ rest) = none := by
    obtain ⟨w₁, w₂, ts₁, ts₂, expr, rfl, rfl, hexpr, rfl, rfl, rfl⟩ := h
    rw [List.append_nil]
    exact operations_none_of_operand (varOrConst_iff.mpr (Or.inr ⟨expr, rfl, hexpr⟩))
      hrest.afterOperand
  have hbinOp : Begins binOpExpr (Avoids fun c => c = '@') := begins_operand_not_at.bind
  have hname : Begins (variableExpr .parsed) (Avoids fun c => c = '@') :=
    Begins.bind (begins_name.mono fun _ h => h.of_not fun _ hc => by
      simpa using ne_of_isOperandStart (isOperandStart_of_isSmall hc) (by decide))
  have hnumber : Begins intConstant (Avoids fun c => c = '@') :=
    Begins.bind (begins_constant.mono fun _ h => h.of_not fun _ hc => by
      simpa using ne_of_class hc (by decide))
  refine .orElse (complete_selectExpr.mono fun _ h => h.delimited)
    (.orElse (complete_multAddExpr.mono fun _ h => h.delimited)
    (.orElse complete_derefIndividualWords (.orElse complete_derefVariable
    (.orElse complete_derefConstant (.orElse (complete_binOpExpr.mono fun _ h => h.delimited)
    (.orElse complete_variableExpr
      ((complete_intConstantExpr.mono fun _ h => h.delimited).bindPure _) ?_) ?_) ?_) ?_) ?_) ?_) ?_
  · intro w ts v rest h _
    obtain ⟨w₁, w₂, ts₁, ts₂, expr, rfl, rfl, hexpr, rfl, rfl, rfl⟩ := h
    refine Parser.bind_none (variableName_none ?_)
    rw [List.append_nil]
    exact (begins_constant w₁ ts₁ expr rest hexpr).of_not fun _ => isSmall_of_isNumberStart
  · rintro w ts v rest (h | h) hrest
    · exact (operations_none_of_variable h hrest).2.2
    · exact (hint h hrest).2.2
  · rintro w ts v rest (h | h | h) _
    · exact (derefs_none (hbinOp w ts v rest h)).2.2
    · exact (derefs_none (hname w ts v rest h)).2.2
    · exact (derefs_none (hnumber w ts v rest h)).2.2
  · rintro w ts v rest (h | h | h | h) _
    · obtain ⟨w₁, w₂, ts₁, ts₂, _, rfl, rfl, ⟨rfl, rfl, rfl⟩, w₃, w₄, ts₃, ts₄, expr, rfl, rfl,
        hexpr, rfl, rfl, rfl⟩ := h
      simp only [List.append_assoc]
      refine (Parser.bind_some (Parser.lit_append _ _)).trans (Parser.bind_none ?_)
      exact variableName_none ((begins_constant w₃ ts₃ expr _ hexpr).of_not
        fun _ => isSmall_of_isNumberStart)
    · exact (derefs_none (hbinOp w ts v rest h)).2.1
    · exact (derefs_none (hname w ts v rest h)).2.1
    · exact (derefs_none (hnumber w ts v rest h)).2.1
  · rintro w ts v rest (h | h | h | h | h) hrest
    · obtain ⟨w₁, w₂, ts₁, ts₂, _, rfl, rfl, ⟨rfl, rfl, rfl⟩, w₃, w₄, ts₃, ts₄, name, rfl, rfl,
        hname, rfl, rfl, rfl⟩ := h
      simp only [List.append_assoc, List.nil_append]
      refine (Parser.bind_some (Parser.lit_append _ _)).trans ((Parser.bind_some
        (complete_variableName _ _ _ _ hname hrest.delimited)).trans (Parser.bind_none ?_))
      exact lit_none_of_avoids (hrest.avoids (by decide) (by decide) (by decide))
    · obtain ⟨w₁, w₂, ts₁, ts₂, _, rfl, rfl, ⟨rfl, rfl, rfl⟩, w₃, w₄, ts₃, ts₄, expr, rfl, rfl,
        hexpr, rfl, rfl, rfl⟩ := h
      simp only [List.append_assoc]
      refine (Parser.bind_some (Parser.lit_append _ _)).trans (Parser.bind_none ?_)
      exact variableName_none ((begins_constant w₃ ts₃ expr _ hexpr).of_not
        fun _ => isSmall_of_isNumberStart)
    · exact (derefs_none (hbinOp w ts v rest h)).1
    · exact (derefs_none (hname w ts v rest h)).1
    · exact (derefs_none (hnumber w ts v rest h)).1
  · rintro w ts v rest (h | h | h | h | h | h) hrest
    · exact (hat hwords h rest).2
    · exact (hat hvariable h rest).2
    · exact (hat hconstant h rest).2
    · obtain ⟨w₁, w₂, ts₁, ts₂, left, rfl, rfl, hleft, w₃, w₄, ts₃, ts₄, op, rfl, rfl, hop, w₅, w₆,
        ts₅, ts₆, right, rfl, rfl, hright, rfl, rfl, rfl⟩ := h
      simp only [List.append_assoc, List.nil_append]
      exact multAddExpr_none_of_binOp hleft hop hright hrest
    · exact (operations_none_of_variable h hrest).2.1
    · exact (hint h hrest).2.1
  · rintro w ts v rest (h | h | h | h | h | h | h) hrest
    · exact selectExpr_none_of_multAdd h
    · exact (hat hwords h rest).1
    · exact (hat hvariable h rest).1
    · exact (hat hconstant h rest).1
    · obtain ⟨w₁, w₂, ts₁, ts₂, left, rfl, rfl, hleft, w₃, w₄, ts₃, ts₄, op, rfl, rfl, hop, w₅, w₆,
        ts₅, ts₆, right, rfl, rfl, hright, rfl, rfl, rfl⟩ := h
      simp only [List.append_assoc, List.nil_append]
      exact selectExpr_none_of_binOp hleft hop hright hrest
    · exact (operations_none_of_variable h hrest).1
    · exact (hint h hrest).1

theorem begins_valueExpr : Begins (valueExpr .parsed) Unspaced := by
  have hat : Begins (lit ['@'] : Language Token Text) Unspaced :=
    (begins_lit '@' []).mono fun s ⟨t, ht⟩ => by
      rw [ht]
      exact avoids_cons.mpr (by decide)
  have hcond : Begins condExpr Unspaced :=
    .orElse begins_operand_unspaced.bind begins_name_unspaced.bind
  have hconst : Begins intConstantExpr Unspaced := begins_constant.mono fun _ h =>
    h.of_not fun _ hc => isSpace_of_isOperandStart (by simp [isOperandStart, hc])
  exact .orElse hcond.bind (.orElse begins_name_unspaced.bind (.orElse hat.bind
    (.orElse hat.bind (.orElse hat.bind (.orElse begins_operand_unspaced.bind
      (.orElse begins_name_unspaced.bind hconst.bind))))))

end Values

end Explore.Takehome.Parse.Grammar
