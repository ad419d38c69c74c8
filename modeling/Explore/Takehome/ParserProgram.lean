import Explore.Takehome.ParserStatements

/-!
# Programs are read whole

A list of statements stops at the keyword that closes it. The integers of a range are read
with the spaces after them, also those that belong to the comma that comes next.
-/

namespace Explore.Takehome.Parse.Grammar

open Peg Peg.Language Parse

section Ranges

variable {w rest : Text} {ts : List Token}

theorem nextInt_iff {expr : IntConstantExpr} : nextInt w ts expr ↔ ts = [.intConstant expr] ∧
    ∃ before after c last, w = before ++ (',' :: (after ++ (c ++ last))) ∧
      (∀ c ∈ before, isSpace c = true) ∧ (∀ c ∈ after, isSpace c = true) ∧
        (∀ c ∈ last, isSpace c = true) ∧ IsIntConstant expr c := by
  constructor
  · rintro ⟨w₁, w₂, ts₁, ts₂, _, rfl, rfl, hcomma, after, w₄, ts₃, ts₄, _, rfl, rfl,
      ⟨rfl, rfl, hafter⟩, c, w₆, ts₅, ts₆, expr', rfl, rfl, hexpr, last, w₈, ts₇, ts₈, _, rfl, rfl,
      ⟨rfl, rfl, hlast⟩, rfl, rfl, rfl⟩
    obtain ⟨-, rfl, before, middle, rfl, hbefore, hmiddle⟩ := spaced_lit_iff.mp hcomma
    obtain ⟨rfl, hc⟩ := intConstantExpr_iff.mp hexpr
    refine ⟨by simp, before, middle ++ after, c, last, by simp, hbefore, ?_, hlast, hc⟩
    intro d hd
    obtain hd | hd := List.mem_append.mp hd
    · exact hmiddle d hd
    · exact hafter d hd
  · rintro ⟨rfl, before, after, c, last, rfl, hbefore, hafter, hlast, hc⟩
    exact ⟨before ++ ([','] ++ after), c ++ last, [], [.intConstant expr], [','], by simp, rfl,
      spaced_lit_iff.mpr ⟨rfl, rfl, before, after, rfl, hbefore, hafter⟩, [], c ++ last, [], _, [],
      rfl, rfl, ⟨rfl, rfl, by simp⟩, c, last, _, [], expr, rfl, rfl,
      intConstantExpr_iff.mpr ⟨rfl, hc⟩, last, [], [], [], last, by simp, rfl, ⟨rfl, rfl, hlast⟩,
      rfl, rfl, rfl⟩

theorem unspaced_of_isIntConstant {expr : IntConstantExpr} (h : IsIntConstant expr w) :
    Unspaced (w ++ rest) := by
  obtain ⟨c, t, rfl, hc⟩ := h.exists_cons
  exact avoids_cons.mpr (isSpace_of_isOperandStart (by simp [isOperandStart, hc]))

/-- The parser takes the spaces after an integer, and what comes with them. -/
theorem intConstant_spaces {expr : IntConstantExpr} {c last : Text} (hc : IsIntConstant expr c)
    (hlast : ∀ c ∈ last, isSpace c = true) (hrest : Delimited rest)
    (q : IntConstantExpr → Parser α) : (Parse.intConstantExpr >>= fun expr =>
      Parse.optSpace >>= fun _ => q expr) (c ++ (last ++ rest)) =
      q expr (rest.dropWhile isSpace) := by
  have hdelimited : Delimited (last ++ rest) := (avoids_spaces hlast (by decide)).mpr (Or.inr hrest)
  have hread : Parse.intConstantExpr (c ++ (last ++ rest)) = some (expr, last ++ rest) :=
    complete_intConstantExpr c _ expr _ (intConstantExpr_iff.mpr ⟨rfl, hc⟩) hdelimited
  have hspace : Parse.optSpace (last ++ rest) =
      some ((last ++ rest).takeWhile isSpace, rest.dropWhile isSpace) := by
    rw [← dropWhile_spaces hlast]
    rfl
  exact (Parser.bind_some hread).trans (Parser.bind_some hspace)

theorem nextInt_append {expr : IntConstantExpr} {before after c last : Text}
    (hbefore : ∀ c ∈ before, isSpace c = true) (hafter : ∀ c ∈ after, isSpace c = true)
    (hlast : ∀ c ∈ last, isSpace c = true) (hc : IsIntConstant expr c) (hrest : Delimited rest) :
    Parse.nextInt (before ++ (',' :: (after ++ (c ++ (last ++ rest))))) =
      some (expr, rest.dropWhile isSpace) := by
  have hunspaced : Unspaced (c ++ (last ++ rest)) := unspaced_of_isIntConstant hc
  have hcomma : litComma (before ++ (',' :: (after ++ (c ++ (last ++ rest))))) =
      some ([','], c ++ (last ++ rest)) := by
    have hread := complete_spaced_lit (c := ',') (by decide) (before ++ ([','] ++ after)) [] [',']
      (c ++ (last ++ rest)) (spaced_lit_iff.mpr ⟨rfl, rfl, before, after, rfl, hbefore, hafter⟩)
      hunspaced
    simp only [List.append_assoc, List.cons_append, List.nil_append] at hread
    exact hread
  have hspace : Parse.optSpace (c ++ (last ++ rest)) = some ([], c ++ (last ++ rest)) :=
    Parser.chars_append (w := []) (by simp) hunspaced
  exact (Parser.bind_some hcomma).trans ((Parser.bind_some hspace).trans
    (intConstant_spaces hc hlast hrest _))

/-- The integers of a range, after the spaces of the one before. -/
theorem star_nextInt_append {exprs : List IntConstantExpr} (t : Text)
    (h : star nextInt w ts exprs) :
    Parser.star Parse.nextInt ((w ++ ')' :: t).dropWhile isSpace) = some (exprs, ')' :: t) ∧
      Delimited (w ++ ')' :: t) := by
  induction h with
  | nil =>
      refine ⟨Parser.star_none (Parser.bind_none (spaced_lit_none ?_)), avoids_cons.mpr (by decide)⟩
      simp [isSpace]
  | @cons w w' ts ts' expr exprs hnext _ ih =>
      obtain ⟨hstar, hdelimited⟩ := ih
      obtain ⟨-, before, after, c, last, rfl, hbefore, hafter, hlast, hc⟩ := nextInt_iff.mp hnext
      simp only [List.append_assoc, List.cons_append]
      rw [dropWhile_spaces hbefore, List.dropWhile_cons_of_neg (by decide)]
      refine ⟨Parser.star_cons (nextInt_append (List.forall_mem_nil _) hafter hlast hc hdelimited)
        ?_ hstar, (avoids_spaces hbefore (by decide)).mpr (Or.inr (avoids_cons.mpr (by decide)))⟩
      have := (List.dropWhile_sublist isSpace (l := w' ++ ')' :: t)).length_le
      simp only [List.length_append, List.length_cons] at this ⊢
      omega

theorem complete_tidRange :
    Complete Parse.tidRange (tidRange .parsed) fun _ => True := by
  rintro w ts range rest ⟨_, w₂, ts₁, ts₂, _, rfl, rfl, ⟨rfl, rfl, rfl⟩, first, w₄, ts₃, ts₄, _,
    rfl, rfl, ⟨rfl, rfl, hfirst⟩, c, w₆, ts₅, ts₆, start, rfl, rfl, hstart, last, w₈, ts₇, ts₈, _,
    rfl, rfl, ⟨rfl, rfl, hlast⟩, w₉, w₁₀, ts₉, ts₁₀, exprs, rfl, rfl,
    ⟨w₁₁, w₁₂, ts₁₁, ts₁₂, stop, rfl, rfl, hstop, w₁₃, w₁₄, ts₁₃, ts₁₄, others, rfl, rfl, hothers,
      rfl, rfl, rfl⟩, _, w₁₆, ts₁₅, ts₁₆, _, rfl, rfl, ⟨rfl, rfl, rfl⟩, rfl, rfl, rfl⟩ -
  obtain ⟨-, hc⟩ := intConstantExpr_iff.mp hstart
  obtain ⟨-, before, after, c', last', rfl, hbefore, hafter, hlast', hc'⟩ := nextInt_iff.mp hstop
  obtain ⟨hstar, hdelimited⟩ := star_nextInt_append rest hothers
  simp only [List.append_assoc, List.append_nil, List.nil_append, List.cons_append]
  have hspace : Parse.optSpace (first ++ (c ++ (last ++ (before ++ (',' :: (after ++ (c' ++
      (last' ++ (w₁₃ ++ ')' :: rest))))))))) =
      some (first, c ++ (last ++ (before ++ (',' :: (after ++
        (c' ++ (last' ++ (w₁₃ ++ ')' :: rest)))))))) :=
    Parser.chars_append hfirst (unspaced_of_isIntConstant hc)
  have hcomma : Delimited (before ++ (',' :: (after ++ (c' ++ (last' ++ (w₁₃ ++ ')' :: rest)))))) :=
    (avoids_spaces hbefore (by decide)).mpr (Or.inr (avoids_cons.mpr (by decide)))
  refine (Parser.bind_some (Parser.lit_append rangeText _)).trans ((Parser.bind_some hspace).trans
    ((intConstant_spaces hc hlast hcomma _).trans ?_))
  rw [dropWhile_spaces hbefore, List.dropWhile_cons_of_neg (by decide)]
  have hplus : Parser.plus Parse.nextInt (',' ::
      (after ++ (c' ++ (last' ++ (w₁₃ ++ ')' :: rest))))) =
      some (stop :: others, ')' :: rest) :=
    (Parser.bind_some (nextInt_append (List.forall_mem_nil _) hafter hlast' hc' hdelimited)).trans
      (Parser.bind_some hstar)
  exact (Parser.bind_some hplus).trans (Parser.bind_some (Parser.lit_append [')'] _))

end Ranges

section Branches

variable {w rest : Text} {ts : List Token} {p : Parser ThreadLocalStmt}
  {L : Language Token ThreadLocalStmt}

/-- What the statements of a branch have to be like for lists of them to be read whole. -/
structure ReadsStmt (p : Parser ThreadLocalStmt) (L : Language Token ThreadLocalStmt) : Prop where
  complete : Complete p L LineStart
  begins : Begins L LineStart
  closing_none : ∀ rest, Closing rest → p rest = none

theorem ReadsStmt.nonempty (h : ReadsStmt p L) {stmt : ThreadLocalStmt} (hL : L w ts stmt) :
    w ≠ [] :=
  Begins.nonempty (c := ' ') (h.begins.mono fun _ h => h.mono fun c hc => by
    simp [of_decide_eq_true hc]) hL

theorem ReadsStmt.star (h : ReadsStmt p L) : Complete (Parser.star p) (star L) Closing :=
  .star h.complete (fun _ _ _ => h.nonempty) h.begins (fun _ => Closing.lineStart) h.closing_none

/-- Statements and a keyword after them begin a line. -/
theorem ReadsStmt.begins_star (h : ReadsStmt p L) {M : List ThreadLocalStmt → Language Token β}
    (hM : ∀ stmts, Begins (M stmts) Closing) : Begins (Language.star L >>= M) LineStart := by
  rintro w ts b rest ⟨w₁, w₂, ts₁, ts₂, stmts, rfl, rfl, hstar, hend⟩
  rw [List.append_assoc]
  cases hstar with
  | nil => exact (hM _ _ _ _ rest hend).lineStart
  | cons hstmt _ =>
      rw [List.append_assoc]
      exact h.begins _ _ _ _ hstmt

theorem complete_tidBranch (h : ReadsStmt p L) (text : Text) :
    Complete (Parse.tidBranch text p) (tidBranch .parsed text L) Closing := by
  refine .bindBegins (F := fun _ => True) (.lit _) (fun _ => .bindBegins complete_space
    (fun _ => .bindBegins complete_tidRange (fun _ => .bind complete_nls
      (fun _ => h.star.bindPure _) ?_) fun _ _ _ _ _ _ => trivial)
    fun _ => ?_) fun _ _ _ _ _ _ => trivial
  · rintro _ w ts b rest ⟨w₁, w₂, ts₁, ts₂, stmts, rfl, rfl, hstar, rfl, rfl, rfl⟩ hrest
    rw [List.append_nil]
    cases hstar with
    | nil => exact hrest.lineStart
    | cons hstmt _ =>
        rw [List.append_assoc]
        exact h.begins _ _ _ _ hstmt
  · exact Begins.bind (Begins.bind ((begins_lit 'r' _).mono fun s ⟨t, ht⟩ => by
      rw [ht]
      exact avoids_cons.mpr (by decide)))

theorem isName_elIfTidText : IsName elIfTidText := ⟨'e', _, rfl, by decide, by decide⟩

theorem isName_elseTidText : IsName elseTidText := ⟨'e', _, rfl, by decide, by decide⟩

theorem isName_endIfTidText : IsName endIfTidText := ⟨'e', _, rfl, by decide, by decide⟩

/-- `elsetid` and `endiftid` close a list of statements. -/
theorem begins_keyword_closing {name : Text} (hname : IsName ('e' :: name)) :
    Begins (keyword ('e' :: name)) Closing := by
  intro w ts u rest h
  obtain ⟨t, ht, hend⟩ := keyword_cases rest h
  rw [ht]
  exact Or.inr ⟨name, t, rfl, hname, hend.delimited, hend.avoids_dropWhile (by decide) (by decide)⟩

theorem begins_tidBranch_closing {name : Text} (hname : IsName ('e' :: name)) :
    Begins (tidBranch .parsed ('e' :: name) L) Closing := by
  rintro w ts b rest ⟨_, w₂, ts₁, ts₂, _, rfl, rfl, ⟨rfl, rfl, rfl⟩, w₃, w₄, ts₃, ts₄, _, rfl, rfl,
    hspace, _, w₆, ts₅, ts₆, _, rfl, rfl, ⟨_, w₈, ts₇, ts₈, _, rfl, rfl, ⟨rfl, rfl, rfl⟩, -⟩, -⟩
  obtain ⟨-, -, hne, hw₃⟩ := space_iff.mp hspace
  refine Or.inr ⟨name, w₃ ++ (rangeText ++ w₈ ++ w₆ ++ rest), by simp, hname, ?_, ?_⟩
  · exact (avoids_spaces hw₃ (by decide)).mpr (Or.inl hne)
  · rw [dropWhile_spaces hw₃]
    exact avoids_cons.mpr (by decide)

theorem complete_tidIfElseStmt (h : ReadsStmt p L) :
    Complete (Parse.tidIfElseStmt p) (tidIfElseStmt .parsed L) LineStart := by
  have hend : Begins (keyword endIfTidText) Closing := begins_keyword_closing isName_endIfTidText
  have helse : Begins (keyword elseTidText) fun s => Closing s ∧ ∃ t, s = elseTidText ++ t := by
    intro w ts u rest hw
    obtain ⟨t, ht, -⟩ := keyword_cases rest hw
    exact ⟨begins_keyword_closing isName_elseTidText w ts u rest hw, t, ht⟩
  have hothers : Complete (Parser.star (Parse.tidBranch elIfTidText p))
      (star (tidBranch .parsed elIfTidText L)) fun s => Closing s ∧ ∃ t, s = elseTidText ++ t := by
    refine .star (complete_tidBranch h _) (fun w ts b hb => ?_)
      (begins_tidBranch_closing isName_elIfTidText) (fun _ => And.left) fun rest hrest => ?_
    · rintro rfl
      obtain ⟨w₁, w₂, ts₁, ts₂, _, hw, -, ⟨rfl, -, -⟩, -⟩ := hb
      simp [elIfTidText] at hw
    · obtain ⟨-, t, rfl⟩ := hrest
      refine Parser.bind_none (Parser.lit_none ?_)
      rintro ⟨u, hu⟩
      simp [elIfTidText, elseTidText] at hu
  refine .bindBegins (complete_tidBranch h _) (fun _ => .bindBegins hothers (fun _ =>
    .bindBegins (complete_keyword _) (fun _ => .bindBegins h.star
      (fun _ => (complete_keyword _).bindPure _) fun _ => hend.bind)
    fun _ => h.begins_star fun _ => hend.bind) fun _ => helse.bind) fun first => ?_
  rintro w ts b rest ⟨w₁, w₂, ts₁, ts₂, branches, rfl, rfl, hstar, htail⟩
  rw [List.append_assoc]
  cases hstar with
  | nil => exact (helse.bind _ _ _ rest htail).1
  | cons hbranch _ =>
      rw [List.append_assoc]
      exact begins_tidBranch_closing isName_elIfTidText _ _ _ _ hbranch

end Branches

section ThreadStatements

variable {w rest : Text} {ts : List Token}

theorem begins_thread : Begins (threadLocalVariableStmt .parsed) fun s => ∃ t, s = 't' :: t :=
  (begins_lit 't' _).bind

theorem begins_plainStmt : Begins (plainStmt .parsed) LineStart :=
  .orElse (Begins.bind (begins_thread.mono fun s ⟨t, ht⟩ => by
    rw [ht]
    exact avoids_cons.mpr (by decide)))
    (.orElse begins_assignmentStmt.bind (Begins.bind (begins_keyword (by decide))))

theorem complete_threadLocalVariableStmt :
    Complete Parse.threadLocalVariableStmt (threadLocalVariableStmt .parsed) LineStart :=
  .bindBegins (F := fun _ => True) (.lit _) (fun _ => .bindBegins complete_space
    (fun _ => complete_variableDeclarationStmt) fun _ => begins_variableDeclarationStmt.mono
      fun _ h => h.unspaced) fun _ _ _ _ _ _ => trivial

theorem threadLocalVariableStmt_none_of_avoids (h : Avoids (fun c => c = 't') rest) :
    Parse.threadLocalVariableStmt rest = none := Parser.bind_none (lit_none_of_avoids h)

/-- A name that begins with `thread` is assigned to. -/
theorem threadLocalVariableStmt_none_of_assignment {stmt : AssignmentStmt}
    (h : assignmentStmt .parsed w ts stmt) : Parse.threadLocalVariableStmt (w ++ rest) = none := by
  obtain ⟨t, ht⟩ | ⟨name, t, ht, hname, hnext⟩ := assignmentStmt_cases rest h
  · rw [ht]
    exact threadLocalVariableStmt_none_of_avoids (avoids_cons.mpr (by decide))
  · rw [ht]
    cases hlit : Parser.lit threadText (name ++ t) with
    | none => exact Parser.bind_none hlit
    | some r =>
        obtain ⟨v, u⟩ := r
        have hdelimited : Delimited t := hnext.avoids (by decide) (by decide)
        obtain ⟨cs, rfl, rfl⟩ := lit_name (by decide) hdelimited hlit
        refine (Parser.bind_some hlit).trans ?_
        cases hspace : Parse.space (cs ++ t) with
        | none => exact Parser.bind_none hspace
        | some r =>
            obtain ⟨sp, s⟩ := r
            obtain rfl := space_after_keyword hname hdelimited hspace
            obtain ⟨u, hu⟩ := hnext.dropWhile_eq (by decide)
            refine (Parser.bind_some hspace).trans (variableDeclarationStmt_none_of_type ?_)
            rw [hu]
            exact variableType_none (avoids_cons.mpr (by decide))

theorem complete_plainStmt : Complete Parse.plainStmt (plainStmt .parsed) LineStart := by
  refine .orElse (complete_threadLocalVariableStmt.bindPure _)
    (.orElse (complete_assignmentStmt.bindPure _) ((complete_keyword _).bindPure _)
      fun w ts stmt rest h _ => ?_) fun w ts stmt rest h _ => ?_
  · obtain ⟨w₁, w₂, ts₁, ts₂, u, rfl, rfl, h, rfl, rfl, rfl⟩ := h
    obtain ⟨t, ht, hend⟩ := keyword_cases rest h
    rw [List.append_nil, ht]
    exact Parser.bind_none (assignmentStmt_none_of_lineEnd isName_pauseText hend)
  · obtain h | h := h
    · obtain ⟨w₁, w₂, ts₁, ts₂, stmt, rfl, rfl, h, rfl, rfl, rfl⟩ := h
      rw [List.append_nil]
      exact Parser.bind_none (threadLocalVariableStmt_none_of_assignment h)
    · obtain ⟨t, ht⟩ := (Begins.bind (Begins.bind (begins_lit 'p' _))) w ts stmt rest h
      rw [ht]
      exact Parser.bind_none (threadLocalVariableStmt_none_of_avoids (avoids_cons.mpr (by decide)))

/-- The text of an `iftid`. -/
theorem tidIfElseStmt_cases {L : Language Token ThreadLocalStmt} {stmt : ThreadLocalStmt}
    (rest : Text) (h : tidIfElseStmt .parsed L w ts stmt) :
    ∃ t, w ++ rest = ifTidText ++ t ∧ Delimited t ∧
      Avoids (fun c => c = '=') (t.dropWhile isSpace) := by
  obtain ⟨_, w₂, ts₁, ts₂, _, rfl, rfl, ⟨_, w₄, ts₃, ts₄, _, rfl, rfl, ⟨rfl, rfl, rfl⟩, w₅, w₆, ts₅,
    ts₆, _, rfl, rfl, hspace, _, w₈, ts₇, ts₈, _, rfl, rfl,
    ⟨_, w₁₀, ts₉, ts₁₀, _, rfl, rfl, ⟨rfl, rfl, rfl⟩, -⟩, -⟩, -⟩ := h
  obtain ⟨-, -, hne, hw₅⟩ := space_iff.mp hspace
  refine ⟨w₅ ++ (rangeText ++ w₁₀ ++ w₈ ++ w₂ ++ rest), by simp, ?_, ?_⟩
  · exact (avoids_spaces hw₅ (by decide)).mpr (Or.inl hne)
  · rw [dropWhile_spaces hw₅]
    exact avoids_cons.mpr (by decide)

theorem plainStmt_none (hthread : Parse.threadLocalVariableStmt rest = none)
    (hassign : Parse.assignmentStmt rest = none) (hpause : Parse.pauseStmt rest = none) :
    Parse.plainStmt rest = none :=
  (Parser.orElse_none (Parser.bind_none hthread)).trans
    ((Parser.orElse_none (Parser.bind_none hassign)).trans (Parser.bind_none hpause))

/-- An `iftid` is no other statement. -/
theorem plainStmt_none_of_tidIfElse {L : Language Token ThreadLocalStmt} {stmt : ThreadLocalStmt}
    (h : tidIfElseStmt .parsed L w ts stmt) : Parse.plainStmt (w ++ rest) = none := by
  obtain ⟨t, ht, hdelimited, hnext⟩ := tidIfElseStmt_cases rest h
  rw [ht]
  exact plainStmt_none (threadLocalVariableStmt_none_of_avoids (avoids_cons.mpr (by decide)))
    (assignmentStmt_none ⟨'i', _, rfl, by decide, by decide⟩ hdelimited hnext)
    (Parser.bind_none (lit_none_of_avoids (avoids_cons.mpr (by decide))))

theorem readsStmt_threadLocalStmt (nesting : ℕ) :
    ReadsStmt (Parse.threadLocalStmt nesting) (threadLocalStmt .parsed nesting) := by
  induction nesting with
  | zero =>
      exact ⟨fun _ _ _ _ h => h.elim, fun _ _ _ _ h => h.elim, fun _ _ => rfl⟩
  | succ nesting ih =>
      refine ⟨.orElse complete_plainStmt (complete_tidIfElseStmt ih)
        fun _ _ _ _ h _ => plainStmt_none_of_tidIfElse h, .orElse begins_plainStmt ?_,
        fun rest hrest => ?_⟩
      · intro w ts stmt rest h
        obtain ⟨t, ht, -⟩ := tidIfElseStmt_cases rest h
        rw [ht]
        exact avoids_cons.mpr (by decide)
      · have hplain : Parse.plainStmt rest = none := plainStmt_none
          (threadLocalVariableStmt_none_of_avoids (hrest.avoids (by decide)))
          hrest.assignmentStmt_none hrest.pauseStmt_none
        exact (Parser.orElse_none hplain).trans (Parser.bind_none (Parser.bind_none
          (lit_none_of_avoids (hrest.avoids (by decide)))))

end ThreadStatements

section Depth

variable {α : Type} {w : Text} {ts : List Token} {d : Dialect}

/-- Derivations one after another are in any language that has texts of their length. -/
theorem star_mono {L L' : Language Token α} {n : ℕ} {as : List α} (h : star L w ts as)
    (hlen : w.length ≤ n) (hL : ∀ w ts a, w.length ≤ n → L w ts a → L' w ts a) :
    star L' w ts as := by
  induction h with
  | nil => exact .nil
  | cons hfirst _ ih =>
      rw [List.length_append] at hlen
      exact .cons (hL _ _ _ (by omega) hfirst) (ih (by omega))

theorem tidBranch_mono {L L' : Language Token ThreadLocalStmt} {n : ℕ} {text : Text}
    {branch : TidRange × List ThreadLocalStmt} (h : tidBranch d text L w ts branch)
    (hlen : w.length ≤ n) (hL : ∀ w ts a, w.length ≤ n → L w ts a → L' w ts a) :
    tidBranch d text L' w ts branch := by
  obtain ⟨w₁, w₂, ts₁, ts₂, _, rfl, rfl, hlit, w₃, w₄, ts₃, ts₄, _, rfl, rfl, hspace, w₅, w₆, ts₅,
    ts₆, range, rfl, rfl, hrange, w₇, w₈, ts₇, ts₈, _, rfl, rfl, hnls, w₉, w₁₀, ts₉, ts₁₀, stmts,
    rfl, rfl, hstmts, hpure⟩ := h
  simp only [List.length_append] at hlen
  exact ⟨w₁, _, ts₁, _, _, rfl, rfl, hlit, w₃, _, ts₃, _, _, rfl, rfl, hspace, w₅, _, ts₅, _, range,
    rfl, rfl, hrange, w₇, _, ts₇, _, _, rfl, rfl, hnls, w₉, w₁₀, ts₉, ts₁₀, stmts, rfl, rfl,
    star_mono hstmts (by omega) hL, hpure⟩

/-- The statements inside an `iftid` are shorter than it. -/
theorem tidIfElseStmt_mono {L L' : Language Token ThreadLocalStmt} {n : ℕ}
    {stmt : ThreadLocalStmt} (h : tidIfElseStmt d L w ts stmt) (hlen : w.length ≤ n + 1)
    (hL : ∀ w ts a, w.length ≤ n → L w ts a → L' w ts a) : tidIfElseStmt d L' w ts stmt := by
  obtain ⟨w₁, w₂, ts₁, ts₂, first, rfl, rfl, hfirst, w₃, w₄, ts₃, ts₄, others, rfl, rfl, hothers,
    w₅, w₆, ts₅, ts₆, _, rfl, rfl, ⟨w₇, w₈, ts₇, ts₈, _, rfl, rfl, ⟨rfl, rfl, rfl⟩, hnls⟩, w₉, w₁₀,
    ts₉, ts₁₀, stmts, rfl, rfl, hstmts, hend⟩ := h
  have helse : elseTidText.length = 7 := rfl
  simp only [List.length_append] at hlen
  exact ⟨w₁, _, ts₁, _, first, rfl, rfl, tidBranch_mono hfirst (by omega) hL, w₃, _, ts₃, _, others,
    rfl, rfl, star_mono hothers (by omega) fun w ts b hw hb => tidBranch_mono hb hw hL, _, _, _, _,
    _, rfl, rfl, ⟨_, w₈, [], ts₈, _, rfl, rfl, ⟨rfl, rfl, rfl⟩, hnls⟩, w₉, w₁₀, ts₉, ts₁₀, stmts,
    rfl, rfl, star_mono hstmts (by omega) hL, hend⟩

/-- No text has more levels of `iftid` than characters. -/
theorem threadLocalStmt_length {depth n : ℕ} {stmt : ThreadLocalStmt}
    (h : threadLocalStmt d depth w ts stmt) (hlen : w.length ≤ n) :
    threadLocalStmt d (n + 1) w ts stmt := by
  induction depth generalizing w ts stmt n with
  | zero => exact h.elim
  | succ depth ih =>
      obtain h | h := h
      · exact Or.inl h
      · refine Or.inr ?_
        cases n with
        | zero =>
            obtain ⟨w₁, w₂, ts₁, ts₂, _, rfl, rfl,
              ⟨_, w₄, ts₃, ts₄, _, rfl, rfl, ⟨rfl, rfl, rfl⟩, -⟩,
              -⟩ := h
            simp [ifTidText] at hlen
        | succ n => exact tidIfElseStmt_mono h hlen fun w ts a hw ha => ih ha hw

end Depth

section Nesting

variable {p p' : Parser ThreadLocalStmt} {L : Language Token ThreadLocalStmt} {s : Text} {n : ℕ}

end Nesting

theorem complete_star_nl : Complete (Parser.star Parse.nl >>= fun _ => pure ())
    (star nl >>= fun _ => pure () : Language Token Unit) LineStart := by
  rintro w ts u rest ⟨w₁, w₂, ts₁, ts₂, as, rfl, rfl, hstar, rfl, rfl, rfl⟩ hrest
  rw [List.append_nil]
  cases hstar with
  | nil => exact Parser.bind_some (Parser.star_none (nl_none_of_lineStart hrest))
  | @cons w₃ w₄ ts₃ ts₄ a as hnl htail =>
      obtain ⟨-, before, comment, after, rfl, hbefore, hafter, hcomment⟩ := nl_iff.mp ⟨a, hnl⟩
      obtain ⟨vs, hvs⟩ := star_nl_append htail hrest
      obtain ⟨v, hv⟩ := nl_append (w₄ ++ rest) hbefore hafter hcomment
      have hstar : ∃ vs, Parser.star Parse.nl (before ++ (comment ++ '\n' :: (after ++
          (w₄ ++ rest)))) = some (vs, rest) := by
        refine ⟨v :: vs, Parser.star_cons hv ?_ hvs⟩
        have := (List.dropWhile_sublist isSpace (l := w₄ ++ rest)).length_le
        simp only [List.length_append, List.length_cons] at this ⊢
        omega
      obtain ⟨vs, hvs⟩ := hstar
      simp only [List.append_assoc, List.cons_append]
      exact Parser.bind_some hvs

/-- The parser reads every program of its dialect. -/
theorem complete_program {text : Text} {ts : List Token} {ast : Program}
    (h : program .parsed text ts ast) : Parse.program text = some (ast, []) := by
  obtain ⟨depth, w₁, w₂, ts₁, ts₂, as, rfl, rfl, hnl, w₃, w₄, ts₃, ts₄, globalProg, rfl, rfl,
    hglobal, w₅, w₆, ts₅, ts₆, threadProg, rfl, rfl, hthread, rfl, rfl, rfl⟩ := h
  have hreads := readsStmt_threadLocalStmt ((w₁ ++ (w₃ ++ (w₅ ++ []))).length + 1)
  have hstmts : star (threadLocalStmt .parsed ((w₁ ++ (w₃ ++ (w₅ ++ []))).length + 1)) w₅ ts₅
      threadProg := by
    refine star_mono hthread (Nat.le_refl _) fun w ts a hw ha => threadLocalStmt_length ha ?_
    simp only [List.length_append] at hw ⊢
    omega
  have hstart : LineStart (w₅ ++ []) := by
    cases hstmts with
    | nil => exact avoids_nil
    | cons hstmt _ =>
        rw [List.append_assoc]
        exact hreads.begins _ _ _ _ hstmt
  have hlines := complete_star_nl w₁ ts₁ () (w₃ ++ (w₅ ++ []))
    ⟨w₁, [], ts₁, [], as, by simp, by simp, hnl, rfl, rfl, rfl⟩
    (begins_globalProgram _ _ _ _ hglobal)
  obtain ⟨⟨vs, rest⟩, hvs, heq⟩ := Option.bind_eq_some_iff.mp hlines
  obtain ⟨-, rfl⟩ := Prod.mk.inj (Option.some.inj heq)
  refine (Parser.bind_some hvs).trans ?_
  refine (Parser.bind_some (complete_globalProgram _ _ _ _ hglobal hstart)).trans ?_
  exact Parser.bind_some (hreads.star w₅ ts₅ threadProg [] hstmts (Or.inl rfl))

end Explore.Takehome.Parse.Grammar
