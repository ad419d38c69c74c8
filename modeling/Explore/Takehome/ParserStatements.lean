import Explore.Takehome.ParserComplete

/-!
# Statements are read whole

The keywords are not reserved. A name that is or begins with a keyword starts an assignment,
and then the space or the name that a declaration or an `iftid` needs does not come.
-/

namespace Explore.Takehome.Parse.Grammar

open Peg Peg.Language Parse

section Keywords

variable {kw name rest t v w : Text}

/-- A keyword at the start of a name. -/
theorem lit_name (hkw : ∀ c ∈ kw, isLetter c = true) (hrest : Delimited rest)
    (h : Parser.lit kw (name ++ rest) = some (v, t)) : ∃ cs, name = kw ++ cs ∧ t = cs ++ rest := by
  rw [Parser.lit] at h
  split at h
  · rename_i hprefix
    obtain ⟨-, rfl⟩ := Prod.mk.inj (Option.some.inj h)
    clear h
    induction kw generalizing name with
    | nil => exact ⟨name, rfl, rfl⟩
    | cons k kw ih =>
        cases name with
        | nil =>
            obtain ⟨u, rfl⟩ := hprefix
            have hk := avoids_cons.mp hrest
            rw [hkw k List.mem_cons_self] at hk
            simp at hk
        | cons n name =>
            obtain ⟨heq, htail⟩ := List.cons_prefix_cons.mp hprefix
            obtain ⟨cs, rfl, ht⟩ := ih (fun c hc => hkw c (List.mem_cons_of_mem _ hc)) htail
            subst heq
            exact ⟨cs, rfl, ht⟩
  · simp at h

theorem IsName.isLetter (h : IsName name) : ∀ c ∈ name, isLetter c = true := by
  obtain ⟨c, cs, rfl, hc, hcs⟩ := h
  intro d hd
  obtain rfl | hd := List.mem_cons.mp hd
  · exact isLetter_of_isSmall hc
  · exact hcs d hd

theorem unspaced_of_letters {cs : Text} (hcs : ∀ c ∈ cs, isLetter c = true) (hne : cs ≠ []) :
    Unspaced (cs ++ rest) := by
  obtain ⟨c, cs, rfl⟩ := List.exists_cons_of_ne_nil hne
  have hc := hcs c List.mem_cons_self
  rw [List.cons_append, Unspaced, avoids_cons]
  simpa [isSpace] using ne_of_class hc (show isLetter ' ' = false by decide)

/-- After a name that begins with a keyword, spaces come only if it is the keyword. -/
theorem space_after_keyword {cs s : Text} (hname : IsName (kw ++ cs)) (hrest : Delimited rest)
    (h : Parse.space (cs ++ rest) = some (v, s)) : s = rest.dropWhile isSpace := by
  cases cs with
  | nil =>
      cases rest with
      | nil => simp [Parse.space, Parser.bind_apply, Parser.char] at h
      | cons c rest =>
          by_cases hc : isSpace c = true
          · have hspace : Parse.space (c :: rest) =
                some (c :: rest.takeWhile isSpace, rest.dropWhile isSpace) := by
              simp [Parse.space, Parser.bind_apply, Parser.char, Parser.chars, hc]
            obtain ⟨-, rfl⟩ := Prod.mk.inj (Option.some.inj (hspace.symm.trans h))
            rw [List.dropWhile_cons_of_pos hc]
          · rw [List.nil_append, space_none (avoids_cons.mpr (by simpa using hc))] at h
            simp at h
  | cons c cs =>
      have hletters : ∀ d ∈ c :: cs, isLetter d = true := fun d hd =>
        hname.isLetter d (List.mem_append_right _ hd)
      rw [space_none (unspaced_of_letters hletters (List.cons_ne_nil _ _))] at h
      simp at h

end Keywords

section Declarations

variable {w rest name : Text} {ts : List Token}

theorem begins_nls : Begins nls LineEnd := fun _ _ _ _ h => lineEnd_of_nls h

theorem begins_space : Begins space fun s => ∃ t, s = ' ' :: t := by
  intro w ts x rest h
  obtain ⟨-, -, hne, hw⟩ := space_iff.mp h
  obtain ⟨c, cs, rfl⟩ := List.exists_cons_of_ne_nil hne
  obtain rfl : c = ' ' := by simpa [isSpace] using hw c List.mem_cons_self
  exact ⟨cs ++ rest, rfl⟩

theorem begins_space_avoids {P : Char → Bool} (hP : P ' ' = false) : Begins space (Avoids P) :=
  begins_space.mono fun s ⟨t, ht⟩ => by
    rw [ht]
    exact avoids_cons.mpr hP

theorem complete_variableType :
    Complete Parse.variableType variableType (Avoids fun c => c = '[') := by
  refine .orElse ((Complete.lit _).mono fun _ _ => trivial)
    ((Complete.lit _).mono fun _ _ => trivial) fun w ts x rest h hrest => ?_
  obtain ⟨rfl, -, -⟩ := h
  refine Parser.lit_none ?_
  rw [registerArray, List.prefix_append_right_inj]
  rintro ⟨t, rfl⟩
  simp at hrest

theorem variableType_none (h : Avoids (fun c => c = 'r') rest) : Parse.variableType rest = none :=
  (Parser.orElse_none (lit_none_of_avoids h)).trans (lit_none_of_avoids h)

/-- The end of an assignment or a definition. -/
theorem complete_value (f : ValueExpr → β) : Complete (do
      let _ ← litEq
      let value ← Parse.valueExpr
      Parse.nls
      pure (f value)) (do
      let _ ← spaced (lit ['='])
      let value ← valueExpr .parsed
      nls
      pure (f value) : Language Token β) LineStart :=
  .bindBegins (complete_spaced_lit (by decide)) (fun _ => .bindBegins complete_valueExpr
    (fun _ => complete_nls.bindPure _) fun _ => begins_nls.bind) fun _ => begins_valueExpr.bind

/-- The names of a declaration after the first one. -/
theorem complete_otherNames : Complete (Parser.star do
      let _ ← litComma
      Parse.variableName) (star do
      let _ ← spaced (lit [','])
      variableName : Language Token (List Text)) LineEnd := by
  refine .star (F := Delimited) (.bindBegins (complete_spaced_lit (by decide))
    (fun _ => complete_variableName) fun _ => begins_name_unspaced) (fun w ts name h => ?_)
    (fun w ts name rest h => ?_) (fun _ h => h.delimited) fun rest h => ?_
  · obtain ⟨w₁, w₂, ts₁, ts₂, x, rfl, rfl, hcomma, -⟩ := h
    obtain ⟨-, -, before, after, rfl, -, -⟩ := spaced_lit_iff.mp hcomma
    simp
  · exact (begins_spaced_lit_delimited (by decide)).bind w ts name rest h
  · exact Parser.bind_none (spaced_lit_none (h.avoids_dropWhile (by decide) (by decide)))

theorem complete_variableDeclaration :
    Complete Parse.variableDeclaration variableDeclaration LineStart := by
  refine .bindBegins complete_variableType (fun _ => .bindBegins complete_space
    (fun _ => .bind complete_variableName (fun _ => .bindBegins complete_otherNames
      (fun _ => complete_nls.bindPure _) fun _ => begins_nls.bind) ?_)
    fun _ => begins_name_unspaced.bind) fun _ => (begins_space_avoids (by decide)).bind
  rintro _ w ts b rest ⟨w₁, w₂, ts₁, ts₂, names, rfl, rfl, hstar, hnls⟩ _
  rw [List.append_assoc]
  cases hstar with
  | nil => exact (begins_nls.bind _ _ _ rest hnls).delimited
  | cons hfirst _ =>
      rw [List.append_assoc]
      exact (begins_spaced_lit_delimited (by decide)).bind _ _ _ _ hfirst

theorem complete_variableDefinition :
    Complete Parse.variableDefinition (variableDefinition .parsed) LineStart :=
  .bindBegins complete_variableType (fun _ => .bindBegins complete_space
    (fun _ => .bindBegins complete_variableName (fun _ => complete_value _)
      fun _ => (begins_spaced_lit_delimited (by decide)).bind)
    fun _ => begins_name_unspaced.bind) fun _ => (begins_space_avoids (by decide)).bind

theorem nls_none (h : Avoids (fun c => c = '#' || c = '\n') (rest.dropWhile isSpace)) :
    Parse.nls rest = none := Parser.bind_none (Parser.bind_none (nl_none h))

/-- A declaration without a value needs the end of the line where a definition has `=`. -/
theorem variableDeclaration_none {decl : VariableDeclarationStmt}
    (h : variableDefinition .parsed w ts decl) : Parse.variableDeclaration (w ++ rest) = none := by
  obtain ⟨w₁, w₂, ts₁, ts₂, varType, rfl, rfl, htype, w₃, w₄, ts₃, ts₄, sp, rfl, rfl, hspace, w₅,
    w₆, ts₅, ts₆, name, rfl, rfl, hname, heq⟩ := h
  have hnext : Next '=' (w₆ ++ rest) := (begins_spaced_lit '=').bind _ _ _ rest heq
  have hcomma : litComma (w₆ ++ rest) = none :=
    spaced_lit_none (hnext.avoids_dropWhile (by decide) (by decide))
  simp only [List.append_assoc]
  refine (Parser.bind_some (complete_variableType _ _ _ _ htype
    (begins_space_avoids (by decide) _ _ _ _ hspace))).trans ?_
  refine (Parser.bind_some (complete_space _ _ _ _ hspace
    (begins_name_unspaced _ _ _ _ hname))).trans ?_
  refine (Parser.bind_some (complete_variableName _ _ _ _ hname
    (hnext.avoids (by decide) (by decide)))).trans ?_
  refine (Parser.bind_some (Parser.star_none (Parser.bind_none hcomma))).trans ?_
  exact Parser.bind_none (nls_none (hnext.avoids_dropWhile (by decide) (by decide)))

theorem complete_variableDeclarationStmt :
    Complete Parse.variableDeclarationStmt (variableDeclarationStmt .parsed) LineStart :=
  .orElse complete_variableDeclaration complete_variableDefinition
    fun _ _ _ _ h _ => variableDeclaration_none h

theorem variableDeclarationStmt_none_of_type (h : Parse.variableType rest = none) :
    Parse.variableDeclarationStmt rest = none :=
  (Parser.orElse_none (Parser.bind_none h)).trans (Parser.bind_none h)

/-- A line that begins with a name after which no other name comes is no declaration. -/
theorem variableDeclarationStmt_none (hname : IsName name) (hrest : Delimited rest)
    (hbracket : Avoids (fun c => c = '[') rest)
    (hnext : Avoids isSmall (rest.dropWhile isSpace)) :
    Parse.variableDeclarationStmt (name ++ rest) = none := by
  cases htype : Parse.variableType (name ++ rest) with
  | none => exact variableDeclarationStmt_none_of_type htype
  | some r =>
      obtain ⟨varType, t⟩ := r
      have harray : Parser.lit registerArray (name ++ rest) = none := by
        refine Parser.lit_none ?_
        rintro ⟨u, hu⟩
        rw [registerArray, List.append_assoc] at hu
        obtain ⟨cs, rfl, ht⟩ := lit_name (by decide) hrest (hu ▸ Parser.lit_append register _)
        have hletters : ∀ c ∈ cs, isLetter c = true := fun c hc =>
          hname.isLetter c (List.mem_append_right _ hc)
        cases cs with
        | nil =>
            rw [List.nil_append] at ht
            simp [← ht] at hbracket
        | cons c cs =>
            obtain ⟨rfl, -⟩ := List.cons.inj ht
            exact absurd (hletters '[' List.mem_cons_self) (by decide)
      obtain ⟨cs, rfl, rfl⟩ := lit_name (by decide) hrest
        ((Parser.orElse_none harray).symm.trans htype)
      have hspace (q : Text → Parser VariableDeclarationStmt) : (Parse.space >>= fun _ =>
          Parse.variableName >>= q) (cs ++ rest) = none := by
        cases hsp : Parse.space (cs ++ rest) with
        | none => exact Parser.bind_none hsp
        | some r =>
            obtain ⟨sp, s⟩ := r
            rw [Parser.bind_some hsp, space_after_keyword hname hrest hsp]
            exact Parser.bind_none (variableName_none hnext)
      exact (Parser.orElse_none ((Parser.bind_some htype).trans (hspace _))).trans
        ((Parser.bind_some htype).trans (hspace _))

end Declarations

section Assignments

variable {w rest name : Text} {ts : List Token}

theorem isSmall_ne_at {c : Char} (h : isSmall c = true) : c ≠ '@' := ne_of_class h (by decide)

theorem begins_name_lineStart : Begins variableName LineStart :=
  begins_name.mono fun _ h => h.of_not fun c hc => by
    have hspace : c ≠ ' ' := ne_of_class hc (by decide)
    have hhash : c ≠ '#' := ne_of_class hc (by decide)
    have hnewline : c ≠ '\n' := ne_of_class hc (by decide)
    simp [hspace, hhash, hnewline]

theorem begins_at_lineStart : Begins (lit ['@'] : Language Token Text) LineStart :=
  (begins_lit '@' []).mono fun s ⟨t, ht⟩ => by
    rw [ht]
    exact avoids_cons.mpr (by decide)

theorem begins_assignmentStmt : Begins (assignmentStmt .parsed) LineStart :=
  .orElse begins_name_lineStart.bind begins_at_lineStart.bind

theorem complete_assignmentStmt :
    Complete Parse.assignmentStmt (assignmentStmt .parsed) LineStart := by
  refine .orElse (.bindBegins complete_variableName (fun _ => complete_value _)
    fun _ => (begins_spaced_lit_delimited (by decide)).bind) (.bindBegins (F := fun _ => True)
    (.lit _) (fun _ => .bindBegins complete_variableName (fun _ => complete_value _)
      fun _ => (begins_spaced_lit_delimited (by decide)).bind) fun _ _ _ _ _ _ => trivial)
    fun w ts stmt rest h _ => ?_
  obtain ⟨t, ht⟩ := (begins_lit '@' []).bind w ts stmt rest h
  rw [ht]
  exact Parser.bind_none (variableName_none (avoids_cons.mpr (by decide)))

/-- A name is assigned to only if `=` follows it. -/
theorem assignmentStmt_none (hname : IsName name) (hrest : Delimited rest)
    (hnext : Avoids (fun c => c = '=') (rest.dropWhile isSpace)) :
    Parse.assignmentStmt (name ++ rest) = none := by
  have hread : Parse.variableName (name ++ rest) = some (name, rest) :=
    complete_variableName name _ name rest (variableName_iff.mpr ⟨rfl, rfl, hname⟩) hrest
  have hload : Parse.loadVariable (name ++ rest) = none :=
    (Parser.bind_some hread).trans (Parser.bind_none (spaced_lit_none hnext))
  obtain ⟨c, t, rfl, hc⟩ := hname.exists_cons
  refine (Parser.orElse_none hload).trans (Parser.bind_none (lit_none_of_avoids ?_))
  exact avoids_cons.mpr (by simpa using isSmall_ne_at hc)

/-- An assignment begins with `@`, or with a name that `=` follows. -/
theorem assignmentStmt_cases {stmt : AssignmentStmt} (rest : Text)
    (h : assignmentStmt .parsed w ts stmt) :
    (∃ t, w ++ rest = '@' :: t) ∨ ∃ name t, w ++ rest = name ++ t ∧ IsName name ∧ Next '=' t := by
  obtain h | h := h
  · obtain ⟨w₁, w₂, ts₁, ts₂, name, rfl, rfl, hname, heq⟩ := h
    obtain ⟨rfl, -, hname⟩ := variableName_iff.mp hname
    exact Or.inr ⟨w₁, w₂ ++ rest, List.append_assoc _ _ _, hname,
      (begins_spaced_lit '=').bind _ _ _ rest heq⟩
  · exact Or.inl ((begins_lit '@' []).bind w ts stmt rest h)

theorem variableDeclarationStmt_none_of_assignment {stmt : AssignmentStmt}
    (h : assignmentStmt .parsed w ts stmt) : Parse.variableDeclarationStmt (w ++ rest) = none := by
  obtain ⟨t, ht⟩ | ⟨name, t, ht, hname, hnext⟩ := assignmentStmt_cases rest h
  · rw [ht]
    exact variableDeclarationStmt_none_of_type (variableType_none (avoids_cons.mpr (by decide)))
  · rw [ht]
    exact variableDeclarationStmt_none hname (hnext.avoids (by decide) (by decide))
      (hnext.avoids (by decide) (by decide)) (hnext.avoids_dropWhile (by decide) (by decide))

theorem complete_keyword (text : Text) :
    Complete (Parse.keyword text) (keyword text) LineStart :=
  .bindBegins (F := fun _ => True) (.lit _) (fun _ => complete_nls) fun _ _ _ _ _ _ => trivial

theorem keyword_cases {text : Text} {u : Unit} (rest : Text) (h : keyword text w ts u) :
    ∃ t, w ++ rest = text ++ t ∧ LineEnd t := by
  obtain ⟨w₁, w₂, ts₁, ts₂, _, rfl, rfl, ⟨rfl, rfl, rfl⟩, hnls⟩ := h
  exact ⟨w₂ ++ rest, List.append_assoc _ _ _, lineEnd_of_nls hnls⟩

theorem assignmentStmt_none_of_lineEnd (hname : IsName name) (h : LineEnd rest) :
    Parse.assignmentStmt (name ++ rest) = none :=
  assignmentStmt_none hname h.delimited (h.avoids_dropWhile (by decide) (by decide))

theorem isName_pauseText : IsName pauseText := ⟨'p', _, rfl, by decide, by decide⟩

end Assignments

section GlobalStatements

variable {w rest : Text} {ts : List Token}

/-- What ends a list of statements: the end of the text, or a keyword that begins with `e`. -/
def Closing (rest : Text) : Prop :=
  rest = [] ∨ ∃ name t, rest = 'e' :: (name ++ t) ∧ IsName ('e' :: name) ∧ Delimited t ∧
    Avoids (fun c => c = '=') (t.dropWhile isSpace)

theorem Closing.avoids {P : Char → Bool} (h : Closing rest) (hP : P 'e' = false) :
    Avoids P rest := by
  obtain rfl | ⟨name, t, rfl, -⟩ := h
  · exact avoids_nil
  · exact avoids_cons.mpr hP

theorem Closing.lineStart (h : Closing rest) : LineStart rest := h.avoids (by decide)

theorem Closing.assignmentStmt_none (h : Closing rest) : Parse.assignmentStmt rest = none := by
  obtain rfl | ⟨name, t, rfl, hname, ht, hnext⟩ := h
  · rfl
  · exact Grammar.assignmentStmt_none hname ht hnext

theorem Closing.pauseStmt_none (h : Closing rest) : Parse.pauseStmt rest = none :=
  Parser.bind_none (lit_none_of_avoids (h.avoids (by decide)))

theorem Closing.variableDeclarationStmt_none (h : Closing rest) :
    Parse.variableDeclarationStmt rest = none :=
  variableDeclarationStmt_none_of_type (variableType_none (h.avoids (by decide)))

theorem Closing.globalStmt_none (h : Closing rest) : Parse.globalStmt rest = none :=
  (Parser.orElse_none (Parser.bind_none h.variableDeclarationStmt_none)).trans
    ((Parser.orElse_none (Parser.bind_none h.assignmentStmt_none)).trans
      (Parser.bind_none h.pauseStmt_none))

theorem begins_keyword {c : Char} {cs : Text}
    (hc : (c = ' ' || c = '#' || c = '\n') = false) : Begins (keyword (c :: cs)) LineStart :=
  Begins.bind ((begins_lit c cs).mono fun s ⟨t, ht⟩ => by
    rw [ht]
    exact avoids_cons.mpr hc)

theorem begins_variableDeclarationStmt :
    Begins (variableDeclarationStmt .parsed) LineStart := by
  have htype : Begins variableType LineStart := by
    refine .orElse ?_ ?_
    · exact (begins_lit 'r' _).mono fun s ⟨t, ht⟩ => by
        rw [ht]
        exact avoids_cons.mpr (by decide)
    · exact (begins_lit 'r' _).mono fun s ⟨t, ht⟩ => by
        rw [ht]
        exact avoids_cons.mpr (by decide)
  exact .orElse htype.bind htype.bind

theorem begins_globalStmt : Begins (globalStmt .parsed) LineStart :=
  .orElse begins_variableDeclarationStmt.bind (.orElse begins_assignmentStmt.bind
    (Begins.bind (begins_keyword (by decide))))

theorem complete_globalStmt : Complete Parse.globalStmt (globalStmt .parsed) LineStart := by
  refine .orElse (complete_variableDeclarationStmt.bindPure _)
    (.orElse (complete_assignmentStmt.bindPure _) ((complete_keyword _).bindPure _)
      fun w ts stmt rest h _ => ?_) fun w ts stmt rest h _ => ?_
  · obtain ⟨w₁, w₂, ts₁, ts₂, u, rfl, rfl, h, rfl, rfl, rfl⟩ := h
    obtain ⟨t, ht, hend⟩ := keyword_cases rest h
    rw [List.append_nil, ht]
    exact Parser.bind_none (assignmentStmt_none_of_lineEnd isName_pauseText hend)
  · obtain h | h := h
    · obtain ⟨w₁, w₂, ts₁, ts₂, stmt, rfl, rfl, h, rfl, rfl, rfl⟩ := h
      rw [List.append_nil]
      exact Parser.bind_none (variableDeclarationStmt_none_of_assignment h)
    · obtain ⟨t, ht⟩ := (Begins.bind (Begins.bind (begins_lit 'p' _))) w ts stmt rest h
      rw [ht]
      exact Parser.bind_none (variableDeclarationStmt_none_of_type
        (variableType_none (avoids_cons.mpr (by decide))))

theorem Begins.nonempty {L : Language Token α} {c : Char}
    (h : Begins L (Avoids fun d => d = c)) {a : α} (hL : L w ts a) : w ≠ [] := by
  rintro rfl
  simpa using h [] ts a [c] hL

theorem globalStmt_nonempty {stmt : GlobalStmt} (h : globalStmt .parsed w ts stmt) : w ≠ [] :=
  Begins.nonempty (c := ' ') (begins_globalStmt.mono fun _ h => h.mono fun c hc => by
    simp [of_decide_eq_true hc]) h

theorem closing_endGlobal {u : Unit} (h : keyword endGlobalText w ts u) : Closing (w ++ rest) := by
  obtain ⟨t, ht, -⟩ := keyword_cases rest h
  rw [ht]
  exact Or.inr ⟨['n', 'd'], [' ', 'g', 'l', 'o', 'b', 'a', 'l'] ++ t, rfl,
    ⟨'e', _, rfl, by decide, by decide⟩, avoids_cons.mpr (by decide), avoids_cons.mpr (by decide)⟩

theorem complete_globalProgram : Complete Parse.globalProgram
    (globalProgram .parsed) LineStart := by
  refine .bindBegins (.star complete_globalStmt (fun _ _ _ => globalStmt_nonempty)
    (fun w ts a rest h => begins_globalStmt w ts a rest h) (fun _ => Closing.lineStart)
    fun _ => Closing.globalStmt_none) (fun _ => (complete_keyword _).bindPure _) fun _ => ?_
  exact Begins.bind fun w ts u rest h => closing_endGlobal h

theorem begins_globalProgram : Begins (globalProgram .parsed) LineStart := by
  rintro w ts stmts rest ⟨w₁, w₂, ts₁, ts₂, stmts', rfl, rfl, hstar, hend⟩
  rw [List.append_assoc]
  cases hstar with
  | nil => exact (begins_keyword (by decide)).bind _ _ _ rest hend
  | cons hstmt _ =>
      rw [List.append_assoc]
      exact begins_globalStmt _ _ _ _ hstmt

end GlobalStatements

end Explore.Takehome.Parse.Grammar
