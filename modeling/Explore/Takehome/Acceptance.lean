import Explore.Takehome.Dialects

/-!
# Which accepted texts are programs of the grammar

The parser leaves the grammar only by an index without its bracket, and drops only the
integers of a range after the second one. So a text that it reads whole is in the grammar,
with all of its tokens kept, exactly if outside of comments its square brackets are as many
on either side and no range has a second comma.
-/

namespace Explore.Takehome.Parse.Grammar

open Peg Peg.Language Parse

section Productions

theorem agree_selectExpr : Agree [] selectExpr selectExpr ValueExpr.tokens :=
  .bind agree_condExpr fun _ => .bind (agree_spacedLit (by decide) (by decide)) fun _ =>
    .bind agree_varOrConst fun _ => .bind (agree_spacedLit (by decide) (by decide)) fun _ =>
      .bind agree_varOrConst fun _ => .pure (by simp [ValueExpr.tokens, noTokens])

theorem agree_multAddExpr : Agree [] multAddExpr multAddExpr ValueExpr.tokens :=
  .bind agree_variableName fun _ => .bind (agree_spacedLit (by decide) (by decide)) fun _ =>
    .bind agree_varOrConst fun _ => .bind (agree_spacedLit (by decide) (by decide)) fun _ =>
      .bind agree_varOrConst fun _ => .pure (by simp [ValueExpr.tokens, noTokens, nameTokens])

theorem agree_binOpExpr : Agree [] binOpExpr binOpExpr ValueExpr.tokens :=
  .bind agree_varOrConst fun _ => .bind (agree_spaced agree_operator) fun _ =>
    .bind agree_varOrConst fun _ => .pure (by simp [ValueExpr.tokens, operatorTokens])

theorem agree_at : Agree [] (lit ['@']) (lit ['@']) noTokens := agree_lit (by decide) (by decide)

/-- `[` and `]` are not balanced one by one. -/
theorem agree_derefIndividualWords :
    Agree [] derefIndividualWords derefIndividualWords ValueExpr.tokens := by
  refine .bind agree_at fun _ => .bind agree_variableName fun name => ?_
  refine .same ?_
  rintro w ts a ⟨_, w₂, ts₁, ts₂, _, rfl, rfl, ⟨rfl, rfl, rfl⟩, _, w₄, ts₃, ts₄, _, rfl, rfl,
    ⟨rfl, rfl, rfl⟩, rfl, rfl, rfl⟩
  exact ⟨(closed_of_plain (by decide)).1, rfl, rfl, rfl⟩

theorem agree_valueExpr :
    Agree [] (valueExpr .documented) (valueExpr .parsed) ValueExpr.tokens := by
  refine .orElse agree_selectExpr (.orElse agree_multAddExpr (.orElse agree_derefIndividualWords
    (.orElse ?_ (.orElse ?_ (.orElse agree_binOpExpr (.orElse ?_ ?_))))))
  · exact .bind agree_at fun _ => .bind agree_variableName fun _ => .pure rfl
  · exact .bind agree_at fun _ => .bind agree_intConstantExpr fun _ => .pure rfl
  · refine .bind agree_variableName fun _ => .bind agree_index.opt fun index => .pure ?_
    cases index with
    | none => rfl
    | some expr => rfl
  · exact .bind agree_intConstantExpr fun _ => .pure rfl

theorem agree_variableType : Agree [] variableType variableType noTokens :=
  .orElse (agree_lit (by decide) (by decide)) (agree_lit (by decide) (by decide))

theorem flatMap_nameTokens (names : List Text) :
    names.flatMap nameTokens = names.map .variableName := by
  induction names with
  | nil => rfl
  | cons name names ih =>
      rw [List.flatMap_cons, ih]
      rfl

theorem agree_variableDeclarationStmt : Agree [] (variableDeclarationStmt .documented)
    (variableDeclarationStmt .parsed) VariableDeclarationStmt.tokens := by
  have hother : Agree [] (do
      let _ ← spaced (lit [','])
      variableName) (do
      let _ ← spaced (lit [','])
      variableName) nameTokens :=
    .bind (agree_spacedLit (by decide) (by decide)) fun _ => agree_variableName
  refine .orElse ?_ ?_
  · refine .bind agree_variableType fun _ => .bind agree_space fun _ =>
      .bind agree_variableName fun _ => .bind hother.star fun _ =>
        .bind agree_nls fun _ => .pure ?_
    simp [VariableDeclarationStmt.tokens, noTokens, nameTokens, flatMap_nameTokens]
  · refine .bind agree_variableType fun _ => .bind agree_space fun _ =>
      .bind agree_variableName fun _ => .bind (agree_spacedLit (by decide) (by decide)) fun _ =>
        .bind agree_valueExpr fun _ => .bind agree_nls fun _ => .pure ?_
    simp [VariableDeclarationStmt.tokens, noTokens, nameTokens]

theorem agree_assignmentStmt :
    Agree [] (assignmentStmt .documented) (assignmentStmt .parsed) AssignmentStmt.tokens := by
  refine .orElse ?_ ?_
  · exact .bind agree_variableName fun _ => .bind (agree_spacedLit (by decide) (by decide)) fun _ =>
      .bind agree_valueExpr fun _ => .bind agree_nls fun _ =>
        .pure (by simp [AssignmentStmt.tokens, noTokens, nameTokens])
  · exact .bind agree_at fun _ => .bind agree_variableName fun _ =>
      .bind (agree_spacedLit (by decide) (by decide)) fun _ => .bind agree_valueExpr fun _ =>
        .bind agree_nls fun _ => .pure (by simp [AssignmentStmt.tokens, noTokens, nameTokens])

theorem agree_keyword {text : Text} (h : ∀ c ∈ text, isPlain c = true)
    (hcount : text.count '[' = text.count ']') : Agree [] (keyword text) (keyword text) noTokens :=
  .bind (agree_lit h hcount) fun _ => agree_nls

theorem agree_globalProgram : Agree [] (globalProgram .documented) (globalProgram .parsed)
    (List.flatMap GlobalStmt.tokens) := by
  have hstmt : Agree [] (globalStmt .documented) (globalStmt .parsed) GlobalStmt.tokens :=
    .orElse (.bind agree_variableDeclarationStmt fun _ => .pure rfl)
      (.orElse (.bind agree_assignmentStmt fun _ => .pure rfl)
        (.bind (agree_keyword (by decide) (by decide)) fun _ => .pure rfl))
  exact .bind hstmt.star fun _ => .bind (agree_keyword (by decide) (by decide)) fun _ =>
    .pure (by simp [noTokens])

end Productions

section Threads

variable {Ld Lp : Language Token ThreadLocalStmt}

/-- The tokens of a range and of its statements. -/
def rangeTokens (branch : TidRange × List ThreadLocalStmt) : List Token :=
  branch.1.tokens ++ branch.2.flatMap ThreadLocalStmt.tokens

theorem flatMap_tokens (stmts : List ThreadLocalStmt) :
    stmts.flatMap ThreadLocalStmt.tokens = stmtsTokens stmts := by
  induction stmts with
  | nil => rfl
  | cons stmt stmts ih => rw [List.flatMap_cons, ih, stmtsTokens]

theorem branchTokens_append (branches : List (TidRange × List ThreadLocalStmt))
    (stmts : List ThreadLocalStmt) :
    branchTokens (branches.map Prod.fst) (branches.map Prod.snd ++ [stmts]) =
      branches.flatMap rangeTokens ++ stmts.flatMap ThreadLocalStmt.tokens := by
  induction branches with
  | nil => simp [branchTokens, flatMap_tokens]
  | cons branch branches ih =>
      rw [List.map_cons, List.map_cons, List.cons_append, branchTokens, ih, ← flatMap_tokens,
        List.flatMap_cons, rangeTokens, List.append_assoc _ (branches.flatMap _)]

theorem agree_tidBranch {text : Text} (h : ∀ c ∈ text, isPlain c = true)
    (hcount : text.count '[' = text.count ']') (hL : Agree [] Ld Lp ThreadLocalStmt.tokens) :
    Agree [] (tidBranch .documented text Ld) (tidBranch .parsed text Lp) rangeTokens :=
  .bind (agree_lit h hcount) fun _ => .bind agree_space fun _ => .bind agree_tidRange fun _ =>
    .bind agree_nls fun _ => .bind hL.star fun _ => .pure (by simp [rangeTokens, noTokens])

theorem agree_tidIfElseStmt (hL : Agree [] Ld Lp ThreadLocalStmt.tokens) :
    Agree [] (tidIfElseStmt .documented Ld) (tidIfElseStmt .parsed Lp) ThreadLocalStmt.tokens := by
  refine .bind (agree_tidBranch (by decide) (by decide) hL) fun first =>
    .bind (agree_tidBranch (by decide) (by decide) hL).star fun others =>
      .bind (agree_keyword (by decide) (by decide)) fun _ => .bind hL.star fun stmts =>
        .bind (agree_keyword (by decide) (by decide)) fun _ => .pure ?_
  have htokens := branchTokens_append (first :: others) stmts
  rw [List.map_cons, List.map_cons, List.flatMap_cons] at htokens
  rw [ThreadLocalStmt.tokens, htokens]
  simp [noTokens]

theorem agree_threadLocalStmt (depth : ℕ) : Agree [] (threadLocalStmt .documented depth)
    (threadLocalStmt .parsed depth) ThreadLocalStmt.tokens := by
  induction depth with
  | zero => exact .empty
  | succ depth ih =>
      have hdecl : Agree [] (threadLocalVariableStmt .documented) (threadLocalVariableStmt .parsed)
          VariableDeclarationStmt.tokens := .bind (agree_lit (by decide) (by decide)) fun _ =>
        .bind agree_space fun _ => agree_variableDeclarationStmt
      refine .orElse (.orElse ?_ (.orElse ?_ ?_)) (agree_tidIfElseStmt ih)
      · exact .bind hdecl fun _ => .pure (by simp [ThreadLocalStmt.tokens])
      · exact .bind agree_assignmentStmt fun _ => .pure (by simp [ThreadLocalStmt.tokens])
      · exact .bind (agree_keyword (by decide) (by decide)) fun _ =>
          .pure (by simp [ThreadLocalStmt.tokens, noTokens])

end Threads

/-- The programs with at most `depth` levels of `iftid`. -/
theorem agree_program (depth : ℕ) : Agree [] (do
      let _ ← star nl
      let globalProg ← globalProgram .documented
      let threadProg ← star (threadLocalStmt .documented depth)
      pure ⟨globalProg, threadProg⟩) (do
      let _ ← star nl
      let globalProg ← globalProgram .parsed
      let threadProg ← star (threadLocalStmt .parsed depth)
      pure ⟨globalProg, threadProg⟩) Program.tokens :=
  .bind agree_nl.star fun _ => .bind agree_globalProgram fun _ =>
    .bind (agree_threadLocalStmt depth).star fun _ =>
      .pure (by simp [Program.tokens, noTokens, flatMap_tokens])

/-- A text is in the grammar, with a derivation whose tokens the program keeps. -/
def KeepsDerivation (text : Text) (ast : Program) : Prop :=
  ∃ value, program .documented text ast.tokens value

/-- Outside of comments the square brackets are as many on either side, and no pair of
parentheses has a second comma. -/
def Regular (text : Text) : Prop := opens text = closes text ∧ ∀ n ∈ commas text, n ≤ 1

section Accepted

variable {text : Text} {ast : Program}

theorem exists_parsed (h : Parse.program text = some (ast, [])) :
    ∃ ts, program .parsed text ts ast := by
  obtain ⟨w, ts, hw, hparsed⟩ := sound_program text ast [] h
  rw [List.append_nil] at hw
  exact ⟨ts, hw ▸ hparsed⟩

theorem keepsDerivation_of_regular (h : Parse.program text = some (ast, []))
    (hregular : Regular text) : KeepsDerivation text ast := by
  obtain ⟨ts, depth, hparsed⟩ := exists_parsed h
  obtain ⟨hcount, hcommas⟩ := hregular
  have hagree := agree_program depth
  obtain ⟨ks, hks, -, hts⟩ := hagree.kept _ _ _ hparsed
  rw [List.nil_append] at hks
  refine ⟨ast, depth, ?_⟩
  rw [hks, ← hts hcommas]
  exact hagree.documented _ _ _ hparsed hcount

theorem regular_of_keepsDerivation (h : Parse.program text = some (ast, []))
    (hkeeps : KeepsDerivation text ast) : Regular text := by
  obtain ⟨ts, depth, hparsed⟩ := exists_parsed h
  obtain ⟨value, depth', hdocumented⟩ := hkeeps
  have hpos := (agree_program depth).commas_pos _ _ _ hparsed
  have hagree := agree_program depth'
  have hparsed' := hagree.parsed _ _ _ hdocumented hpos
  -- The parser reads this derivation too, so its value is the program.
  obtain rfl : value = ast := by
    have hread := complete_program ⟨depth', hparsed'⟩
    rw [h] at hread
    exact (Prod.mk.inj (Option.some.inj hread)).1.symm
  obtain ⟨ks, hks, hlen, -⟩ := hagree.kept _ _ _ hparsed'
  rw [List.nil_append] at hks
  rw [hks, Nat.left_eq_add] at hlen
  refine ⟨hagree.opens_eq _ _ _ hdocumented, fun n hn => ?_⟩
  have hzero := List.sum_eq_zero_iff_forall_eq_nat.mp hlen (n - 1) (List.mem_map_of_mem hn)
  omega

/-- What the parser reads whole is in the grammar, with nothing dropped, exactly if the text
is regular. -/
theorem keepsDerivation_iff (h : Parse.program text = some (ast, [])) :
    KeepsDerivation text ast ↔ Regular text :=
  ⟨regular_of_keepsDerivation h, keepsDerivation_of_regular h⟩

/-- `x = y[3]` for the threads of `range(0,0xF)`, and `x = y + 3` for the others. -/
def indexed : Program where
  globalProg := [.declaration (.variableDeclaration registerArray ['x'] [['y']])]
  threadProg :=
    [.tidIfElse [⟨.numberString ['0'], .numberStringHex ['0', 'x', 'F']⟩]
      [[.assignment (.loadVariable ['x'] (.variable ['y'] (some (.numberString ['3']))))],
        [.assignment (.loadVariable ['x']
          (.binOpExpr (.name ['y']) ['+'] (.const (.numberString ['3']))))]]]

theorem wellFormed_indexed : indexed.WellFormed := by
  have hx : IsName ['x'] := ⟨'x', [], rfl, by decide, by decide⟩
  have hy : IsName ['y'] := ⟨'y', [], rfl, by decide, by decide⟩
  have hzero : IsNumber ['0'] := ⟨[], ['0'], rfl, Or.inl rfl, by decide, by decide⟩
  have hthree : IsNumber ['3'] := ⟨[], ['3'], rfl, Or.inl rfl, by decide, by decide⟩
  have hhex : IsHex ['0', 'x', 'F'] := ⟨['F'], rfl, by decide, by decide⟩
  refine ⟨List.forall_mem_singleton.mpr ⟨Or.inl rfl, hx, List.forall_mem_singleton.mpr hy⟩,
    ⟨List.cons_ne_nil _ _, ⟨hzero, hhex⟩, ?_, ?_⟩, trivial⟩
  · exact ⟨⟨hx, hy, fun _ hindex => Option.some.inj hindex ▸ hthree⟩, trivial⟩
  · exact ⟨⟨hx, hy, by decide, hthree⟩, trivial⟩

theorem keepsDerivation_iff_indexed :
    (KeepsDerivation indexed.render indexed ↔ Regular indexed.render) ∧
      KeepsDerivation indexed.render indexed ∧ Regular indexed.render := by
  have hiff := keepsDerivation_iff (complete_program (derived_program wellFormed_indexed))
  have hregular : Regular indexed.render := ⟨by decide, by decide⟩
  exact ⟨hiff, hiff.mpr hregular, hregular⟩

/-- `x = y[3` without the bracket. -/
def unclosedIndex : Text :=
  endGlobalText ++ newline ++ (['x'] ++ (around ['='] ++ (['y'] ++ (['['] ++ ['3']) ++ newline)))

/-- `range(1,2,3)`, with no statements for its threads. -/
def threeIntegers : Text := endGlobalText ++ newline ++
  ((ifTidText ++ ([' '] ++ (rangeText ++ (['1'] ++ ([','] ++ ['2'] ++ ([','] ++ ['3']) ++ [')'])) ++
    newline))) ++ (elseTidText ++ newline ++ (endIfTidText ++ newline)))

theorem isIntConstant_digit {c : Char} (hc : isDigit c = true) :
    IsIntConstant (.numberString [c]) [c] :=
  ⟨rfl, [], [c], rfl, Or.inl rfl, List.cons_ne_nil _ _, by simpa using hc⟩

theorem parsed_unclosedIndex : ∃ ts, program .parsed unclosedIndex ts
    ⟨[], [.assignment (.loadVariable ['x'] (.variable ['y'] (some (.numberString ['3']))))]⟩ := by
  have hx : IsName ['x'] := ⟨'x', [], rfl, by decide, by decide⟩
  have hy : IsName ['y'] := ⟨'y', [], rfl, by decide, by decide⟩
  have hindex : opt (index .parsed) (['['] ++ ['3']) [.intConstant (.numberString ['3'])]
      (some (.numberString ['3'])) :=
    index_iff.mpr ⟨rfl, ['3'], [], rfl, isIntConstant_digit (by decide), Or.inr ⟨rfl, rfl⟩⟩
  have hvalue : valueExpr .parsed (['y'] ++ (['['] ++ ['3'])) _
      (.variable ['y'] (some (.numberString ['3']))) :=
    Or.inr (Or.inr (Or.inr (Or.inr (Or.inr (Or.inr (Or.inl
      (bind_intro (derived_variableName hy) (map_intro hindex _))))))))
  have hstmt : threadLocalStmt .parsed 1 (['x'] ++ (around ['='] ++
      (['y'] ++ (['['] ++ ['3']) ++ newline))) _ (.assignment (.loadVariable ['x'] _)) :=
    Or.inl (Or.inr (Or.inl (map_intro (Or.inl (bind_intro (derived_variableName hx)
      (bind_first (derived_around (derived_lit _)) (bind_last hvalue
        (map_intro derived_newline _))))) _)))
  exact ⟨_, 1, bind_empty .nil (bind_first (bind_empty .nil (map_intro (derived_keyword _) _))
    (map_intro (star_single hstmt) _))⟩

theorem parsed_threeIntegers : ∃ ts, program .parsed threeIntegers ts
    ⟨[], [.tidIfElse [⟨.numberString ['1'], .numberString ['2']⟩] [[], []]]⟩ := by
  have hempty : optSpace [] [] [] := ⟨rfl, rfl, by simp⟩
  have hnext {c : Char} (hc : isDigit c = true) :
      nextInt ([','] ++ [c]) [.intConstant (.numberString [c])] (.numberString [c]) :=
    nextInt_iff.mpr ⟨rfl, [], [], [c], [], rfl, by simp, by simp, by simp, isIntConstant_digit hc⟩
  have hothers : otherInts .parsed ([','] ++ ['2'] ++ ([','] ++ ['3'])) _
      [.numberString ['2'], .numberString ['3']] :=
    otherInts_iff.mpr ⟨.cons (hnext (by decide)) (star_single (hnext (by decide))), by simp⟩
  have hrange : tidRange .parsed (rangeText ++ (['1'] ++
      ([','] ++ ['2'] ++ ([','] ++ ['3']) ++ [')']))) _
      ⟨.numberString ['1'], .numberString ['2']⟩ :=
    bind_first (derived_lit _) (bind_empty hempty (bind_intro
      (intConstantExpr_iff.mpr ⟨rfl, isIntConstant_digit (by decide)⟩) (bind_empty hempty
        (bind_last hothers (map_intro (derived_lit _) _)))))
  have hbranch : tidBranch .parsed ifTidText (threadLocalStmt .parsed 0) (ifTidText ++ ([' '] ++
      (rangeText ++ (['1'] ++ ([','] ++ ['2'] ++ ([','] ++ ['3']) ++ [')'])) ++ newline))) _
        (⟨.numberString ['1'], .numberString ['2']⟩, []) :=
    bind_first (derived_lit _) (bind_first derived_space (bind_last hrange
      (bind_end derived_newline (map_intro .nil _))))
  have hstmt : threadLocalStmt .parsed 1 ((ifTidText ++ ([' '] ++ (rangeText ++ (['1'] ++
      ([','] ++ ['2'] ++ ([','] ++ ['3']) ++ [')'])) ++ newline))) ++
        (elseTidText ++ newline ++ (endIfTidText ++ newline))) _
          (.tidIfElse [⟨.numberString ['1'], .numberString ['2']⟩] [[], []]) :=
    Or.inr (bind_last hbranch (bind_empty .nil (bind_first (derived_keyword _)
      (bind_empty .nil (map_intro (derived_keyword _) _)))))
  exact ⟨_, 1, bind_empty .nil (bind_first (bind_empty .nil (map_intro (derived_keyword _) _))
    (map_intro (star_single hstmt) _))⟩

/-- The parser reads both texts, which are not regular. -/
theorem irregular_texts_parsed :
    (∃ ast, Parse.program unclosedIndex = some (ast, []) ∧ ¬KeepsDerivation unclosedIndex ast) ∧
      ∃ ast, Parse.program threeIntegers = some (ast, []) ∧ ¬KeepsDerivation threeIntegers ast := by
  obtain ⟨ts, hindex⟩ := parsed_unclosedIndex
  obtain ⟨ts', hrange⟩ := parsed_threeIntegers
  refine ⟨⟨_, complete_program hindex, fun h => ?_⟩, ⟨_, complete_program hrange, fun h => ?_⟩⟩
  · exact absurd (regular_of_keepsDerivation (complete_program hindex) h).1 (by decide)
  · exact absurd (regular_of_keepsDerivation (complete_program hrange) h).2 (by decide)

end Accepted

end Explore.Takehome.Parse.Grammar
