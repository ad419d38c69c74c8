import Explore.Takehome.Rendering

/-!
# Parsing undoes rendering

A rendered program is derived from it in the grammar, in either dialect, with its tokens.
The parser reads every text of its dialect, and so it gives the program back.
-/

namespace Explore.Takehome.Parse.Grammar

open Peg Peg.Language Parse

variable {d : Dialect}

section Values

theorem derived_intConstantExpr {expr : IntConstantExpr} (h : expr.WellFormed) :
    intConstantExpr expr.render [.intConstant expr] expr := by
  refine intConstantExpr_iff.mpr ⟨rfl, ?_⟩
  cases expr with
  | numberStringHex value => exact ⟨rfl, h⟩
  | numberString value => exact ⟨rfl, h⟩

theorem derived_variableName {name : Text} (h : IsName name) :
    variableName name [.variableName name] name := variableName_iff.mpr ⟨rfl, rfl, h⟩

theorem derived_varOrConst {operand : VarOrConst} (h : operand.WellFormed) :
    varOrConst operand.render operand.tokens operand := by
  cases operand with
  | name name => exact varOrConst_iff.mpr (Or.inl ⟨name, rfl, derived_variableName h⟩)
  | const expr => exact varOrConst_iff.mpr (Or.inr ⟨expr, rfl, derived_intConstantExpr h⟩)

theorem derived_around {L : Language Token Text} {m x : Text} {ts : List Token} (h : L m ts x) :
    spaced L (around m) ts x :=
  spaced_iff.mpr ⟨[' '], m, [' '], rfl, by simp [isSpace], by simp [isSpace], h⟩

theorem derived_lit (string : Text) : (lit string : Language Token Text) string [] string :=
  ⟨rfl, rfl, rfl⟩

theorem derived_condExpr {cond : Condition} (h : cond.WellFormed) :
    condExpr cond.render cond.tokens cond := by
  cases cond with
  | name name => exact Or.inr (map_intro (derived_variableName h) _)
  | condExpr left op right =>
      obtain ⟨hleft, hop, hright⟩ := h
      have hoperator : spaced cmpOperator (around op) [.operator op] op :=
        derived_around (cmpOperator_iff.mpr ⟨rfl, rfl, hop⟩)
      exact Or.inl (bind_intro (derived_varOrConst hleft) (bind_intro hoperator
        (map_intro (derived_varOrConst hright) _)))

theorem derived_index (index : Option IntConstantExpr) (h : ∀ expr ∈ index, expr.WellFormed) :
    opt (Grammar.index d) (renderIndex index) (index.toList.map .intConstant) index := by
  cases index with
  | none => exact ⟨rfl, rfl⟩
  | some expr =>
      have hclosing : ∃ bracket, closing d [']'] [] bracket := by
        cases d with
        | documented => exact ⟨_, map_intro (derived_lit _) _⟩
        | parsed => exact ⟨some [']'], derived_lit _⟩
      obtain ⟨bracket, hclosing⟩ := hclosing
      exact bind_first (derived_lit _) (bind_intro (derived_intConstantExpr (h expr rfl))
        (map_intro hclosing fun _ => expr))

theorem derived_valueExpr {value : ValueExpr} (h : value.WellFormed) :
    valueExpr d value.render value.tokens value := by
  cases value with
  | selectExpr cond ifTrue ifFalse =>
      obtain ⟨hcond, htrue, hfalse⟩ := h
      exact Or.inl (bind_intro (derived_condExpr hcond) (bind_first (derived_around (derived_lit _))
        (bind_intro (derived_varOrConst htrue) (bind_first (derived_around (derived_lit _))
          (map_intro (derived_varOrConst hfalse) _)))))
  | multAddExpr factor1 factor2 add =>
      obtain ⟨hfactor1, hfactor2, hadd⟩ := h
      exact Or.inr (Or.inl (bind_intro (derived_variableName hfactor1)
        (bind_first (derived_around (derived_lit _)) (bind_intro (derived_varOrConst hfactor2)
          (bind_first (derived_around (derived_lit _)) (map_intro (derived_varOrConst hadd) _))))))
  | derefIndividualWords name =>
      exact Or.inr (Or.inr (Or.inl (bind_first (derived_lit _) (bind_intro (derived_variableName h)
        (bind_first (derived_lit _) (map_intro (derived_lit _) _))))))
  | derefVariable name =>
      exact Or.inr (Or.inr (Or.inr (Or.inl (bind_first (derived_lit _)
        (map_intro (derived_variableName h) _)))))
  | derefConstant expr =>
      exact Or.inr (Or.inr (Or.inr (Or.inr (Or.inl (bind_first (derived_lit _)
        (map_intro (derived_intConstantExpr h) _))))))
  | binOpExpr left op right =>
      obtain ⟨hleft, hop, hright⟩ := h
      have hoperator : spaced operator (around op) [.operator op] op :=
        derived_around (operator_iff.mpr ⟨rfl, rfl, hop⟩)
      exact Or.inr (Or.inr (Or.inr (Or.inr (Or.inr (Or.inl (bind_intro (derived_varOrConst hleft)
        (bind_intro hoperator (map_intro (derived_varOrConst hright) _))))))))
  | «variable» name index =>
      obtain ⟨hname, hindex⟩ := h
      exact Or.inr (Or.inr (Or.inr (Or.inr (Or.inr (Or.inr (Or.inl
        (bind_intro (derived_variableName hname) (map_intro (derived_index index hindex) _))))))))
  | intConstant expr =>
      exact Or.inr (Or.inr (Or.inr (Or.inr (Or.inr (Or.inr (Or.inr
        (map_intro (derived_intConstantExpr h) _)))))))

end Values

section Statements

theorem derived_space : space [' '] [] [' '] :=
  space_iff.mpr ⟨rfl, rfl, List.cons_ne_nil _ _, by simp [isSpace]⟩

theorem derived_newline : nls newline [] () := by
  obtain ⟨a, ha⟩ := nl_iff.mpr ⟨rfl, [], [], [], rfl, by simp, by simp, Or.inl rfl⟩
  exact map_intro (bind_intro ha (map_intro .nil _)) _

theorem derived_variableType {varType : Text} (h : IsVariableType varType) :
    variableType varType [] varType := by
  obtain rfl | rfl := h
  · exact Or.inl (derived_lit _)
  · exact Or.inr (derived_lit _)

theorem derived_otherNames (names : List Text) (h : ∀ name ∈ names, IsName name) :
    star (do
      let _ ← spaced (lit [','])
      variableName) (renderNames names) (names.map .variableName) names := by
  induction names with
  | nil => exact .nil
  | cons name names ih =>
      obtain ⟨hname, hnames⟩ := List.forall_mem_cons.mp h
      have hcomma : spaced (lit [',']) ([','] ++ [' ']) [] [','] :=
        spaced_lit_iff.mpr ⟨rfl, rfl, [], [' '], rfl, by simp, by simp [isSpace]⟩
      exact .cons (bind_intro hcomma (derived_variableName hname)) (ih hnames)

/-- What comes after the name of a definition or an assignment. -/
theorem derived_value {value : ValueExpr} (h : value.WellFormed) (f : ValueExpr → β) : (do
      let _ ← spaced (lit ['='])
      let value ← valueExpr d
      nls
      pure (f value) : Language Token β) (around ['='] ++ (value.render ++ newline)) value.tokens
        (f value) := by
  exact bind_first (derived_around (derived_lit _)) (bind_last (derived_valueExpr h)
    (map_intro derived_newline _))

theorem derived_variableDeclarationStmt {stmt : VariableDeclarationStmt} (h : stmt.WellFormed) :
    variableDeclarationStmt d stmt.render stmt.tokens stmt := by
  cases stmt with
  | variableDeclaration varType name otherNames =>
      obtain ⟨htype, hname, hothers⟩ := h
      exact Or.inl (bind_first (derived_variableType htype) (bind_first derived_space
        (bind_intro (derived_variableName hname) (bind_last (derived_otherNames otherNames hothers)
          (map_intro derived_newline _)))))
  | variableDefinition varType name value =>
      obtain ⟨htype, hname, hvalue⟩ := h
      exact Or.inr (bind_first (derived_variableType htype) (bind_first derived_space
        (bind_intro (derived_variableName hname) (derived_value hvalue _))))

theorem derived_assignmentStmt {stmt : AssignmentStmt} (h : stmt.WellFormed) :
    assignmentStmt d stmt.render stmt.tokens stmt := by
  cases stmt with
  | loadVariable name value =>
      exact Or.inl (bind_intro (derived_variableName h.1) (derived_value h.2 _))
  | storeMemory name value =>
      exact Or.inr (bind_first (derived_lit _) (bind_intro (derived_variableName h.1)
        (derived_value h.2 _)))

theorem derived_keyword (text : Text) : keyword text (text ++ newline) [] () :=
  bind_first (derived_lit text) derived_newline

theorem derived_globalStmt {stmt : GlobalStmt} (h : stmt.WellFormed) :
    globalStmt d stmt.render stmt.tokens stmt := by
  cases stmt with
  | declaration stmt => exact Or.inl (map_intro (derived_variableDeclarationStmt h) _)
  | assignment stmt => exact Or.inr (Or.inl (map_intro (derived_assignmentStmt h) _))
  | pause => exact Or.inr (Or.inr (map_intro (derived_keyword _) _))

theorem derived_globalStmts {stmts : List GlobalStmt} (h : ∀ stmt ∈ stmts, stmt.WellFormed) :
    star (globalStmt d) (stmts.flatMap GlobalStmt.render) (stmts.flatMap GlobalStmt.tokens)
      stmts := by
  induction stmts with
  | nil => exact .nil
  | cons stmt stmts ih =>
      obtain ⟨hstmt, hstmts⟩ := List.forall_mem_cons.mp h
      rw [List.flatMap_cons, List.flatMap_cons]
      exact .cons (derived_globalStmt hstmt) (ih hstmts)

theorem derived_tidRange {range : TidRange} (h : range.WellFormed) :
    tidRange d range.render range.tokens range := by
  obtain ⟨hstart, hstop⟩ := h
  have hempty : optSpace [] [] [] := ⟨rfl, rfl, by simp⟩
  have hcomma : spaced (lit [',']) ([','] ++ [' ']) [] [','] :=
    spaced_lit_iff.mpr ⟨rfl, rfl, [], [' '], rfl, by simp, by simp [isSpace]⟩
  have hnext : nextInt ([','] ++ [' '] ++ (range.stop.render ++ [])) [.intConstant range.stop]
      range.stop := bind_first hcomma (bind_empty hempty (bind_last (derived_intConstantExpr hstop)
        (map_intro hempty _)))
  have hothers : otherInts d ([','] ++ [' '] ++ range.stop.render) [.intConstant range.stop]
      [range.stop] := by
    rw [List.append_nil] at hnext
    cases d with
    | documented => exact star_single hnext
    | parsed => exact plus_single hnext
  exact bind_first (derived_lit _) (bind_empty hempty (bind_intro (derived_intConstantExpr hstart)
    (bind_empty hempty (bind_last hothers (map_intro (derived_lit _) _)))))

/-- A statement is derived with as many levels of `iftid` as its text has characters. -/
def Derived (d : Dialect) (stmt : ThreadLocalStmt) : Prop :=
  ∀ n, stmt.render.length ≤ n → threadLocalStmt d (n + 1) stmt.render stmt.tokens stmt

theorem derived_plain {stmt : ThreadLocalStmt} (h : plainStmt d stmt.render stmt.tokens stmt) :
    Derived d stmt := fun _ _ => Or.inl h

theorem derived_stmts {stmts : List ThreadLocalStmt} (h : ∀ stmt ∈ stmts, Derived d stmt) (n : ℕ)
    (hlen : (renderStmts stmts).length ≤ n) :
    star (threadLocalStmt d (n + 1)) (renderStmts stmts) (stmtsTokens stmts) stmts := by
  induction stmts with
  | nil => exact .nil
  | cons stmt stmts ih =>
      obtain ⟨hstmt, hstmts⟩ := List.forall_mem_cons.mp h
      rw [renderStmts, List.length_append] at hlen
      exact .cons (hstmt n (by omega)) (ih hstmts (by omega))

theorem derived_tidBranch {range : TidRange} {stmts : List ThreadLocalStmt} (text : Text)
    (hrange : range.WellFormed) (hstmts : ∀ stmt ∈ stmts, Derived d stmt) (n : ℕ)
    (hlen : (renderStmts stmts).length ≤ n) :
    tidBranch d text (threadLocalStmt d (n + 1))
      (text ++ ([' '] ++ (range.render ++ (newline ++ renderStmts stmts))))
      (range.tokens ++ stmtsTokens stmts) (range, stmts) :=
  bind_first (derived_lit _) (bind_first derived_space (bind_intro (derived_tidRange hrange)
    (bind_first derived_newline (map_intro (derived_stmts hstmts n hlen) _))))

/-- The branches after the first one, and the statements of the other threads. -/
theorem derived_branches {ranges : List TidRange} {stmts : List (List ThreadLocalStmt)}
    (hwf : BranchesWellFormed ranges stmts) (h : ∀ branch ∈ stmts, ∀ stmt ∈ branch, Derived d stmt)
    (n : ℕ) (hlen : (renderBranches elIfTidText ranges stmts).length ≤ n) :
    ∃ w ts others last, renderBranches elIfTidText ranges stmts =
        w ++ (elseTidText ++ newline ++ (renderStmts last ++ (endIfTidText ++ newline))) ∧
      branchTokens ranges stmts = ts ++ stmtsTokens last ∧
      star (tidBranch d elIfTidText (threadLocalStmt d (n + 1))) w ts others ∧
      star (threadLocalStmt d (n + 1)) (renderStmts last) (stmtsTokens last) last ∧
      ranges = others.map Prod.fst ∧ stmts = others.map Prod.snd ++ [last] := by
  induction ranges generalizing stmts with
  | nil =>
      match stmts, hwf with
      | [last], _ =>
          simp only [renderBranches, List.length_append] at hlen
          refine ⟨[], [], [], last, rfl, ?_, .nil, ?_, rfl, rfl⟩
          · simp [branchTokens]
          · exact derived_stmts (h last List.mem_cons_self) n (by omega)
  | cons range ranges ih =>
      match stmts, hwf with
      | branch :: stmts, ⟨hrange, hbranch, hbranches⟩ =>
          simp only [renderBranches, List.length_append] at hlen
          obtain ⟨hfirst, hrest⟩ := List.forall_mem_cons.mp h
          obtain ⟨w, ts, others, last, hw, hts, hothers, hlast, rfl, rfl⟩ :=
            ih hbranches hrest (by omega)
          refine ⟨_, _, (range, branch) :: others, last, ?_, ?_,
            .cons (derived_tidBranch elIfTidText hrange hfirst n (by omega)) hothers, hlast, rfl,
            rfl⟩
          · rw [renderBranches, hw, List.append_assoc _ w]
          · rw [branchTokens, hts, List.append_assoc _ ts]

theorem derived_tidIfElse {ranges : List TidRange} {stmts : List (List ThreadLocalStmt)}
    (hne : ranges ≠ []) (hwf : BranchesWellFormed ranges stmts)
    (h : ∀ branch ∈ stmts, ∀ stmt ∈ branch, Derived d stmt) :
    Derived d (.tidIfElse ranges stmts) := by
  obtain ⟨range, ranges, rfl⟩ := List.exists_cons_of_ne_nil hne
  match stmts, hwf with
  | branch :: stmts, ⟨hrange, hbranch, hbranches⟩ =>
      intro n hlen
      simp only [ThreadLocalStmt.render, renderBranches, List.length_append] at hlen
      have hif : ifTidText.length = 5 := rfl
      obtain ⟨n, rfl⟩ : ∃ m, n = m + 1 := ⟨n - 1, by omega⟩
      obtain ⟨hfirst, hrest⟩ := List.forall_mem_cons.mp h
      obtain ⟨w, ts, others, last, hw, hts, hothers, hlast, rfl, rfl⟩ :=
        derived_branches hbranches hrest n (by omega)
      refine Or.inr ?_
      rw [ThreadLocalStmt.render, renderBranches, hw, ThreadLocalStmt.tokens, branchTokens, hts]
      exact bind_intro (derived_tidBranch ifTidText hrange hfirst n (by omega)) (bind_intro hothers
        (bind_first (derived_keyword _) (bind_last hlast (map_intro (derived_keyword _) _))))

mutual

theorem derived_threadLocalStmt : ∀ stmt : ThreadLocalStmt, stmt.WellFormed → Derived d stmt
  | .threadLocalVariable _, h => derived_plain (Or.inl (map_intro (bind_first (derived_lit _)
      (bind_first derived_space (derived_variableDeclarationStmt h))) _))
  | .assignment _, h => derived_plain (Or.inr (Or.inl (map_intro (derived_assignmentStmt h) _)))
  | .pause, _ => derived_plain (Or.inr (Or.inr (map_intro (derived_keyword _) _)))
  | .tidIfElse ranges stmts, h => derived_tidIfElse h.1 h.2
    (derived_threadLocalBranches ranges stmts h.2)

theorem derived_threadLocalStmts : ∀ stmts : List ThreadLocalStmt, StmtsWellFormed stmts →
    ∀ stmt ∈ stmts, Derived d stmt
  | [], _ => List.forall_mem_nil _
  | stmt :: stmts, h => List.forall_mem_cons.mpr
      ⟨derived_threadLocalStmt stmt h.1, derived_threadLocalStmts stmts h.2⟩

theorem derived_threadLocalBranches : ∀ (ranges : List TidRange)
    (branches : List (List ThreadLocalStmt)), BranchesWellFormed ranges branches →
    ∀ branch ∈ branches, ∀ stmt ∈ branch, Derived d stmt
  | _, [], _ => List.forall_mem_nil _
  | _ :: ranges, branch :: branches, h => List.forall_mem_cons.mpr
      ⟨derived_threadLocalStmts branch h.2.1, derived_threadLocalBranches ranges branches h.2.2⟩
  | [], [branch], h => List.forall_mem_cons.mpr
      ⟨derived_threadLocalStmts branch h, List.forall_mem_nil _⟩

end

end Statements

/-- A rendered program is a program of the grammar. -/
theorem derived_program {ast : Program} (h : ast.WellFormed) :
    program d ast.render ast.tokens ast := by
  have hstmts := derived_stmts (derived_threadLocalStmts (d := d) ast.threadProg h.2) _
    (Nat.le_refl _)
  exact ⟨_, bind_empty .nil (bind_intro (bind_last (derived_globalStmts h.1)
    (map_intro (derived_keyword _) _)) (map_intro hstmts _))⟩

/-- Parsing undoes rendering. -/
theorem parse_render (ast : Program) (h : ast.WellFormed) :
    Parse.program ast.render = some (ast, []) := complete_program (derived_program h)

/-- A program that declares `register` and `thread`, and has an `iftid` in an `iftid`. -/
def sample : Program where
  globalProg := [.declaration (.variableDeclaration register register []), .pause]
  threadProg := [.threadLocalVariable (.variableDeclaration registerArray threadText []),
    .tidIfElse [⟨.numberString ['0'], .numberStringHex ['0', 'x', 'F']⟩]
      [[.tidIfElse [⟨.numberString ['-', '1'], .numberString ['7']⟩] [[], []]],
        [.assignment (.loadVariable threadText (.binOpExpr (.name register) ['<', '<']
          (.const (.numberString ['3']))))]]]

theorem parse_render_sample : sample.WellFormed ∧
    Parse.program sample.render = some (sample, []) := by
  have hregister : IsName register := ⟨'r', _, rfl, by decide, by decide⟩
  have hthread : IsName threadText := ⟨'t', _, rfl, by decide, by decide⟩
  have hzero : IsNumber ['0'] := ⟨[], ['0'], rfl, Or.inl rfl, by decide, by decide⟩
  have hthree : IsNumber ['3'] := ⟨[], ['3'], rfl, Or.inl rfl, by decide, by decide⟩
  have hseven : IsNumber ['7'] := ⟨[], ['7'], rfl, Or.inl rfl, by decide, by decide⟩
  have hminus : IsNumber ['-', '1'] := ⟨['-'], ['1'], rfl, Or.inr rfl, by decide, by decide⟩
  have hhex : IsHex ['0', 'x', 'F'] := ⟨['F'], rfl, by decide, by decide⟩
  have hwf : sample.WellFormed := by
    refine ⟨List.forall_mem_cons.mpr ⟨⟨Or.inr rfl, hregister, List.forall_mem_nil _⟩,
      List.forall_mem_cons.mpr ⟨trivial, List.forall_mem_nil _⟩⟩,
      ⟨Or.inl rfl, hthread, List.forall_mem_nil _⟩, ⟨List.cons_ne_nil _ _, ⟨hzero, hhex⟩, ?_, ?_⟩,
      trivial⟩
    · exact ⟨⟨List.cons_ne_nil _ _, ⟨hminus, hseven⟩, trivial, trivial⟩, trivial⟩
    · exact ⟨⟨hthread, hregister, by decide, hthree⟩, trivial⟩
  exact ⟨hwf, parse_render sample hwf⟩

end Explore.Takehome.Parse.Grammar
