import Explore.Takehome.Parser

/-!
# The grammar of programs

The grammar of `prompt_parser.txt`, with `PauseStmt` ending in `NL+`. The tokens of a
derivation are its variable names, operators and integer constants in the order of the
text, and its value is what the functions of `map` make of it. The `parsed` dialect has what
the parser does differently: the bracket after an index may be missing, and a range has a
second integer.
-/

namespace Explore.Takehome.Parse.Grammar

open Peg Peg.Language Parse

inductive Token where
  | variableName (name : Text)
  | operator (op : Text)
  | intConstant (expr : IntConstantExpr)
  deriving DecidableEq, Repr

inductive Dialect where
  | documented
  | parsed

def space : Language Token Text := do
  let c ← char isSpace
  let cs ← chars isSpace
  pure (c :: cs)

def optSpace : Language Token Text := chars isSpace

def optComment : Language Token (Option Text) := opt do
  let hash ← lit ['#']
  let comment ← chars (· ≠ '\n')
  pure (hash ++ comment)

def nl : Language Token Text := do
  let before ← optSpace
  let comment ← optComment
  let newline ← lit ['\n']
  let after ← optSpace
  pure (before ++ comment.getD [] ++ newline ++ after)

/-- `NL+` -/
def nls : Language Token Unit := do
  let _ ← plus nl
  pure ()

def operator : Language Token Text := token .operator <|
  lit ['*'] <|> lit ['+'] <|> lit ['^'] <|> lit ['>', '>'] <|> lit ['-'] <|> lit ['<', '<'] <|>
    lit ['%'] <|> lit ['=', '=']

def cmpOperator : Language Token Text := token .operator <| lit ['<'] <|> lit ['=', '=']

def spaced (L : Language Token Text) : Language Token Text := do
  let _ ← optSpace
  let x ← L
  let _ ← optSpace
  pure x

def variableName : Language Token Text := token .variableName do
  let first ← char isSmall
  let others ← star (char isLetter)
  pure (first :: others)

def intConstantExpr : Language Token IntConstantExpr := token .intConstant <|
  (do
    let start ← lit ['0', 'x']
    let digits ← plus (char isHexDigit)
    pure (.numberStringHex (start ++ digits))) <|>
  (do
    let sign ← opt (lit ['-'])
    let digits ← plus (char isDigit)
    pure (.numberString (sign.getD [] ++ digits)))

def varOrConst : Language Token VarOrConst :=
  (do
    let name ← variableName
    pure (.name name)) <|>
  (do
    let expr ← intConstantExpr
    pure (.const expr))

def condExpr : Language Token Condition :=
  (do
    let left ← varOrConst
    let op ← spaced cmpOperator
    let right ← varOrConst
    pure (.condExpr left op right)) <|>
  (do
    let name ← variableName
    pure (.name name))

def selectExpr : Language Token ValueExpr := do
  let cond ← condExpr
  let _ ← spaced (lit ['?'])
  let ifTrue ← varOrConst
  let _ ← spaced (lit [':'])
  let ifFalse ← varOrConst
  pure (.selectExpr cond ifTrue ifFalse)

def binOpExpr : Language Token ValueExpr := do
  let left ← varOrConst
  let op ← spaced operator
  let right ← varOrConst
  pure (.binOpExpr left op right)

def multAddExpr : Language Token ValueExpr := do
  let factor1 ← variableName
  let _ ← spaced (lit ['*'])
  let factor2 ← varOrConst
  let _ ← spaced (lit ['+'])
  let add ← varOrConst
  pure (.multAddExpr factor1 factor2 add)

def derefIndividualWords : Language Token ValueExpr := do
  let _ ← lit ['@']
  let name ← variableName
  let _ ← lit ['[']
  let _ ← lit [']']
  pure (.derefIndividualWords name)

def derefVariable : Language Token ValueExpr := do
  let _ ← lit ['@']
  let name ← variableName
  pure (.derefVariable name)

def derefConstant : Language Token ValueExpr := do
  let _ ← lit ['@']
  let expr ← intConstantExpr
  pure (.derefConstant expr)

/-- The bracket after an index. -/
def closing : Dialect → Language Token (Option Text)
  | .documented => do
      let bracket ← lit [']']
      pure (some bracket)
  | .parsed => opt (lit [']'])

def index (d : Dialect) : Language Token IntConstantExpr := do
  let _ ← lit ['[']
  let expr ← intConstantExpr
  let _ ← closing d
  pure expr

def variableExpr (d : Dialect) : Language Token ValueExpr := do
  let name ← variableName
  let index ← opt (index d)
  pure (.variable name index)

def intConstant : Language Token ValueExpr := do
  let expr ← intConstantExpr
  pure (.intConstant expr)

def valueExpr (d : Dialect) : Language Token ValueExpr :=
  selectExpr <|> multAddExpr <|> derefIndividualWords <|> derefVariable <|> derefConstant <|>
    binOpExpr <|> variableExpr d <|> intConstant

def variableType : Language Token Text := lit registerArray <|> lit register

def variableDeclaration : Language Token VariableDeclarationStmt := do
  let varType ← variableType
  let _ ← space
  let name ← variableName
  let otherNames ← star do
    let _ ← spaced (lit [','])
    variableName
  nls
  pure (.variableDeclaration varType name otherNames)

def variableDefinition (d : Dialect) : Language Token VariableDeclarationStmt := do
  let varType ← variableType
  let _ ← space
  let name ← variableName
  let _ ← spaced (lit ['='])
  let value ← valueExpr d
  nls
  pure (.variableDefinition varType name value)

def variableDeclarationStmt (d : Dialect) : Language Token VariableDeclarationStmt :=
  variableDeclaration <|> variableDefinition d

def loadVariable (d : Dialect) : Language Token AssignmentStmt := do
  let name ← variableName
  let _ ← spaced (lit ['='])
  let value ← valueExpr d
  nls
  pure (.loadVariable name value)

def storeMemory (d : Dialect) : Language Token AssignmentStmt := do
  let _ ← lit ['@']
  let name ← variableName
  let _ ← spaced (lit ['='])
  let value ← valueExpr d
  nls
  pure (.storeMemory name value)

def assignmentStmt (d : Dialect) : Language Token AssignmentStmt :=
  loadVariable d <|> storeMemory d

/-- A keyword at the end of a line. -/
def keyword (text : Text) : Language Token Unit := do
  let _ ← lit text
  nls

def pauseStmt : Language Token Unit := keyword pauseText

def globalStmt (d : Dialect) : Language Token GlobalStmt :=
  (do
    let stmt ← variableDeclarationStmt d
    pure (.declaration stmt)) <|>
  (do
    let stmt ← assignmentStmt d
    pure (.assignment stmt)) <|>
  (do
    pauseStmt
    pure .pause)

def globalProgram (d : Dialect) : Language Token (List GlobalStmt) := do
  let stmts ← star (globalStmt d)
  keyword endGlobalText
  pure stmts

def threadLocalVariableStmt (d : Dialect) : Language Token VariableDeclarationStmt := do
  let _ ← lit threadText
  let _ ← space
  variableDeclarationStmt d

def nextInt : Language Token IntConstantExpr := do
  let _ ← spaced (lit [','])
  let _ ← optSpace
  let expr ← intConstantExpr
  let _ ← optSpace
  pure expr

/-- The integers of a range after the first one. -/
def otherInts : Dialect → Language Token (List IntConstantExpr)
  | .documented => star nextInt
  | .parsed => plus nextInt

/-- The value of a range without a second integer, which the parser does not read, does not
matter. -/
def tidRange (d : Dialect) : Language Token TidRange := do
  let _ ← lit rangeText
  let _ ← optSpace
  let start ← intConstantExpr
  let _ ← optSpace
  let others ← otherInts d
  let _ ← lit [')']
  pure ⟨start, others.headD start⟩

def tidBranch (d : Dialect) (keyword : Text) (stmt : Language Token ThreadLocalStmt) :
    Language Token (TidRange × List ThreadLocalStmt) := do
  let _ ← lit keyword
  let _ ← space
  let range ← tidRange d
  nls
  let stmts ← star stmt
  pure (range, stmts)

def tidIfElseStmt (d : Dialect) (stmt : Language Token ThreadLocalStmt) :
    Language Token ThreadLocalStmt := do
  let first ← tidBranch d ifTidText stmt
  let others ← star (tidBranch d elIfTidText stmt)
  keyword elseTidText
  let stmts ← star stmt
  keyword endIfTidText
  pure (.tidIfElse (first.1 :: others.map Prod.fst) (first.2 :: others.map Prod.snd ++ [stmts]))

def plainStmt (d : Dialect) : Language Token ThreadLocalStmt :=
  (do
    let decl ← threadLocalVariableStmt d
    pure (.threadLocalVariable decl)) <|>
  (do
    let stmt ← assignmentStmt d
    pure (.assignment stmt)) <|>
  (do
    pauseStmt
    pure .pause)

/-- The statements of a thread with less than `depth` levels of `iftid`. -/
def threadLocalStmt (d : Dialect) : ℕ → Language Token ThreadLocalStmt
  | 0 => empty
  | depth + 1 => plainStmt d <|> tidIfElseStmt d (threadLocalStmt d depth)

/-- A program of any depth. -/
def program (d : Dialect) : Language Token Program := fun w ts a => ∃ depth,
  (do
    let _ ← star nl
    let globalProg ← globalProgram d
    let threadProg ← star (threadLocalStmt d depth)
    pure ⟨globalProg, threadProg⟩ : Language Token Program) w ts a

section Sound

theorem sound_nl : Sound Parse.nl nl :=
  .bind (.chars _) fun _ => .bind (.opt (.bind (.lit _) fun _ => .bind (.chars _) fun _ => .pure _))
    fun _ => .bind (.lit _) fun _ => .bind (.chars _) fun _ => .pure _

theorem sound_nls : Sound Parse.nls nls := .bind (.plus sound_nl) fun _ => .pure _

theorem sound_space : Sound Parse.space space :=
  .bind (.char _) fun _ => .bind (.chars _) fun _ => .pure _

theorem sound_spaced {p : Parser Text} {L : Language Token Text} (hp : Sound p L) :
    Sound (Parse.spaced p) (spaced L) :=
  .bind (.chars _) fun _ => hp.bind fun _ => .bind (.chars _) fun _ => .pure _

theorem sound_operator : Sound Parse.operator operator :=
  .token (.orElse (.lit _) (.orElse (.lit _) (.orElse (.lit _) (.orElse (.lit _)
    (.orElse (.lit _) (.orElse (.lit _) (.orElse (.lit _) (.lit _)))))))) _

theorem sound_cmpOperator : Sound Parse.cmpOperator cmpOperator :=
  .token (.orElse (.lit _) (.lit _)) _

theorem sound_variableName : Sound Parse.variableName variableName :=
  .token (.bind (.char _) fun _ => .bind (.star (.char _)) fun _ => .pure _) _

theorem sound_intConstantExpr : Sound Parse.intConstantExpr intConstantExpr :=
  .token (.orElse (.bind (.lit _) fun _ => .bind (.plus (.char _)) fun _ => .pure _)
    (.bind (.opt (.lit _)) fun _ => .bind (.plus (.char _)) fun _ => .pure _)) _

theorem sound_varOrConst : Sound Parse.varOrConst varOrConst :=
  .orElse (.bind sound_variableName fun _ => .pure _)
    (.bind sound_intConstantExpr fun _ => .pure _)

theorem sound_condExpr : Sound Parse.condExpr condExpr :=
  .orElse (.bind sound_varOrConst fun _ => .bind (sound_spaced sound_cmpOperator) fun _ =>
    .bind sound_varOrConst fun _ => .pure _) (.bind sound_variableName fun _ => .pure _)

theorem sound_selectExpr : Sound Parse.selectExpr selectExpr :=
  .bind sound_condExpr fun _ => .bind (sound_spaced (.lit _)) fun _ =>
    .bind sound_varOrConst fun _ =>
    .bind (sound_spaced (.lit _)) fun _ => .bind sound_varOrConst fun _ => .pure _

theorem sound_binOpExpr : Sound Parse.binOpExpr binOpExpr :=
  .bind sound_varOrConst fun _ => .bind (sound_spaced sound_operator) fun _ =>
    .bind sound_varOrConst fun _ => .pure _

theorem sound_multAddExpr : Sound Parse.multAddExpr multAddExpr :=
  .bind sound_variableName fun _ => .bind (sound_spaced (.lit _)) fun _ =>
    .bind sound_varOrConst fun _ => .bind (sound_spaced (.lit _)) fun _ =>
      .bind sound_varOrConst fun _ => .pure _

theorem sound_index : Sound Parse.index (index .parsed) :=
  .bind (.lit _) fun _ => .bind sound_intConstantExpr fun _ => .bind (.opt (.lit _)) fun _ =>
    .pure _

theorem sound_valueExpr : Sound Parse.valueExpr (valueExpr .parsed) := by
  refine .orElse sound_selectExpr (.orElse sound_multAddExpr (.orElse ?_ (.orElse ?_
    (.orElse ?_ (.orElse sound_binOpExpr (.orElse ?_ ?_))))))
  · exact .bind (.lit _) fun _ => .bind sound_variableName fun _ => .bind (.lit _) fun _ =>
      .bind (.lit _) fun _ => .pure _
  · exact .bind (.lit _) fun _ => .bind sound_variableName fun _ => .pure _
  · exact .bind (.lit _) fun _ => .bind sound_intConstantExpr fun _ => .pure _
  · exact .bind sound_variableName fun _ => .bind (.opt sound_index) fun _ => .pure _
  · exact .bind sound_intConstantExpr fun _ => .pure _

theorem sound_variableDeclarationStmt :
    Sound Parse.variableDeclarationStmt (variableDeclarationStmt .parsed) := by
  have htype : Sound Parse.variableType variableType := .orElse (.lit _) (.lit _)
  refine .orElse ?_ ?_
  · exact .bind htype fun _ => .bind sound_space fun _ => .bind sound_variableName fun _ =>
      .bind (.star (.bind (sound_spaced (.lit _)) fun _ => sound_variableName)) fun _ =>
        .bind sound_nls fun _ => .pure _
  · exact .bind htype fun _ => .bind sound_space fun _ => .bind sound_variableName fun _ =>
      .bind (sound_spaced (.lit _)) fun _ => .bind sound_valueExpr fun _ =>
        .bind sound_nls fun _ => .pure _

theorem sound_assignmentStmt : Sound Parse.assignmentStmt (assignmentStmt .parsed) := by
  refine .orElse ?_ ?_
  · exact .bind sound_variableName fun _ => .bind (sound_spaced (.lit _)) fun _ =>
      .bind sound_valueExpr fun _ => .bind sound_nls fun _ => .pure _
  · exact .bind (.lit _) fun _ => .bind sound_variableName fun _ =>
      .bind (sound_spaced (.lit _)) fun _ => .bind sound_valueExpr fun _ =>
        .bind sound_nls fun _ => .pure _

theorem sound_keyword (text : Text) : Sound (Parse.keyword text) (keyword text) :=
  .bind (.lit _) fun _ => sound_nls

theorem sound_globalProgram : Sound Parse.globalProgram (globalProgram .parsed) := by
  have hstmt : Sound Parse.globalStmt (globalStmt .parsed) :=
    .orElse (.bind sound_variableDeclarationStmt fun _ => .pure _)
      (.orElse (.bind sound_assignmentStmt fun _ => .pure _)
        (.bind (sound_keyword _) fun _ => .pure _))
  exact .bind (.star hstmt) fun _ => .bind (sound_keyword _) fun _ => .pure _

theorem sound_tidRange : Sound Parse.tidRange (tidRange .parsed) := by
  have hnext : Sound Parse.nextInt nextInt :=
    .bind (sound_spaced (.lit _)) fun _ => .bind (.chars _) fun _ =>
      .bind sound_intConstantExpr fun _ => .bind (.chars _) fun _ => .pure _
  refine .bind (.lit _) fun _ => .bind (.chars _) fun _ => .bind sound_intConstantExpr fun start =>
    .bind (.chars _) fun _ => .bind (.plus hnext) fun others => .bind (.lit _) fun _ => ?_
  cases others with
  | nil => exact .fail
  | cons stop others => exact .pure _

theorem sound_tidBranch (keyword : Text) {p : Parser ThreadLocalStmt}
    {L : Language Token ThreadLocalStmt} (hp : Sound p L) :
    Sound (Parse.tidBranch keyword p) (tidBranch .parsed keyword L) :=
  .bind (.lit _) fun _ => .bind sound_space fun _ => .bind sound_tidRange fun _ =>
    .bind sound_nls fun _ => .bind (.star hp) fun _ => .pure _

theorem sound_threadLocalStmt (nesting : ℕ) :
    Sound (Parse.threadLocalStmt nesting) (threadLocalStmt .parsed nesting) := by
  induction nesting with
  | zero => exact .fail
  | succ nesting ih =>
      have hplain : Sound Parse.plainStmt (plainStmt .parsed) :=
        .orElse (.bind (.bind (.lit _) fun _ => .bind sound_space fun _ =>
          sound_variableDeclarationStmt) fun _ => .pure _)
          (.orElse (.bind sound_assignmentStmt fun _ => .pure _)
            (.bind (sound_keyword _) fun _ => .pure _))
      have hif : Sound (Parse.tidIfElseStmt (Parse.threadLocalStmt nesting))
          (tidIfElseStmt .parsed (threadLocalStmt .parsed nesting)) :=
        .bind (sound_tidBranch _ ih) fun _ => .bind (.star (sound_tidBranch _ ih)) fun _ =>
          .bind (sound_keyword _) fun _ => .bind (.star ih) fun _ =>
            .bind (sound_keyword _) fun _ => .pure _
      exact .orElse hplain hif

/-- What the parser reads is derived in its dialect. -/
theorem sound_program : Sound Parse.program (program .parsed) := by
  intro text a rest h
  have hprogram := (Sound.star sound_nl).bind fun _ => sound_globalProgram.bind fun globalProg =>
    (Sound.star (sound_threadLocalStmt (text.length + 1))).bind fun threadProg =>
      Sound.pure (Program.mk globalProg threadProg)
  obtain ⟨w, ts, hw, hL⟩ := hprogram text a rest h
  exact ⟨w, ts, hw, text.length + 1, hL⟩

end Sound

end Explore.Takehome.Parse.Grammar
