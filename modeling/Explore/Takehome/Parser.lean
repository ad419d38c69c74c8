import Explore.Lib.Peg

/-!
# The parser of programs

The combinator grammar of `parser.py`. A parser works on the rest of the text in place of
an index into it. Names, operators and digits stay the texts they are. `seq(...).map(...)`
is a sequence that ends in `pure`, and the parts of a sequence that the function of `map`
does not look at are not bound. `thread_local_stmt` refers to itself, so it has a bound on
the nesting; `program` takes the length of the text, which no nesting reaches.
-/

namespace Explore.Takehome.Parse

open Peg Explore.Peg.Parser

/-- A property of all characters of a text is decided along the text, before `Fintype Char`
is tried. -/
instance (priority := high) decidableForallMem (text : Text) (p : Char → Prop) [DecidablePred p] :
    Decidable (∀ c ∈ text, p c) := List.decidableBAll p text

inductive IntConstantExpr where
  | numberStringHex (value : Text)
  | numberString (value : Text)
  deriving DecidableEq, Repr

inductive VarOrConst where
  | name (name : Text)
  | const (expr : IntConstantExpr)
  deriving DecidableEq, Repr

/-- What `cond_expr` gives: a name, or a `CondExpr`. -/
inductive Condition where
  | name (name : Text)
  | condExpr (left : VarOrConst) (op : Text) (right : VarOrConst)
  deriving DecidableEq, Repr

inductive ValueExpr where
  | selectExpr (cond : Condition) (ifTrue ifFalse : VarOrConst)
  | multAddExpr (factor1 : Text) (factor2 add : VarOrConst)
  | derefIndividualWords (name : Text)
  | derefVariable (name : Text)
  | derefConstant (expr : IntConstantExpr)
  | binOpExpr (left : VarOrConst) (op : Text) (right : VarOrConst)
  | variable (name : Text) (index : Option IntConstantExpr)
  | intConstant (expr : IntConstantExpr)
  deriving DecidableEq, Repr

inductive VariableDeclarationStmt where
  | variableDeclaration (varType name : Text) (otherNames : List Text)
  | variableDefinition (varType name : Text) (value : ValueExpr)
  deriving DecidableEq, Repr

inductive AssignmentStmt where
  | loadVariable (name : Text) (value : ValueExpr)
  | storeMemory (name : Text) (value : ValueExpr)
  deriving DecidableEq, Repr

inductive GlobalStmt where
  | declaration (stmt : VariableDeclarationStmt)
  | assignment (stmt : AssignmentStmt)
  | pause
  deriving DecidableEq, Repr

structure TidRange where
  start : IntConstantExpr
  stop : IntConstantExpr
  deriving DecidableEq, Repr

inductive ThreadLocalStmt where
  | threadLocalVariable (decl : VariableDeclarationStmt)
  | assignment (stmt : AssignmentStmt)
  | pause
  | tidIfElse (ranges : List TidRange) (stmts : List (List ThreadLocalStmt))

/-- `GlobalProgram` and `ThreadLocalProgram` by their statements. -/
structure Program where
  globalProg : List GlobalStmt
  threadProg : List ThreadLocalStmt

/-! ### Character classes and tokens -/

def isSpace (c : Char) : Bool := c = ' '

def isDigit (c : Char) : Bool := '0' ≤ c && c ≤ '9'

def isHexDigit (c : Char) : Bool := isDigit c || 'A' ≤ c && c ≤ 'F' || 'a' ≤ c && c ≤ 'f'

def isSmall (c : Char) : Bool := 'a' ≤ c && c ≤ 'z'

def isLetter (c : Char) : Bool := isSmall c || 'A' ≤ c && c ≤ 'Z' || isDigit c || c = '_'

/-- `[ ]+` -/
def space : Parser Text := do
  let c ← char isSpace
  let cs ← chars isSpace
  pure (c :: cs)

/-- `[ ]*` -/
def optSpace : Parser Text := chars isSpace

/-- `(#[^\n]*)?`, which is greedy. -/
def optComment : Parser (Option Text) := opt do
  let hash ← lit ['#']
  let comment ← chars (· ≠ '\n')
  pure (hash ++ comment)

/-- `[ ]*(#[^\n]*)?\n[ ]*` -/
def nl : Parser Text := do
  let before ← optSpace
  let comment ← optComment
  let newline ← lit ['\n']
  let after ← optSpace
  pure (before ++ comment.getD [] ++ newline ++ after)

/-- `nl.plus()`, whose result no function of `map` looks at. -/
def nls : Parser Unit := do
  let _ ← plus nl
  pure ()

def digit : Parser Char := char isDigit

def hexDigit : Parser Char := char isHexDigit

def small : Parser Char := char isSmall

def letter : Parser Char := char isLetter

def minus : Parser Text := lit ['-']

def operator : Parser Text :=
  lit ['*'] <|> lit ['+'] <|> lit ['^'] <|> lit ['>', '>'] <|> lit ['-'] <|> lit ['<', '<'] <|>
    lit ['%'] <|> lit ['=', '=']

def cmpOperator : Parser Text := lit ['<'] <|> lit ['=', '=']

/-- `seq(opt_space, p, opt_space)`, of which `map` keeps `p`. -/
def spaced (p : Parser Text) : Parser Text := do
  let _ ← optSpace
  let x ← p
  let _ ← optSpace
  pure x

def litEq : Parser Text := spaced (lit ['='])

def litQu : Parser Text := spaced (lit ['?'])

def litOp : Parser Text := spaced operator

def litCmpOp : Parser Text := spaced cmpOperator

def litComma : Parser Text := spaced (lit [','])

def litColon : Parser Text := spaced (lit [':'])

def litPlus : Parser Text := spaced (lit ['+'])

def litMult : Parser Text := spaced (lit ['*'])

/-! ### Expressions -/

def variableName : Parser Text := do
  let first ← small
  let others ← star letter
  pure (first :: others)

def numberStringHex : Parser IntConstantExpr := do
  let start ← lit ['0', 'x']
  let digits ← plus hexDigit
  pure (.numberStringHex (start ++ digits))

def numberString : Parser IntConstantExpr := do
  let sign ← opt minus
  let digits ← plus digit
  pure (.numberString (sign.getD [] ++ digits))

def intConstantExpr : Parser IntConstantExpr := numberStringHex <|> numberString

def varOrConst : Parser VarOrConst :=
  (do
    let name ← variableName
    pure (.name name)) <|>
  (do
    let expr ← intConstantExpr
    pure (.const expr))

def condExpr : Parser Condition :=
  (do
    let left ← varOrConst
    let op ← litCmpOp
    let right ← varOrConst
    pure (.condExpr left op right)) <|>
  (do
    let name ← variableName
    pure (.name name))

def selectExpr : Parser ValueExpr := do
  let cond ← condExpr
  let _ ← litQu
  let ifTrue ← varOrConst
  let _ ← litColon
  let ifFalse ← varOrConst
  pure (.selectExpr cond ifTrue ifFalse)

def binOpExpr : Parser ValueExpr := do
  let left ← varOrConst
  let op ← litOp
  let right ← varOrConst
  pure (.binOpExpr left op right)

def multAddExpr : Parser ValueExpr := do
  let factor1 ← variableName
  let _ ← litMult
  let factor2 ← varOrConst
  let _ ← litPlus
  let add ← varOrConst
  pure (.multAddExpr factor1 factor2 add)

def derefIndividualWords : Parser ValueExpr := do
  let _ ← lit ['@']
  let name ← variableName
  let _ ← lit ['[']
  let _ ← lit [']']
  pure (.derefIndividualWords name)

def derefVariable : Parser ValueExpr := do
  let _ ← lit ['@']
  let name ← variableName
  pure (.derefVariable name)

def derefConstant : Parser ValueExpr := do
  let _ ← lit ['@']
  let expr ← intConstantExpr
  pure (.derefConstant expr)

/-- `seq(lit('['), int_constant_expr, lit(']').opt())` -/
def index : Parser IntConstantExpr := do
  let _ ← lit ['[']
  let expr ← intConstantExpr
  let _ ← opt (lit [']'])
  pure expr

def variableExpr : Parser ValueExpr := do
  let name ← variableName
  let index ← opt index
  pure (.variable name index)

def intConstant : Parser ValueExpr := do
  let expr ← intConstantExpr
  pure (.intConstant expr)

def valueExpr : Parser ValueExpr :=
  selectExpr <|> multAddExpr <|> derefIndividualWords <|> derefVariable <|> derefConstant <|>
    binOpExpr <|> variableExpr <|> intConstant

/-! ### Statements -/

def register : Text := ['r', 'e', 'g', 'i', 's', 't', 'e', 'r']

def registerArray : Text := register ++ ['[', ']']

def variableType : Parser Text := lit registerArray <|> lit register

def variableDeclaration : Parser VariableDeclarationStmt := do
  let varType ← variableType
  let _ ← space
  let name ← variableName
  let otherNames ← star do
    let _ ← litComma
    variableName
  nls
  pure (.variableDeclaration varType name otherNames)

def variableDefinition : Parser VariableDeclarationStmt := do
  let varType ← variableType
  let _ ← space
  let name ← variableName
  let _ ← litEq
  let value ← valueExpr
  nls
  pure (.variableDefinition varType name value)

def variableDeclarationStmt : Parser VariableDeclarationStmt :=
  variableDeclaration <|> variableDefinition

def loadVariable : Parser AssignmentStmt := do
  let name ← variableName
  let _ ← litEq
  let value ← valueExpr
  nls
  pure (.loadVariable name value)

def storeMemory : Parser AssignmentStmt := do
  let _ ← lit ['@']
  let name ← variableName
  let _ ← litEq
  let value ← valueExpr
  nls
  pure (.storeMemory name value)

def assignmentStmt : Parser AssignmentStmt := loadVariable <|> storeMemory

/-- `seq(lit(text), nl.plus())` -/
def keyword (text : Text) : Parser Unit := do
  let _ ← lit text
  nls

def pauseText : Text := ['p', 'a', 'u', 's', 'e']

def pauseStmt : Parser Unit := keyword pauseText

def globalStmt : Parser GlobalStmt :=
  (do
    let stmt ← variableDeclarationStmt
    pure (.declaration stmt)) <|>
  (do
    let stmt ← assignmentStmt
    pure (.assignment stmt)) <|>
  (do
    pauseStmt
    pure .pause)

def endGlobalText : Text := ['e', 'n', 'd', ' ', 'g', 'l', 'o', 'b', 'a', 'l']

def endGlobalStmt : Parser Unit := keyword endGlobalText

def globalProgram : Parser (List GlobalStmt) := do
  let stmts ← star globalStmt
  endGlobalStmt
  pure stmts

def threadText : Text := ['t', 'h', 'r', 'e', 'a', 'd']

def threadLocalVariableStmt : Parser VariableDeclarationStmt := do
  let _ ← lit threadText
  let _ ← space
  variableDeclarationStmt

def rangeText : Text := ['r', 'a', 'n', 'g', 'e', '(']

/-- `seq(lit_comma, opt_space, int_constant_expr, opt_space)` -/
def nextInt : Parser IntConstantExpr := do
  let _ ← litComma
  let _ ← optSpace
  let expr ← intConstantExpr
  let _ ← optSpace
  pure expr

/-- Of the integers after the first one `map` keeps `res[4][0][2]`. -/
def tidRange : Parser TidRange := do
  let _ ← lit rangeText
  let _ ← optSpace
  let start ← intConstantExpr
  let _ ← optSpace
  let others ← plus nextInt
  let _ ← lit [')']
  match others with
  | stop :: _ => pure ⟨start, stop⟩
  | [] => fail

def ifTidText : Text := ['i', 'f', 't', 'i', 'd']

def elIfTidText : Text := ['e', 'l', 'i', 'f', 't', 'i', 'd']

def elseTidText : Text := ['e', 'l', 's', 'e', 't', 'i', 'd']

def endIfTidText : Text := ['e', 'n', 'd', 'i', 'f', 't', 'i', 'd']

/-- A keyword with a range, and the statements for its threads. -/
def tidBranch (keyword : Text) (stmt : Parser ThreadLocalStmt) :
    Parser (TidRange × List ThreadLocalStmt) := do
  let _ ← lit keyword
  let _ ← space
  let range ← tidRange
  nls
  let stmts ← star stmt
  pure (range, stmts)

def tidIfElseStmt (stmt : Parser ThreadLocalStmt) : Parser ThreadLocalStmt := do
  let first ← tidBranch ifTidText stmt
  let others ← star (tidBranch elIfTidText stmt)
  keyword elseTidText
  let stmts ← star stmt
  keyword endIfTidText
  pure (.tidIfElse (first.1 :: others.map Prod.fst) (first.2 :: others.map Prod.snd ++ [stmts]))

/-- A statement of a thread without `iftid`. -/
def plainStmt : Parser ThreadLocalStmt :=
  (do
    let decl ← threadLocalVariableStmt
    pure (.threadLocalVariable decl)) <|>
  (do
    let stmt ← assignmentStmt
    pure (.assignment stmt)) <|>
  (do
    pauseStmt
    pure .pause)

/-- `thread_local_stmt`, for less than `nesting` levels of `iftid`. -/
def threadLocalStmt : ℕ → Parser ThreadLocalStmt
  | 0 => fail
  | nesting + 1 => plainStmt <|> tidIfElseStmt (threadLocalStmt nesting)

def threadLocalProgram (nesting : ℕ) : Parser (List ThreadLocalStmt) :=
  star (threadLocalStmt nesting)

/-- `program.parse(text, 0)` -/
def program : Parser Program := fun text =>
  (do
    let _ ← star nl
    let globalProg ← globalProgram
    let threadProg ← threadLocalProgram (text.length + 1)
    pure ⟨globalProg, threadProg⟩ : Parser Program) text

end Explore.Takehome.Parse
