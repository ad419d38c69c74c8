import Explore.Takehome.ParserProgram

/-!
# Rendering programs

A program is spelled by the productions its nodes stand for, with single spaces around
operators and a line break after each statement. Well formed are the programs whose names,
constants and operators are those of the grammar.
-/

namespace Explore.Takehome.Parse

open Peg Grammar

/-! ### Operands and expressions -/

namespace IntConstantExpr

def render : IntConstantExpr → Text
  | .numberStringHex value => value
  | .numberString value => value

def WellFormed : IntConstantExpr → Prop
  | .numberStringHex value => IsHex value
  | .numberString value => IsNumber value

end IntConstantExpr

namespace VarOrConst

def render : VarOrConst → Text
  | .name x => x
  | .const expr => expr.render

def tokens : VarOrConst → List Token
  | .name x => [.variableName x]
  | .const expr => [.intConstant expr]

def WellFormed : VarOrConst → Prop
  | .name x => IsName x
  | .const expr => expr.WellFormed

end VarOrConst

/-- A text with a space on either side. -/
def around (string : Text) : Text := [' '] ++ (string ++ [' '])

namespace Condition

def render : Condition → Text
  | .name x => x
  | .condExpr left op right => left.render ++ (around op ++ right.render)

def tokens : Condition → List Token
  | .name x => [.variableName x]
  | .condExpr left op right => left.tokens ++ .operator op :: right.tokens

def WellFormed : Condition → Prop
  | .name x => IsName x
  | .condExpr left op right => left.WellFormed ∧ op ∈ cmpOperators ∧ right.WellFormed

end Condition

/-- `[` and `]` with a constant between them, or nothing. -/
def renderIndex : Option IntConstantExpr → Text
  | none => []
  | some expr => ['['] ++ (expr.render ++ [']'])

namespace ValueExpr

def render : ValueExpr → Text
  | .selectExpr cond ifTrue ifFalse =>
      cond.render ++ (around ['?'] ++ (ifTrue.render ++ (around [':'] ++ ifFalse.render)))
  | .multAddExpr factor1 factor2 add =>
      factor1 ++ (around ['*'] ++ (factor2.render ++ (around ['+'] ++ add.render)))
  | .derefIndividualWords name => ['@'] ++ (name ++ (['['] ++ [']']))
  | .derefVariable name => ['@'] ++ name
  | .derefConstant expr => ['@'] ++ expr.render
  | .binOpExpr left op right => left.render ++ (around op ++ right.render)
  | .variable name index => name ++ renderIndex index
  | .intConstant expr => expr.render

def tokens : ValueExpr → List Token
  | .selectExpr cond ifTrue ifFalse => cond.tokens ++ (ifTrue.tokens ++ ifFalse.tokens)
  | .multAddExpr factor1 factor2 add => .variableName factor1 :: (factor2.tokens ++ add.tokens)
  | .derefIndividualWords name => [.variableName name]
  | .derefVariable name => [.variableName name]
  | .derefConstant expr => [.intConstant expr]
  | .binOpExpr left op right => left.tokens ++ .operator op :: right.tokens
  | .variable name index => .variableName name :: index.toList.map .intConstant
  | .intConstant expr => [.intConstant expr]

def WellFormed : ValueExpr → Prop
  | .selectExpr cond ifTrue ifFalse => cond.WellFormed ∧ ifTrue.WellFormed ∧ ifFalse.WellFormed
  | .multAddExpr factor1 factor2 add => IsName factor1 ∧ factor2.WellFormed ∧ add.WellFormed
  | .derefIndividualWords name => IsName name
  | .derefVariable name => IsName name
  | .derefConstant expr => expr.WellFormed
  | .binOpExpr left op right => left.WellFormed ∧ op ∈ operators ∧ right.WellFormed
  | .variable name index => IsName name ∧ ∀ expr ∈ index, expr.WellFormed
  | .intConstant expr => expr.WellFormed

end ValueExpr

/-! ### Statements -/

def newline : Text := ['\n']

/-- The names of a declaration after the first one. -/
def renderNames : List Text → Text
  | [] => []
  | name :: names => ([','] ++ [' '] ++ name) ++ renderNames names

/-- `register` or `register[]`. -/
def IsVariableType (varType : Text) : Prop := varType = registerArray ∨ varType = register

namespace VariableDeclarationStmt

def render : VariableDeclarationStmt → Text
  | .variableDeclaration varType name otherNames =>
      varType ++ ([' '] ++ (name ++ (renderNames otherNames ++ newline)))
  | .variableDefinition varType name value =>
      varType ++ ([' '] ++ (name ++ (around ['='] ++ (value.render ++ newline))))

def tokens : VariableDeclarationStmt → List Token
  | .variableDeclaration _ name otherNames => .variableName name :: otherNames.map .variableName
  | .variableDefinition _ name value => .variableName name :: value.tokens

def WellFormed : VariableDeclarationStmt → Prop
  | .variableDeclaration varType name otherNames =>
      IsVariableType varType ∧ IsName name ∧ ∀ other ∈ otherNames, IsName other
  | .variableDefinition varType name value =>
      IsVariableType varType ∧ IsName name ∧ value.WellFormed

end VariableDeclarationStmt

namespace AssignmentStmt

def render : AssignmentStmt → Text
  | .loadVariable name value => name ++ (around ['='] ++ (value.render ++ newline))
  | .storeMemory name value => ['@'] ++ (name ++ (around ['='] ++ (value.render ++ newline)))

def tokens : AssignmentStmt → List Token
  | .loadVariable name value => .variableName name :: value.tokens
  | .storeMemory name value => .variableName name :: value.tokens

def WellFormed : AssignmentStmt → Prop
  | .loadVariable name value => IsName name ∧ value.WellFormed
  | .storeMemory name value => IsName name ∧ value.WellFormed

end AssignmentStmt

namespace GlobalStmt

def render : GlobalStmt → Text
  | .declaration stmt => stmt.render
  | .assignment stmt => stmt.render
  | .pause => pauseText ++ newline

def tokens : GlobalStmt → List Token
  | .declaration stmt => stmt.tokens
  | .assignment stmt => stmt.tokens
  | .pause => []

def WellFormed : GlobalStmt → Prop
  | .declaration stmt => stmt.WellFormed
  | .assignment stmt => stmt.WellFormed
  | .pause => True

end GlobalStmt

namespace TidRange

/-- `range(a, b)` -/
def render (range : TidRange) : Text :=
  rangeText ++ (range.start.render ++ (([','] ++ [' '] ++ range.stop.render) ++ [')']))

def tokens (range : TidRange) : List Token := [.intConstant range.start, .intConstant range.stop]

def WellFormed (range : TidRange) : Prop := range.start.WellFormed ∧ range.stop.WellFormed

end TidRange

mutual

def ThreadLocalStmt.render : ThreadLocalStmt → Text
  | .threadLocalVariable decl => threadText ++ ([' '] ++ decl.render)
  | .assignment stmt => stmt.render
  | .pause => pauseText ++ newline
  | .tidIfElse ranges stmts => renderBranches ifTidText ranges stmts

def renderStmts : List ThreadLocalStmt → Text
  | [] => []
  | stmt :: stmts => stmt.render ++ renderStmts stmts

/-- The branches of an `iftid`; the statements without a range come after `elsetid`. -/
def renderBranches (keyword : Text) : List TidRange → List (List ThreadLocalStmt) → Text
  | range :: ranges, stmts :: others =>
      keyword ++ ([' '] ++ (range.render ++ (newline ++ renderStmts stmts))) ++
        renderBranches elIfTidText ranges others
  | _, stmts :: _ => elseTidText ++ newline ++ (renderStmts stmts ++ (endIfTidText ++ newline))
  | _, [] => []

end

mutual

def ThreadLocalStmt.tokens : ThreadLocalStmt → List Token
  | .threadLocalVariable decl => decl.tokens
  | .assignment stmt => stmt.tokens
  | .pause => []
  | .tidIfElse ranges stmts => branchTokens ranges stmts

def stmtsTokens : List ThreadLocalStmt → List Token
  | [] => []
  | stmt :: stmts => stmt.tokens ++ stmtsTokens stmts

def branchTokens : List TidRange → List (List ThreadLocalStmt) → List Token
  | range :: ranges, stmts :: others =>
      range.tokens ++ stmtsTokens stmts ++ branchTokens ranges others
  | [], stmts :: others => stmtsTokens stmts ++ branchTokens [] others
  | ranges, [] => ranges.flatMap TidRange.tokens

end

mutual

def ThreadLocalStmt.WellFormed : ThreadLocalStmt → Prop
  | .threadLocalVariable decl => decl.WellFormed
  | .assignment stmt => stmt.WellFormed
  | .pause => True
  | .tidIfElse ranges stmts => ranges ≠ [] ∧ BranchesWellFormed ranges stmts

def StmtsWellFormed : List ThreadLocalStmt → Prop
  | [] => True
  | stmt :: stmts => stmt.WellFormed ∧ StmtsWellFormed stmts

/-- Each range has its statements, and one more list is for the other threads. -/
def BranchesWellFormed : List TidRange → List (List ThreadLocalStmt) → Prop
  | range :: ranges, stmts :: others =>
      range.WellFormed ∧ StmtsWellFormed stmts ∧ BranchesWellFormed ranges others
  | [], [stmts] => StmtsWellFormed stmts
  | _, _ => False

end

namespace Program

def render (ast : Program) : Text :=
  ast.globalProg.flatMap GlobalStmt.render ++ (endGlobalText ++ newline) ++
    renderStmts ast.threadProg

/-- The names, operators and constants of a program in the order of its text. -/
def tokens (ast : Program) : List Token :=
  ast.globalProg.flatMap GlobalStmt.tokens ++ stmtsTokens ast.threadProg

def WellFormed (ast : Program) : Prop :=
  (∀ stmt ∈ ast.globalProg, stmt.WellFormed) ∧ StmtsWellFormed ast.threadProg

end Program

end Explore.Takehome.Parse
