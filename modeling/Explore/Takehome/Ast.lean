import Explore.Takehome.Machine

/-!
# Programs

The abstract syntax that the parser builds. Integer constants keep their digits, as
the grammar collects them, so `to_int` cannot fail; operators are those of the
machine. A statement other than `iftid` has one type, `PlainStmt`, for the global
part and for the threads.
-/

namespace Explore.Takehome

/-- `NumberString` and `NumberStringHex`. -/
inductive IntConstantExpr where
  | numberString (minus : Bool) (digits : List (Fin 10))
  | numberStringHex (digits : List (Fin 16))
  deriving DecidableEq, Repr

/-- The number written with these digits in this base. -/
def ofDigits (base : ℕ) (digits : List ℕ) : ℕ :=
  digits.foldl (fun value digit => value * base + digit) 0

def IntConstantExpr.toInt : IntConstantExpr → ℤ
  | numberString minus digits =>
      let value := ofDigits 10 (digits.map Fin.val)
      if minus then -value else value
  | numberStringHex digits => ofDigits 16 (digits.map Fin.val)

inductive VarOrConstant where
  | var (name : String)
  | const (intconst : IntConstantExpr)
  deriving DecidableEq, Repr

/-- The condition of a select: a variable, or a `CondExpr`. -/
inductive Condition where
  | var (name : String)
  | cmp (left : VarOrConstant) (op : AluOp) (right : VarOrConstant)
  deriving DecidableEq, Repr

inductive ValueExpr where
  | derefIndividualWords (name : String)
  | derefVariable (name : String)
  | derefConstant (expr : IntConstantExpr)
  | variable (name : String) (index : Option IntConstantExpr)
  | binOp (left : VarOrConstant) (op : AluOp) (right : VarOrConstant)
  | multAdd (factor1 : String) (factor2 add : VarOrConstant)
  | select (cond : Condition) (ifTrue ifFalse : VarOrConstant)
  | intConstant (intconst : IntConstantExpr)
  deriving DecidableEq, Repr

/-- `register` or `register[]`. -/
inductive VarType where
  | register
  | registers
  deriving DecidableEq, Repr

inductive PlainStmt where
  | variableDeclaration (varType : VarType) (name : String) (otherNames : List String)
  | variableDefinition (varType : VarType) (name : String) (value : ValueExpr)
  | loadVariable (name : String) (value : ValueExpr)
  | storeMemory (name : String) (value : ValueExpr)
  | pause
  deriving DecidableEq, Repr

structure TidRange where
  start : IntConstantExpr
  stop : IntConstantExpr
  deriving DecidableEq, Repr

/-- The threads of a range, `range(to_int(start), to_int(end))`. -/
def TidRange.contains (trange : TidRange) (tid : ℤ) : Bool :=
  decide (trange.start.toInt ≤ tid ∧ tid < trange.stop.toInt)

/-- A statement of a thread. In `tidIfElse`, the branch without a range is the else
branch. -/
inductive ThreadLocalStmt where
  | plain (stmt : PlainStmt)
  | tidIfElse (ranges : List TidRange) (stmts : List (List ThreadLocalStmt))

structure Program where
  globalStmts : List PlainStmt
  threadStmts : List ThreadLocalStmt

end Explore.Takehome
