import Explore.Takehome.Ast
import Explore.Takehome.DataModel

/-!
# From programs to logical instructions

`IRPipeline` lowers the statements of a program in source order. A statement first
sets up the constants it is the first to use, as global instructions, and then adds
its own instructions, to the global part or to the threads of the range in force.
That range is one mutable field: each branch of an `iftid` sets it and clears it
afterwards. An assertion or any other exception is `none`.
-/

namespace Explore.Takehome

/-- A set of threads. -/
abbrev TidSet := ℤ → Bool

/-- `INFINITE_SET`, which is `range(-1, 100)`. -/
def INFINITE_SET : TidSet := fun tid => decide (-1 ≤ tid ∧ tid < 100)

/-- The operand for a whole variable. -/
def wholeVariable (name : ScratchName) (isVector isRead : Bool) : LogicalOp :=
  .reg ⟨name, if isVector then .vector else .word 0, isRead⟩

/-- The operand for a word of a vector variable. -/
def scalarWithinVector (name : ScratchName) (offset : Fin 8) (isRead : Bool) : LogicalOp :=
  .reg ⟨name, .word offset, isRead⟩

/-- The scratch space while a statement is lowered, and the instructions that set up
the constants it is the first to use. -/
structure Lowered where
  ss : ScratchSpace
  setup : List LogicalInstruction

namespace Lowered

/-- The instructions of `__handle_const` for a new constant. -/
def constSetup (v : ℤ) (isVector : Bool) : List LogicalInstruction :=
  .const (scalarWithinVector (.const v isVector) 0 false) v ::
    if isVector then
      [.vbroadcast (wholeVariable (.const v isVector) true false)
        (scalarWithinVector (.const v isVector) 0 true)]
    else []

/-- `__handle_const`. -/
def handleConst (st : Lowered) (v : ℤ) (isVector : Bool) : Option (Lowered × LogicalOp) := do
  let (ss, firstTime) ← st.ss.allocConst v isVector
  return (⟨ss, if firstTime then st.setup ++ constSetup v isVector else st.setup⟩,
    wholeVariable (.const v isVector) isVector true)

/-- `__check_is_vector`. -/
def checkIsVector (st : Lowered) (name : String) (expectVector : Bool) : Option Unit := do
  let vm ← st.ss.varMetaOf (.var name)
  guard (vm.isVector = expectVector)

/-- `__read_variable`. -/
def readVariable (st : Lowered) (name : String) (isVector : Bool) : Option LogicalOp := do
  st.checkIsVector name isVector
  return wholeVariable (.var name) isVector true

/-- `__addr_of`, for an operand that is read. -/
def addrOf (st : Lowered) (original : VarOrConstant) (expectVector : Bool) :
    Option (Lowered × LogicalOp) :=
  match original with
  | .var name => do return (st, ← st.readVariable name expectVector)
  | .const intconst => st.handleConst intconst.toInt expectVector

/-- The source of `lname = rname[index]`: a word of a vector, or a scalar variable
that is read without an offset. -/
def wordOf (st : Lowered) (rname : String) (index : Option IntConstantExpr) :
    Option LogicalOp := do
  let rvm ← st.ss.varMetaOf (.var rname)
  let ridx := (index.map IntConstantExpr.toInt).getD 0
  if rvm.isVector then
    if 0 ≤ ridx ∧ ridx < VLEN then
      return scalarWithinVector (.var rname) (Fin.ofNat 8 ridx.toNat) true
    else none
  else
    guard (ridx = 0)
    return wholeVariable (.var rname) false true

/-- The instructions of `lname = cond ? if_true : if_false`. A comparison is kept in
`lname` until the select, so neither branch may be `lname`. -/
def handleSelect (st : Lowered) (lname : String) (cond : Condition)
    (ifTrue ifFalse : VarOrConstant) : Option (Lowered × List LogicalInstruction) := do
  let dest := wholeVariable (.var lname) true false
  match cond with
  | .var name =>
      let caddr ← st.readVariable name true
      let (st, lbranch) ← st.addrOf ifTrue true
      let (st, rbranch) ← st.addrOf ifFalse true
      return (st, [.vselect dest caddr lbranch rbranch])
  | .cmp left op right =>
      let (st, l1addr) ← st.addrOf left true
      let (st, r1addr) ← st.addrOf right true
      let caddr ← st.readVariable lname true
      let (st, lbranch) ← st.addrOf ifTrue true
      let (st, rbranch) ← st.addrOf ifFalse true
      guard (ifTrue ≠ .var lname ∧ ifFalse ≠ .var lname)
      return (st, [.valu op dest l1addr r1addr, .vselect dest caddr lbranch rbranch])

/-- `__handle_variable_assignment`. The checks of `write_variable` compare `lname` with
its own declaration. -/
def handleVariableAssignment (st : Lowered) (lname : String) (rvalue : ValueExpr) :
    Option (Lowered × List LogicalInstruction) := do
  let isVector := (← st.ss.varMetaOf (.var lname)).isVector
  let dest := wholeVariable (.var lname) isVector false
  match rvalue with
  | .derefIndividualWords rname =>
      guard isVector
      st.checkIsVector rname true
      return (st, (List.finRange 8).map fun i =>
        .load (scalarWithinVector (.var lname) i false) (scalarWithinVector (.var rname) i true))
  | .derefVariable rname =>
      let addr ← st.readVariable rname false
      return (st, [if isVector then .vload dest addr else .load dest addr])
  | .derefConstant intconst =>
      let (st, addr) ← st.handleConst intconst.toInt false
      return (st, [if isVector then .vload dest addr else .load dest addr])
  | .binOp left op right =>
      let (st, r1) ← st.addrOf left isVector
      let (st, r2) ← st.addrOf right isVector
      return (st, [if isVector then .valu op dest r1 r2 else .alu op dest r1 r2])
  | .multAdd factor1 factor2 add =>
      guard isVector
      let r1 ← st.readVariable factor1 true
      let (st, r2) ← st.addrOf factor2 true
      let (st, r3) ← st.addrOf add true
      return (st, [.multiplyAdd dest r1 r2 r3])
  | .select cond ifTrue ifFalse =>
      guard isVector
      st.handleSelect lname cond ifTrue ifFalse
  | .intConstant intconst =>
      if isVector then
        let (st, src) ← st.handleConst intconst.toInt false
        return (st, [.vbroadcast dest src])
      else return (st, [.const dest intconst.toInt])
  | .variable rname index =>
      let rhs ← st.wordOf rname index
      return (st, [if isVector then .vbroadcast dest rhs else .alu .or dest rhs rhs])

/-- `handle_store_memory`. The stored variable is marked as written. -/
def handleStoreMemory (st : Lowered) (lname : String) (value : ValueExpr) :
    Option (Lowered × List LogicalInstruction) :=
  match value with
  | .variable rname _ => do
      let isVector := (← st.ss.varMetaOf (.var rname)).isVector
      let addr ← st.readVariable lname false
      let src := wholeVariable (.var rname) isVector false
      return (st, [if isVector then .vstore addr src else .store addr src])
  | _ => none

end Lowered

/-- `__register_variable`. -/
def registerVariable (ss : ScratchSpace) (varType : VarType) (numSlots : ℕ) (name : String) :
    Option ScratchSpace :=
  match varType with
  | .registers => ss.allocWideWord (.var name) numSlots
  | .register => ss.allocWord (.var name) numSlots

/-- What a plain statement does to the scratch space, and the instructions it adds. -/
def lowerPlain (ss : ScratchSpace) (numSlots : ℕ) :
    PlainStmt → Option (Lowered × List LogicalInstruction)
  | .variableDeclaration varType name otherNames => do
      let ss ← (name :: otherNames).foldlM (registerVariable · varType numSlots) ss
      return (⟨ss, []⟩, [])
  | .variableDefinition varType name value => do
      let ss ← registerVariable ss varType numSlots name
      Lowered.handleVariableAssignment ⟨ss, []⟩ name value
  | .loadVariable name value => Lowered.handleVariableAssignment ⟨ss, []⟩ name value
  | .storeMemory name value => Lowered.handleStoreMemory ⟨ss, []⟩ name value
  | .pause => some (⟨ss, []⟩, [])

/-- `InstrGraph` before threads are formed: the global instructions, and those of the
threads with their `tidrange`. -/
structure InstrGraph where
  globalimetas : List LogicalInstruction
  imetas : List (LogicalInstruction × TidSet)

structure IRPipeline where
  ss : ScratchSpace
  graph : InstrGraph
  tidrangeContext : Option TidSet

namespace IRPipeline

def new : IRPipeline := ⟨.empty, ⟨[], []⟩, none⟩

/-- `__add`. -/
def add (irp : IRPipeline) (isGlobal : Bool) (linst : LogicalInstruction) : IRPipeline :=
  if isGlobal then
    { irp with graph.globalimetas := irp.graph.globalimetas ++ [linst] }
  else
    { irp with
      graph.imetas := irp.graph.imetas ++ [(linst, irp.tidrangeContext.getD INFINITE_SET)] }

/-- `handle_stmt` on a plain statement. -/
def handlePlain (concThreads : ℕ) (isGlobal : Bool) (irp : IRPipeline) (stmt : PlainStmt) :
    Option IRPipeline := do
  let (lowered, instrs) ← lowerPlain irp.ss (if isGlobal then 1 else concThreads) stmt
  let irp := lowered.setup.foldl (add · true ·) { irp with ss := lowered.ss }
  return instrs.foldl (add · isGlobal ·) irp

mutual

def handleStmt (numThreads concThreads : ℕ) (irp : IRPipeline) :
    ThreadLocalStmt → Option IRPipeline
  | .plain stmt => irp.handlePlain concThreads false stmt
  | .tidIfElse ranges stmts =>
      handleBranches numThreads concThreads ranges (fun tid => decide (0 ≤ tid ∧ tid < numThreads))
        irp stmts

def handleStmts (numThreads concThreads : ℕ) (irp : IRPipeline) :
    List ThreadLocalStmt → Option IRPipeline
  | [] => some irp
  | stmt :: stmts => do
      handleStmts numThreads concThreads (← handleStmt numThreads concThreads irp stmt) stmts

/-- The loop of `handle_tid_ifelse_stmt` over the branches not yet handled. -/
def handleBranches (numThreads concThreads : ℕ) (ranges : List TidRange) (remainingTids : TidSet)
    (irp : IRPipeline) : List (List ThreadLocalStmt) → Option IRPipeline
  | [] => some irp
  | stmts :: branches => do
      let trange : TidSet := (ranges.head?.map TidRange.contains).getD remainingTids
      let irp ← handleStmts numThreads concThreads { irp with tidrangeContext := some trange } stmts
      handleBranches numThreads concThreads ranges.tail
        (fun tid => remainingTids tid && !trange tid) { irp with tidrangeContext := none } branches

end

end IRPipeline

/-- `__program_to_irp`. -/
def programToIrp (program : Program) (numThreads concThreads : ℕ) : Option IRPipeline := do
  let irp ← program.globalStmts.foldlM (IRPipeline.handlePlain concThreads true) .new
  irp.handleStmts numThreads concThreads program.threadStmts

end Explore.Takehome
