import Explore.Takehome.Moves

/-!
# What a program says

The direct interpretation of programs, without registers, slots or instructions. A variable
holds nothing until it is assigned, then as many words as its type says. The global statements
are executed once, then the threads in turn. A thread starts with the global variables and with
`tidxlen`; of an `iftid` it executes the first branch whose range it is in. Reading a variable
that holds nothing, a word of memory that does not exist and a division by zero are `none`.
-/

namespace Explore.Takehome

/-- What the variables hold. -/
abbrev Store := String → Option (List Word)

structure State where
  store : Store
  mem : List Word

/-- The words of an operand that is promoted to `length` words. -/
def VarOrConstant.words (store : Store) (length : ℕ) : VarOrConstant → Option (List Word)
  | .var name => store name
  | .const intconst => some (List.replicate length (word intconst.toInt))

/-- An operation on each lane. -/
def laneWords (length : ℕ) (op : AluOp) (left right : List Word) : Option (List Word) :=
  (List.range length).mapM fun i => do op.eval (← left[i]?) (← right[i]?)

/-- The words that a select looks at. -/
def Condition.words (store : Store) (length : ℕ) : Condition → Option (List Word)
  | .var name => store name
  | .cmp left op right => do
      laneWords length op (← left.words store length) (← right.words store length)

/-- The words of memory from an address on. -/
def loadWords (mem : List Word) (length : ℕ) (addr : Word) : Option (List Word) :=
  (List.range length).mapM fun i => mem[addr.toNat + i]?

/-- Words of memory get new values, unless one of them does not exist. -/
def storeWords (mem : List Word) (addr : ℕ) (ws : List Word) : Option (List Word) :=
  if addr + ws.length ≤ mem.length then
    some (mem.take addr ++ ws ++ mem.drop (addr + ws.length))
  else none

/-- The value of an expression for a variable of `length` words. -/
def ValueExpr.eval (s : State) (length : ℕ) : ValueExpr → Option (List Word)
  | .derefIndividualWords rname => do
      let addrs ← s.store rname
      (List.range length).mapM fun i => do s.mem[(← addrs[i]?).toNat]?
  | .derefVariable rname => do loadWords s.mem length (← (← s.store rname).head?)
  | .derefConstant intconst => loadWords s.mem length (word intconst.toInt)
  | .variable rname index => do
      movedWords length (← s.store rname) (index.map IntConstantExpr.toInt)
  | .binOp left op right => do
      laneWords length op (← left.words s.store length) (← right.words s.store length)
  | .multAdd factor1 factor2 add => do
      let as ← s.store factor1
      let bs ← factor2.words s.store length
      let cs ← add.words s.store length
      (List.range length).mapM fun i => do return (← as[i]?) * (← bs[i]?) + (← cs[i]?)
  | .select cond ifTrue ifFalse => do
      let cs ← cond.words s.store length
      let as ← ifTrue.words s.store length
      let bs ← ifFalse.words s.store length
      (List.range length).mapM fun i => do if (← cs[i]?) ≠ 0 then as[i]? else bs[i]?
  | .intConstant intconst => some (List.replicate length (word intconst.toInt))

/-- A variable gets a new value. -/
def State.set (s : State) (name : String) (ws : List Word) : State :=
  { s with store := Function.update s.store name (some ws) }

theorem State.store_set (s : State) (x y : String) (ws : List Word) :
    (s.set x ws).store y = if y = x then some ws else s.store y :=
  Function.update_apply ..

@[simp] theorem State.mem_set (s : State) (x : String) (ws : List Word) :
    (s.set x ws).mem = s.mem := rfl

/-- `name = value`, where the type of `name` says how many words it has. -/
def State.assign (lengthOf : String → Option ℕ) (s : State) (name : String) (value : ValueExpr) :
    Option State := do
  return s.set name (← value.eval s (← lengthOf name))

/-- `@name = value`. -/
def State.storeMemory (s : State) (name : String) : ValueExpr → Option State
  | .variable rname index => do
      let addr ← (← s.store name).head?
      let ws ← storedWords (← s.store rname) (index.map IntConstantExpr.toInt)
      return { s with mem := ← storeWords s.mem addr.toNat ws }
  | _ => none

def PlainStmt.exec (lengthOf : String → Option ℕ) (s : State) : PlainStmt → Option State
  | .variableDeclaration .. | .pause => some s
  | .variableDefinition _ name value | .loadVariable name value => s.assign lengthOf name value
  | .storeMemory name value => s.storeMemory name value

mutual

def execStmt (lengthOf : String → Option ℕ) (tid : ℤ) (s : State) :
    ThreadLocalStmt → Option State
  | .plain stmt => stmt.exec lengthOf s
  | .tidIfElse ranges stmts => execBranches lengthOf tid s ranges stmts

def execStmts (lengthOf : String → Option ℕ) (tid : ℤ) (s : State) :
    List ThreadLocalStmt → Option State
  | [] => some s
  | stmt :: stmts => do execStmts lengthOf tid (← execStmt lengthOf tid s stmt) stmts

/-- The first branch whose range the thread is in, or the one without a range. -/
def execBranches (lengthOf : String → Option ℕ) (tid : ℤ) (s : State) (ranges : List TidRange) :
    List (List ThreadLocalStmt) → Option State
  | [] => some s
  | stmts :: branches =>
      if (ranges.head?.map fun range => range.contains tid).getD true then
        execStmts lengthOf tid s stmts
      else execBranches lengthOf tid s ranges.tail branches

end

namespace Program

/-- The variables that the program declares. -/
def declared (program : Program) : List (VarType × String) :=
  program.plainStmts.flatMap PlainStmt.declared

/-- How many words a variable has. -/
def lengthOf (program : Program) (name : String) : Option ℕ :=
  (program.declared.find? fun d => d.2 = name).map (·.1.length)

def isGlobal (program : Program) (name : String) : Bool :=
  (program.globalStmts.flatMap PlainStmt.declared).any (·.2 = name)

/-- The global variables alone. -/
def globalsOf (program : Program) (s : State) : State :=
  { s with store := fun name => if program.isGlobal name then s.store name else none }

/-- A thread starts with the global variables and with `tidxlen`, if that is declared. -/
def enterThread (program : Program) (s : State) (tid : ℕ) : State :=
  if program.declared.any (·.2 = "tidxlen") then
    (program.globalsOf s).set "tidxlen" [word (VLEN * tid : ℕ)]
  else program.globalsOf s

def runThread (program : Program) (s : State) (tid : ℕ) : Option State :=
  execStmts program.lengthOf tid (program.enterThread s tid) program.threadStmts

/-- The global statements, then each thread. -/
def interpret (program : Program) (numThreads : ℕ) (mem : List Word) : Option State := do
  let s ← program.globalStmts.foldlM (PlainStmt.exec program.lengthOf) ⟨fun _ => none, mem⟩
  (List.range numThreads).foldlM program.runThread s

end Program

section Reach

variable {lengthOf : String → Option ℕ} {tid : ℤ}

/-- The statements that a thread reaches. -/
def reachedBy (tid : ℤ) (xs : List (PlainStmt × TidSet)) : List PlainStmt :=
  (xs.filter fun x => x.2 tid).map Prod.fst

theorem reachedBy_append (xs ys : List (PlainStmt × TidSet)) :
    reachedBy tid (xs ++ ys) = reachedBy tid xs ++ reachedBy tid ys := by
  simp [reachedBy]

mutual

/-- A thread that does not reach a statement reaches nothing in it. -/
theorem reachedBy_stmt_of_not {outer : TidSet} (h : outer tid = false) :
    ∀ stmt : ThreadLocalStmt, reachedBy tid (reachStmt outer stmt) = []
  | .plain stmt => by simp [reachStmt, reachedBy, h]
  | .tidIfElse ranges stmts => by
      rw [reachStmt]
      exact reachedBy_branches_of_not h ranges stmts

theorem reachedBy_stmts_of_not {outer : TidSet} (h : outer tid = false) :
    ∀ stmts : List ThreadLocalStmt, reachedBy tid (reachStmts outer stmts) = []
  | [] => rfl
  | stmt :: stmts => by
      rw [reachStmts, reachedBy_append, reachedBy_stmt_of_not h stmt,
        reachedBy_stmts_of_not h stmts]
      rfl

theorem reachedBy_branches_of_not {undecided : TidSet} (h : undecided tid = false)
    (ranges : List TidRange) :
    ∀ branches : List (List ThreadLocalStmt),
      reachedBy tid (reachBranches undecided ranges branches) = []
  | [] => rfl
  | stmts :: branches => by
      rw [reachBranches, reachedBy_append, reachedBy_stmts_of_not (by simp [h]) stmts,
        reachedBy_branches_of_not (by simp [h]) ranges.tail branches]
      rfl

end

mutual

/-- A thread executes the plain statements that it reaches. -/
theorem execStmt_eq {outer : TidSet} (h : outer tid = true) (s : State) :
    ∀ stmt : ThreadLocalStmt, execStmt lengthOf tid s stmt =
      (reachedBy tid (reachStmt outer stmt)).foldlM (PlainStmt.exec lengthOf) s
  | .plain stmt => by simp [execStmt, reachStmt, reachedBy, h]
  | .tidIfElse ranges stmts => by
      rw [execStmt, reachStmt]
      exact execBranches_eq h s ranges stmts

theorem execStmts_eq {outer : TidSet} (h : outer tid = true) (s : State) :
    ∀ stmts : List ThreadLocalStmt, execStmts lengthOf tid s stmts =
      (reachedBy tid (reachStmts outer stmts)).foldlM (PlainStmt.exec lengthOf) s
  | [] => rfl
  | stmt :: stmts => by
      rw [execStmts, reachStmts, reachedBy_append, List.foldlM_append, execStmt_eq h s stmt]
      cases (reachedBy tid (reachStmt outer stmt)).foldlM (PlainStmt.exec lengthOf) s with
      | none => rfl
      | some s' => exact execStmts_eq h s' stmts

theorem execBranches_eq {undecided : TidSet} (h : undecided tid = true) (s : State)
    (ranges : List TidRange) :
    ∀ branches : List (List ThreadLocalStmt), execBranches lengthOf tid s ranges branches =
      (reachedBy tid (reachBranches undecided ranges branches)).foldlM (PlainStmt.exec lengthOf) s
  | [] => rfl
  | stmts :: branches => by
      let range : TidSet := (ranges.head?.map TidRange.contains).getD fun _ => true
      have hrange : range tid = (ranges.head?.map fun range => range.contains tid).getD true := by
        dsimp only [range]
        cases ranges.head? <;> rfl
      rw [execBranches, reachBranches, reachedBy_append, List.foldlM_append, ← hrange]
      split
      · rename_i hin
        have hinside : (undecided tid && range tid) = true := by rw [h, hin, Bool.and_self]
        have hothers : (undecided tid && !range tid) = false := by
          rw [hin, Bool.not_true, Bool.and_false]
        rw [@execStmts_eq (fun tid => undecided tid && range tid) hinside s stmts,
          @reachedBy_branches_of_not _ (fun tid => undecided tid && !range tid) hothers]
        exact (Option.bind_fun_some _).symm
      · rename_i hout
        rw [Bool.not_eq_true] at hout
        have hinside : (undecided tid && range tid) = false := by rw [hout, Bool.and_false]
        have hothers : (undecided tid && !range tid) = true := by rw [h, hout]; rfl
        rw [@reachedBy_stmts_of_not _ (fun tid => undecided tid && range tid) hinside]
        exact @execBranches_eq (fun tid => undecided tid && !range tid) hothers s ranges.tail
          branches

end

end Reach

end Explore.Takehome
