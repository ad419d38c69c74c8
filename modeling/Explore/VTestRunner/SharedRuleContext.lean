import Mathlib.Algebra.Group.Nat.Defs
import Mathlib.Data.Int.Init
import Mathlib.Data.List.Basic

/-!
# Class parameters of the test runner

A test class has parameters, each the result of a `chooseFrom` call. `VTestRunner`
evaluates the class once to learn the candidates of all parameters, makes one test for
each combination and method, and later lets each test find its candidates from its
index. Integers are Java's: arithmetic wraps, division rounds towards zero and fails on
zero. A Java list holds at most `Integer.MAX_VALUE` elements. An exception is `none`.
-/

namespace Explore.VTestRunner

/-- `Integer.MAX_VALUE`. -/
def maxValue : ℕ := 2 ^ 31 - 1

/-- An `int` that wrapped. -/
def int32 (z : ℤ) : ℤ := z.bmod (2 ^ 32)

/-- `a / b` on Java integers. -/
def div (a b : ℤ) : Option ℤ := if b = 0 then none else some (int32 (a.tdiv b))

/-- `a % b` on Java integers. -/
def rem (a b : ℤ) : Option ℤ := if b = 0 then none else some (a.tmod b)

/-- A candidate, with the text that describes it: the `descriptionString` of a
`SharedTestRule`, what formatting gives for other values. -/
structure Candidate (α : Type) where
  value : α
  description : String
  deriving DecidableEq, Repr

/-- A `chooseFrom` call, with the name of the field that gets its result. -/
structure ChooseFrom (α : Type) where
  fieldName : String
  candidates : List (Candidate α)
  deriving DecidableEq, Repr

/-- `countersList` has for each call the setup counters of its candidates, followed by
their teardown counters. -/
structure SharedRuleContext (α : Type) where
  clist : List (List (Candidate α))
  countersList : List (List ℤ)
  numCombos : ℤ
  names : List String
  deriving DecidableEq, Repr

/-- A test method of one combination. -/
structure IndexedMethod (μ : Type) where
  index : ℕ
  comboIndex : ℕ
  method : μ
  deriving DecidableEq, Repr

/-- `ClassLevelIndexContext`. -/
structure ClassLevelIndexContext where
  total : ℤ
  seen : ℤ

variable {α μ : Type}

/-- What a candidate adds to the name of a combination. -/
def ChooseFrom.describe (call : ChooseFrom α) (c : Candidate α) : String :=
  call.fieldName ++ "[" ++ c.description ++ "]"

namespace SharedRuleContext

def new : SharedRuleContext α := ⟨[], [], 1, [""]⟩

/-- `addNames`. -/
def addNames (names : List String) (call : ChooseFrom α) : Option (List String) :=
  let newNames := names.flatMap fun name =>
    call.candidates.map fun cand => name ++ "_" ++ call.describe cand
  if newNames.length ≤ maxValue then some newNames else none

/-- `chooseFrom` while the class is evaluated: `sanityCheck`, then `addSelect`. -/
def addSelect (src : SharedRuleContext α) (call : ChooseFrom α) :
    Option (SharedRuleContext α) := do
  guard (call.candidates.length > 0)
  return {
    clist := src.clist ++ [call.candidates]
    countersList := src.countersList ++ [List.replicate (2 * call.candidates.length) 0]
    numCombos := int32 (src.numCombos * call.candidates.length)
    names := ← addNames src.names call }

/-- `setCounterValues` on the counters of one call. -/
def setCounters (src : SharedRuleContext α) (methodCount : ℤ) (list : List ℤ) :
    Option (List ℤ) := do
  let n := list.length / 2
  let value ← div (int32 (src.numCombos * methodCount)) n
  return list.take n ++ List.replicate n value

/-- `finishEvalStage`. -/
def finishEvalStage (src : SharedRuleContext α) (methodCount : ℤ) :
    Option (SharedRuleContext α) := do
  return { src with countersList := ← src.countersList.mapM (src.setCounters methodCount) }

def describe (src : SharedRuleContext α) (index : ℕ) : Option String :=
  if index < src.numCombos then src.names[index]? else none

def candidatesAtLevel (src : SharedRuleContext α) (index : ℕ) : Option (List (Candidate α)) :=
  src.clist[index]?

def getCountersAtLevel (src : SharedRuleContext α) (index : ℕ) : Option (List ℤ) :=
  src.countersList[index]?

end SharedRuleContext

/-- `evalSetup`, for a class with the given `chooseFrom` calls and number of methods. -/
def evalSetup (calls : List (ChooseFrom α)) (methodCount : ℕ) : Option (SharedRuleContext α) := do
  let src ← calls.foldlM SharedRuleContext.addSelect .new
  src.finishEvalStage methodCount

/-- `computeTestMethods`, after the setup. -/
def computeTestMethods (src : SharedRuleContext α) (methods : List μ) :
    Option (List (IndexedMethod μ)) :=
  let ret := ((List.range src.numCombos.toNat).flatMap fun i => methods.map (i, ·)).zipIdx.map
    fun entry => ⟨entry.2, entry.1.1, entry.1.2⟩
  if ret.length ≤ maxValue then some ret else none

/-- `select`. -/
def select (context : ClassLevelIndexContext) (idx numCandidates : ℤ) : Option ℤ := do
  let left ← div context.total context.seen
  let later ← div left numCandidates
  div (← rem idx left) later

/-- `addSelect` of the index context. -/
def ClassLevelIndexContext.addSelect (context : ClassLevelIndexContext) (numCandidates : ℤ) :
    ClassLevelIndexContext :=
  { context with seen := int32 (context.seen * numCandidates) }

/-- The `chooseFrom` call at level `curIdx` while a test instance is made: the index it
selects and the candidate. -/
def nextInner (src : SharedRuleContext α) (idx : ℤ) (curIdx : ℕ)
    (context : ClassLevelIndexContext) : Option (ClassLevelIndexContext × ℕ × Candidate α) := do
  let candidates ← src.candidatesAtLevel curIdx
  let selectedIdx ← select context idx candidates.length
  guard (0 ≤ selectedIdx)
  return (context.addSelect candidates.length, selectedIdx.toNat, ← candidates[selectedIdx.toNat]?)

/-- The `chooseFrom` calls of a test instance from level `curIdx` on. -/
def assignFrom (src : SharedRuleContext α) (idx : ℤ) :
    ℕ → ℕ → ClassLevelIndexContext → Option (List (ℕ × Candidate α))
  | _, 0, _ => some []
  | curIdx, left + 1, context => do
      let (context, choice) ← nextInner src idx curIdx context
      return choice :: (← assignFrom src idx (curIdx + 1) left context)

/-- What the `chooseFrom` calls of the test with index `idx` select, when `total` tests
are active. -/
def assign (src : SharedRuleContext α) (total : ℕ) (idx : ℕ) : Option (List (ℕ × Candidate α)) :=
  assignFrom src idx 0 src.clist.length ⟨total, 1⟩

end Explore.VTestRunner
