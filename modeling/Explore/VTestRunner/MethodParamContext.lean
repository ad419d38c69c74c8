import Explore.Lib.LinkedMap
import Explore.VTestRunner.SharedRuleContext

/-!
# Method parameters of the test runner

A public field that gets the result of `MethodParam.chooseFrom` is a parameter of the
test methods that have an argument of its name. `VTestRunner` makes one instance of the
class to learn the candidates, makes a test for each combination of candidates of a
method's arguments, and makes an instance of the class for each test, where the
`chooseFrom` calls look their choices up. Fields are listed in the order in which an
instance initialises them. An exception is `none`, and so is a `null` field value.
A list of tests has at most `Integer.MAX_VALUE` elements, so that the indices of tests are
natural numbers.
-/

namespace Explore.VTestRunner

variable {α : Type}

/-- A public method of a class file. It has the attribute `MethodParameters` if its class
was compiled with `-parameters`. -/
structure ParamMethod where
  name : String
  descriptor : String
  parameterCount : ℕ
  parameters : Option (List (Option String))
  deriving DecidableEq, Repr

/-- `TestMethod.MethodWithParameters`: the index of the candidate for each argument. -/
structure MethodWithParameters where
  method : ParamMethod
  midx : ℕ
  mcidx : ℕ
  paramChoices : List (String × ℤ)
  deriving DecidableEq, Repr

/-- `resolution` has for each test the candidates of its arguments. -/
structure MethodParamContext (α : Type) where
  paramNames : List String
  candidates : List (List (Candidate α))
  paramToLevel : List (String × ℕ)
  hasParameters : Bool
  resolution : List (ℕ × List (String × Candidate α))
  descriptions : List (ℕ × String)
  deriving DecidableEq, Repr

/-- What `chooseFrom` reads of the evaluation context. The method index is `-1` where no
test with parameters is run. -/
structure EvalContext where
  inAssignmentPhase : Bool
  methodIndex : ℤ

/-- The fields of an instance of the test class. -/
abbrev Instance (α : Type) : Type := List (String × Option (Candidate α))

namespace MethodParamContext

def new : MethodParamContext α := ⟨[], [], [], false, [], []⟩

def addChoices (mpc : MethodParamContext α) (param : String) (choices : List (Candidate α)) :
    MethodParamContext α :=
  { mpc with
    hasParameters := true
    paramToLevel := LinkedMap.put mpc.paramToLevel param mpc.paramNames.length
    paramNames := mpc.paramNames ++ [param]
    candidates := mpc.candidates ++ [choices] }

def describe (mpc : MethodParamContext α) (midx : ℕ) : Option String :=
  mpc.descriptions.lookup midx

/-- The description of the choices of one test. -/
def describeChoices (choices : List (String × Candidate α)) : String :=
  choices.foldl (fun description choice =>
    description ++ "_" ++ choice.1 ++ "[" ++ choice.2.description ++ "]") ""

def finishEvalStage (mpc : MethodParamContext α) : MethodParamContext α :=
  { mpc with
    descriptions := mpc.resolution.foldl (fun descriptions entry =>
      LinkedMap.put descriptions entry.1 (describeChoices entry.2)) mpc.descriptions }

def getChoice (mpc : MethodParamContext α) (midx : ℕ) (param : String) : Option (Candidate α) := do
  (← mpc.resolution.lookup midx).lookup param

def isEnabled (mpc : MethodParamContext α) (midx : ℕ) (param : String) : Option Bool := do
  return param ∈ LinkedMap.keys (← mpc.resolution.lookup midx)

/-- The candidates of the parameter with the given name. -/
def choicesOf (mpc : MethodParamContext α) (param : String) : Option (List (Candidate α)) := do
  mpc.candidates[← mpc.paramToLevel.lookup param]?

def numChoices (mpc : MethodParamContext α) (param : String) : Option ℕ := do
  return (← mpc.choicesOf param).length

def setChoices (mpc : MethodParamContext α) (midx : ℕ) (paramChoices : List (String × ℤ)) :
    Option (MethodParamContext α) := do
  let choices ← (LinkedMap.keys paramChoices).foldlM (fun choices param => do
    let cidx ← paramChoices.lookup param
    guard (0 ≤ cidx)
    let chosen ← (← mpc.choicesOf param)[cidx.toNat]?
    return LinkedMap.put choices param chosen) []
  return { mpc with resolution := LinkedMap.put mpc.resolution midx choices }

end MethodParamContext

/-- `MethodParam.chooseFrom` at a level of the fields, with the value that the field gets. -/
def MethodParam.chooseFrom (fieldNames : List String) (context : EvalContext) (myLevel : ℕ)
    (mpc : MethodParamContext α) (choices : List (Candidate α)) :
    Option (MethodParamContext α × Option (Candidate α)) := do
  guard (choices.length > 0)
  let paramName ← fieldNames[myLevel]?
  if context.inAssignmentPhase then
    if context.methodIndex < 0 then return (mpc, none)
    let methodIndex := context.methodIndex.toNat
    if ← mpc.isEnabled methodIndex paramName then
      return (mpc, some (← mpc.getChoice methodIndex paramName))
    return (mpc, none)
  else
    return (mpc.addChoices paramName choices, choices.head?)

/-- The fields from a level on get their values. -/
def initFields (fieldNames : List String) (context : EvalContext) :
    ℕ → List (ChooseFrom α) → MethodParamContext α → Instance α →
      Option (MethodParamContext α × Instance α)
  | _, [], mpc, test => some (mpc, test)
  | level, call :: calls, mpc, test => do
      let (mpc, value) ← MethodParam.chooseFrom fieldNames context level mpc call.candidates
      initFields fieldNames context (level + 1) calls mpc (LinkedMap.put test call.fieldName value)

/-- An instance of the class with the given fields. -/
def newInstance (context : EvalContext) (calls : List (ChooseFrom α))
    (mpc : MethodParamContext α) : Option (MethodParamContext α × Instance α) :=
  initFields (calls.map ChooseFrom.fieldName) context 0 calls mpc []

namespace MethodArgParser

def extractArguments (method : ParamMethod) : Option (List String) := do
  if method.parameterCount = 0 then return []
  (← method.parameters).mapM id

/-- What the parser has found for each name. -/
structure Parsed where
  result : List (String × List String)
  resolvedSignatures : List (String × String)

/-- A second method of a name is an override if it has the same descriptor, and an error
otherwise. -/
def processMethod (parsed : Parsed) (method : ParamMethod) : Option Parsed := do
  if method.name ∈ LinkedMap.keys parsed.result then
    guard (parsed.resolvedSignatures.lookup method.name = some method.descriptor)
    return parsed
  let argNames ← extractArguments method
  return {
    result := LinkedMap.put parsed.result method.name argNames
    resolvedSignatures := LinkedMap.put parsed.resolvedSignatures method.name method.descriptor }

/-- The arguments of the methods with the given names, in a class with the given public
methods: its own, followed by those of each superclass. -/
def parsePublicMethodArguments (declared : List ParamMethod) (targets : List String) :
    Option (List (String × List String)) := do
  let parsed ← (declared.filter (·.name ∈ targets)).foldlM processMethod ⟨[], []⟩
  guard (∀ name ∈ targets, name ∈ LinkedMap.keys parsed.result)
  return parsed.result

end MethodArgParser

/-- The names of the arguments, for a method that has them. -/
def ParamMethod.paramNames (method : ParamMethod) : List String :=
  (MethodArgParser.extractArguments method).getD []

/-- What the recursion of `explodeMethods` changes. -/
structure Exploding where
  midxCounter : ℕ
  choices : List (String × ℤ)
  exploded : List MethodWithParameters
  deriving DecidableEq, Repr

/-- `explodeMethods` from the level at which the given names are left. -/
def explodeMethods (mpc : MethodParamContext α) (method : ParamMethod) :
    List String → Exploding → Option Exploding
  | [], st => some { st with
      midxCounter := st.midxCounter + 1
      exploded := st.exploded ++ [⟨method, st.midxCounter, st.exploded.length, st.choices⟩] }
  | name :: names, st => do
      let numChoices ← mpc.numChoices name
      (List.range numChoices).foldlM (fun st (i : ℕ) =>
        explodeMethods mpc method names { st with choices := LinkedMap.put st.choices name i }) st

/-- The loop of `methodParameterMethods` from a method on. -/
def explodeFrom (mpc : MethodParamContext α) (methodParamsByName : List (String × List String)) :
    ℕ → List ParamMethod → Option (List MethodWithParameters)
  | _, [] => some []
  | midxCounter, method :: methods => do
      let paramNames ← methodParamsByName.lookup method.name
      let choices := paramNames.foldl (fun choices p => LinkedMap.put choices p (-1)) []
      let st ← explodeMethods mpc method paramNames ⟨midxCounter, choices, []⟩
      return st.exploded ++ (← explodeFrom mpc methodParamsByName st.midxCounter methods)

/-- The tests of the methods that are annotated `TestWithParameters`, in a class with the
given public methods. -/
def methodParameterMethods (mpc : MethodParamContext α) (declared methods : List ParamMethod) :
    Option (List MethodWithParameters) := do
  let methodParamsByName ←
    MethodArgParser.parsePublicMethodArguments declared (methods.map ParamMethod.name)
  explodeFrom mpc methodParamsByName 0 methods

/-- `evalSetup`, for the fields and the methods with parameters. -/
def MethodParamContext.evalSetup (calls : List (ChooseFrom α))
    (declared methods : List ParamMethod) :
    Option (MethodParamContext α × List MethodWithParameters) := do
  let (mpc, _) ← newInstance ⟨false, -1⟩ calls .new
  let mpMethods ← methodParameterMethods mpc declared methods
  let mpc ← mpMethods.foldlM (fun mpc mpm => mpc.setChoices mpm.midx mpm.paramChoices) mpc
  return (mpc.finishEvalStage, mpMethods)

/-- The arguments that `methodInvoker` passes on an instance. -/
def MethodWithParameters.methodInvoker (mp : MethodWithParameters) (test : Instance α) :
    Option (List (Candidate α)) :=
  (LinkedMap.keys mp.paramChoices).mapM fun fieldName => do
    let fieldValue ← test.lookup fieldName
    fieldValue

/-- The instance on which a test runs. -/
def MethodWithParameters.newInstance (mp : MethodWithParameters) (calls : List (ChooseFrom α))
    (mpc : MethodParamContext α) : Option (Instance α) := do
  let (_, test) ← VTestRunner.newInstance ⟨true, mp.midx⟩ calls mpc
  return test

end Explore.VTestRunner
