import Explore.VTestRunner.SharedRuleContext
import Mathlib.Data.List.Basic
import Mathlib.Logic.Function.Basic

/-!
# Test classes that run in one JVM

The `chooseFrom` calls of a class find their level from a builder, and the builders are
in a map of the JVM that has the index of a test for key, and -1 for the evaluation of a
class. A builder stays there with its position and the field names of the class that
made it. So a second class with parameters starts where the first one stopped, and its
evaluation fails. Classes without parameters do not use the map.
-/

namespace Explore.VTestRunner

/-- A `chooseFrom` call, with whether its candidates are `SharedTestRule`s. -/
structure ParamCall (α : Type) extends ChooseFrom α where
  isSharedRule : Bool

structure TestClass (α μ : Type) where
  calls : List (ParamCall α)
  methods : List μ

/-- `SharedRuleChain.Builder`; the next call is at level `curIdx + 1` of the source. -/
structure Builder (α : Type) where
  inners : List (Candidate α)
  fieldNames : List String
  nextIdx : ℕ

/-- `rulebuilders`. -/
abbrev RuleBuilders (α : Type) := ℤ → Option (Builder α)

variable {α μ : Type}

def TestClass.fieldNames (cls : TestClass α μ) : List String :=
  cls.calls.map fun call => call.fieldName

namespace RuleBuilders

def empty : RuleBuilders α := fun _ => none

/-- `getBuilder`. -/
def getBuilder (builders : RuleBuilders α) (testIdx : ℤ) (fieldNames : List String) : Builder α :=
  (builders testIdx).getD ⟨[], fieldNames, 0⟩

def put (builders : RuleBuilders α) (testIdx : ℤ) (builder : Builder α) : RuleBuilders α :=
  Function.update builders testIdx (some builder)

end RuleBuilders

/-- `nextInnerShared` and `nextInnerNonShared` while a class is evaluated. An exception
leaves the builder at the next level. -/
def Builder.nextSetup (builder : Builder α) (src : SharedRuleContext α) (call : ParamCall α) :
    Builder α × Option (SharedRuleContext α) :=
  let curIdx := builder.nextIdx
  let builder := { builder with nextIdx := builder.nextIdx + 1 }
  match builder.fieldNames[curIdx]? with
  | none => (builder, none)
  | some name =>
      match src.addSelect ⟨name, call.candidates⟩, call.candidates[0]? with
      | some src, some rule =>
          if call.isSharedRule then
            match src.getCountersAtLevel curIdx with
            | none => (builder, none)
            | some _ => ({ builder with inners := builder.inners ++ [rule] }, some src)
          else (builder, some src)
      | _, _ => (builder, none)

/-- The `chooseFrom` calls of a class while it is evaluated: `sanityCheck` comes first. -/
def setupCalls (fieldNames : List String) :
    RuleBuilders α → SharedRuleContext α → List (ParamCall α) →
      RuleBuilders α × Option (SharedRuleContext α)
  | builders, src, [] => (builders, some src)
  | builders, src, call :: rest =>
      if call.candidates.length = 0 then (builders, none)
      else
        let (builder, next) := (builders.getBuilder (-1) fieldNames).nextSetup src call
        match next with
        | none => (builders.put (-1) builder, none)
        | some src => setupCalls fieldNames (builders.put (-1) builder) src rest

/-- `evalSetup` in a JVM. -/
def evalSetupIn (builders : RuleBuilders α) (cls : TestClass α μ) :
    RuleBuilders α × Option (SharedRuleContext α) :=
  let (builders, src) := setupCalls cls.fieldNames builders .new cls.calls
  (builders, src.bind (·.finishEvalStage cls.methods.length))

/-- `nextInnerShared` and `nextInnerNonShared` while a test instance is made. -/
def Builder.nextAssign (builder : Builder α) (src : SharedRuleContext α) (idx : ℤ)
    (context : ClassLevelIndexContext) (call : ParamCall α) :
    Builder α × Option (ClassLevelIndexContext × ℕ × Candidate α) :=
  let curIdx := builder.nextIdx
  let builder := { builder with nextIdx := builder.nextIdx + 1 }
  match nextInner src idx curIdx context with
  | none => (builder, none)
  | some (context, choice) =>
      if call.isSharedRule then
        match src.getCountersAtLevel curIdx with
        | none => (builder, none)
        | some _ => ({ builder with inners := builder.inners ++ [choice.2] },
            some (context, choice))
      else (builder, some (context, choice))

/-- The `chooseFrom` calls of a test instance. -/
def assignCalls (fieldNames : List String) (src : SharedRuleContext α) (idx : ℤ) :
    RuleBuilders α → ClassLevelIndexContext → List (ParamCall α) →
      RuleBuilders α × Option (List (ℕ × Candidate α))
  | builders, _, [] => (builders, some [])
  | builders, context, call :: rest =>
      if call.candidates.length = 0 then (builders, none)
      else
        let (builder, next) :=
          (builders.getBuilder idx fieldNames).nextAssign src idx context call
        match next with
        | none => (builders.put idx builder, none)
        | some (context, choice) =>
            let (builders, choices) :=
              assignCalls fieldNames src idx (builders.put idx builder) context rest
            (builders, choices.map (choice :: ·))

/-- The values of a test and the rules of its `sharedRuleChain`. -/
structure Assigned (α : Type) where
  chosen : List (ℕ × Candidate α)
  rules : List (Candidate α)

/-- `methodBlock` for the test with an index. -/
def methodBlock (builders : RuleBuilders α) (cls : TestClass α μ) (src : SharedRuleContext α)
    (total idx : ℕ) : RuleBuilders α × Option (Assigned α) :=
  if cls.calls.isEmpty then (builders, some ⟨[], []⟩)
  else
    let (builders, chosen) := assignCalls cls.fieldNames src idx builders ⟨total, 1⟩ cls.calls
    (builders, do return ⟨← chosen, (← builders idx).inners⟩)

/-- The tests that run, in their order. -/
def runTests (cls : TestClass α μ) (src : SharedRuleContext α) (total : ℕ) :
    RuleBuilders α → List ℕ → RuleBuilders α × List (Option (Assigned α))
  | builders, [] => (builders, [])
  | builders, idx :: rest =>
      let (builders, assigned) := methodBlock builders cls src total idx
      let (builders, others) := runTests cls src total builders rest
      (builders, assigned :: others)

/-- What is computed for a class: the context with the names and the number of
combinations, and what each test that runs gets. -/
structure Report (α : Type) where
  src : SharedRuleContext α
  assigned : List (Option (Assigned α))

/-- A test class with the tests of it that run. -/
structure ClassRun (α μ : Type) where
  cls : TestClass α μ
  executed : List ℕ

/-- A class that runs in a JVM. An exception of the evaluation is `none`. -/
def ClassRun.runIn (builders : RuleBuilders α) (run : ClassRun α μ) :
    RuleBuilders α × Option (Report α) :=
  let (builders, src) := evalSetupIn builders run.cls
  match src.bind fun src => (computeTestMethods src run.cls.methods).map (src, ·) with
  | none => (builders, none)
  | some (src, tests) =>
      let (builders, assigned) := runTests run.cls src tests.length builders run.executed
      (builders, some ⟨src, assigned⟩)

/-- What is computed for a class that is the only one. -/
def ClassRun.alone (run : ClassRun α μ) : Option (Report α) := (run.runIn .empty).2

/-- What is computed for classes that run one after the other. -/
def runClasses : RuleBuilders α → List (ClassRun α μ) → List (Option (Report α))
  | _, [] => []
  | builders, run :: rest =>
      let (builders, report) := run.runIn builders
      report :: runClasses builders rest

def TestClass.hasParameters (cls : TestClass α μ) : Bool := !cls.calls.isEmpty

namespace RuleBuilders

@[simp] theorem put_self (builders : RuleBuilders α) (testIdx : ℤ) (builder : Builder α) :
    builders.put testIdx builder testIdx = some builder := Function.update_self ..

theorem put_of_ne (builders : RuleBuilders α) {testIdx other : ℤ} (h : other ≠ testIdx)
    (builder : Builder α) : builders.put testIdx builder other = builders other :=
  Function.update_of_ne h ..

@[simp] theorem getBuilder_put (builders : RuleBuilders α) (testIdx : ℤ) (builder : Builder α)
    (fieldNames : List String) : (builders.put testIdx builder).getBuilder testIdx fieldNames =
      builder := by
  rw [getBuilder, put_self]
  rfl

end RuleBuilders

section Alone

variable {fieldNames : List String} {builders : RuleBuilders α} {src : SharedRuleContext α}

theorem length_countersList {next : SharedRuleContext α} {call : ChooseFrom α}
    (h : src.addSelect call = some next) :
    next.countersList.length = src.countersList.length + 1 := by
  obtain ⟨_, -, h⟩ := Option.bind_eq_some_iff.mp h
  obtain ⟨names, -, h⟩ := Option.bind_eq_some_iff.mp h
  obtain rfl := Option.some.inj h
  simp

theorem addSelect_eq_none {call : ChooseFrom α} (h : call.candidates.length = 0) :
    src.addSelect call = none := by
  simp only [SharedRuleContext.addSelect, guard, h, Nat.lt_irrefl, if_false]
  rfl

/-- A call at its own level records its candidates under its own name. -/
theorem nextSetup_eq {builder : Builder α} {call : ParamCall α}
    (name : builder.fieldNames[builder.nextIdx]? = some call.fieldName)
    (level : src.countersList.length = builder.nextIdx) (hpos : 0 < call.candidates.length) :
    ∃ inners, builder.nextSetup src call =
      (⟨inners, builder.fieldNames, builder.nextIdx + 1⟩, src.addSelect call.toChooseFrom) := by
  have hrule := List.getElem?_eq_getElem hpos
  rw [Builder.nextSetup, name, hrule]
  cases hadd : src.addSelect call.toChooseFrom with
  | none => exact ⟨builder.inners, by simp [hadd]⟩
  | some next =>
      have hlevel : builder.nextIdx < next.countersList.length := by
        rw [length_countersList hadd]
        omega
      cases hshared : call.isSharedRule with
      | false => exact ⟨builder.inners, by simp [hadd]⟩
      | true =>
          refine ⟨builder.inners ++ [call.candidates[0]], ?_⟩
          simp [hadd, SharedRuleContext.getCountersAtLevel,
            List.getElem?_eq_getElem hlevel]

/-- From a new builder on the calls of a class are recorded in their order, and the builder
ends behind the last field name. -/
theorem setupCalls_eq (before rest : List (ParamCall α))
    (names : (builders.getBuilder (-1) fieldNames).fieldNames =
      (before ++ rest).map fun call => call.fieldName)
    (nextIdx : (builders.getBuilder (-1) fieldNames).nextIdx = before.length)
    (level : src.countersList.length = before.length) :
    (setupCalls fieldNames builders src rest).2 =
        (rest.map ParamCall.toChooseFrom).foldlM SharedRuleContext.addSelect src ∧
      ((setupCalls fieldNames builders src rest).2.isSome → rest ≠ [] →
        ∃ builder, (setupCalls fieldNames builders src rest).1 (-1) = some builder ∧
          builder.fieldNames.length ≤ builder.nextIdx) := by
  induction rest generalizing builders src before with
  | nil => exact ⟨rfl, fun _ h => absurd rfl h⟩
  | cons call rest ih =>
      rw [setupCalls, List.map_cons, List.foldlM_cons]
      by_cases hempty : call.candidates.length = 0
      · rw [if_pos hempty, addSelect_eq_none hempty]
        exact ⟨rfl, fun h => by simp at h⟩
      · have hname : (builders.getBuilder (-1) fieldNames).fieldNames[
            (builders.getBuilder (-1) fieldNames).nextIdx]? = some call.fieldName := by
          rw [names, nextIdx, List.map_append, List.getElem?_append_right (by simp)]
          simp
        obtain ⟨inners, hnext⟩ := nextSetup_eq hname (level.trans nextIdx.symm)
          (Nat.pos_of_ne_zero hempty)
        rw [if_neg hempty, hnext]
        dsimp only
        cases hadd : src.addSelect call.toChooseFrom with
        | none => exact ⟨rfl, fun h => by simp at h⟩
        | some next =>
            generalize hbuilder : (⟨inners, (builders.getBuilder (-1) fieldNames).fieldNames,
              (builders.getBuilder (-1) fieldNames).nextIdx + 1⟩ : Builder α) = builder
            have hnames : builder.fieldNames =
                (before ++ call :: rest).map fun call => call.fieldName := hbuilder ▸ names
            have hindex : builder.nextIdx = before.length + 1 := by
              rw [← hbuilder, ← nextIdx]
            obtain ⟨hresult, hused⟩ := @ih (builders.put (-1) builder) next (before ++ [call])
              (by rw [RuleBuilders.getBuilder_put, hnames]; simp)
              (by rw [RuleBuilders.getBuilder_put, hindex]; simp)
              (by rw [length_countersList hadd, level]; simp)
            refine ⟨hresult, fun hsome _ => ?_⟩
            cases rest with
            | nil =>
                change ∃ b, builders.put (-1) builder (-1) = some b ∧ _
                rw [RuleBuilders.put_self]
                exact ⟨builder, rfl, by rw [hnames, hindex]; simp⟩
            | cons other rest => exact hused hsome (List.cons_ne_nil _ _)

end Alone

section Together

/-- The builder of the evaluations has no field name left. -/
def UsedUp (builders : RuleBuilders α) : Prop :=
  ∃ builder, builders (-1) = some builder ∧ builder.fieldNames.length ≤ builder.nextIdx

theorem hasParameters_eq_false {cls : TestClass α μ} :
    cls.hasParameters = false ↔ cls.calls = [] := by
  rw [TestClass.hasParameters, Bool.not_eq_false', List.isEmpty_iff]

theorem runTests_of_noParameters {cls : TestClass α μ} (h : cls.calls = [])
    (src : SharedRuleContext α) (total : ℕ) (builders : RuleBuilders α) (executed : List ℕ) :
    runTests cls src total builders executed =
      (builders, executed.map fun _ => some ⟨[], []⟩) := by
  induction executed with
  | nil => rfl
  | cons idx executed ih =>
      have hmethod : methodBlock builders cls src total idx = (builders, some ⟨[], []⟩) := by
        rw [methodBlock, h]
        rfl
      rw [runTests, hmethod]
      dsimp only
      rw [ih]
      rfl

/-- A class without parameters neither uses the builders nor changes them. -/
theorem runIn_of_noParameters {run : ClassRun α μ} (h : run.cls.hasParameters = false)
    (builders : RuleBuilders α) : run.runIn builders = (builders, run.alone) := by
  have hcalls := hasParameters_eq_false.mp h
  have hsetup (builders : RuleBuilders α) : evalSetupIn builders run.cls =
      (builders, SharedRuleContext.new.finishEvalStage run.cls.methods.length) := by
    rw [evalSetupIn, hcalls]
    rfl
  rw [ClassRun.alone, ClassRun.runIn, ClassRun.runIn, hsetup, hsetup]
  dsimp only
  split
  · rfl
  · rw [runTests_of_noParameters hcalls, runTests_of_noParameters hcalls]

/-- A class with parameters does not get past a builder without field names. -/
theorem runIn_of_usedUp {run : ClassRun α μ} (h : run.cls.hasParameters = true)
    {builders : RuleBuilders α} (used : UsedUp builders) : (run.runIn builders).2 = none := by
  obtain ⟨builder, hbuilder, hle⟩ := used
  obtain ⟨after, hsetup⟩ : ∃ after, evalSetupIn builders run.cls = (after, none) := by
    cases hcalls : run.cls.calls with
    | nil =>
        rw [hasParameters_eq_false.mpr hcalls] at h
        cases h
    | cons call rest =>
        have hget : builders.getBuilder (-1) run.cls.fieldNames = builder := by
          rw [RuleBuilders.getBuilder, hbuilder]
          rfl
        have hnext : builder.nextSetup .new call =
            ({ builder with nextIdx := builder.nextIdx + 1 }, none) := by
          rw [Builder.nextSetup, List.getElem?_eq_none hle]
        rw [evalSetupIn, hcalls, setupCalls, hget]
        by_cases hempty : call.candidates.length = 0
        · rw [if_pos hempty]
          exact ⟨_, rfl⟩
        · rw [if_neg hempty, hnext]
          exact ⟨_, rfl⟩
  rw [ClassRun.runIn, hsetup]
  rfl

/-- Tests use the builders of their own indices. -/
theorem runTests_setup (cls : TestClass α μ) (src : SharedRuleContext α) (total : ℕ)
    (builders : RuleBuilders α) (executed : List ℕ) :
    (runTests cls src total builders executed).1 (-1) = builders (-1) := by
  have hassign (idx : ℕ) (calls : List (ParamCall α)) (builders : RuleBuilders α)
      (context : ClassLevelIndexContext) :
      (assignCalls cls.fieldNames src idx builders context calls).1 (-1) = builders (-1) := by
    have hne : (-1 : ℤ) ≠ idx := by omega
    induction calls generalizing builders context with
    | nil => rfl
    | cons call calls ih =>
        rw [assignCalls]
        split
        · rfl
        · dsimp only
          split
          · dsimp only
            rw [RuleBuilders.put_of_ne builders hne]
          · rw [ih, RuleBuilders.put_of_ne builders hne]
  induction executed generalizing builders with
  | nil => rfl
  | cons idx executed ih =>
      rw [runTests]
      dsimp only
      rw [ih, methodBlock]
      split
      · rfl
      · exact hassign idx cls.calls builders _

/-- A class with parameters leaves the builder without field names. -/
theorem usedUp_of_accepted {run : ClassRun α μ} (h : run.cls.hasParameters = true)
    (accepted : run.alone.isSome) : UsedUp (run.runIn .empty).1 := by
  have hcalls : run.cls.calls ≠ [] := by
    intro hnil
    rw [hasParameters_eq_false.mpr hnil] at h
    cases h
  obtain ⟨-, hused⟩ := @setupCalls_eq _ run.cls.fieldNames .empty .new [] run.cls.calls rfl rfl rfl
  rw [ClassRun.alone, ClassRun.runIn, evalSetupIn] at accepted
  rw [ClassRun.runIn, evalSetupIn]
  dsimp only at accepted ⊢
  cases hsrc : (setupCalls run.cls.fieldNames .empty .new run.cls.calls).2 with
  | none =>
      rw [hsrc] at accepted
      cases accepted
  | some src =>
      obtain ⟨builder, hbuilder, hle⟩ := hused (by rw [hsrc]; rfl) hcalls
      refine ⟨builder, ?_, hle⟩
      split
      · exact hbuilder
      · exact (runTests_setup ..).trans hbuilder

theorem runClasses_cons (builders : RuleBuilders α) (run : ClassRun α μ)
    (rest : List (ClassRun α μ)) : runClasses builders (run :: rest) =
      (run.runIn builders).2 :: runClasses (run.runIn builders).1 rest := rfl

/-- Classes without parameters compute the same in every JVM. -/
theorem runClasses_of_noParameters {runs : List (ClassRun α μ)}
    (h : ∀ run ∈ runs, run.cls.hasParameters = false) (builders : RuleBuilders α) :
    runClasses builders runs = runs.map ClassRun.alone := by
  induction runs with
  | nil => rfl
  | cons run runs ih =>
      rw [runClasses_cons, runIn_of_noParameters (h run List.mem_cons_self)]
      dsimp only
      rw [ih fun other hother => h other (List.mem_cons_of_mem _ hother), List.map_cons]

/-- With at most one class that has parameters no class influences another. -/
theorem runClasses_of_countP_le {runs : List (ClassRun α μ)}
    (h : (runs.countP fun run => run.cls.hasParameters) ≤ 1) :
    runClasses .empty runs = runs.map ClassRun.alone := by
  induction runs with
  | nil => rfl
  | cons run runs ih =>
      rw [List.countP_cons] at h
      cases hparams : run.cls.hasParameters with
      | false =>
          rw [runClasses_cons, runIn_of_noParameters hparams, List.map_cons]
          dsimp only
          rw [ih (by omega)]
      | true =>
          have hnone : ∀ other ∈ runs, other.cls.hasParameters = false := by
            rw [hparams, if_pos rfl] at h
            intro other hother
            have hzero : (runs.countP fun run => run.cls.hasParameters) = 0 := by omega
            simpa using List.countP_eq_zero.mp hzero other hother
          rw [runClasses_cons, List.map_cons, runClasses_of_noParameters hnone]
          rfl

/-- Behind a class with parameters another one computes nothing. -/
theorem noParameters_of_runClasses_eq {runs : List (ClassRun α μ)}
    (accepted : ∀ run ∈ runs, run.alone.isSome) {builders : RuleBuilders α}
    (used : UsedUp builders) (h : runClasses builders runs = runs.map ClassRun.alone) :
    ∀ run ∈ runs, run.cls.hasParameters = false := by
  induction runs with
  | nil => simp
  | cons run runs ih =>
      rw [runClasses_cons, List.map_cons] at h
      obtain ⟨hreport, hrest⟩ := List.cons.inj h
      cases hparams : run.cls.hasParameters with
      | false =>
          rw [runIn_of_noParameters hparams] at hrest
          intro other hother
          obtain rfl | hother := List.mem_cons.mp hother
          · exact hparams
          · exact ih (fun run hrun => accepted run (List.mem_cons_of_mem _ hrun)) hrest other hother
      | true =>
          have hsome := accepted run List.mem_cons_self
          rw [← hreport, runIn_of_usedUp hparams used] at hsome
          cases hsome

/-- Test classes that each run alone do not influence each other if and only if at most one
of them has parameters. -/
theorem runClasses_eq_alone_iff {runs : List (ClassRun α μ)}
    (accepted : ∀ run ∈ runs, run.alone.isSome) :
    runClasses .empty runs = runs.map ClassRun.alone ↔
      (runs.countP fun run => run.cls.hasParameters) ≤ 1 := by
  refine ⟨fun h => ?_, runClasses_of_countP_le⟩
  induction runs with
  | nil => exact Nat.zero_le _
  | cons run runs ih =>
      have haccepted : ∀ other ∈ runs, other.alone.isSome :=
        fun other hother => accepted other (List.mem_cons_of_mem _ hother)
      rw [runClasses_cons, List.map_cons] at h
      obtain ⟨-, hrest⟩ := List.cons.inj h
      rw [List.countP_cons]
      cases hparams : run.cls.hasParameters with
      | false =>
          rw [runIn_of_noParameters hparams] at hrest
          simpa using ih haccepted hrest
      | true =>
          have hnone := noParameters_of_runClasses_eq haccepted
            (usedUp_of_accepted hparams (accepted run List.mem_cons_self)) hrest
          rw [List.countP_eq_zero.mpr fun other hother => by simp [hnone other hother]]
          exact Nat.le_refl _

/-- A class with one parameter and one test. -/
def oneParameter : ClassRun ℕ String :=
  ⟨⟨[⟨⟨"first", [⟨1, "1"⟩]⟩, false⟩], ["testname"]⟩, [0]⟩

/-- A class without parameters. -/
def noParameter : ClassRun ℕ String := ⟨⟨[], ["other"]⟩, [0]⟩

/-- Before, between and after classes without parameters. -/
theorem runClasses_three : runClasses .empty [noParameter, oneParameter, noParameter] =
    [noParameter, oneParameter, noParameter].map ClassRun.alone :=
  (runClasses_eq_alone_iff (by decide +kernel)).mpr (by decide)

/-- The evaluation of the second class with a parameter fails. -/
theorem runClasses_two_ne : oneParameter.alone.isSome ∧
    (runClasses .empty [oneParameter, oneParameter]).map Option.isSome = [true, false] ∧
    runClasses .empty [oneParameter, oneParameter] ≠
      [oneParameter, oneParameter].map ClassRun.alone := by
  have hreports : (runClasses .empty [oneParameter, oneParameter]).map Option.isSome =
      [true, false] := by decide +kernel
  have halone : ([oneParameter, oneParameter].map ClassRun.alone).map Option.isSome =
      [true, true] := by decide +kernel
  refine ⟨by decide +kernel, hreports, fun same => ?_⟩
  rw [same, halone] at hreports
  cases hreports

end Together

end Explore.VTestRunner
