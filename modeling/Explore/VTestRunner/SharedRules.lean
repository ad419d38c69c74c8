import Explore.Lib.CountedResource
import Explore.VTestRunner.ClassParams
import Explore.VTestRunner.Jvm
import Mathlib.Algebra.BigOperators.Group.List.Lemmas

/-!
# Shared rules of the tests that run

Each candidate of a shared parameter has a setup and a teardown counter, and each test
wraps itself in the rules that it selects. JUnit reports an ignored test without making
its `methodBlock`, so such a test does not touch the counters, and a test whose instance
cannot be made touches those of the rules that it had chosen by then; but the teardown
counters start at the number of all tests that have the candidate in their combination.
A rule is torn down if and only if all of these are executed and wrap themselves in it.
-/

namespace Explore.VTestRunner

open CountedResource MixedRadix

variable {α μ : Type}

/-- A candidate of a `chooseFrom` call, by its place. -/
structure RuleId where
  level : ℕ
  position : ℕ
  deriving DecidableEq, Repr

inductive TestOutcome
  | pass
  | fail
  | assumptionFailure
  deriving DecidableEq, Repr

/-- `nextInnerShared` with `adapt`: the setup and the teardown counter of a rule. -/
def adapt (src : SharedRuleContext α) (rule : RuleId) : Option (ℤ × ℤ) := do
  let candidates ← src.candidatesAtLevel rule.level
  let _ ← candidates[rule.position]?
  let counters ← src.getCountersAtLevel rule.level
  return (← counters[rule.position]?, ← counters[rule.position + candidates.length]?)

/-- The rules of `sharedRuleChain` for the selected positions, the outermost first. -/
def sharedRuleChain (calls : List (ParamCall α)) (positions : List ℕ) : List RuleId :=
  (calls.zip positions).zipIdx.filterMap fun ((call, position), level) =>
    if call.isSharedRule then some ⟨level, position⟩ else none

/-- How `methodBlock` of the superclass ends for a test that JUnit runs: with a statement
for the instance that it has made, with a `Fail` where the instance throws after some of
its `chooseFrom` calls, or with an exception once the instance is made, as from a method
that makes a rule of it. -/
inductive MethodBlock
  | statement
  | fail (calls : ℕ)
  | exception
  deriving DecidableEq, Repr

/-- The instance makes the `chooseFrom` call of a level. -/
def MethodBlock.chooses : MethodBlock → ℕ → Bool
  | .fail calls, level => level < calls
  | .statement, _ | .exception, _ => true

/-- The test is wrapped in the rule that it has chosen at a level. -/
def MethodBlock.wraps : MethodBlock → ℕ → Bool
  | .exception, _ => false
  | block, level => block.chooses level

/-- The tests that JUnit runs, each with its rules at the levels that it keeps. -/
def executedJobs (calls : List (ParamCall α)) (src : SharedRuleContext α)
    (tests : List (IndexedMethod μ)) (ignored : μ → Bool) (keeps : ℕ → ℕ → Bool) :
    Option (List (Job RuleId ℕ)) :=
  (tests.filter fun test => !ignored test.method).mapM fun test => do
    let rules := sharedRuleChain calls (← selected src tests.length test)
    return ⟨test.index, rules.filter fun rule => keeps test.index rule.level⟩

/-- Before the first test: the counters that the evaluation of the class has set. -/
def startTests (src : SharedRuleContext α) (jobs : List (Job RuleId ℕ)) :
    State RuleId ℕ TestOutcome where
  acquired rule := ((adapt src rule).map Prod.fst).getD 0
  remaining rule := ((adapt src rule).map Prod.snd).getD 0
  threads := jobs.map fun job => work job.task job.resources
  log := []

/-- Each rule that an executed test chooses is set up once and torn down once, the latter
after the last of these tests has finished, for all outcomes and interleavings. A test
without a statement fails. -/
def SharedOnce (calls : List (ParamCall α)) (src : SharedRuleContext α)
    (tests : List (IndexedMethod μ)) (ignored : μ → Bool) (block : ℕ → MethodBlock) : Prop :=
  ∃ chosen jobs,
    executedJobs calls src tests ignored (fun idx => (block idx).chooses) = some chosen ∧
      executedJobs calls src tests ignored (fun idx => (block idx).wraps) = some jobs ∧
      ∀ (outcome : ℕ → TestOutcome) (schedule : List ℕ) (s : State RuleId ℕ TestOutcome),
        (∀ idx, block idx ≠ .statement → outcome idx = .fail) →
          (startTests src jobs).run outcome schedule = some s → s.Complete → OnceEach chosen s.log

/-- The rules of the combination of a test. -/
def combinationRules (calls : List (ParamCall α)) (test : IndexedMethod μ) : List RuleId :=
  sharedRuleChain calls (digits (radices (calls.map ParamCall.toChooseFrom)) test.comboIndex)

/-- No executed test chooses the rule, or every test that has it in its combination is
executed and wrapped in it. -/
def WrappedByAll (calls : List (ParamCall α)) (tests : List (IndexedMethod μ))
    (ignored : μ → Bool) (block : ℕ → MethodBlock) (rule : RuleId) : Prop :=
  (∃ test ∈ tests, rule ∈ combinationRules calls test ∧ ignored test.method = false ∧
      (block test.index).chooses rule.level = true) →
    ∀ test ∈ tests, rule ∈ combinationRules calls test →
      ignored test.method = false ∧ (block test.index).wraps rule.level = true

theorem MethodBlock.chooses_of_wraps {block : MethodBlock} {level : ℕ}
    (h : block.wraps level = true) : block.chooses level = true := by
  cases block with
  | exception => cases h
  | statement | fail => exact h

section Chain

theorem getElem?_radices_map {calls : List (ParamCall α)} {level : ℕ} {call : ParamCall α}
    (hcall : calls[level]? = some call) :
    (radices (calls.map ParamCall.toChooseFrom))[level]? = some call.candidates.length :=
  getElem?_radices (by rw [List.getElem?_map, hcall]; rfl)

theorem mem_sharedRuleChain {calls : List (ParamCall α)} {positions : List ℕ} {rule : RuleId} :
    rule ∈ sharedRuleChain calls positions ↔ ∃ call, calls[rule.level]? = some call ∧
      call.isSharedRule = true ∧ positions[rule.level]? = some rule.position := by
  simp only [sharedRuleChain, List.mem_filterMap, Prod.exists, List.mem_zipIdx_iff_getElem?]
  constructor
  · rintro ⟨call, position, level, hget, hrule⟩
    split at hrule
    · rename_i hshared
      obtain rfl := Option.some.inj hrule
      obtain ⟨hcall, hposition⟩ := List.getElem?_zip_eq_some.mp hget
      exact ⟨call, hcall, hshared, hposition⟩
    · cases hrule
  · rintro ⟨call, hcall, hshared, hposition⟩
    refine ⟨call, rule.position, rule.level, List.getElem?_zip_eq_some.mpr ⟨hcall, hposition⟩, ?_⟩
    rw [if_pos hshared]

/-- No rule is in the chain twice. -/
theorem nodup_sharedRuleChain (calls : List (ParamCall α)) (positions : List ℕ) :
    (sharedRuleChain calls positions).Nodup := by
  have hlevels : ((sharedRuleChain calls positions).map RuleId.level).Sublist
      ((calls.zip positions).zipIdx.map Prod.snd) := by
    rw [sharedRuleChain]
    induction (calls.zip positions).zipIdx with
    | nil => exact List.Sublist.slnil
    | cons entry entries ih =>
        rw [List.filterMap_cons]
        by_cases hshared : entry.1.1.isSharedRule = true
        · simp only [hshared, if_true, List.map_cons]
          exact ih.cons_cons _
        · simp only [hshared]
          exact ih.cons _
  refine List.Nodup.of_map RuleId.level (hlevels.nodup ?_)
  rw [List.zipIdx_map_snd]
  exact List.nodup_range'

end Chain

section Counters

variable {calls : List (ParamCall α)} {src : SharedRuleContext α} {value : ℕ → ℤ}

/-- The counters of a rule when the tests start. -/
theorem adapt_eq (finished : Finished (calls.map ParamCall.toChooseFrom) src value)
    (rule : RuleId) : adapt src rule = do
      let call ← calls[rule.level]?
      let _ ← call.candidates[rule.position]?
      return (0, value call.candidates.length) := by
  rw [adapt, SharedRuleContext.candidatesAtLevel, SharedRuleContext.getCountersAtLevel,
    finished.clist, finished.countersList, radices, List.map_map, List.map_map, List.map_map,
    List.getElem?_map, List.getElem?_map]
  cases calls[rule.level]? with
  | none => rfl
  | some call =>
      simp only [Option.map_some, Option.bind_eq_bind, Option.bind_some, Function.comp_apply]
      cases hposition : call.candidates[rule.position]? with
      | none => rfl
      | some candidate =>
          obtain ⟨hlt, -⟩ := List.getElem?_eq_some_iff.mp hposition
          simp only [Option.bind_some]
          rw [List.getElem?_append_left (by simpa using hlt), List.getElem?_replicate_of_lt hlt,
            List.getElem?_append_right (by simp), List.length_replicate, Nat.add_sub_cancel,
            List.getElem?_replicate_of_lt hlt]
          rfl

/-- All setup counters start at 0. -/
theorem startTests_eq (finished : Finished (calls.map ParamCall.toChooseFrom) src value)
    (jobs : List (Job RuleId ℕ)) :
    startTests src jobs = State.initial (startTests src jobs).remaining jobs := by
  have hacquired : (startTests src jobs).acquired = fun _ => 0 := by
    funext rule
    simp only [startTests, adapt_eq finished]
    cases calls[rule.level]? with
    | none => rfl
    | some call =>
        simp only [Option.bind_eq_bind, Option.bind_some]
        cases call.candidates[rule.position]? <;> rfl
  rw [State.initial, ← hacquired]
  rfl

end Counters

section Users

variable {calls : List (ParamCall α)} {src : SharedRuleContext α} {value : ℕ → ℤ}
  {methods : List μ} {tests : List (IndexedMethod μ)} {ignored : μ → Bool}
  {keeps : ℕ → ℕ → Bool}

/-- What the tests select, as jobs. -/
theorem executedJobs_eq (finished : Finished (calls.map ParamCall.toChooseFrom) src value)
    (computed : computeTestMethods src methods = some tests) (ignored : μ → Bool)
    (keeps : ℕ → ℕ → Bool) :
    executedJobs calls src tests ignored keeps = some
      ((tests.filter fun test => !ignored test.method).map fun test =>
        ⟨test.index, (combinationRules calls test).filter fun rule =>
          keeps test.index rule.level⟩) := by
  refine mapM_eq_map fun test htest => ?_
  rw [(finished.selected_eq_digits computed (List.mem_of_mem_filter htest)).1]
  rfl

theorem mem_executedJobs {jobs : List (Job RuleId ℕ)}
    (finished : Finished (calls.map ParamCall.toChooseFrom) src value)
    (computed : computeTestMethods src methods = some tests)
    (hjobs : executedJobs calls src tests ignored keeps = some jobs) {job : Job RuleId ℕ} :
    job ∈ jobs ↔ ∃ test ∈ tests, ignored test.method = false ∧ job =
      ⟨test.index, (combinationRules calls test).filter fun rule =>
        keeps test.index rule.level⟩ := by
  rw [executedJobs_eq finished computed] at hjobs
  obtain rfl := Option.some.inj hjobs
  simp only [List.mem_map, List.mem_filter, Bool.not_eq_true', and_assoc]
  exact exists_congr fun test => and_congr_right' (and_congr_right' eq_comm)

theorem nodup_of_executedJobs {jobs : List (Job RuleId ℕ)}
    (finished : Finished (calls.map ParamCall.toChooseFrom) src value)
    (computed : computeTestMethods src methods = some tests)
    (hjobs : executedJobs calls src tests ignored keeps = some jobs) :
    ∀ job ∈ jobs, job.resources.Nodup := by
  intro job hjob
  obtain ⟨test, -, -, rfl⟩ := (mem_executedJobs finished computed hjobs).mp hjob
  exact (nodup_sharedRuleChain _ _).filter _

/-- Which executed tests use a rule. -/
theorem users_executedJobs {jobs : List (Job RuleId ℕ)}
    (finished : Finished (calls.map ParamCall.toChooseFrom) src value)
    (computed : computeTestMethods src methods = some tests)
    (hjobs : executedJobs calls src tests ignored keeps = some jobs) (rule : RuleId) :
    users jobs rule = (tests.filter fun test => rule ∈ combinationRules calls test).countP
      fun test => !ignored test.method && keeps test.index rule.level := by
  rw [executedJobs_eq finished computed] at hjobs
  obtain rfl := Option.some.inj hjobs
  rw [users, List.countP_map, List.countP_filter, List.countP_filter]
  refine List.countP_congr fun test _ => ?_
  simp only [Function.comp_apply, List.mem_filter, Bool.and_eq_true, decide_eq_true_eq]
  tauto

theorem users_pos_iff {jobs : List (Job RuleId ℕ)}
    (finished : Finished (calls.map ParamCall.toChooseFrom) src value)
    (computed : computeTestMethods src methods = some tests)
    (hjobs : executedJobs calls src tests ignored keeps = some jobs) (rule : RuleId) :
    0 < users jobs rule ↔ ∃ test ∈ tests, rule ∈ combinationRules calls test ∧
      ignored test.method = false ∧ keeps test.index rule.level = true := by
  rw [users_executedJobs finished computed hjobs, List.countP_pos_iff]
  simp only [List.mem_filter, decide_eq_true_eq, Bool.and_eq_true, Bool.not_eq_true', and_assoc]

/-- A rule of a test is a candidate of a shared parameter. -/
theorem exists_call_of_mem (finished : Finished (calls.map ParamCall.toChooseFrom) src value)
    (computed : computeTestMethods src methods = some tests) {test : IndexedMethod μ}
    (htest : test ∈ tests) {rule : RuleId} (hrule : rule ∈ combinationRules calls test) :
    ∃ call, calls[rule.level]? = some call ∧ call.isSharedRule = true ∧
      rule.position < call.candidates.length := by
  obtain ⟨call, hcall, hshared, hposition⟩ := mem_sharedRuleChain.mp hrule
  refine ⟨call, hcall, hshared, ?_⟩
  have hdigits := digits_lt (finished.selected_eq_digits computed htest).2
  obtain ⟨hlevel, hget⟩ := List.getElem?_eq_some_iff.mp hposition
  have hradix := getElem?_radices_map hcall
  obtain ⟨hlevel', hget'⟩ := List.getElem?_eq_some_iff.mp hradix
  have hlt := hdigits.get hlevel hlevel'
  rwa [List.get_eq_getElem, List.get_eq_getElem, hget, hget'] at hlt

end Users

section Main

variable {calls : List (ParamCall α)} {src : SharedRuleContext α} {methods : List μ}
  {tests : List (IndexedMethod μ)} {ignored : μ → Bool} {block : ℕ → MethodBlock}

/-- The teardown counter of a rule starts at the number of all tests that have it. -/
theorem remaining_startTests
    (setup : evalSetup (calls.map ParamCall.toChooseFrom) methods.length = some src)
    (computed : computeTestMethods src methods = some tests) (jobs : List (Job RuleId ℕ))
    {test : IndexedMethod μ} (htest : test ∈ tests) {rule : RuleId}
    (hrule : rule ∈ combinationRules calls test) :
    (startTests src jobs).remaining rule =
      (tests.filter fun test => rule ∈ combinationRules calls test).length := by
  have finished := finished_of_computed setup computed
  obtain ⟨call, hcall, hshared, hposition⟩ := exists_call_of_mem finished computed htest hrule
  have hradix := getElem?_radices_map hcall
  have hremaining : (startTests src jobs).remaining rule =
      ((radices (calls.map ParamCall.toChooseFrom)).prod * methods.length /
        call.candidates.length : ℕ) := by
    simp only [startTests, adapt_eq finished, hcall, Option.bind_eq_bind, Option.bind_some,
      List.getElem?_eq_getElem hposition]
    rfl
  rw [hremaining, ← countP_selected finished computed hradix hposition,
    List.countP_eq_length_filter]
  congr 2
  refine List.filter_congr fun other hother => decide_eq_decide.mpr ?_
  rw [(finished.selected_eq_digits computed hother).1, Option.bind_some, combinationRules,
    mem_sharedRuleChain]
  simp [hcall, hshared]

/-- For every class with shared rules, every choice of ignored methods and every test that
cannot be made: the rules that the executed tests choose are set up and torn down exactly
once if and only if each of them is wrapped around all the tests that have it. -/
theorem sharedOnce_iff
    (setup : evalSetup (calls.map ParamCall.toChooseFrom) methods.length = some src)
    (computed : computeTestMethods src methods = some tests) :
    SharedOnce calls src tests ignored block ↔
      ∀ rule, WrappedByAll calls tests ignored block rule := by
  have finished := finished_of_computed setup computed
  have hchosen := executedJobs_eq finished computed ignored fun idx => (block idx).chooses
  have hjobs := executedJobs_eq finished computed ignored fun idx => (block idx).wraps
  generalize (tests.filter fun test => !ignored test.method).map _ = chosen at hchosen
  generalize (tests.filter fun test => !ignored test.method).map _ = jobs at hjobs
  have husers := users_executedJobs finished computed hjobs
  have hused := users_pos_iff finished computed hchosen
  -- The counter of a rule counts all its tests, and its users are some of them.
  have hpreset (rule : RuleId) (used : 0 < users chosen rule) :
      (startTests src jobs).remaining rule =
        (tests.filter fun test => rule ∈ combinationRules calls test).length := by
    obtain ⟨test, htest, hrule, -⟩ := (hused rule).mp used
    exact remaining_startTests setup computed jobs htest hrule
  have hequal (rule : RuleId) (used : 0 < users chosen rule) :
      (startTests src jobs).remaining rule = users jobs rule ↔
        ∀ test ∈ tests, rule ∈ combinationRules calls test →
          ignored test.method = false ∧ (block test.index).wraps rule.level = true := by
    rw [hpreset rule used, husers, Nat.cast_inj, eq_comm, List.countP_eq_length]
    simp only [List.mem_filter, decide_eq_true_eq, Bool.and_eq_true, Bool.not_eq_true', and_imp]
  have henough (rule : RuleId) (used : 0 < users chosen rule) :
      users jobs rule ≤ (startTests src jobs).remaining rule := by
    rw [hpreset rule used, husers]
    exact_mod_cast List.countP_le_length
  have hcovers (rule : RuleId) (hcount : (startTests src jobs).remaining rule = users jobs rule) :
      ∀ job ∈ chosen, rule ∈ job.resources →
        ∃ other ∈ jobs, other.task = job.task ∧ rule ∈ other.resources := by
    intro job hjob hr
    have used : 0 < users chosen rule := List.countP_pos_iff.mpr ⟨job, hjob, decide_eq_true hr⟩
    obtain ⟨test, htest, hruns, rfl⟩ := (mem_executedJobs finished computed hchosen).mp hjob
    have hrule := List.mem_of_mem_filter hr
    have hwraps := ((hequal rule used).mp hcount test htest hrule).2
    refine ⟨_, (mem_executedJobs finished computed hjobs).mpr ⟨test, htest, hruns, rfl⟩, rfl, ?_⟩
    exact List.mem_filter.mpr ⟨hrule, hwraps⟩
  have honce (outcome : ℕ → TestOutcome) := onceEach_iff
    (nodup_of_executedJobs finished computed hjobs) henough hcovers outcome
  have hwrapped (rule : RuleId) : WrappedByAll calls tests ignored block rule ↔
      (0 < users chosen rule → (startTests src jobs).remaining rule = users jobs rule) := by
    rw [WrappedByAll, ← hused]
    exact forall_congr' fun used => (hequal rule used).symm
  simp only [hwrapped]
  constructor
  · rintro ⟨chosen', jobs', hchosen', hjobs', hall⟩
    obtain rfl := Option.some.inj (hchosen.symm.trans hchosen')
    obtain rfl := Option.some.inj (hjobs.symm.trans hjobs')
    refine (honce fun _ => .fail).mp fun schedule s hrun => hall _ schedule s (fun _ _ => rfl) ?_
    rwa [startTests_eq finished jobs]
  · intro hall
    refine ⟨chosen, jobs, hchosen, hjobs, fun outcome schedule s _ hrun => ?_⟩
    rw [startTests_eq finished jobs] at hrun
    exact (honce outcome).mpr hall schedule s hrun

/-- If all instances can be made, then the rules are set up and torn down exactly once if
and only if no method is ignored, or every method is. -/
theorem wrappedByAll_iff_ignored (finished : Finished (calls.map ParamCall.toChooseFrom) src value)
    (computed : computeTestMethods src methods = some tests)
    (shared : ∃ call ∈ calls, call.isSharedRule = true) :
    (∀ rule, WrappedByAll calls tests ignored (fun _ => .statement) rule) ↔
      (∀ method ∈ methods, ignored method = false) ∨ ∀ method ∈ methods, ignored method = true := by
  obtain ⟨-, hmethods, -⟩ := tests_eq finished.numCombos computed
  have hprod : 0 < (radices (calls.map ParamCall.toChooseFrom)).prod :=
    List.prod_pos_iff_forall_pos_nat.mpr finished.positive
  have hmethod {test : IndexedMethod μ} (htest : test ∈ tests) : test.method ∈ methods := by
    have hmem := List.mem_map_of_mem (f := fun test => (test.comboIndex, test.method)) htest
    rw [hmethods] at hmem
    obtain ⟨i, -, hmem⟩ := List.mem_flatMap.mp hmem
    obtain ⟨m, hm, heq⟩ := List.mem_map.mp hmem
    exact (Prod.mk.inj heq).2 ▸ hm
  constructor
  · intro hall
    by_contra hneither
    simp only [not_or, not_forall, Bool.not_eq_false, Bool.not_eq_true] at hneither
    obtain ⟨⟨bad, hbad, hignored⟩, method, hmethod, hruns⟩ := hneither
    -- The tests of the two methods in the first combination have the same rules.
    have hfirst {m : μ} (hm : m ∈ methods) :
        ∃ test ∈ tests, test.comboIndex = 0 ∧ test.method = m := by
      have hmem : (0, m) ∈ tests.map fun test => (test.comboIndex, test.method) := by
        rw [hmethods]
        exact List.mem_flatMap.mpr ⟨0, List.mem_range.mpr hprod, List.mem_map_of_mem hm⟩
      obtain ⟨test, htest, heq⟩ := List.mem_map.mp hmem
      exact ⟨test, htest, (Prod.mk.inj heq).1, (Prod.mk.inj heq).2⟩
    obtain ⟨call, hcall, hshared⟩ := shared
    obtain ⟨level, hlevel⟩ := List.getElem?_of_mem hcall
    have hlt : level < (digits (radices (calls.map ParamCall.toChooseFrom)) 0).length := by
      rw [(digits_lt hprod).length_eq]
      simpa [radices] using (List.getElem?_eq_some_iff.mp hlevel).1
    have hrule {test : IndexedMethod μ} (hcombo : test.comboIndex = 0) :
        ⟨level, (digits (radices (calls.map ParamCall.toChooseFrom)) 0)[level]⟩ ∈
          combinationRules calls test := by
      rw [combinationRules, hcombo]
      exact mem_sharedRuleChain.mpr ⟨call, hlevel, hshared, List.getElem?_eq_getElem hlt⟩
    obtain ⟨first, hfirstTest, hcombo, rfl⟩ := hfirst hmethod
    obtain ⟨other, hotherTest, hcombo', rfl⟩ := hfirst hbad
    obtain ⟨hother, -⟩ := hall _ ⟨first, hfirstTest, hrule hcombo, hruns, rfl⟩ other hotherTest
      (hrule hcombo')
    rw [hother] at hignored
    cases hignored
  · rintro (hnone | hall) rule ⟨test, htest, -, hruns, -⟩
    · exact fun other hother _ => ⟨hnone _ (hmethod hother), rfl⟩
    · rw [hall _ (hmethod htest)] at hruns
      cases hruns

end Main

section Examples

/-- One shared rule. -/
def oneSharedRule : List (ParamCall ℕ) := [⟨⟨"db", [⟨1, "db[postgres]"⟩]⟩, true⟩]

/-- The class with this rule and two methods after its evaluation. -/
def evaluatedRule : SharedRuleContext ℕ :=
  ⟨[[⟨1, "db[postgres]"⟩]], [[0, 2]], 1, ["_db[db[postgres]]"]⟩

/-- All is well if both tests run, and not if the instance for the second cannot be made. -/
theorem sharedOnce_iff_oneSharedRule :
    evalSetup (oneSharedRule.map ParamCall.toChooseFrom) 2 = some evaluatedRule ∧
      SharedOnce oneSharedRule evaluatedRule [⟨0, 0, "testname"⟩, ⟨1, 0, "other"⟩]
        (fun _ => false) (fun _ => .statement) ∧
      ¬ SharedOnce oneSharedRule evaluatedRule [⟨0, 0, "testname"⟩, ⟨1, 0, "other"⟩]
        (fun _ => false) fun idx => if idx = 1 then .fail 0 else .statement := by
  have hsetup : evalSetup (oneSharedRule.map ParamCall.toChooseFrom)
      ["testname", "other"].length = some evaluatedRule := by decide +kernel
  have hcomputed : computeTestMethods evaluatedRule ["testname", "other"] =
      some [⟨0, 0, "testname"⟩, ⟨1, 0, "other"⟩] := by decide +kernel
  refine ⟨hsetup, (sharedOnce_iff hsetup hcomputed).mpr fun _ _ _ _ _ => ⟨rfl, rfl⟩, fun h => ?_⟩
  have hwrapped := (sharedOnce_iff hsetup hcomputed).mp h ⟨0, 0⟩
  revert hwrapped
  unfold WrappedByAll
  decide +kernel

/-- The second of two methods is ignored: the rule is not torn down. -/
theorem not_sharedOnce_ignored :
    evalSetup (oneSharedRule.map ParamCall.toChooseFrom) 2 = some evaluatedRule ∧
      computeTestMethods evaluatedRule ["testname", "other"] =
        some [⟨0, 0, "testname"⟩, ⟨1, 0, "other"⟩] ∧
      ¬ SharedOnce oneSharedRule evaluatedRule [⟨0, 0, "testname"⟩, ⟨1, 0, "other"⟩]
        (fun method => method == "other") fun _ => .statement := by
  refine ⟨by decide +kernel, by decide +kernel, ?_⟩
  rintro ⟨chosen, jobs, hchosen, hjobs, hall⟩
  have hexecuted : executedJobs oneSharedRule evaluatedRule
      [⟨0, 0, "testname"⟩, ⟨1, 0, "other"⟩] (fun method => method == "other")
      (fun _ _ => true) = some [⟨0, [⟨0, 0⟩]⟩] := by decide +kernel
  obtain rfl := Option.some.inj (hexecuted.symm.trans hchosen)
  obtain rfl := Option.some.inj (hexecuted.symm.trans hjobs)
  -- Setup, test, release: the teardown counter is 1 at the end.
  have hrun := hall (fun _ => .pass) [0, 0, 0, 0] _ (fun _ hne => absurd rfl hne) rfl
    (by decide +kernel)
  have hdown := (hrun ⟨0, 0⟩ (by decide)).2.1
  revert hdown
  decide +kernel

end Examples

end Explore.VTestRunner
