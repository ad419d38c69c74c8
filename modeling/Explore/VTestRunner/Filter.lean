import Explore.VTestRunner.ClassParams

/-!
# Running some of the tests

`filter` keeps the tests whose descriptions a filter accepts, numbers them from 0 and
sets the teardown counters as if every combination kept the same number of tests. The
candidates of a test are found from its new number, so they are those of its description
if and only if every combination does keep the same number.
-/

namespace Explore.VTestRunner

open MixedRadix

variable {α μ γ : Type}

/-- What JUnit shows of a test. -/
structure Description (γ : Type) where
  displayName : String
  annotations : List γ

/-- What a method contributes to the description of its tests. -/
structure MethodNames (μ γ : Type) where
  testName : μ → String
  describeMethodCombo : μ → String
  annotations : μ → List γ

/-- `describeChild`. -/
def describeChild (names : MethodNames μ γ) (src : SharedRuleContext α) (test : IndexedMethod μ) :
    Option (Description γ) := do
  return ⟨names.testName test.method ++ (← src.describe test.comboIndex) ++
    names.describeMethodCombo test.method, names.annotations test.method⟩

/-- The map from an index to the last position at which it is in the list. -/
def imap (indices : List ℕ) (index : ℕ) : Option ℕ :=
  (indices.zipIdx.reverse.find? fun entry => entry.1 = index).map Prod.snd

/-- The tests that a filter keeps. -/
def survivingMethods (names : MethodNames μ γ) (src : SharedRuleContext α)
    (tests : List (IndexedMethod μ)) (shouldRun : Description γ → Bool) :
    Option (List (IndexedMethod μ)) :=
  tests.filterM fun test => do return shouldRun (← describeChild names src test)

/-- `filter`, with the context and the active tests after it. JUnit throws an exception
when no test remains. -/
def filter (names : MethodNames μ γ) (src : SharedRuleContext α) (tests : List (IndexedMethod μ))
    (shouldRun : Description γ → Bool) :
    Option (SharedRuleContext α × List (IndexedMethod μ)) := do
  let surviving ← survivingMethods names src tests shouldRun
  guard (surviving ≠ [])
  let src ← src.finishEvalStage (← div surviving.length src.numCombos)
  let indices := (surviving.map IndexedMethod.index).mergeSort
  return (src, ← surviving.mapM fun test => do
    return { test with index := ← imap indices test.index })

/-- Whether a filter keeps a test. -/
def keeps (names : MethodNames μ γ) (src : SharedRuleContext α) (shouldRun : Description γ → Bool)
    (test : IndexedMethod μ) : Bool :=
  (describeChild names src test).any shouldRun

/-- After `filter` each test that it keeps has its description and finds the candidates
named there, which are those it found before, and the teardown counters count the tests
that select their candidate. -/
def FilterPreserves (calls : List (ChooseFrom α)) (names : MethodNames μ γ)
    (src : SharedRuleContext α) (tests : List (IndexedMethod μ))
    (shouldRun : Description γ → Bool) : Prop :=
  ∃ src' tests', filter names src tests shouldRun = some (src', tests') ∧
    List.Forall₂ (fun test test' => describeChild names src' test' = describeChild names src test ∧
        ∃ chosen, assign src' tests'.length test'.index = some chosen ∧
          assign src tests.length test.index = some chosen ∧
          src'.describe test'.comboIndex = some (nameOf calls (chosen.map Prod.snd)))
      (tests.filter (keeps names src shouldRun)) tests' ∧
    ∀ (level j : ℕ) (call : ChooseFrom α), calls[level]? = some call →
      j < call.candidates.length →
      ((src'.getCountersAtLevel level).bind fun counters => counters[call.candidates.length + j]?) =
        some ((tests'.countP fun test =>
          (selected src' tests'.length test).bind (·[level]?) = some j : ℕ) : ℤ)

section Renumbering

/-- A list without repetitions numbers its elements. -/
theorem imap_eq {indices : List ℕ} (nodup : indices.Nodup) {i index : ℕ}
    (h : indices[i]? = some index) : imap indices index = some i := by
  have hmem : (index, i) ∈ indices.zipIdx := List.mem_zipIdx_iff_getElem?.mpr h
  cases hfind : indices.zipIdx.reverse.find? fun entry => entry.1 = index with
  | none =>
      have hnone := List.find?_eq_none.mp hfind (index, i) (List.mem_reverse.mpr hmem)
      simp at hnone
  | some entry =>
      have hsame : entry.1 = index := by simpa using List.find?_some hfind
      have hentry := List.mem_zipIdx_iff_getElem?.mp
        (List.mem_reverse.mp (List.mem_of_find?_eq_some hfind))
      have hindex : entry.2 = i := by
        refine (List.getElem?_inj (List.getElem?_eq_some_iff.mp hentry).1 nodup).mp ?_
        rw [hentry, hsame, h]
      rw [imap, hfind, Option.map_some, hindex]

theorem mapM_eq_zipIdx {β δ : Type} {f : β → Option δ} {g : β → ℕ → δ} {xs : List β} (k : ℕ)
    (h : ∀ (i : ℕ) x, xs[i]? = some x → f x = some (g x (k + i))) :
    xs.mapM f = some ((xs.zipIdx k).map fun entry => g entry.1 entry.2) := by
  induction xs generalizing k with
  | nil => rfl
  | cons x xs ih =>
      have hrest := ih (k + 1) fun i y hy => by
        rw [Nat.add_assoc, Nat.add_comm 1]
        exact h (i + 1) y hy
      rw [List.mapM_cons, h 0 x rfl, hrest]
      rfl

theorem filterM_eq {β : Type} {f : β → Option Bool} {p : β → Bool} {xs : List β}
    (h : ∀ x ∈ xs, f x = some (p x)) : xs.filterM f = some (xs.filter p) := by
  have haux (acc : List β) :
      xs.filterAuxM f acc = some ((xs.filter p).reverse ++ acc) := by
    induction xs generalizing acc with
    | nil => rfl
    | cons x xs ih =>
        rw [List.filterAuxM, h x List.mem_cons_self]
        have hrest := ih (fun y hy => h y (List.mem_cons_of_mem x hy)) (cond (p x) (x :: acc) acc)
        refine Eq.trans hrest ?_
        cases hx : p x <;> simp [hx]
  rw [List.filterM, haux]
  simp

/-- The tests that remain, numbered from 0. -/
def renumber (tests : List (IndexedMethod μ)) : List (IndexedMethod μ) :=
  tests.zipIdx.map fun entry => { entry.1 with index := entry.2 }

@[simp] theorem length_renumber (tests : List (IndexedMethod μ)) :
    (renumber tests).length = tests.length := by
  rw [renumber, List.length_map, List.length_zipIdx]

/-- The tests are in the order of their indices, so each gets its position. -/
theorem mapM_imap {tests : List (IndexedMethod μ)}
    (sorted : (tests.map IndexedMethod.index).Pairwise (· < ·)) :
    (tests.mapM fun test => do
      return { test with index := ← imap (tests.map IndexedMethod.index).mergeSort test.index }) =
      some (renumber tests) := by
  have hsorted : (tests.map IndexedMethod.index).mergeSort = tests.map IndexedMethod.index :=
    List.mergeSort_of_pairwise (sorted.imp fun {a b} hab => by simpa using hab.le)
  have hnodup : (tests.map IndexedMethod.index).Nodup := sorted.imp fun {a b} hab => hab.ne
  rw [hsorted]
  refine mapM_eq_zipIdx (g := fun (test : IndexedMethod μ) i => { test with index := i }) 0
    fun i test htest => ?_
  have hindex : (tests.map IndexedMethod.index)[i]? = some test.index := by
    rw [List.getElem?_map, htest]
    rfl
  rw [imap_eq hnodup hindex, Nat.zero_add]
  rfl

end Renumbering

section Finishing

variable {calls : List (ChooseFrom α)} {src : SharedRuleContext α} {value : ℕ → ℤ}

/-- Ending the evaluation sets the teardown counters, the first time and after that. -/
theorem Finished.finishEvalStage (finished : Finished calls src value) {methodCount : ℕ}
    (bounded : (radices calls).prod * methodCount ≤ maxValue) :
    ∃ src', src.finishEvalStage methodCount = some src' ∧
      Finished calls src' fun n => ((radices calls).prod * methodCount / n : ℕ) := by
  have hcounters : src.countersList.mapM (src.setCounters methodCount) =
      some ((radices calls).map fun n => List.replicate n 0 ++
        List.replicate n (((radices calls).prod * methodCount / n : ℕ) : ℤ)) := by
    rw [finished.countersList, List.mapM_map]
    refine mapM_eq_map fun n hn => ?_
    exact setCounters_eq finished.numCombos bounded (finished.positive n hn) (by simp; omega)
      (List.take_left' List.length_replicate)
  have hfinish : src.finishEvalStage methodCount = some { src with
      countersList := (radices calls).map fun n => List.replicate n 0 ++
        List.replicate n (((radices calls).prod * methodCount / n : ℕ) : ℤ) } := by
    rw [SharedRuleContext.finishEvalStage, hcounters]
    rfl
  exact ⟨_, hfinish, finished.clist, finished.numCombos, finished.names, finished.positive, rfl⟩

end Finishing

section Groups

variable {calls : List (ChooseFrom α)} {src : SharedRuleContext α} {value : ℕ → ℤ}
  {kept : List (IndexedMethod μ)} {q : ℕ}

/-- With the same number of tests for each combination the tests come in equal groups. -/
theorem map_comboIndex_eq (sorted : (kept.map IndexedMethod.comboIndex).Pairwise (· ≤ ·))
    (lt : ∀ test ∈ kept, test.comboIndex < (radices calls).prod) (hq : 0 < q)
    (even : ∀ c < (radices calls).prod, (kept.countP fun test => test.comboIndex = c) = q) :
    kept.map IndexedMethod.comboIndex = (List.range ((radices calls).prod * q)).map (· / q) := by
  have hlt : ∀ c ∈ kept.map IndexedMethod.comboIndex, c < (radices calls).prod := by
    intro c hc
    obtain ⟨test, htest, rfl⟩ := List.mem_map.mp hc
    exact lt test htest
  rw [eq_flatMap_replicate sorted hlt, map_div_range _ hq]
  refine List.flatMap_congr fun c hc => ?_
  rw [← even c (List.mem_range.mp hc), List.count, List.countP_map]
  congr 2

theorem map_index_renumber (kept : List (IndexedMethod μ)) :
    (renumber kept).map IndexedMethod.index = List.range kept.length := by
  rw [renumber, List.map_map]
  change List.map Prod.snd _ = _
  rw [List.zipIdx_map_snd, List.range_eq_range']

/-- Then every candidate of a call is selected equally often. -/
theorem countP_selected_renumber (finished : Finished calls src value) (hq : 0 < q)
    (bounded : (radices calls).prod * q ≤ maxValue)
    (hlength : kept.length = (radices calls).prod * q)
    {level j n : ℕ} (hn : (radices calls)[level]? = some n) (hj : j < n) :
    ((renumber kept).countP fun test =>
      (selected src kept.length test).bind (·[level]?) = some j) =
      (radices calls).prod * q / n := by
  have hselected : ∀ test ∈ renumber kept, selected src kept.length test =
      some (digits (radices calls) (test.index / q)) := by
    intro test htest
    have hmem : test.index ∈ (renumber kept).map IndexedMethod.index := List.mem_map_of_mem htest
    rw [map_index_renumber, List.mem_range, hlength] at hmem
    rw [hlength, finished.selected_eq bounded hmem]
  have hcongr : ((renumber kept).countP fun test =>
      (selected src kept.length test).bind (·[level]?) = some j) =
      ((List.range ((radices calls).prod * q)).map (· / q)).countP fun c =>
        (digits (radices calls) c)[level]? = some j := by
    rw [List.countP_map, ← hlength, ← map_index_renumber, List.countP_map]
    refine List.countP_congr fun test htest => ?_
    rw [hselected test htest]
    simp
  have hcount := countP_combos hn hj
  rw [hcongr, map_div_range _ hq, List.countP_flatMap]
  have hgroup : (fun c => (List.replicate q c).countP fun c =>
      (digits (radices calls) c)[level]? = some j) = fun c =>
      if (digits (radices calls) c)[level]? = some j then q else 0 := by
    funext c
    rw [List.countP_replicate]
    simp
  change ((List.range _).map fun c => (List.replicate q c).countP fun c =>
    (digits (radices calls) c)[level]? = some j).sum = _
  rw [hgroup]
  have hsum := sum_map_ite_countP (List.range (radices calls).prod)
    (fun c => (digits (radices calls) c)[level]? = some j) q
  simp only [decide_eq_true_eq] at hsum
  rw [hsum]
  rw [combos_eq_map_digits, List.countP_map] at hcount
  refine (Nat.div_eq_of_eq_mul_left (Nat.zero_lt_of_lt hj) ?_).symm
  calc (radices calls).prod * q
      = (List.range (radices calls).prod).countP
          (fun c => (digits (radices calls) c)[level]? = some j) * n * q :=
        congrArg (· * q) hcount.symm
    _ = _ := Nat.mul_right_comm ..

end Groups

section Main

variable {calls : List (ChooseFrom α)} {src : SharedRuleContext α} {methods : List μ}
  {tests : List (IndexedMethod μ)} {names : MethodNames μ γ} {shouldRun : Description γ → Bool}

theorem describeChild_eq {value : ℕ → ℤ} (finished : Finished calls src value)
    {src' : SharedRuleContext α} {value' : ℕ → ℤ} (finished' : Finished calls src' value')
    (names : MethodNames μ γ) (test : IndexedMethod μ) (index : ℕ) :
    describeChild names src' { test with index := index } = describeChild names src test := by
  rw [describeChild, describeChild, SharedRuleContext.describe, SharedRuleContext.describe,
    finished.numCombos, finished'.numCombos, finished.names, finished'.names]

theorem survivingMethods_eq {value : ℕ → ℤ} (finished : Finished calls src value)
    (lt : ∀ test ∈ tests, test.comboIndex < (radices calls).prod) :
    survivingMethods names src tests shouldRun =
      some (tests.filter (keeps names src shouldRun)) := by
  refine filterM_eq fun test htest => ?_
  obtain ⟨_, -, -, hname⟩ := finished.describe_eq (lt test htest)
  rw [keeps, describeChild, hname]
  rfl

/-- The order of the tests is that of their combinations. -/
structure InOrder (calls : List (ChooseFrom α)) (tests : List (IndexedMethod μ)) : Prop where
  index : (tests.map IndexedMethod.index).Pairwise (· < ·)
  comboIndex : (tests.map IndexedMethod.comboIndex).Pairwise (· ≤ ·)
  lt : ∀ test ∈ tests, test.comboIndex < (radices calls).prod
  length_le : tests.length ≤ maxValue

theorem InOrder.filter (h : InOrder calls tests) (p : IndexedMethod μ → Bool) :
    InOrder calls (tests.filter p) where
  index := h.index.sublist (List.filter_sublist.map _)
  comboIndex := h.comboIndex.sublist (List.filter_sublist.map _)
  lt test htest := h.lt test (List.mem_of_mem_filter htest)
  length_le := (List.length_filter_le _ _).trans h.length_le

/-- What `filter` returns. -/
theorem filter_eq {value : ℕ → ℤ} (finished : Finished calls src value)
    (inOrder : InOrder calls tests) (some_test : tests.filter (keeps names src shouldRun) ≠ []) :
    ∃ src', filter names src tests shouldRun =
        some (src', renumber (tests.filter (keeps names src shouldRun))) ∧
      Finished calls src' fun n => ((radices calls).prod *
        ((tests.filter (keeps names src shouldRun)).length / (radices calls).prod) / n : ℕ) := by
  have hkept := inOrder.filter (keeps names src shouldRun)
  generalize hdef : tests.filter (keeps names src shouldRun) = kept at hkept some_test ⊢
  have hpos : 0 < (radices calls).prod := by
    obtain ⟨test, htest⟩ := List.exists_mem_of_ne_nil _ some_test
    exact Nat.zero_lt_of_lt (hkept.lt test htest)
  have hmul : (radices calls).prod * (kept.length / (radices calls).prod) ≤ maxValue :=
    (Nat.mul_div_le _ _).trans hkept.length_le
  obtain ⟨src', hfinish, finished'⟩ := finished.finishEvalStage hmul
  refine ⟨src', ?_, finished'⟩
  rw [VTestRunner.filter, survivingMethods_eq finished inOrder.lt, hdef, finished.numCombos]
  simp only [Option.bind_eq_bind, Option.bind_some, guard, some_test, ne_eq, not_false_eq_true,
    if_true, Option.pure_def, div_natCast hkept.length_le hpos, hfinish]
  have hrenumber := mapM_imap hkept.index
  simp only [Option.bind_eq_bind, Option.pure_def] at hrenumber
  rw [hrenumber]
  rfl

theorem forall₂_renumber {kept : List (IndexedMethod μ)}
    {R : IndexedMethod μ → IndexedMethod μ → Prop} :
    List.Forall₂ R kept (renumber kept) ↔
      ∀ (i : ℕ) test, kept[i]? = some test → R test { test with index := i } := by
  rw [List.forall₂_iff_get]
  constructor
  · rintro ⟨-, h⟩ i test htest
    obtain ⟨hi, rfl⟩ := List.getElem?_eq_some_iff.mp htest
    have hget := h i hi (by rwa [length_renumber])
    simpa [renumber] using hget
  · refine fun h => ⟨(length_renumber kept).symm, fun i hi _ => ?_⟩
    have hget := h i kept[i] (List.getElem?_eq_getElem hi)
    simpa [renumber] using hget

/-- The tests of a class are in the order of their combinations. -/
theorem inOrder_of_computed (numCombos : src.numCombos = (radices calls).prod)
    (computed : computeTestMethods src methods = some tests) :
    InOrder calls tests ∧ tests.length = (radices calls).prod * methods.length ∧
      ∀ test ∈ tests, test.comboIndex = test.index / methods.length ∧
        test.index < (radices calls).prod * methods.length := by
  obtain ⟨hbound, hmethods, hindex, htests⟩ := tests_eq numCombos computed
  have hlength := length_tests numCombos computed
  have hsorted : (tests.map IndexedMethod.index).Pairwise (· < ·) := by
    rw [hindex]
    exact List.pairwise_lt_range
  refine ⟨⟨hsorted, ?_, fun test htest => ?_, hlength ▸ hbound⟩, hlength, htests⟩
  · have hcombos : tests.map IndexedMethod.comboIndex =
        (tests.map IndexedMethod.index).map (· / methods.length) := by
      rw [List.map_map]
      exact List.map_congr_left fun test htest => (htests test htest).1
    rw [hcombos, List.pairwise_map]
    exact hsorted.imp fun hab => Nat.div_le_div_right hab.le
  · obtain ⟨hcombo, hlt⟩ := htests test htest
    rw [hcombo]
    exact Nat.div_lt_of_lt_mul (by rwa [Nat.mul_comm])

/-- With the same number of tests for each combination, `filter` preserves the parameters. -/
theorem filterPreserves_of_even {value : ℕ → ℤ} {q : ℕ} (finished : Finished calls src value)
    (computed : computeTestMethods src methods = some tests)
    (some_test : tests.filter (keeps names src shouldRun) ≠ [])
    (even : ∀ c < (radices calls).prod, ((tests.filter (keeps names src shouldRun)).countP
      fun test => test.comboIndex = c) = q) :
    FilterPreserves calls names src tests shouldRun := by
  obtain ⟨inOrder, hlength, hindices⟩ := inOrder_of_computed finished.numCombos computed
  obtain ⟨src', hfilter, finished'⟩ := filter_eq finished inOrder some_test
  have hkept := inOrder.filter (keeps names src shouldRun)
  have hmem : ∀ test ∈ tests.filter (keeps names src shouldRun), test ∈ tests :=
    fun test htest => List.mem_of_mem_filter htest
  rw [FilterPreserves, hfilter]
  generalize tests.filter (keeps names src shouldRun) = kept at *
  obtain ⟨first, hfirst⟩ := List.exists_mem_of_ne_nil _ some_test
  have hpos : 0 < (radices calls).prod := Nat.zero_lt_of_lt (hkept.lt first hfirst)
  have hq : 0 < q := by
    rw [← even _ (hkept.lt first hfirst), List.countP_pos_iff]
    exact ⟨first, hfirst, by simp⟩
  have hgroups := map_comboIndex_eq hkept.comboIndex hkept.lt hq even
  have hkeptLength : kept.length = (radices calls).prod * q := by
    simpa using congrArg List.length hgroups
  have hbounded : (radices calls).prod * q ≤ maxValue := hkeptLength ▸ hkept.length_le
  refine ⟨src', _, rfl, forall₂_renumber.mpr fun i test htest => ?_,
    fun level j call hcall hj => ?_⟩
  · have hi : i < (radices calls).prod * q :=
      hkeptLength ▸ (List.getElem?_eq_some_iff.mp htest).1
    have hcombo : test.comboIndex = i / q := by
      have hget := congrArg (·[i]?) hgroups
      simpa [List.getElem?_map, htest, List.getElem?_range hi] using hget
    obtain ⟨hown, hindex⟩ := hindices test (hmem test (List.mem_of_getElem? htest))
    obtain ⟨chosen, hchosen, -, hname⟩ := finished'.describe_eq
      (hcombo ▸ hkept.lt test (List.mem_of_getElem? htest))
    refine ⟨describeChild_eq finished finished' names test i, chosen, ?_, ?_, ?_⟩
    · rw [length_renumber, hkeptLength, assign_eq_choiceOf finished'.clist hbounded hi, hchosen]
    · rw [hlength, assign_eq_choiceOf finished.clist (hlength ▸ inOrder.length_le) hindex, ← hown,
        hcombo, hchosen]
    · rw [← hname, hcombo]
  · rw [finished'.getCounter hcall hj, length_renumber, countP_selected_renumber finished' hq
      hbounded hkeptLength (getElem?_radices hcall) hj, hkeptLength,
      Nat.mul_div_cancel_left q hpos]

/-- Counters that are right divide the tests evenly. -/
theorem length_eq_of_counters {kept : List (IndexedMethod μ)} {level n q : ℕ}
    (hn : (radices calls)[level]? = some n) (hpos : 0 < n) (selection : IndexedMethod μ → List ℕ)
    (valid : ∀ test ∈ kept, List.Forall₂ (· < ·) (selection test) (radices calls))
    (counts : ∀ j < n, (kept.countP fun test => (selection test)[level]? = some j) =
      (radices calls).prod * q / n) :
    kept.length = (radices calls).prod * q := by
  have hdigit : ∀ test ∈ kept, ∃ d < n, (selection test)[level]? = some d := by
    intro test htest
    obtain ⟨hlevel, hget⟩ := List.getElem?_eq_some_iff.mp hn
    have hlength := (valid test htest).length_eq
    refine ⟨(selection test)[level], ?_, List.getElem?_eq_getElem (hlength ▸ hlevel)⟩
    have := (valid test htest).get (i := level) (hlength ▸ hlevel) hlevel
    simpa [hget] using this
  have hsum := sum_countP_eq (n := n) kept (fun test => (selection test)[level]?.getD 0)
    fun test htest => by
      obtain ⟨d, hd, hget⟩ := hdigit test htest
      simpa [hget] using hd
  have hcounts : (List.range n).map (fun j =>
      kept.countP fun test => (selection test)[level]?.getD 0 = j) =
      (List.range n).map fun _ => (radices calls).prod * q / n := by
    refine List.map_congr_left fun j hj => ?_
    rw [← counts j (List.mem_range.mp hj)]
    refine List.countP_congr fun test htest => ?_
    obtain ⟨d, -, hget⟩ := hdigit test htest
    simp [hget]
  have hdvd : n ∣ (radices calls).prod * q :=
    (Dvd.intro_left _ (countP_combos hn hpos)).mul_right q
  rw [hcounts, List.map_const', List.sum_replicate_nat, List.length_range,
    Nat.mul_div_cancel' hdvd] at hsum
  exact hsum.symm

theorem countP_renumber {kept : List (IndexedMethod μ)} {p p' : IndexedMethod μ → Bool}
    (h : ∀ (i : ℕ) test, kept[i]? = some test → p' { test with index := i } = p test) :
    (renumber kept).countP p' = kept.countP p := by
  have hfst : kept.zipIdx.map Prod.fst = kept := List.zipIdx_map_fst 0 kept
  conv_rhs => rw [← hfst]
  rw [renumber, List.countP_map, List.countP_map]
  refine List.countP_congr fun entry hentry => ?_
  have hsame := h entry.2 entry.1 (List.mem_zipIdx_iff_getElem?.mp hentry)
  rw [Function.comp_apply, Function.comp_apply, hsame]

theorem digits_inj {ns : List ℕ} {i j : ℕ} (hi : i < ns.prod) (hj : j < ns.prod)
    (h : digits ns i = digits ns j) : i = j := by
  refine (List.getElem?_inj (by rwa [length_combos]) (nodup_combos ns)).mp ?_
  rw [getElem?_combos hi, getElem?_combos hj, h]

/-- If `filter` preserves the parameters, every combination has the same number of tests. -/
theorem even_of_filterPreserves {value : ℕ → ℤ} (finished : Finished calls src value)
    (computed : computeTestMethods src methods = some tests)
    (some_test : tests.filter (keeps names src shouldRun) ≠ [])
    (preserves : FilterPreserves calls names src tests shouldRun) :
    ∃ q, ∀ c < (radices calls).prod, ((tests.filter (keeps names src shouldRun)).countP
      fun test => test.comboIndex = c) = q := by
  obtain ⟨inOrder, hlength, hindices⟩ := inOrder_of_computed finished.numCombos computed
  obtain ⟨src', hfilter, finished'⟩ := filter_eq finished inOrder some_test
  have hkept := inOrder.filter (keeps names src shouldRun)
  have hmem : ∀ test ∈ tests.filter (keeps names src shouldRun), test ∈ tests :=
    fun test htest => List.mem_of_mem_filter htest
  rw [FilterPreserves, hfilter] at preserves
  generalize tests.filter (keeps names src shouldRun) = kept at *
  obtain ⟨src'', tests', heq, hsame, hcounters⟩ := preserves
  obtain ⟨rfl, rfl⟩ := Prod.mk.inj (Option.some.inj heq)
  rw [forall₂_renumber] at hsame
  obtain ⟨first, hfirst⟩ := List.exists_mem_of_ne_nil _ some_test
  have hpos : 0 < (radices calls).prod := Nat.zero_lt_of_lt (hkept.lt first hfirst)
  -- what a kept test found before
  have hbefore (test : IndexedMethod μ) (htest : test ∈ kept) {chosen : List (ℕ × Candidate α)}
      (h : assign src tests.length test.index = some chosen) :
      chosen.map Prod.fst = digits (radices calls) test.comboIndex := by
    obtain ⟨hown, hindex⟩ := hindices test (hmem test htest)
    obtain ⟨chosen', hchosen, hfst, -⟩ := finished.describe_eq (hkept.lt test htest)
    rw [hlength, assign_eq_choiceOf finished.clist (hlength ▸ inOrder.length_le) hindex, ← hown,
      hchosen] at h
    rw [← hfst, Option.some.inj h]
  have hselected (i : ℕ) (test : IndexedMethod μ) (htest : kept[i]? = some test) :
      selected src' (renumber kept).length { test with index := i } =
        some (digits (radices calls) test.comboIndex) := by
    obtain ⟨-, chosen, hafter, hchosen, -⟩ := hsame i test htest
    rw [selected, hafter, Option.map_some, hbefore test (List.mem_of_getElem? htest) hchosen]
  have heven : kept.length =
      (radices calls).prod * (kept.length / (radices calls).prod) := by
    cases hcalls : calls with
    | nil => simp [radices]
    | cons call rest =>
        have hcall : calls[0]? = some call := by rw [hcalls]; rfl
        have hn := getElem?_radices hcall
        rw [← hcalls]
        refine length_eq_of_counters hn (finished.positive _ (List.mem_of_getElem? hn))
          (fun test => digits (radices calls) test.comboIndex)
          (fun test htest => digits_lt (hkept.lt test htest)) fun j hj => ?_
        have hcounter := hcounters 0 j call hcall hj
        have hcount : ((renumber kept).countP fun test =>
            (selected src' (renumber kept).length test).bind (·[0]?) = some j) =
            kept.countP fun test => (digits (radices calls) test.comboIndex)[0]? = some j :=
          countP_renumber fun i test htest => by
            rw [hselected i test htest]
            rfl
        rw [finished'.getCounter hcall hj, hcount] at hcounter
        exact_mod_cast (Option.some.inj hcounter).symm
  refine ⟨kept.length / (radices calls).prod, fun c hc => ?_⟩
  generalize kept.length / (radices calls).prod = q at heven
  have hq : 0 < q := by
    have := List.length_pos_of_mem hfirst
    rw [heven] at this
    exact Nat.pos_of_mul_pos_left this
  have hgroups : kept.map IndexedMethod.comboIndex =
      (List.range ((radices calls).prod * q)).map (· / q) := by
    refine List.ext_getElem? fun i => ?_
    rcases Nat.lt_or_ge i kept.length with hi | hi
    · have htest := List.getElem?_eq_getElem hi
      have hcombo : i / q < (radices calls).prod :=
        Nat.div_lt_of_lt_mul (by rw [Nat.mul_comm, ← heven]; exact hi)
      have hdigits := hselected i _ htest
      rw [length_renumber, heven,
        finished'.selected_eq (heven ▸ hkept.length_le) (heven ▸ hi)] at hdigits
      have hindex := digits_inj hcombo (hkept.lt _ (List.getElem_mem hi)) (Option.some.inj hdigits)
      rw [List.getElem?_map, htest, List.getElem?_map, List.getElem?_range (heven ▸ hi)]
      exact congrArg some hindex.symm
    · rw [List.getElem?_eq_none (by simpa using hi),
        List.getElem?_eq_none (by rw [List.length_map, List.length_range, ← heven]; exact hi)]
  have hcount := count_flatMap_replicate (fun _ => q) hc
  rw [← map_div_range _ hq, ← hgroups, List.count, List.countP_map] at hcount
  rw [← hcount]
  refine List.countP_congr fun test _ => ?_
  simp

/-- For every class and every filter that keeps some test: `filter` preserves the
parameters of the tests if and only if it keeps the same number of tests of each
combination. -/
theorem filterPreserves_iff (setup : evalSetup calls methods.length = some src)
    (computed : computeTestMethods src methods = some tests)
    (keepsOne : ∃ test ∈ tests, keeps names src shouldRun test = true) :
    FilterPreserves calls names src tests shouldRun ↔
      ∃ q, ∀ c < (radices calls).prod, ((tests.filter (keeps names src shouldRun)).countP
        fun test => test.comboIndex = c) = q := by
  have finished := finished_of_computed setup computed
  obtain ⟨test, htest, hkeeps⟩ := keepsOne
  have hsome : tests.filter (keeps names src shouldRun) ≠ [] :=
    List.ne_nil_of_mem (List.mem_filter.mpr ⟨htest, hkeeps⟩)
  constructor
  · exact even_of_filterPreserves finished computed hsome
  · rintro ⟨q, even⟩
    exact filterPreserves_of_even finished computed hsome even

end Main

section Examples

/-- A parameter with two candidates. -/
def twoCandidates : List (ChooseFrom ℕ) := [⟨"first", [⟨1, "1"⟩, ⟨2, "2"⟩]⟩]

/-- Methods without parameters or annotations. -/
def plainNames : MethodNames String Empty := ⟨id, fun _ => "", fun _ => []⟩

/-- The class with this parameter after its evaluation. -/
def evaluatedTwo (methodCount : ℤ) : SharedRuleContext ℕ :=
  ⟨[[⟨1, "1"⟩, ⟨2, "2"⟩]], [[0, 0, methodCount, methodCount]], 2, ["_first[1]", "_first[2]"]⟩

/-- All tests of one of two methods. -/
theorem filterPreserves_method :
    evalSetup twoCandidates 2 = some (evaluatedTwo 2) ∧
      FilterPreserves twoCandidates plainNames (evaluatedTwo 2)
        [⟨0, 0, "testname"⟩, ⟨1, 0, "other"⟩, ⟨2, 1, "testname"⟩, ⟨3, 1, "other"⟩]
        fun description => description.displayName = "other_first[1]" ∨
          description.displayName = "other_first[2]" := by
  have hsetup : evalSetup twoCandidates ["testname", "other"].length = some (evaluatedTwo 2) := by
    decide +kernel
  have hcomputed : computeTestMethods (evaluatedTwo 2) ["testname", "other"] =
      some [⟨0, 0, "testname"⟩, ⟨1, 0, "other"⟩, ⟨2, 1, "testname"⟩, ⟨3, 1, "other"⟩] := by
    decide +kernel
  refine ⟨hsetup, (filterPreserves_iff hsetup hcomputed ?_).mpr ⟨1, ?_⟩⟩
  · exact ⟨⟨1, 0, "other"⟩, by simp, by decide +kernel⟩
  · decide +kernel

/-- One test of two. -/
theorem not_filterPreserves_one :
    evalSetup twoCandidates 1 = some (evaluatedTwo 1) ∧
      computeTestMethods (evaluatedTwo 1) ["testname"] =
        some [⟨0, 0, "testname"⟩, ⟨1, 1, "testname"⟩] ∧
      ¬ FilterPreserves twoCandidates plainNames (evaluatedTwo 1)
        [⟨0, 0, "testname"⟩, ⟨1, 1, "testname"⟩]
        fun description => description.displayName = "testname_first[2]" := by
  have hsetup : evalSetup twoCandidates 1 = some (evaluatedTwo 1) := by decide +kernel
  have hcomputed : computeTestMethods (evaluatedTwo 1) ["testname"] =
      some [⟨0, 0, "testname"⟩, ⟨1, 1, "testname"⟩] := by decide +kernel
  refine ⟨hsetup, hcomputed, fun preserves => ?_⟩
  have hbounded : (radices twoCandidates).prod * 1 ≤ maxValue := by decide
  obtain ⟨q, even⟩ := even_of_filterPreserves (finished_of_evalSetup hbounded hsetup) hcomputed
    (by decide +kernel) preserves
  have hzero : 0 = q := even 0 (by decide)
  have hone : 1 = q := even 1 (by decide)
  omega

end Examples

end Explore.VTestRunner
