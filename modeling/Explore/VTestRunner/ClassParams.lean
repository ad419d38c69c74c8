import Explore.Lib.Outcome
import Explore.Lib.MixedRadix
import Explore.VTestRunner.SharedRuleContext
import Mathlib.Data.List.Induction
import Mathlib.Tactic.Linarith

/-!
# Class parameters are decoded as they are named

The names of the combinations are built by a growing cross product, the tests by a loop
over combinations and methods, the values of a test by dividing a running quotient of the
number of tests, and the teardown counters by one division. All of them read the index
of a combination as a mixed radix number whose digits are the selected candidates.
-/

namespace Explore.VTestRunner

open MixedRadix

variable {α μ : Type} {calls : List (ChooseFrom α)} {src : SharedRuleContext α}
  {methods : List μ} {tests : List (IndexedMethod μ)}

section Integers

theorem int32_natCast {n : ℕ} (h : n ≤ maxValue) : int32 (n : ℤ) = n := by
  simp only [maxValue] at h
  exact Int.bmod_eq_of_le (by omega) (by omega)

theorem div_natCast {a b : ℕ} (ha : a ≤ maxValue) (hb : 0 < b) :
    div (a : ℤ) b = some ((a / b : ℕ) : ℤ) := by
  have hne : (b : ℤ) ≠ 0 := by exact_mod_cast hb.ne'
  rw [div, if_neg hne, ← Int.ofNat_tdiv, int32_natCast ((Nat.div_le_self a b).trans ha)]

theorem rem_natCast {a b : ℕ} (hb : 0 < b) : rem (a : ℤ) b = some ((a % b : ℕ) : ℤ) := by
  have hne : (b : ℤ) ≠ 0 := by exact_mod_cast hb.ne'
  rw [rem, if_neg hne, ← Int.ofNat_tmod]

end Integers

/-- The numbers of candidates of the calls. -/
def radices (calls : List (ChooseFrom α)) : List ℕ := calls.map fun call => call.candidates.length

/-- The name of the combination that has the given candidates. -/
def nameOf (calls : List (ChooseFrom α)) (chosen : List (Candidate α)) : String :=
  (calls.zip chosen).foldl (fun name entry => name ++ "_" ++ entry.1.describe entry.2) ""

/-- What the evaluation of a class has recorded after some calls. -/
structure Evaluated (calls : List (ChooseFrom α)) (src : SharedRuleContext α) : Prop where
  clist : src.clist = calls.map ChooseFrom.candidates
  countersList : src.countersList = (radices calls).map fun n => List.replicate (2 * n) 0
  numCombos : src.numCombos = (radices calls).prod
  names : src.names = (cross (calls.map ChooseFrom.candidates)).map (nameOf calls)
  positive : ∀ n ∈ radices calls, 0 < n
  bounded : (radices calls).prod ≤ maxValue

section Evaluation

theorem Evaluated.new : Evaluated ([] : List (ChooseFrom α)) .new :=
  ⟨rfl, rfl, rfl, rfl, by simp [radices], by simp [radices, maxValue]⟩

theorem nameOf_concat {call : ChooseFrom α} {chosen : List (Candidate α)} {c : Candidate α}
    (h : chosen.length = calls.length) :
    nameOf (calls ++ [call]) (chosen ++ [c]) = nameOf calls chosen ++ "_" ++ call.describe c := by
  rw [nameOf, List.zip_append h.symm, List.foldl_append]
  rfl

theorem radices_append (calls more : List (ChooseFrom α)) :
    radices (calls ++ more) = radices calls ++ radices more := List.map_append

theorem getElem?_radices {level : ℕ} {call : ChooseFrom α} (hcall : calls[level]? = some call) :
    (radices calls)[level]? = some call.candidates.length := by
  rw [radices, List.getElem?_map, hcall]
  rfl

/-- The names stay the cross product of the candidates. -/
theorem Evaluated.addSelect {src' : SharedRuleContext α} {call : ChooseFrom α}
    (evaluated : Evaluated calls src) (h : src.addSelect call = some src') :
    Evaluated (calls ++ [call]) src' := by
  obtain ⟨_, hpositive, h⟩ := Option.bind_eq_some_iff.mp h
  have hpos : 0 < call.candidates.length := by
    by_contra hzero
    simp [guard, hzero] at hpositive
  obtain ⟨names, hnames, h⟩ := Option.bind_eq_some_iff.mp h
  obtain rfl := Option.some.inj h
  have hprod : (radices (calls ++ [call])).prod =
      (radices calls).prod * call.candidates.length := by
    simp [radices]
  have hcross : (cross (calls.map ChooseFrom.candidates)).flatMap (fun row =>
      call.candidates.map fun cand => nameOf calls row ++ "_" ++ call.describe cand) =
      (cross ((calls ++ [call]).map ChooseFrom.candidates)).map (nameOf (calls ++ [call])) := by
    rw [List.map_append, List.map_singleton, cross_concat, List.map_flatMap]
    refine List.flatMap_congr fun row hrow => ?_
    have hrow : row.length = calls.length := (length_of_mem_cross hrow).trans (List.length_map _)
    rw [List.map_map]
    exact List.map_congr_left fun c _ => (nameOf_concat hrow).symm
  simp only [SharedRuleContext.addNames] at hnames
  split at hnames
  case isFalse => simp at hnames
  case isTrue hbound =>
    obtain rfl := Option.some.inj hnames
    rw [evaluated.names, List.flatMap_map, hcross] at hbound ⊢
    rw [List.length_map, length_cross, List.map_map] at hbound
    refine ⟨?_, ?_, ?_, rfl, ?_, hbound⟩
    · rw [evaluated.clist, List.map_append]
      rfl
    · dsimp only
      rw [evaluated.countersList, radices_append, List.map_append]
      rfl
    · dsimp only
      rw [evaluated.numCombos, hprod, ← Nat.cast_mul]
      exact int32_natCast (hprod ▸ hbound)
    · intro n hn
      rw [radices_append] at hn
      rcases List.mem_append.mp hn with hn | hn
      · exact evaluated.positive n hn
      · obtain rfl := List.mem_singleton.mp hn
        exact hpos

theorem Evaluated.foldlM {more : List (ChooseFrom α)} {src' : SharedRuleContext α}
    (evaluated : Evaluated calls src)
    (h : more.foldlM SharedRuleContext.addSelect src = some src') :
    Evaluated (calls ++ more) src' := by
  induction more generalizing calls src with
  | nil =>
      obtain rfl := Option.some.inj h
      rwa [List.append_nil]
  | cons call more ih =>
      rw [List.foldlM_cons] at h
      obtain ⟨mid, hmid, h⟩ := Option.bind_eq_some_iff.mp h
      have := ih (evaluated.addSelect hmid) h
      rwa [List.append_assoc] at this

theorem Evaluated.exists_addSelect {call : ChooseFrom α} (evaluated : Evaluated calls src)
    (positive : 0 < call.candidates.length)
    (bounded : (radices (calls ++ [call])).prod ≤ maxValue) :
    ∃ src', src.addSelect call = some src' := by
  have hlength : (src.names.flatMap fun name =>
      call.candidates.map fun cand => name ++ "_" ++ call.describe cand).length =
      (radices (calls ++ [call])).prod := by
    rw [length_flatMap_const fun _ _ => List.length_map _, evaluated.names, List.length_map,
      length_cross, List.map_map]
    simp [radices, Function.comp_def]
  rw [SharedRuleContext.addSelect, guard, if_pos positive, SharedRuleContext.addNames]
  simp only [hlength, if_pos bounded]
  exact ⟨_, rfl⟩

/-- The evaluation accepts calls with few enough combinations. -/
theorem exists_evaluated (positive : ∀ call ∈ calls, 0 < call.candidates.length)
    (bounded : (radices calls).prod ≤ maxValue) :
    ∃ before, calls.foldlM SharedRuleContext.addSelect .new = some before := by
  induction calls using List.reverseRecOn with
  | nil => exact ⟨_, rfl⟩
  | append_singleton calls call ih =>
      have hpositive := positive call (List.mem_append_right _ List.mem_cons_self)
      have hle : (radices calls).prod ≤ (radices (calls ++ [call])).prod := by
        rw [radices_append, List.prod_append]
        exact Nat.le_mul_of_pos_right _ (by simpa [radices] using hpositive)
      obtain ⟨before, hbefore⟩ :=
        ih (fun c hc => positive c (List.mem_append_left _ hc)) (hle.trans bounded)
      obtain ⟨src', hsrc'⟩ :=
        (Evaluated.new.foldlM hbefore).exists_addSelect hpositive (by simpa using bounded)
      refine ⟨src', ?_⟩
      rw [List.foldlM_append, hbefore, Option.bind_eq_bind, Option.bind_some, List.foldlM_cons,
        hsrc']
      rfl

/-- The evaluation of a class ends with the teardown counters set. -/
theorem evaluated_of_evalSetup {methodCount : ℕ} (h : evalSetup calls methodCount = some src) :
    ∃ before, Evaluated calls before ∧ before.finishEvalStage methodCount = some src := by
  obtain ⟨before, hcalls, h⟩ := Option.bind_eq_some_iff.mp h
  exact ⟨before, Evaluated.new.foldlM hcalls, h⟩

end Evaluation

/-- A class whose evaluation has ended, with the value of the teardown counters of a call. -/
structure Finished (calls : List (ChooseFrom α)) (src : SharedRuleContext α) (value : ℕ → ℤ) :
    Prop where
  clist : src.clist = calls.map ChooseFrom.candidates
  numCombos : src.numCombos = (radices calls).prod
  names : src.names = (cross (calls.map ChooseFrom.candidates)).map (nameOf calls)
  positive : ∀ n ∈ radices calls, 0 < n
  countersList : src.countersList =
    (radices calls).map fun n => List.replicate n 0 ++ List.replicate n (value n)

section Finishing

variable {value : ℕ → ℤ}

/-- The counters of a call after the evaluation ends. -/
theorem setCounters_eq {n methodCount : ℕ} (numCombos : src.numCombos = (radices calls).prod)
    (bounded : (radices calls).prod * methodCount ≤ maxValue) (hn : 0 < n) {list : List ℤ}
    (hlength : list.length = 2 * n) (hzero : list.take n = List.replicate n 0) :
    src.setCounters methodCount list = some (List.replicate n 0 ++
      List.replicate n (((radices calls).prod * methodCount / n : ℕ) : ℤ)) := by
  have hhalf : list.length / 2 = n := by omega
  rw [SharedRuleContext.setCounters, hhalf, numCombos, ← Nat.cast_mul, int32_natCast bounded,
    div_natCast bounded hn, hzero]
  rfl

theorem Evaluated.mapM_setCounters {methodCount : ℕ} (evaluated : Evaluated calls src)
    (bounded : (radices calls).prod * methodCount ≤ maxValue) :
    src.countersList.mapM (src.setCounters methodCount) =
      some ((radices calls).map fun n => List.replicate n 0 ++
        List.replicate n (((radices calls).prod * methodCount / n : ℕ) : ℤ)) := by
  rw [evaluated.countersList, List.mapM_map]
  refine mapM_eq_map fun n hn => ?_
  refine setCounters_eq evaluated.numCombos bounded (evaluated.positive n hn)
    List.length_replicate ?_
  rw [List.take_replicate, Nat.min_eq_left (by omega)]

/-- An accepted class is one whose evaluation has ended. -/
theorem finished_of_evalSetup {methodCount : ℕ}
    (bounded : (radices calls).prod * methodCount ≤ maxValue)
    (setup : evalSetup calls methodCount = some src) :
    Finished calls src fun n => ((radices calls).prod * methodCount / n : ℕ) := by
  obtain ⟨before, hbefore, hfinish⟩ := evaluated_of_evalSetup setup
  rw [SharedRuleContext.finishEvalStage, hbefore.mapM_setCounters bounded] at hfinish
  obtain rfl := Option.some.inj hfinish
  exact ⟨hbefore.clist, hbefore.numCombos, hbefore.names, hbefore.positive, rfl⟩

/-- The evaluation gives the number of combinations. -/
theorem numCombos_of_evalSetup {methodCount : ℕ} (setup : evalSetup calls methodCount = some src) :
    src.numCombos = (radices calls).prod := by
  obtain ⟨before, hbefore, hfinish⟩ := evaluated_of_evalSetup setup
  obtain ⟨counters, -, h⟩ := Option.bind_eq_some_iff.mp hfinish
  obtain rfl := Option.some.inj h
  exact hbefore.numCombos

theorem Finished.getCounter (finished : Finished calls src value) {level j : ℕ}
    {call : ChooseFrom α} (hcall : calls[level]? = some call) (hj : j < call.candidates.length) :
    ((src.getCountersAtLevel level).bind fun counters => counters[call.candidates.length + j]?) =
      some (value call.candidates.length) := by
  rw [SharedRuleContext.getCountersAtLevel, finished.countersList, List.getElem?_map,
    getElem?_radices hcall, Option.map_some, Option.bind_some, List.getElem?_append_right (by simp),
    List.length_replicate, Nat.add_sub_cancel_left, List.getElem?_replicate_of_lt hj]

end Finishing

section Assignment

/-- The quotient that `select` starts from is the number of combinations of the calls
still to come, times the number of methods; one division gives the digit. -/
theorem digit_eq {n rest idx M : ℕ} :
    idx % (n * rest * M) / (rest * M) = idx / M % (n * rest) / rest := by
  rw [Nat.mul_comm (n * rest) M, Nat.mul_comm rest M, ← Nat.div_div_eq_div_mul,
    Nat.mod_mul_right_div_self]

theorem select_eq {seen n rest M idx : ℕ} (hbound : seen * (n * rest) * M ≤ maxValue)
    (hpos : 0 < seen * (n * rest) * M) :
    select ⟨(seen * (n * rest) * M : ℕ), seen⟩ idx n =
      some ((idx / M % (n * rest) / rest : ℕ) : ℤ) := by
  have hseen : 0 < seen := Nat.pos_of_mul_pos_right (Nat.mul_assoc _ _ _ ▸ hpos)
  have hparts : 0 < n * rest * M := Nat.pos_of_mul_pos_left (Nat.mul_assoc _ _ _ ▸ hpos)
  have hlater : 0 < rest * M := Nat.pos_of_mul_pos_left (Nat.mul_assoc _ _ _ ▸ hparts)
  have hn : 0 < n := Nat.pos_of_mul_pos_right (Nat.mul_assoc _ _ _ ▸ hparts)
  have hleft : seen * (n * rest) * M / seen = n * rest * M := by
    rw [Nat.mul_assoc, Nat.mul_div_cancel_left _ hseen]
  have hdiv : n * rest * M / n = rest * M := by
    rw [Nat.mul_assoc, Nat.mul_div_cancel_left _ hn]
  have hle : n * rest * M ≤ maxValue :=
    le_trans (by rw [Nat.mul_assoc seen]; exact Nat.le_mul_of_pos_left _ hseen) hbound
  have hmod : idx % (n * rest * M) ≤ maxValue := (Nat.mod_lt idx hparts).le.trans hle
  rw [select, div_natCast hbound hseen, hleft]
  simp only [Option.bind_eq_bind, Option.bind_some]
  rw [div_natCast hle hn, hdiv]
  simp only [Option.bind_some]
  rw [rem_natCast hparts]
  simp only [Option.bind_some]
  rw [div_natCast hmod hlater, digit_eq]

/-- The selections of the calls from a level on: the digits of the combination. -/
theorem assignFrom_eq (idx : ℕ) {M : ℕ} (before rest : List (ChooseFrom α))
    (clist : src.clist = (before ++ rest).map ChooseFrom.candidates)
    (bounded : (radices before).prod * (radices rest).prod * M ≤ maxValue)
    (positive : 0 < (radices before).prod * (radices rest).prod * M) :
    assignFrom src idx before.length rest.length
        ⟨((radices before).prod * (radices rest).prod * M : ℕ), (radices before).prod⟩ =
      ((rest.map ChooseFrom.candidates).zip
        (digits (radices rest) (idx / M % (radices rest).prod))).mapM fun entry =>
          (entry.1[entry.2]?).map (entry.2, ·) := by
  induction rest generalizing before with
  | nil => rfl
  | cons call rest ih =>
      have hprod : (radices (call :: rest)).prod =
          call.candidates.length * (radices rest).prod := by simp [radices]
      have hbefore : (radices (before ++ [call])).prod =
          (radices before).prod * call.candidates.length := by simp [radices]
      rw [hprod] at bounded positive ⊢
      have hassoc : (radices (before ++ [call])).prod * (radices rest).prod * M =
          (radices before).prod * (call.candidates.length * (radices rest).prod) * M := by
        rw [hbefore]
        ring
      have hmod : idx / M % (call.candidates.length * (radices rest).prod) % (radices rest).prod =
          idx / M % (radices rest).prod := Nat.mod_mod_of_dvd _ (Nat.dvd_mul_left _ _)
      have hrest := ih (before ++ [call]) (by simpa using clist) (hassoc ▸ bounded)
        (hassoc ▸ positive)
      have hcandidates : src.candidatesAtLevel before.length = some call.candidates := by
        rw [SharedRuleContext.candidatesAtLevel, clist, List.map_append,
          List.getElem?_append_right (by simp)]
        simp
      have hseen : int32 (((radices before).prod : ℤ) * call.candidates.length) =
          ((radices (before ++ [call])).prod : ℕ) := by
        rw [← Nat.cast_mul, ← hbefore]
        refine int32_natCast (le_trans ?_ (hassoc ▸ bounded))
        rw [Nat.mul_assoc]
        exact Nat.le_mul_of_pos_right _
          (Nat.pos_of_mul_pos_left (Nat.mul_assoc _ _ _ ▸ (hassoc ▸ positive)))
      rw [hassoc, List.length_append, List.length_singleton] at hrest
      have hdigits : (radices (call :: rest)) = call.candidates.length :: radices rest := rfl
      rw [hdigits, List.map_cons, digits, List.zip_cons_cons, List.mapM_cons, hmod, ← hrest]
      simp only [List.length_cons, assignFrom, nextInner, hcandidates, Option.bind_eq_bind,
        Option.bind_some, select_eq bounded positive, guard, Int.natCast_nonneg, if_true,
        Option.pure_def, Int.toNat_natCast, ClassLevelIndexContext.addSelect, hseen]
      cases call.candidates[idx / M %
        (call.candidates.length * (radices rest).prod) / (radices rest).prod]? <;> rfl

end Assignment

section Choice

/-- Valid positions select a candidate in every table. -/
theorem exists_choice {tables : List (List (Candidate α))} {ds : List ℕ}
    (valid : List.Forall₂ (· < ·) ds (tables.map List.length)) :
    ∃ chosen : List (ℕ × Candidate α),
      ((tables.zip ds).mapM fun entry => (entry.1[entry.2]?).map (entry.2, ·)) = some chosen ∧
      chosen.map Prod.fst = ds ∧
      ((tables.zip ds).mapM fun entry => entry.1[entry.2]?) = some (chosen.map Prod.snd) := by
  induction tables generalizing ds with
  | nil =>
      cases valid
      exact ⟨[], rfl, rfl, rfl⟩
  | cons table tables ih =>
      obtain _ | ⟨hd, hds⟩ := valid
      rename_i d ds
      obtain ⟨chosen, hchosen, hfst, hsnd⟩ := ih hds
      refine ⟨(d, table[d]) :: chosen, ?_, by simp [hfst], ?_⟩
      · simp [hchosen, List.getElem?_eq_getElem hd]
      · simp [hsnd, List.getElem?_eq_getElem hd]

theorem digits_lt {ns : List ℕ} {idx : ℕ} (h : idx < ns.prod) :
    List.Forall₂ (· < ·) (digits ns idx) ns :=
  mem_combos.mp (List.mem_of_getElem? (getElem?_combos h))

end Choice

section Tests

theorem length_combinations (calls : List (ChooseFrom α)) (methods : List μ) :
    ((List.range (radices calls).prod).flatMap fun i => methods.map (i, ·)).length =
      (radices calls).prod * methods.length := by
  rw [length_flatMap_const fun i _ => List.length_map _, List.length_range]

/-- The tests in order: all methods of the first combination, then of the next one. -/
theorem tests_eq (numCombos : src.numCombos = (radices calls).prod)
    (computed : computeTestMethods src methods = some tests) :
    (radices calls).prod * methods.length ≤ maxValue ∧
      tests.map (fun test => (test.comboIndex, test.method)) =
        (List.range (radices calls).prod).flatMap (fun i => methods.map (i, ·)) ∧
      tests.map IndexedMethod.index =
        List.range ((radices calls).prod * methods.length) ∧
      ∀ test ∈ tests, test.comboIndex = test.index / methods.length ∧
        test.index < (radices calls).prod * methods.length := by
  have hlength := length_combinations calls methods
  simp only [computeTestMethods, numCombos, Int.toNat_natCast] at computed
  split at computed
  case isFalse => simp at computed
  case isTrue hbound =>
    obtain rfl := Option.some.inj computed
    rw [List.length_map, List.length_zipIdx, hlength] at hbound
    refine ⟨hbound, ?_, ?_, fun test htest => ?_⟩
    · rw [List.map_map]
      exact List.zipIdx_map_fst 0 _
    · rw [List.map_map]
      change List.map Prod.snd _ = _
      rw [List.zipIdx_map_snd, hlength, List.range_eq_range']
    · obtain ⟨⟨⟨i, m⟩, k⟩, hentry, rfl⟩ := List.mem_map.mp htest
      have hget := List.mem_zipIdx_iff_getElem?.mp hentry
      have hk : k < (radices calls).prod * methods.length :=
        hlength ▸ (List.getElem?_eq_some_iff.mp hget).1
      have hpos : 0 < methods.length := Nat.pos_of_lt_mul_left hk
      have hsplit := getElem?_flatMap (List.range (radices calls).prod)
        (f := fun i => methods.map (i, ·)) (i := k / methods.length)
        (fun i _ => List.length_map _) (Nat.mod_lt k hpos)
      have hcombo : k / methods.length < (radices calls).prod :=
        Nat.div_lt_of_lt_mul (by rwa [Nat.mul_comm])
      rw [Nat.div_add_mod', hget, List.getElem?_range hcombo, Option.bind_some,
        List.getElem?_map] at hsplit
      obtain ⟨m', -, heq⟩ := Option.map_eq_some_iff.mp hsplit.symm
      exact ⟨(Prod.mk.inj heq).1.symm, hk⟩

theorem length_tests (numCombos : src.numCombos = (radices calls).prod)
    (computed : computeTestMethods src methods = some tests) :
    tests.length = (radices calls).prod * methods.length := by
  obtain ⟨-, -, hindex, -⟩ := tests_eq numCombos computed
  simpa using congrArg List.length hindex

end Tests

/-- The positions that the `chooseFrom` calls of a test select. -/
def selected (src : SharedRuleContext α) (total : ℕ) (test : IndexedMethod μ) :
    Option (List ℕ) :=
  (assign src total test.index).map (List.map Prod.fst)

section Decoding

variable {value : ℕ → ℤ}

/-- The candidates at the positions of a combination. -/
def choiceOf (calls : List (ChooseFrom α)) (combo : ℕ) : Option (List (ℕ × Candidate α)) :=
  ((calls.map ChooseFrom.candidates).zip (digits (radices calls) combo)).mapM fun entry =>
    (entry.1[entry.2]?).map (entry.2, ·)

/-- With `M` tests for each combination a test finds those of its own. -/
theorem assign_eq_choiceOf (clist : src.clist = calls.map ChooseFrom.candidates) {M idx : ℕ}
    (bounded : (radices calls).prod * M ≤ maxValue) (hidx : idx < (radices calls).prod * M) :
    assign src ((radices calls).prod * M) idx = choiceOf calls (idx / M) := by
  have hcombo : idx / M < (radices calls).prod :=
    Nat.div_lt_of_lt_mul (by rwa [Nat.mul_comm])
  have hassign := assignFrom_eq idx (M := M) [] calls clist
    (by simpa [radices] using bounded) (by simpa [radices] using Nat.zero_lt_of_lt hidx)
  rw [Nat.mod_eq_of_lt hcombo, ← choiceOf] at hassign
  rw [assign, clist, List.length_map]
  simpa [radices] using hassign

/-- Every combination has candidates and is named after them. -/
theorem Finished.describe_eq (finished : Finished calls src value) {combo : ℕ}
    (h : combo < (radices calls).prod) :
    ∃ chosen, choiceOf calls combo = some chosen ∧
      chosen.map Prod.fst = digits (radices calls) combo ∧
      src.describe combo = some (nameOf calls (chosen.map Prod.snd)) := by
  have htables : (calls.map ChooseFrom.candidates).map List.length = radices calls := by
    rw [List.map_map]
    rfl
  obtain ⟨chosen, hchosen, hfst, hsnd⟩ := exists_choice
    (by
      rw [htables]
      exact digits_lt h)
  refine ⟨chosen, hchosen, hfst, ?_⟩
  rw [SharedRuleContext.describe, finished.numCombos, if_pos (by exact_mod_cast h),
    finished.names, List.getElem?_map, getElem?_cross _ _ (htables ▸ h), htables, hsnd]
  rfl

/-- With `M` tests for each combination every test finds the candidates of its own. -/
theorem Finished.assign_eq (finished : Finished calls src value) {M idx : ℕ}
    (bounded : (radices calls).prod * M ≤ maxValue) (hidx : idx < (radices calls).prod * M) :
    ∃ chosen, assign src ((radices calls).prod * M) idx = some chosen ∧
      chosen.map Prod.fst = digits (radices calls) (idx / M) ∧
      src.describe (idx / M) = some (nameOf calls (chosen.map Prod.snd)) := by
  have hcombo : idx / M < (radices calls).prod :=
    Nat.div_lt_of_lt_mul (by rwa [Nat.mul_comm])
  obtain ⟨chosen, hchosen, hrest⟩ := finished.describe_eq hcombo
  exact ⟨chosen, (assign_eq_choiceOf finished.clist bounded hidx).trans hchosen, hrest⟩

theorem Finished.selected_eq (finished : Finished calls src value) {M : ℕ}
    (bounded : (radices calls).prod * M ≤ maxValue) {test : IndexedMethod μ}
    (h : test.index < (radices calls).prod * M) :
    selected src ((radices calls).prod * M) test =
      some (digits (radices calls) (test.index / M)) := by
  obtain ⟨chosen, hchosen, hfst, -⟩ := finished.assign_eq bounded h
  rw [selected, hchosen, Option.map_some, hfst]

/-- A test selects its combination. -/
theorem Finished.selected_eq_digits (finished : Finished calls src value)
    (computed : computeTestMethods src methods = some tests) {test : IndexedMethod μ}
    (htest : test ∈ tests) :
    selected src tests.length test = some (digits (radices calls) test.comboIndex) ∧
      test.comboIndex < (radices calls).prod := by
  obtain ⟨hbound, -, -, hindices⟩ := tests_eq finished.numCombos computed
  obtain ⟨hcombo, hlt⟩ := hindices test htest
  rw [length_tests finished.numCombos computed, finished.selected_eq hbound hlt, hcombo]
  exact ⟨rfl, Nat.div_lt_of_lt_mul (by rwa [Nat.mul_comm])⟩

/-- The combinations with their methods, in the order of the tests. -/
theorem selected_tests (finished : Finished calls src value)
    (computed : computeTestMethods src methods = some tests) :
    tests.map (fun test => (selected src tests.length test, test.method)) =
      (combos (radices calls)).flatMap fun combo => methods.map (some combo, ·) := by
  obtain ⟨-, hmethods, -⟩ := tests_eq finished.numCombos computed
  have hmap : tests.map (fun test => (selected src tests.length test, test.method)) =
      (tests.map fun test => (test.comboIndex, test.method)).map fun entry =>
        (some (digits (radices calls) entry.1), entry.2) := by
    rw [List.map_map]
    refine List.map_congr_left fun test htest => ?_
    rw [(finished.selected_eq_digits computed htest).1]
    rfl
  rw [hmap, hmethods, List.map_flatMap, combos_eq_map_digits, List.flatMap_map]
  refine List.flatMap_congr fun i _ => ?_
  rw [List.map_map]
  rfl

theorem map_filter_selected (finished : Finished calls src value)
    (computed : computeTestMethods src methods = some tests) {combo : List ℕ}
    (valid : List.Forall₂ (· < ·) combo (radices calls)) :
    (tests.filter fun test => selected src tests.length test = some combo).map
      IndexedMethod.method = methods := by
  have hfilter := congrArg (List.filter fun p => p.1 = some combo)
    (selected_tests finished computed)
  rw [List.filter_map] at hfilter
  have hpairs : (combos (radices calls)).flatMap (fun combo => methods.map (some combo, ·)) =
      ((combos (radices calls)).map some).flatMap fun combo => methods.map (combo, ·) := by
    rw [List.flatMap_map]
  rw [hpairs, filter_flatMap_pair ((nodup_combos _).map (Option.some_injective _))
    (List.mem_map_of_mem (mem_combos.mpr valid))] at hfilter
  have hmethods := congrArg (List.map Prod.snd) hfilter
  simpa [Function.comp_def] using hmethods

/-- How many tests of some of the methods select a candidate. -/
theorem countP_selected_method (finished : Finished calls src value)
    (computed : computeTestMethods src methods = some tests) {level j n : ℕ}
    (hn : (radices calls)[level]? = some n) (hj : j < n) (p : μ → Bool) :
    (tests.countP fun test => p test.method ∧
        (selected src tests.length test).bind (·[level]?) = some j) * n =
      (radices calls).prod * methods.countP p := by
  have hcount := congrArg (List.countP fun entry =>
    decide (p entry.2 = true ∧ entry.1.bind (·[level]?) = some j))
    (selected_tests finished computed)
  rw [List.countP_map, List.countP_flatMap] at hcount
  have hcombo (combo : List ℕ) : (methods.map (some combo, ·)).countP
      (fun entry => decide (p entry.2 = true ∧ entry.1.bind (·[level]?) = some j)) =
      if decide (combo[level]? = some j) = true then methods.countP p else 0 := by
    rw [List.countP_map]
    by_cases hlevel : combo[level]? = some j <;> simp [hlevel, Function.comp_def]
  have hsum := sum_map_ite_countP (combos (radices calls))
    (fun combo => decide (combo[level]? = some j)) (methods.countP p)
  have hmap : (combos (radices calls)).map (List.countP (fun entry =>
      decide (p entry.2 = true ∧ entry.1.bind (·[level]?) = some j)) ∘
        fun combo => methods.map (some combo, ·)) =
      (combos (radices calls)).map fun combo =>
        if decide (combo[level]? = some j) = true then methods.countP p else 0 :=
    List.map_congr_left fun combo _ => hcombo combo
  rw [hmap, hsum] at hcount
  rw [← countP_combos hn hj, Nat.mul_right_comm, ← hcount]
  rfl

/-- How many tests select a candidate. -/
theorem countP_selected (finished : Finished calls src value)
    (computed : computeTestMethods src methods = some tests) {level j n : ℕ}
    (hn : (radices calls)[level]? = some n) (hj : j < n) :
    (tests.countP fun test => (selected src tests.length test).bind (·[level]?) = some j) =
      (radices calls).prod * methods.length / n := by
  have hcount := countP_selected_method finished computed hn hj fun _ => true
  simp only [true_and, List.countP_true] at hcount
  exact (Nat.div_eq_of_eq_mul_left (Nat.zero_lt_of_lt hj) hcount.symm).symm

end Decoding

/-- A class for which the tests have been made. -/
theorem finished_of_computed (setup : evalSetup calls methods.length = some src)
    (computed : computeTestMethods src methods = some tests) :
    Finished calls src fun n => ((radices calls).prod * methods.length / n : ℕ) := by
  obtain ⟨hbound, -⟩ := tests_eq (numCombos_of_evalSetup setup) computed
  exact finished_of_evalSetup hbound setup

/-- The runner accepts a class if every call has a candidate and neither the combinations
nor the tests are too many for an `int`. -/
theorem exists_tests_iff : (∃ src tests, evalSetup calls methods.length = some src ∧
      computeTestMethods src methods = some tests) ↔
    (∀ call ∈ calls, 0 < call.candidates.length) ∧ (radices calls).prod ≤ maxValue ∧
      (radices calls).prod * methods.length ≤ maxValue := by
  constructor
  · rintro ⟨src, tests, setup, computed⟩
    obtain ⟨before, evaluated, -⟩ := evaluated_of_evalSetup setup
    obtain ⟨hbound, -⟩ := tests_eq (numCombos_of_evalSetup setup) computed
    exact ⟨fun call hcall => evaluated.positive _ (List.mem_map_of_mem hcall), evaluated.bounded,
      hbound⟩
  · rintro ⟨positive, hcombos, hbound⟩
    obtain ⟨before, hbefore⟩ := exists_evaluated positive hcombos
    have evaluated : Evaluated calls before := Evaluated.new.foldlM hbefore
    have hsetup : ∃ src, evalSetup calls methods.length = some src := by
      rw [evalSetup, hbefore, Option.bind_eq_bind, Option.bind_some,
        SharedRuleContext.finishEvalStage, evaluated.mapM_setCounters hbound]
      exact ⟨_, rfl⟩
    obtain ⟨src, hsetup⟩ := hsetup
    have hcomputed : ∃ tests, computeTestMethods src methods = some tests := by
      simp only [computeTestMethods, numCombos_of_evalSetup hsetup, Int.toNat_natCast,
        List.length_map, List.length_zipIdx, length_combinations, if_pos hbound]
      exact ⟨_, rfl⟩
    obtain ⟨tests, hcomputed⟩ := hcomputed
    exact ⟨src, tests, hsetup, hcomputed⟩

/-- For every class and list of methods that the runner accepts: the tests are numbered
from 0, each `chooseFrom` call of a test finds the candidate that the name of the test's
combination mentions, every combination is used once by each method, and the teardown
counter of a candidate is the number of tests that select it. -/
theorem class_parameters_decoded (setup : evalSetup calls methods.length = some src)
    (computed : computeTestMethods src methods = some tests) :
    tests.map IndexedMethod.index = List.range ((radices calls).prod * methods.length) ∧
      (∀ test ∈ tests, ∃ chosen, assign src tests.length test.index = some chosen ∧
        src.describe (test.index / methods.length) = some (nameOf calls (chosen.map Prod.snd))) ∧
      (∀ combo, List.Forall₂ (· < ·) combo (radices calls) →
        (tests.filter fun test => selected src tests.length test = some combo).map
          IndexedMethod.method = methods) ∧
      ∀ (level j : ℕ) (call : ChooseFrom α), calls[level]? = some call →
        j < call.candidates.length →
        ((src.getCountersAtLevel level).bind fun counters =>
          counters[call.candidates.length + j]?) =
          some ((tests.countP fun test =>
            (selected src tests.length test).bind (·[level]?) = some j : ℕ) : ℤ) := by
  have finished := finished_of_computed setup computed
  obtain ⟨hbound, -, hindex, hindices⟩ := tests_eq finished.numCombos computed
  have hlength := length_tests finished.numCombos computed
  refine ⟨hindex, fun test htest => ?_, fun combo hcombo => ?_, fun level j call hcall hj => ?_⟩
  · obtain ⟨-, hlt⟩ := hindices test htest
    obtain ⟨chosen, hchosen, -, hname⟩ := finished.assign_eq hbound hlt
    exact ⟨chosen, by rw [hlength, hchosen], hname⟩
  · exact map_filter_selected finished computed hcombo
  · rw [countP_selected finished computed (getElem?_radices hcall) hj,
      finished.getCounter hcall hj]

/-- Two parameters and two methods. -/
theorem class_parameters_decoded_two :
    let calls : List (ChooseFrom ℕ) :=
      [⟨"first", [⟨1, "1"⟩, ⟨2, "2"⟩]⟩, ⟨"second", [⟨3, "a"⟩, ⟨4, "b"⟩, ⟨5, "c"⟩]⟩]
    ∃ src tests, evalSetup calls 2 = some src ∧
      computeTestMethods src ["testname", "other"] = some tests ∧
      tests.map IndexedMethod.index = List.range 12 ∧
      ∀ test ∈ tests, ∃ chosen, assign src tests.length test.index = some chosen ∧
        src.describe (test.index / 2) = some (nameOf calls (chosen.map Prod.snd)) := by
  intro calls
  obtain ⟨src, hsetup⟩ := Option.isSome_iff_exists.mp
    (show (evalSetup calls 2).isSome = true by decide +kernel)
  obtain ⟨tests, htests⟩ := Option.isSome_iff_exists.mp
    (show ((evalSetup calls 2).bind fun src =>
      computeTestMethods src ["testname", "other"]).isSome = true by decide +kernel)
  rw [hsetup, Option.bind_some] at htests
  have hsetup' : evalSetup calls ["testname", "other"].length = some src := hsetup
  obtain ⟨hindex, hassign, -⟩ := class_parameters_decoded hsetup' htests
  exact ⟨src, tests, hsetup, htests, hindex, hassign⟩

end Explore.VTestRunner
