import Explore.Lib.MixedRadix
import Explore.VTestRunner.MethodParamContext
import Mathlib.Data.List.Induction

/-!
# Method parameters are expanded and resolved by the argument order

The candidates are recorded by the order in which fields are initialised, the tests of a
method list them by the order of its arguments, and an instance looks its choices up
field by field. The tests of a method are the cross product of its arguments'
candidates, and what an instance finds, what a test is passed and what its description
says are the candidates of its combination.
-/

namespace Explore.VTestRunner

open MixedRadix LinkedMap

variable {α : Type} {calls : List (ChooseFrom α)} {mpc : MethodParamContext α}

/-- The field that a name stands for. Of fields with one name the one that is initialised
last belongs to the most derived class. -/
def fieldNamed (calls : List (ChooseFrom α)) (name : String) : Option (ChooseFrom α) :=
  calls.reverse.find? fun call => call.fieldName = name

/-- The number of candidates of a field. -/
def numCandidates (calls : List (ChooseFrom α)) (name : String) : ℕ :=
  ((fieldNamed calls name).map fun call => call.candidates.length).getD 0

/-- The candidate that an argument has in a combination. -/
def candidateOf (calls : List (ChooseFrom α)) (choice : String × ℤ) : Option (Candidate α) := do
  guard (0 ≤ choice.2)
  let call ← fieldNamed calls choice.1
  call.candidates[choice.2.toNat]?

/-- The indices of the candidates of a test, in the order of the arguments. -/
def MethodWithParameters.combination (test : MethodWithParameters) : List ℤ :=
  test.paramChoices.map Prod.snd

section Setup

/-- The context after the fields of the class have been initialised once. -/
structure Declares (calls : List (ChooseFrom α)) (mpc : MethodParamContext α) : Prop where
  paramNames : mpc.paramNames.length = mpc.candidates.length
  paramToLevel : ∀ name level, mpc.paramToLevel.lookup name = some level →
    level < mpc.candidates.length
  choicesOf : ∀ name, mpc.choicesOf name = (fieldNamed calls name).map ChooseFrom.candidates
  resolution : mpc.resolution = []
  descriptions : mpc.descriptions = []

theorem Declares.new : Declares ([] : List (ChooseFrom α)) .new where
  paramNames := rfl
  paramToLevel := by simp [MethodParamContext.new]
  choicesOf := fun _ => rfl
  resolution := rfl
  descriptions := rfl

theorem fieldNamed_append (calls : List (ChooseFrom α)) (call : ChooseFrom α) (name : String) :
    fieldNamed (calls ++ [call]) name =
      if call.fieldName = name then some call else fieldNamed calls name := by
  rw [fieldNamed, List.reverse_append, List.reverse_singleton, List.singleton_append,
    List.find?_cons]
  by_cases h : call.fieldName = name
  · simp [h]
  · simp [h, fieldNamed]

theorem exists_fieldNamed {name : String} (h : name ∈ calls.map ChooseFrom.fieldName) :
    ∃ call ∈ calls, fieldNamed calls name = some call := by
  obtain ⟨call, hcall, hname⟩ := List.mem_map.mp h
  have hsome : (fieldNamed calls name).isSome := by
    refine List.find?_isSome.mpr ⟨call, List.mem_reverse.mpr hcall, ?_⟩
    simpa using hname
  obtain ⟨found, hfound⟩ := Option.isSome_iff_exists.mp hsome
  exact ⟨found, List.mem_reverse.mp (List.mem_of_find?_eq_some hfound), hfound⟩

/-- A field that is initialised hides the fields of its name. -/
theorem Declares.addChoices (declares : Declares calls mpc) (call : ChooseFrom α) :
    Declares (calls ++ [call]) (mpc.addChoices call.fieldName call.candidates) := by
  have hlookup (name : String) := lookup_put mpc.paramToLevel call.fieldName name
    mpc.paramNames.length
  refine ⟨?_, ?_, ?_, declares.resolution, declares.descriptions⟩
  · simp [MethodParamContext.addChoices, declares.paramNames]
  · intro name level h
    simp only [MethodParamContext.addChoices, hlookup] at h
    simp only [MethodParamContext.addChoices, List.length_append, List.length_singleton]
    split at h
    · obtain rfl := Option.some.inj h
      rw [declares.paramNames]
      exact Nat.lt_succ_self _
    · exact Nat.lt_succ_of_lt (declares.paramToLevel name level h)
  · intro name
    rw [fieldNamed_append]
    simp only [MethodParamContext.choicesOf, MethodParamContext.addChoices, hlookup]
    by_cases h : name = call.fieldName
    · rw [if_pos h, if_pos h.symm, declares.paramNames]
      simp
    · rw [if_neg h, if_neg (Ne.symm h), ← declares.choicesOf name]
      cases hlevel : mpc.paramToLevel.lookup name with
      | none => simp [MethodParamContext.choicesOf, hlevel]
      | some level =>
          have hlt := declares.paramToLevel name level hlevel
          simp [MethodParamContext.choicesOf, hlevel, List.getElem?_append_left hlt]

/-- The `chooseFrom` calls of the first instance. -/
theorem Declares.initFields {before rest : List (ChooseFrom α)} (declares : Declares before mpc)
    (positive : ∀ call ∈ rest, 0 < call.candidates.length) (test : Instance α) :
    ∃ mpc' test', VTestRunner.initFields ((before ++ rest).map ChooseFrom.fieldName) ⟨false, -1⟩
      before.length rest mpc test = some (mpc', test') ∧ Declares (before ++ rest) mpc' := by
  induction rest generalizing before mpc test with
  | nil => exact ⟨mpc, test, rfl, by rwa [List.append_nil]⟩
  | cons call rest ih =>
      have hname : ((before ++ call :: rest).map ChooseFrom.fieldName)[before.length]? =
          some call.fieldName := by
        simp
      have hpos := positive call List.mem_cons_self
      have hchoose : MethodParam.chooseFrom ((before ++ call :: rest).map ChooseFrom.fieldName)
          ⟨false, -1⟩ before.length mpc call.candidates =
          some (mpc.addChoices call.fieldName call.candidates, call.candidates.head?) := by
        rw [MethodParam.chooseFrom, hname]
        simp [guard, hpos]
      obtain ⟨mpc', test', hrun, hdeclares⟩ := ih (declares.addChoices call)
        (fun c hc => positive c (List.mem_cons_of_mem call hc))
        (put test call.fieldName call.candidates.head?)
      rw [List.append_assoc, List.singleton_append, List.length_append] at hrun
      rw [List.append_assoc] at hdeclares
      refine ⟨mpc', test', ?_, hdeclares⟩
      rw [VTestRunner.initFields, hchoose]
      exact hrun

theorem numChoices_eq (choicesOf : mpc.choicesOf = fun name =>
    (fieldNamed calls name).map ChooseFrom.candidates) {name : String}
    (h : name ∈ calls.map ChooseFrom.fieldName) :
    mpc.numChoices name = some (numCandidates calls name) := by
  obtain ⟨call, -, hcall⟩ := exists_fieldNamed h
  rw [MethodParamContext.numChoices, choicesOf, numCandidates]
  simp [hcall]

end Setup

section Parsing

open MethodArgParser

/-- The arguments of a method are distinct names of fields. -/
def TakesFields (calls : List (ChooseFrom α)) (method : ParamMethod) : Prop :=
  extractArguments method = some method.paramNames ∧ method.paramNames.Nodup ∧
    ∀ name ∈ method.paramNames, name ∈ calls.map ChooseFrom.fieldName

instance (calls : List (ChooseFrom α)) : DecidablePred (TakesFields calls) := fun _ =>
  inferInstanceAs (Decidable (_ ∧ _ ∧ _))

/-- The method is the first public one of its name, and the others only override it. -/
def Unambiguous (declared : List ParamMethod) (method : ParamMethod) : Prop :=
  declared.find? (fun other => other.name = method.name) = some method ∧
    ∀ other ∈ declared, other.name = method.name → other.descriptor = method.descriptor

instance (declared : List ParamMethod) : DecidablePred (Unambiguous declared) := fun _ =>
  inferInstanceAs (Decidable (_ ∧ _))

/-- The parser has the first method of each name. -/
def ParsedFrom (methods : List ParamMethod) (parsed : Parsed) : Prop :=
  ∀ name,
    parsed.result.lookup name =
        (methods.find? fun method => method.name = name).bind extractArguments ∧
      parsed.resolvedSignatures.lookup name =
        (methods.find? fun method => method.name = name).map ParamMethod.descriptor

theorem ParsedFrom.processMethod {before : List ParamMethod} {parsed : Parsed}
    {method : ParamMethod} (h : ParsedFrom before parsed)
    (descriptors : ∀ other ∈ before, other.name = method.name →
      other.descriptor = method.descriptor)
    (extracted : ∀ name m, (before ++ [method]).find? (fun m => m.name = name) = some m →
      (extractArguments m).isSome) :
    ∃ parsed', MethodArgParser.processMethod parsed method = some parsed' ∧
      ParsedFrom (before ++ [method]) parsed' := by
  obtain ⟨hresult, hsignature⟩ := h method.name
  have hfind (name : String) : (before ++ [method]).find? (fun m => m.name = name) =
      (before.find? fun m => m.name = name).or
        (if method.name = name then some method else none) := by
    rw [List.find?_append, List.find?_cons]
    by_cases hname : method.name = name <;> simp [hname]
  cases hfirst : before.find? fun m => m.name = method.name with
  | some first =>
      -- The method overrides, or is overridden by, one that has been seen.
      have hname : first.name = method.name := by simpa using List.find?_some hfirst
      have hsome := extracted method.name first (by rw [hfind, hfirst]; rfl)
      obtain ⟨names, hnames⟩ := Option.isSome_iff_exists.mp hsome
      rw [hfirst, Option.bind_some, hnames] at hresult
      rw [hfirst, Option.map_some,
        descriptors first (List.mem_of_find?_eq_some hfirst) hname] at hsignature
      refine ⟨parsed, ?_, fun name => ?_⟩
      · rw [MethodArgParser.processMethod, if_pos (mem_keys_iff.mpr ⟨names, hresult⟩), hsignature]
        simp [guard]
      · have hsame : (before ++ [method]).find? (fun m => m.name = name) =
            before.find? fun m => m.name = name := by
          rw [hfind]
          by_cases heq : method.name = name
          · rw [← heq, hfirst]
            rfl
          · rw [if_neg heq, Option.or_none]
        rw [hsame]
        exact h name
  | none =>
      obtain ⟨names, hnames⟩ := Option.isSome_iff_exists.mp
        (extracted method.name method (by rw [hfind, hfirst, if_pos rfl]; rfl))
      rw [hfirst, Option.bind_none] at hresult
      have hnot : method.name ∉ keys parsed.result := by simp [mem_keys_iff, hresult]
      refine ⟨_, by rw [MethodArgParser.processMethod, if_neg hnot, hnames]; rfl, fun name => ?_⟩
      rw [hfind, lookup_put, lookup_put]
      by_cases heq : method.name = name
      · rw [if_pos heq.symm, if_pos heq.symm, if_pos heq, ← heq, hfirst, Option.none_or,
          Option.bind_some, hnames]
        exact ⟨rfl, rfl⟩
      · rw [if_neg (Ne.symm heq), if_neg (Ne.symm heq), if_neg heq, Option.or_none]
        exact h name

theorem exists_parsed {methods : List ParamMethod}
    (descriptors : ∀ method ∈ methods, ∀ other ∈ methods, other.name = method.name →
      other.descriptor = method.descriptor)
    (extracted : ∀ name m, methods.find? (fun m => m.name = name) = some m →
      (extractArguments m).isSome) :
    ∃ parsed, methods.foldlM MethodArgParser.processMethod ⟨[], []⟩ = some parsed ∧
      ParsedFrom methods parsed := by
  induction methods using List.reverseRecOn with
  | nil => exact ⟨_, rfl, fun _ => ⟨rfl, rfl⟩⟩
  | append_singleton before method ih =>
      obtain ⟨parsed, hrun, hparsed⟩ := ih
        (fun m hm other hother => descriptors m (List.mem_append_left _ hm) other
          (List.mem_append_left _ hother))
        (fun name m hm => extracted name m (by rw [List.find?_append, hm]; rfl))
      obtain ⟨parsed', hstep, hparsed'⟩ := hparsed.processMethod
        (fun other hother => descriptors method (List.mem_append_right _ List.mem_cons_self) other
          (List.mem_append_left _ hother))
        extracted
      refine ⟨parsed', ?_, hparsed'⟩
      rw [List.foldlM_append, hrun, Option.bind_eq_bind, Option.bind_some, List.foldlM_cons, hstep]
      rfl

/-- The parser gives each method its own arguments. -/
theorem parsePublicMethodArguments_eq {declared methods : List ParamMethod}
    (extracted : ∀ method ∈ methods, extractArguments method = some method.paramNames)
    (unambiguous : ∀ method ∈ methods, Unambiguous declared method) :
    ∃ byName, parsePublicMethodArguments declared (methods.map ParamMethod.name) = some byName ∧
      ∀ method ∈ methods, byName.lookup method.name = some method.paramNames := by
  have hfind {method : ParamMethod} (hmethod : method ∈ methods) :
      (declared.filter (·.name ∈ methods.map ParamMethod.name)).find?
        (fun m => m.name = method.name) = some method := by
    rw [List.find?_filter, ← (unambiguous method hmethod).1]
    congr 1
    funext m
    by_cases hname : m.name = method.name
    · simpa [hname] using ⟨method, hmethod, rfl⟩
    · simp [hname]
  have hmem {m : ParamMethod}
      (hm : m ∈ declared.filter (·.name ∈ methods.map ParamMethod.name)) :
      m ∈ declared ∧ ∃ method ∈ methods, method.name = m.name := by
    simpa using hm
  have hdescriptors : ∀ m ∈ declared.filter (·.name ∈ methods.map ParamMethod.name),
      ∀ other ∈ declared.filter (·.name ∈ methods.map ParamMethod.name),
        other.name = m.name → other.descriptor = m.descriptor := by
    intro m hm other hother hname
    obtain ⟨hdeclared, method, hmethod, hsame⟩ := hmem hm
    have hdescriptor := (unambiguous method hmethod).2
    rw [hdescriptor m hdeclared hsame.symm,
      hdescriptor other (hmem hother).1 (hname.trans hsame.symm)]
  have hextracted : ∀ name m, (declared.filter (·.name ∈ methods.map ParamMethod.name)).find?
      (fun m => m.name = name) = some m → (extractArguments m).isSome := by
    intro name m hm
    obtain ⟨-, method, hmethod, hsame⟩ := hmem (List.mem_of_find?_eq_some hm)
    have hname : m.name = name := by simpa using List.find?_some hm
    rw [← hname, ← hsame, hfind hmethod] at hm
    rw [← Option.some.inj hm, extracted method hmethod]
    rfl
  obtain ⟨parsed, hrun, hparsed⟩ := exists_parsed hdescriptors hextracted
  have hlookup : ∀ method ∈ methods, parsed.result.lookup method.name = some method.paramNames := by
    intro method hmethod
    rw [(hparsed method.name).1, hfind hmethod, Option.bind_some, extracted method hmethod]
  refine ⟨parsed.result, ?_, hlookup⟩
  have htargets : ∀ name ∈ methods.map ParamMethod.name, name ∈ keys parsed.result := by
    intro name hname
    obtain ⟨method, hmethod, rfl⟩ := List.mem_map.mp hname
    exact mem_keys_iff.mpr ⟨_, hlookup method hmethod⟩
  rw [parsePublicMethodArguments, hrun, Option.bind_eq_bind, Option.bind_some, guard,
    if_pos htargets]
  rfl

end Parsing

section Expansion

variable {method : ParamMethod}

/-- The tests of a method from an index on that have the given choices. -/
def testsOf (method : ParamMethod) (midx mcidx : ℕ) (rows : List (List (String × ℤ))) :
    List MethodWithParameters :=
  rows.mapIdx fun i row => ⟨method, midx + i, mcidx + i, row⟩

/-- The choices for the given arguments, in lexicographic order. -/
def choiceRows (calls : List (ChooseFrom α)) (names : List String) : List (List (String × ℤ)) :=
  cross (names.map fun name =>
    (List.range (numCandidates calls name)).map fun i => (name, Int.ofNat i))

/-- The tests of each method, with the indices of a class. -/
def testGroups (calls : List (ChooseFrom α)) : ℕ → List ParamMethod →
    List (List MethodWithParameters)
  | _, [] => []
  | midx, method :: methods =>
      testsOf method midx 0 (choiceRows calls method.paramNames) ::
        testGroups calls (midx + (choiceRows calls method.paramNames).length) methods

theorem testsOf_append (method : ParamMethod) (midx mcidx : ℕ)
    (rows more : List (List (String × ℤ))) :
    testsOf method midx mcidx (rows ++ more) = testsOf method midx mcidx rows ++
      testsOf method (midx + rows.length) (mcidx + rows.length) more := by
  rw [testsOf, List.mapIdx_append]
  congr 1
  refine List.mapIdx_eq_mapIdx_iff.mpr fun i _ => ?_
  simp only [MethodWithParameters.mk.injEq, true_and, and_true]
  omega

/-- The state in which the tests with the given choices have been added. -/
def Exploding.list (st : Exploding) (method : ParamMethod) (rows : List (List (String × ℤ)))
    (choices : List (String × ℤ)) : Exploding where
  midxCounter := st.midxCounter + rows.length
  choices := choices
  exploded := st.exploded ++ testsOf method st.midxCounter st.exploded.length rows

@[simp] theorem length_testsOf (method : ParamMethod) (midx mcidx : ℕ)
    (rows : List (List (String × ℤ))) : (testsOf method midx mcidx rows).length = rows.length :=
  List.length_mapIdx

theorem list_list (st : Exploding) (rows more : List (List (String × ℤ)))
    (choices last : List (String × ℤ)) :
    (st.list method rows choices).list method more last = st.list method (rows ++ more) last := by
  simp only [Exploding.list, List.length_append, length_testsOf, testsOf_append,
    List.append_assoc, Nat.add_assoc]

/-- The recursion from a level on lists the rows that continue the choices made so far, and
leaves these choices as they are. -/
def Explodes (calls : List (ChooseFrom α)) (mpc : MethodParamContext α) (method : ParamMethod)
    (names : List String) : Prop :=
  ∀ (st : Exploding) (done later : List (String × ℤ)), st.choices = done ++ later →
    keys later = names → (keys done ++ names).Nodup →
    ∃ later', keys later' = names ∧ explodeMethods mpc method names st =
      some (st.list method ((choiceRows calls names).map (done ++ ·)) (done ++ later'))

/-- The loop over candidates of an argument. -/
theorem Explodes.loop {name : String} {names : List String}
    (explodes : Explodes calls mpc method names) (is : List ℕ) (st : Exploding)
    {done later : List (String × ℤ)} {old : ℤ} (choices : st.choices = done ++ (name, old) :: later)
    (hlater : keys later = names) (nodup : (keys done ++ name :: names).Nodup) :
    ∃ old' later', keys later' = names ∧
      is.foldlM (fun st i => explodeMethods mpc method names
        { st with choices := put st.choices name (i : ℕ) }) st =
      some (st.list method ((is.flatMap fun i => (choiceRows calls names).map
        ((name, Int.ofNat i) :: ·)).map (done ++ ·)) (done ++ (name, old') :: later')) := by
  induction is generalizing st old later with
  | nil => exact ⟨old, later, hlater, by simp [Exploding.list, testsOf, ← choices]⟩
  | cons i is ih =>
      have hdone : name ∉ keys done := fun hmem =>
        (List.nodup_append.mp nodup).2.2 _ hmem _ List.mem_cons_self rfl
      have hput : put st.choices name (i : ℤ) = (done ++ [(name, Int.ofNat i)]) ++ later := by
        rw [choices, put_append_cons hdone, List.append_assoc]
        rfl
      obtain ⟨later₁, hkeys₁, hrec⟩ := explodes { st with choices := put st.choices name i }
        (done ++ [(name, Int.ofNat i)]) later hput hlater (by simpa using nodup)
      obtain ⟨old', later', hkeys', hrest⟩ := ih (st.list method
        ((choiceRows calls names).map ((done ++ [(name, Int.ofNat i)]) ++ ·))
        ((done ++ [(name, Int.ofNat i)]) ++ later₁)) (List.append_assoc _ _ _) hkeys₁
      refine ⟨old', later', hkeys', ?_⟩
      rw [List.foldlM_cons, hrec]
      refine hrest.trans ?_
      rw [list_list, List.flatMap_cons, List.map_append, List.map_map]
      simp only [List.append_assoc, List.singleton_append, Function.comp_def]

theorem explodes (method : ParamMethod) (choicesOf : mpc.choicesOf = fun name =>
    (fieldNamed calls name).map ChooseFrom.candidates) (names : List String)
    (named : ∀ name ∈ names, name ∈ calls.map ChooseFrom.fieldName) :
    Explodes calls mpc method names := by
  induction names with
  | nil =>
      intro st done later choices hlater _
      obtain rfl : later = [] := by simpa [keys] using hlater
      refine ⟨[], rfl, ?_⟩
      rw [explodeMethods, choices]
      simp [choiceRows, cross, testsOf, Exploding.list]
  | cons name names ih =>
      intro st done later choices hlater nodup
      obtain _ | ⟨⟨key, old⟩, later⟩ := later
      · simp at hlater
      obtain ⟨rfl, htail⟩ : key = name ∧ keys later = names := by simpa using hlater
      have hnum := numChoices_eq choicesOf (named key List.mem_cons_self)
      have hrest := ih fun n hn => named n (List.mem_cons_of_mem key hn)
      obtain ⟨old', later', hkeys', hrun⟩ := hrest.loop (List.range (numCandidates calls key))
        st choices htail nodup
      refine ⟨(key, old') :: later', by simp [hkeys'], ?_⟩
      rw [explodeMethods, hnum]
      refine hrun.trans ?_
      rw [choiceRows, choiceRows, List.map_cons, cross, List.flatMap_map]

theorem explodeFrom_eq (choicesOf : mpc.choicesOf = fun name =>
    (fieldNamed calls name).map ChooseFrom.candidates) {byName : List (String × List String)}
    {methods : List ParamMethod} (named : ∀ method ∈ methods, TakesFields calls method)
    (parsed : ∀ method ∈ methods, byName.lookup method.name = some method.paramNames) (midx : ℕ) :
    explodeFrom mpc byName midx methods = some (testGroups calls midx methods).flatten := by
  induction methods generalizing midx with
  | nil => rfl
  | cons method methods ih =>
      obtain ⟨-, hnodup, hnamed⟩ := named method List.mem_cons_self
      have hkeys : keys (method.paramNames.map fun p => (p, (-1 : ℤ))) = method.paramNames := by
        simp [keys, Function.comp_def]
      have hchoices : method.paramNames.foldl (fun choices p => put choices p (-1)) [] =
          method.paramNames.map fun p => (p, (-1 : ℤ)) := by
        have h := foldl_put [] (method.paramNames.map fun p => (p, (-1 : ℤ)))
          (by rwa [List.nil_append, hkeys])
        rwa [List.foldl_map] at h
      obtain ⟨later', -, hrun⟩ := explodes method choicesOf method.paramNames hnamed
        ⟨midx, method.paramNames.map fun p => (p, (-1 : ℤ)), []⟩ [] _ rfl hkeys hnodup
      have hrest := ih (fun m hm => named m (List.mem_cons_of_mem method hm))
        (fun m hm => parsed m (List.mem_cons_of_mem method hm))
        (midx + (choiceRows calls method.paramNames).length)
      rw [explodeFrom, parsed method List.mem_cons_self, Option.bind_eq_bind, Option.bind_some,
        hchoices]
      simp only [hrun, Option.bind_eq_bind, Option.bind_some, Exploding.list, List.nil_append,
        List.map_id_fun', id_eq, List.length_nil, hrest]
      rfl

/-- The tests of a class. -/
theorem methodParameterMethods_eq (choicesOf : mpc.choicesOf = fun name =>
    (fieldNamed calls name).map ChooseFrom.candidates) {declared methods : List ParamMethod}
    (named : ∀ method ∈ methods, TakesFields calls method)
    (unambiguous : ∀ method ∈ methods, Unambiguous declared method) :
    methodParameterMethods mpc declared methods = some (testGroups calls 0 methods).flatten := by
  obtain ⟨byName, hbyName, hparsed⟩ :=
    parsePublicMethodArguments_eq (fun method hmethod => (named method hmethod).1) unambiguous
  rw [methodParameterMethods, hbyName]
  exact explodeFrom_eq choicesOf named hparsed 0

theorem keys_of_mem_choiceRows {names : List String} {row : List (String × ℤ)}
    (h : row ∈ choiceRows calls names) : keys row = names := by
  have hrow := mem_cross.mp h
  rw [List.forall₂_map_right_iff] at hrow
  refine List.forall₂_eq_eq_eq.subst (motive := fun r => r (keys row) names) ?_
  refine List.forall₂_map_left_iff.mpr (hrow.imp fun choice name hmem => ?_)
  obtain ⟨i, -, rfl⟩ := List.mem_map.mp hmem
  rfl

/-- Without the names the choices are digits. -/
theorem map_snd_choiceRows (calls : List (ChooseFrom α)) (names : List String) :
    (choiceRows calls names).map (List.map Prod.snd) =
      cross (names.map fun name => (List.range (numCandidates calls name)).map Int.ofNat) := by
  rw [choiceRows, ← cross_map, List.map_map]
  congr 1
  refine List.map_congr_left fun name _ => ?_
  exact List.map_map

theorem map_snd_choiceRows_eq_combos (calls : List (ChooseFrom α)) (names : List String) :
    (choiceRows calls names).map (List.map Prod.snd) =
      (combos (names.map (numCandidates calls))).map (List.map Int.ofNat) := by
  rw [map_snd_choiceRows, combos, ← cross_map, List.map_map, List.map_map]
  rfl

theorem map_testsOf {γ : Type} (f : MethodWithParameters → γ) (g : List (String × ℤ) → γ)
    (hfg : ∀ midx mcidx row, f ⟨method, midx, mcidx, row⟩ = g row) (midx mcidx : ℕ)
    (rows : List (List (String × ℤ))) : (testsOf method midx mcidx rows).map f = rows.map g := by
  refine List.ext_getElem (by simp) fun i hi _ => ?_
  simp [testsOf, hfg]

theorem map_midx_testsOf (midx mcidx : ℕ) (rows : List (List (String × ℤ))) :
    (testsOf method midx mcidx rows).map MethodWithParameters.midx =
      List.range' midx rows.length := by
  refine List.ext_getElem (by simp) fun i hi _ => ?_
  simp [testsOf]

theorem map_mcidx_testsOf (midx : ℕ) (rows : List (List (String × ℤ))) :
    (testsOf method midx 0 rows).map MethodWithParameters.mcidx = List.range rows.length := by
  refine List.ext_getElem (by simp) fun i hi _ => ?_
  simp [testsOf]

end Expansion

section Resolution

variable {entries : List (String × ℤ)} {test : MethodWithParameters}

/-- The candidates of the given choices, with the names of the arguments. -/
def resolved (calls : List (ChooseFrom α)) (entries : List (String × ℤ)) :
    List (String × Candidate α) :=
  entries.filterMap fun choice => (candidateOf calls choice).map (choice.1, ·)

theorem resolved_cons {choice : String × ℤ} {c : Candidate α}
    (h : candidateOf calls choice = some c) (entries : List (String × ℤ)) :
    resolved calls (choice :: entries) = (choice.1, c) :: resolved calls entries := by
  rw [resolved, List.filterMap_cons, h]
  rfl

theorem keys_resolved (found : ∀ choice ∈ entries, ∃ c, candidateOf calls choice = some c) :
    keys (resolved calls entries) = keys entries := by
  induction entries with
  | nil => rfl
  | cons choice entries ih =>
      obtain ⟨c, hc⟩ := found choice List.mem_cons_self
      rw [resolved_cons hc, keys_cons, keys_cons,
        ih fun e he => found e (List.mem_cons_of_mem choice he)]

theorem forall₂_resolved (found : ∀ choice ∈ entries, ∃ c, candidateOf calls choice = some c) :
    List.Forall₂ (fun choice c => candidateOf calls choice = some c) entries
      ((resolved calls entries).map Prod.snd) := by
  induction entries with
  | nil => exact .nil
  | cons choice entries ih =>
      obtain ⟨c, hc⟩ := found choice List.mem_cons_self
      rw [resolved_cons hc]
      exact .cons hc (ih fun e he => found e (List.mem_cons_of_mem choice he))

theorem candidateOf_eq_some {choice : String × ℤ} {c : Candidate α} :
    candidateOf calls choice = some c ↔ 0 ≤ choice.2 ∧
      ∃ call, fieldNamed calls choice.1 = some call ∧
      call.candidates[choice.2.toNat]? = some c := by
  by_cases hpos : 0 ≤ choice.2
  · simp [candidateOf, guard, hpos, Option.bind_eq_some_iff]
  · simp [candidateOf, guard, hpos]

/-- The combinations are those of candidates that exist. -/
theorem found_of_mem_choiceRows {names : List String} {row : List (String × ℤ)}
    (named : ∀ name ∈ names, name ∈ calls.map ChooseFrom.fieldName)
    (h : row ∈ choiceRows calls names) :
    ∀ choice ∈ row, ∃ c, candidateOf calls choice = some c := by
  have hrow := mem_cross.mp h
  rw [List.forall₂_map_right_iff] at hrow
  clear h
  induction hrow with
  | nil => exact fun _ hmem => absurd hmem List.not_mem_nil
  | @cons choice name row names hmem _ ih =>
      refine List.forall_mem_cons.mpr ⟨?_, ih fun n hn => named n (List.mem_cons_of_mem name hn)⟩
      obtain ⟨i, hi, rfl⟩ := List.mem_map.mp hmem
      obtain ⟨call, -, hcall⟩ := exists_fieldNamed (named name List.mem_cons_self)
      have hlt : i < call.candidates.length := by
        simpa [numCandidates, hcall] using List.mem_range.mp hi
      exact ⟨call.candidates[i], by simp [candidateOf, hcall, guard, hlt]⟩

/-- The candidates are recorded under the argument names, in their order. -/
theorem setChoices_eq (choicesOf : mpc.choicesOf = fun name =>
    (fieldNamed calls name).map ChooseFrom.candidates) (midx : ℕ)
    (nodup : (keys entries).Nodup)
    (found : ∀ choice ∈ entries, ∃ c, candidateOf calls choice = some c) :
    mpc.setChoices midx entries =
      some { mpc with resolution := put mpc.resolution midx (resolved calls entries) } := by
  have hloop : ∀ (rest : List (String × ℤ)) (choices : List (String × Candidate α)),
      rest ⊆ entries → (keys choices ++ keys rest).Nodup →
      (keys rest).foldlM (fun choices param => do
        let cidx ← entries.lookup param
        guard (0 ≤ cidx)
        let chosen ← (← mpc.choicesOf param)[cidx.toNat]?
        return put choices param chosen) choices = some (choices ++ resolved calls rest) := by
    intro rest
    induction rest with
    | nil => exact fun choices _ _ => by simp [resolved]
    | cons choice rest ih =>
        intro choices hsub hnodup
        obtain ⟨c, hc⟩ := found choice (hsub List.mem_cons_self)
        have hlookup := lookup_of_mem nodup (hsub List.mem_cons_self)
        have hnew : choice.1 ∉ keys choices := fun hmem =>
          (List.nodup_append.mp hnodup).2.2 _ hmem _ List.mem_cons_self rfl
        have hstep := ih (choices ++ [(choice.1, c)])
          (fun e he => hsub (List.mem_cons_of_mem choice he)) (by simpa using hnodup)
        obtain ⟨hpos, call, hcall, hget⟩ := candidateOf_eq_some.mp hc
        have hcandidates : mpc.choicesOf choice.1 = some call.candidates := by
          rw [choicesOf]
          exact congrArg (Option.map ChooseFrom.candidates) hcall
        rw [keys_cons, List.foldlM_cons, hlookup, hcandidates, resolved_cons hc]
        simp only [Option.bind_eq_bind, Option.bind_some, guard, if_pos hpos, Option.pure_def, hget,
          put_of_notMem hnew]
        rw [List.append_assoc, List.singleton_append] at hstep
        exact hstep
  rw [MethodParamContext.setChoices,
    hloop entries [] (List.Subset.refl entries) (by simpa using nodup)]
  rfl

/-- The entries of `resolution` for the given tests. -/
def resolutions (calls : List (ChooseFrom α)) (tests : List MethodWithParameters) :
    List (ℕ × List (String × Candidate α)) :=
  tests.map fun test => (test.midx, resolved calls test.paramChoices)

@[simp] theorem keys_resolutions (tests : List MethodWithParameters) :
    keys (resolutions calls tests) = tests.map MethodWithParameters.midx := List.map_map

theorem setChoices_all (choicesOf : mpc.choicesOf = fun name =>
    (fieldNamed calls name).map ChooseFrom.candidates) {tests : List MethodWithParameters}
    (nodup : ∀ test ∈ tests, (keys test.paramChoices).Nodup)
    (found : ∀ test ∈ tests, ∀ choice ∈ test.paramChoices, ∃ c, candidateOf calls choice = some c)
    (unique : (keys mpc.resolution ++ tests.map MethodWithParameters.midx).Nodup) :
    tests.foldlM (fun mpc mpm => mpc.setChoices mpm.midx mpm.paramChoices) mpc =
      some { mpc with resolution := mpc.resolution ++ resolutions calls tests } := by
  induction tests generalizing mpc with
  | nil => simp [resolutions]
  | cons test tests ih =>
      have hnew : test.midx ∉ keys mpc.resolution := fun hmem =>
        (List.nodup_append.mp unique).2.2 _ hmem _ List.mem_cons_self rfl
      have hset := setChoices_eq choicesOf test.midx (nodup test List.mem_cons_self)
        (found test List.mem_cons_self)
      rw [put_of_notMem hnew] at hset
      have hnext : ({ mpc with resolution := mpc.resolution ++
          [(test.midx, resolved calls test.paramChoices)] } : MethodParamContext α).choicesOf =
          fun name => (fieldNamed calls name).map ChooseFrom.candidates := choicesOf
      have hrest := ih hnext (fun t ht => nodup t (List.mem_cons_of_mem test ht))
        (fun t ht => found t (List.mem_cons_of_mem test ht)) (by simpa using unique)
      rw [List.append_assoc] at hrest
      rw [List.foldlM_cons, hset]
      exact hrest

/-- The context after the evaluation of a class with the given tests. -/
structure Resolves (calls : List (ChooseFrom α)) (tests : List MethodWithParameters)
    (mpc : MethodParamContext α) : Prop where
  resolution : mpc.resolution = resolutions calls tests
  descriptions : mpc.descriptions = (resolutions calls tests).map fun entry =>
    (entry.1, MethodParamContext.describeChoices entry.2)

theorem resolves_finishEvalStage {tests : List MethodWithParameters}
    (resolution : mpc.resolution = resolutions calls tests) (descriptions : mpc.descriptions = [])
    (nodup : (tests.map MethodWithParameters.midx).Nodup) :
    Resolves calls tests mpc.finishEvalStage := by
  refine ⟨resolution, ?_⟩
  have hkeys : keys ((resolutions calls tests).map fun entry =>
      (entry.1, MethodParamContext.describeChoices entry.2)) =
      tests.map MethodWithParameters.midx := by
    exact (List.map_map.trans rfl).trans (keys_resolutions tests)
  have hfold := foldl_put [] ((resolutions calls tests).map fun entry =>
    (entry.1, MethodParamContext.describeChoices entry.2)) (by rwa [List.nil_append, hkeys])
  rw [List.foldl_map] at hfold
  rw [MethodParamContext.finishEvalStage, resolution, descriptions]
  exact hfold

/-- A field of the instance for a test holds what the test has chosen for its name. -/
theorem chooseFrom_assigned {fieldNames : List String} {level midx : ℕ} {name : String}
    {choices : List (Candidate α)} {chosen : List (String × Candidate α)}
    (positive : 0 < choices.length) (hname : fieldNames[level]? = some name)
    (hchosen : mpc.resolution.lookup midx = some chosen) :
    MethodParam.chooseFrom fieldNames ⟨true, midx⟩ level mpc choices =
      some (mpc, chosen.lookup name) := by
  have hmem : name ∈ keys chosen ↔ ∃ c, chosen.lookup name = some c := mem_keys_iff
  rw [MethodParam.chooseFrom, hname]
  cases hlookup : chosen.lookup name with
  | none =>
      have hnot : name ∉ keys chosen := by simp [hmem, hlookup]
      simp [guard, positive, MethodParamContext.isEnabled, hchosen, hnot]
  | some c =>
      have hin : name ∈ keys chosen := hmem.mpr ⟨c, hlookup⟩
      simp [guard, positive, MethodParamContext.isEnabled, MethodParamContext.getChoice, hchosen,
        hin, hlookup]

theorem initFields_assigned {before rest : List (ChooseFrom α)} {midx : ℕ}
    {chosen : List (String × Candidate α)}
    (positive : ∀ call ∈ rest, 0 < call.candidates.length)
    (hchosen : mpc.resolution.lookup midx = some chosen) (test : Instance α) :
    initFields ((before ++ rest).map ChooseFrom.fieldName) ⟨true, midx⟩ before.length rest mpc
      test = some (mpc, rest.foldl (fun test call =>
        put test call.fieldName (chosen.lookup call.fieldName)) test) := by
  induction rest generalizing before test with
  | nil => rfl
  | cons call rest ih =>
      have hname : ((before ++ call :: rest).map ChooseFrom.fieldName)[before.length]? =
          some call.fieldName := by
        simp
      have hrest := @ih (before ++ [call]) (fun c hc => positive c (List.mem_cons_of_mem call hc))
        (put test call.fieldName (chosen.lookup call.fieldName))
      rw [List.append_assoc, List.singleton_append, List.length_append] at hrest
      rw [initFields, chooseFrom_assigned (positive call List.mem_cons_self) hname hchosen]
      exact hrest

theorem lookup_foldl_put (f : String → Option (Candidate α)) (calls : List (ChooseFrom α))
    (test : Instance α) {name : String} :
    (calls.foldl (fun test call => put test call.fieldName (f call.fieldName)) test).lookup name =
      if name ∈ calls.map ChooseFrom.fieldName then some (f name) else test.lookup name := by
  induction calls generalizing test with
  | nil => rfl
  | cons call calls ih =>
      rw [List.foldl_cons, ih, lookup_put, List.map_cons]
      by_cases hcalls : name ∈ calls.map ChooseFrom.fieldName
      · rw [if_pos hcalls, if_pos (List.mem_cons_of_mem _ hcalls)]
      · by_cases hname : name = call.fieldName
        · rw [if_neg hcalls, if_pos hname, if_pos (hname ▸ List.mem_cons_self), hname]
        · rw [if_neg hcalls, if_neg hname, if_neg (by simp [hname, hcalls])]

/-- The instance on which a test runs. -/
theorem newInstance_lookup {midx : ℕ} {chosen : List (String × Candidate α)}
    (positive : ∀ call ∈ calls, 0 < call.candidates.length)
    (hchosen : mpc.resolution.lookup midx = some chosen) :
    ∃ test, newInstance ⟨true, midx⟩ calls mpc = some (mpc, test) ∧
      ∀ name ∈ calls.map ChooseFrom.fieldName, test.lookup name = some (chosen.lookup name) := by
  refine ⟨_, @initFields_assigned _ _ [] calls _ _ positive hchosen [], ?_⟩
  intro name hname
  rw [lookup_foldl_put (chosen.lookup ·) calls, if_pos hname]

/-- The arguments are the candidates that have been chosen. -/
theorem methodInvoker_eq {instance' : Instance α} {chosen : List (String × Candidate α)}
    (hkeys : keys chosen = keys test.paramChoices) (nodup : (keys chosen).Nodup)
    (fields : ∀ name ∈ keys chosen, instance'.lookup name = some (chosen.lookup name)) :
    test.methodInvoker instance' = some (chosen.map Prod.snd) := by
  rw [MethodWithParameters.methodInvoker, ← hkeys]
  refine mapM_lookup_keys nodup fun name hname => ?_
  rw [fields name hname]
  rfl

end Resolution

/-- The tests of a method are the combinations of the candidates of its arguments, each one
once and in lexicographic order. -/
structure ExplodesTo (calls : List (ChooseFrom α)) (method : ParamMethod)
    (tests : List MethodWithParameters) : Prop where
  methods : ∀ test ∈ tests, test.method = method
  paramNames : ∀ test ∈ tests, keys test.paramChoices = method.paramNames
  complete : ∀ combination : List ℤ, combination ∈ tests.map MethodWithParameters.combination ↔
    List.Forall₂ (fun (cidx : ℤ) name => 0 ≤ cidx ∧ cidx < numCandidates calls name) combination
      method.paramNames
  lexicographic : (tests.map MethodWithParameters.combination).Pairwise (· < ·)
  mcidx : tests.map MethodWithParameters.mcidx = List.range tests.length

/-- What a test runs with: the candidates of its combination. -/
structure RunsWith (calls : List (ChooseFrom α)) (mpc : MethodParamContext α)
    (mp : MethodWithParameters) (test : Instance α) (chosen : List (Candidate α)) : Prop where
  candidates : List.Forall₂ (fun choice c => candidateOf calls choice = some c) mp.paramChoices
    chosen
  created : mp.newInstance calls mpc = some test
  invoked : mp.methodInvoker test = some chosen
  described : mpc.describe mp.midx =
    some (MethodParamContext.describeChoices ((keys mp.paramChoices).zip chosen))
  unnamed : ∀ call ∈ calls, call.fieldName ∉ keys mp.paramChoices →
    test.lookup call.fieldName = some none

section Tests

theorem explodesTo_testsOf (calls : List (ChooseFrom α)) (method : ParamMethod) (midx : ℕ) :
    ExplodesTo calls method (testsOf method midx 0 (choiceRows calls method.paramNames)) where
  methods := by
    intro test htest
    obtain ⟨i, hi, rfl⟩ := List.mem_mapIdx.mp htest
    rfl
  paramNames := by
    intro test htest
    obtain ⟨i, hi, rfl⟩ := List.mem_mapIdx.mp htest
    exact keys_of_mem_choiceRows (List.getElem_mem hi)
  complete := by
    intro combination
    rw [map_testsOf MethodWithParameters.combination (List.map Prod.snd) fun _ _ _ => rfl,
      map_snd_choiceRows, mem_cross, List.forall₂_map_right_iff]
    have hiff (cidx : ℤ) (name : String) :
        cidx ∈ (List.range (numCandidates calls name)).map Int.ofNat ↔
          0 ≤ cidx ∧ cidx < numCandidates calls name := by
      rw [List.mem_map]
      constructor
      · rintro ⟨i, hi, rfl⟩
        exact ⟨Int.natCast_nonneg i, Int.ofNat_lt.mpr (List.mem_range.mp hi)⟩
      · rintro ⟨hpos, hlt⟩
        exact ⟨cidx.toNat, List.mem_range.mpr (by omega), Int.toNat_of_nonneg hpos⟩
    simp only [hiff]
  lexicographic := by
    rw [map_testsOf MethodWithParameters.combination (List.map Prod.snd) fun _ _ _ => rfl,
      map_snd_choiceRows_eq_combos]
    refine List.pairwise_map.mpr ((pairwise_combos _).imp fun hlt => ?_)
    exact List.map_lt (fun _ _ h => Int.ofNat_lt.mpr h) hlt
  mcidx := by rw [map_mcidx_testsOf, length_testsOf]

theorem forall₂_testGroups (calls : List (ChooseFrom α)) (midx : ℕ) (methods : List ParamMethod) :
    List.Forall₂ (ExplodesTo calls) methods (testGroups calls midx methods) := by
  induction methods generalizing midx with
  | nil => exact .nil
  | cons method methods ih => exact .cons (explodesTo_testsOf calls method midx) (ih _)

/-- Indices continue from one method to the next. -/
theorem map_midx_testGroups (calls : List (ChooseFrom α)) (midx : ℕ)
    (methods : List ParamMethod) :
    (testGroups calls midx methods).flatten.map MethodWithParameters.midx =
      List.range' midx (testGroups calls midx methods).flatten.length := by
  induction methods generalizing midx with
  | nil => rfl
  | cons method methods ih =>
      rw [testGroups, List.flatten_cons, List.map_append, ih, map_midx_testsOf, List.length_append,
        length_testsOf, ← List.range'_append_1]

theorem mem_testGroups {midx : ℕ} {methods : List ParamMethod} {test : MethodWithParameters}
    (h : test ∈ (testGroups calls midx methods).flatten) :
    ∃ method ∈ methods, test.paramChoices ∈ choiceRows calls method.paramNames := by
  induction methods generalizing midx with
  | nil => simp [testGroups] at h
  | cons method methods ih =>
      rw [testGroups, List.flatten_cons] at h
      rcases List.mem_append.mp h with h | h
      · obtain ⟨i, hi, rfl⟩ := List.mem_mapIdx.mp h
        exact ⟨method, List.mem_cons_self, List.getElem_mem hi⟩
      · obtain ⟨other, hother, hmem⟩ := ih h
        exact ⟨other, List.mem_cons_of_mem method hother, hmem⟩

theorem runsWith_of_resolves {tests : List MethodWithParameters} {mp : MethodWithParameters}
    (resolves : Resolves calls tests mpc) (hmp : mp ∈ tests)
    (positive : ∀ call ∈ calls, 0 < call.candidates.length)
    (unique : (tests.map MethodWithParameters.midx).Nodup)
    (nodup : (keys mp.paramChoices).Nodup)
    (found : ∀ choice ∈ mp.paramChoices, ∃ c, candidateOf calls choice = some c)
    (named : ∀ name ∈ keys mp.paramChoices, name ∈ calls.map ChooseFrom.fieldName) :
    ∃ test chosen, RunsWith calls mpc mp test chosen := by
  have hkeys := keys_resolved found
  have hentry : (mp.midx, resolved calls mp.paramChoices) ∈ resolutions calls tests :=
    List.mem_map_of_mem hmp
  have hlookup : mpc.resolution.lookup mp.midx = some (resolved calls mp.paramChoices) := by
    rw [resolves.resolution]
    exact lookup_of_mem (by rwa [keys_resolutions]) hentry
  have hdescribe : mpc.describe mp.midx =
      some (MethodParamContext.describeChoices (resolved calls mp.paramChoices)) := by
    rw [MethodParamContext.describe, resolves.descriptions]
    refine lookup_of_mem ?_ (List.mem_map.mpr ⟨_, hentry, rfl⟩)
    rwa [keys, List.map_map, resolutions, List.map_map]
  obtain ⟨test, htest, hfields⟩ := newInstance_lookup positive hlookup
  refine ⟨test, (resolved calls mp.paramChoices).map Prod.snd, ?_⟩
  refine ⟨forall₂_resolved found, by rw [MethodWithParameters.newInstance, htest]; rfl, ?_, ?_, ?_⟩
  · refine methodInvoker_eq hkeys (by rwa [hkeys]) fun name hname => ?_
    exact hfields name (named name (by rwa [hkeys] at hname))
  · rw [hdescribe, ← hkeys, keys, List.zip_map', List.map_id']
  · intro call hcall hnot
    rw [hfields _ (List.mem_map_of_mem hcall)]
    refine congrArg some (Option.eq_none_iff_forall_ne_some.mpr fun c hc => hnot ?_)
    rw [← hkeys]
    exact mem_keys_iff.mpr ⟨c, hc⟩

end Tests

/-- Method parameters are expanded to their cross product, and every test runs with the
candidates of its combination, if no annotated method has a public overload. -/
theorem explodeMethods_resolved (calls : List (ChooseFrom α)) (declared methods : List ParamMethod)
    (positive : ∀ call ∈ calls, 0 < call.candidates.length)
    (named : ∀ method ∈ methods, TakesFields calls method)
    (unambiguous : ∀ method ∈ methods, Unambiguous declared method) :
    ∃ mpc groups,
      MethodParamContext.evalSetup calls declared methods = some (mpc, groups.flatten) ∧
      List.Forall₂ (ExplodesTo calls) methods groups ∧
      (groups.flatten.map MethodWithParameters.midx).Nodup ∧
      ∀ mp ∈ groups.flatten, ∃ test chosen, RunsWith calls mpc mp test chosen := by
  have hunique : ((testGroups calls 0 methods).flatten.map MethodWithParameters.midx).Nodup := by
    rw [map_midx_testGroups]
    exact List.nodup_range'
  have hfound : ∀ mp ∈ (testGroups calls 0 methods).flatten, (keys mp.paramChoices).Nodup ∧
      (∀ choice ∈ mp.paramChoices, ∃ c, candidateOf calls choice = some c) ∧
      ∀ name ∈ keys mp.paramChoices, name ∈ calls.map ChooseFrom.fieldName := by
    intro mp hmp
    obtain ⟨method, hmethod, hrow⟩ := mem_testGroups hmp
    obtain ⟨-, hnodup, hnamed⟩ := named method hmethod
    rw [keys_of_mem_choiceRows hrow]
    exact ⟨hnodup, found_of_mem_choiceRows hnamed hrow, hnamed⟩
  obtain ⟨mpc, test, hfields, hdeclares⟩ := Declares.new.initFields positive []
  have hinstance : newInstance ⟨false, -1⟩ calls .new = some (mpc, test) := hfields
  have hchoices : mpc.choicesOf = fun name => (fieldNamed calls name).map ChooseFrom.candidates :=
    funext hdeclares.choicesOf
  have hmethods := methodParameterMethods_eq hchoices named unambiguous
  have hset := setChoices_all hchoices (fun mp hmp => (hfound mp hmp).1)
    (fun mp hmp => (hfound mp hmp).2.1) (by simpa [hdeclares.resolution] using hunique)
  rw [hdeclares.resolution, List.nil_append] at hset
  have hresolves := @resolves_finishEvalStage α calls
    { mpc with resolution := resolutions calls (testGroups calls 0 methods).flatten } _
    rfl hdeclares.descriptions hunique
  refine ⟨MethodParamContext.finishEvalStage { mpc with
    resolution := resolutions calls (testGroups calls 0 methods).flatten },
    testGroups calls 0 methods, ?_, forall₂_testGroups calls 0 methods, hunique, ?_⟩
  · rw [MethodParamContext.evalSetup, hinstance]
    simp only [Option.bind_eq_bind, Option.bind_some, hmethods, hset, Option.pure_def]
  · intro mp hmp
    obtain ⟨hnodup, hmpfound, hnamed⟩ := hfound mp hmp
    exact runsWith_of_resolves hresolves hmp positive hunique hnodup hmpfound hnamed

/-- Two fields. -/
def ageAndName : List (ChooseFrom String) :=
  [⟨"age", [⟨"20", "20"⟩, ⟨"40", "40"⟩]⟩, ⟨"name", [⟨"Alice", "Alice"⟩, ⟨"Bob", "Bob"⟩]⟩]

/-- A method that takes both in the other order, and one that takes `age` alone. -/
def nameAndAge : List ParamMethod :=
  [⟨"both", "(Ljava/lang/String;Ljava/lang/Integer;)V", 2, some [some "name", some "age"]⟩,
    ⟨"single", "(Ljava/lang/Integer;)V", 1, some [some "age"]⟩]

/-- A superclass declares the second method too, with another name for its argument. -/
def withOverridden : List ParamMethod :=
  nameAndAge ++ [⟨"single", "(Ljava/lang/Integer;)V", 1, some [some "years"]⟩]

theorem explodeMethods_resolved_nameAndAge :
    ∃ mpc groups, MethodParamContext.evalSetup ageAndName withOverridden nameAndAge =
        some (mpc, groups.flatten) ∧
      List.Forall₂ (ExplodesTo ageAndName) nameAndAge groups ∧
      (groups.flatten.map MethodWithParameters.midx).Nodup ∧
      ∀ mp ∈ groups.flatten, ∃ test chosen, RunsWith ageAndName mpc mp test chosen :=
  explodeMethods_resolved ageAndName withOverridden nameAndAge (by decide) (by decide) (by decide)

/-- Two methods of one name that take one field each. -/
def overloads : List ParamMethod :=
  [⟨"t", "(Ljava/lang/Integer;)V", 1, some [some "age"]⟩,
    ⟨"t", "(Ljava/lang/String;)V", 1, some [some "name"]⟩]

/-- The parser throws for overloads. -/
theorem evalSetup_overloads :
    (∀ call ∈ ageAndName, 0 < call.candidates.length) ∧
      (∀ method ∈ overloads, TakesFields ageAndName method) ∧
      MethodParamContext.evalSetup ageAndName overloads overloads = none := by
  decide +kernel

example : (MethodParamContext.evalSetup ageAndName withOverridden nameAndAge).map (fun setup =>
    setup.2.map fun mp => (mp.midx, mp.mcidx, setup.1.describe mp.midx)) = some [
      (0, 0, some "_name[Alice]_age[20]"), (1, 1, some "_name[Alice]_age[40]"),
      (2, 2, some "_name[Bob]_age[20]"), (3, 3, some "_name[Bob]_age[40]"),
      (4, 0, some "_age[20]"), (5, 1, some "_age[40]")] := by
  decide +kernel

end Explore.VTestRunner
