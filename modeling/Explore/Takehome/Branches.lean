import Explore.Takehome.Lowering
import Mathlib.Data.List.Forall2

/-!
# Which thread gets which statement

`reach` lists the plain statements of a program with the threads that are meant to
execute them: in each `iftid`, the first branch whose range contains the thread, or
the else branch. `inForce` lists them with the set of threads that the code has in
force when it lowers them. The code lowers all statements in one pass and tags what
it adds, so it is right exactly where the two sets agree.
-/

namespace Explore.Takehome

/-- Whether lowering the statement adds instructions of its own. -/
def PlainStmt.generates : PlainStmt → Bool
  | variableDeclaration .. | pause => false
  | variableDefinition .. | loadVariable .. | storeMemory .. => true

section Reach

mutual

/-- The plain statements of a statement, each with the threads among `outer` that
execute it. -/
def reachStmt (outer : TidSet) : ThreadLocalStmt → List (PlainStmt × TidSet)
  | .plain stmt => [(stmt, outer)]
  | .tidIfElse ranges stmts => reachBranches outer ranges stmts

def reachStmts (outer : TidSet) : List ThreadLocalStmt → List (PlainStmt × TidSet)
  | [] => []
  | stmt :: stmts => reachStmt outer stmt ++ reachStmts outer stmts

/-- `undecided` threads are in none of the ranges of the branches before. A branch
without a range is the else branch. -/
def reachBranches (undecided : TidSet) (ranges : List TidRange) :
    List (List ThreadLocalStmt) → List (PlainStmt × TidSet)
  | [] => []
  | stmts :: branches =>
      let range : TidSet := (ranges.head?.map TidRange.contains).getD fun _ => true
      reachStmts (fun tid => undecided tid && range tid) stmts ++
        reachBranches (fun tid => undecided tid && !range tid) ranges.tail branches

end

end Reach

section InForce

mutual

/-- The plain statements of a statement, each with the set in force when the code
lowers it, from the set in force before. -/
def inForceStmt (numThreads : ℕ) (inForce : TidSet) : ThreadLocalStmt → List (PlainStmt × TidSet)
  | .plain stmt => [(stmt, inForce)]
  | .tidIfElse ranges stmts =>
      inForceBranches numThreads ranges (fun tid => decide (0 ≤ tid ∧ tid < numThreads)) stmts

def inForceStmts (numThreads : ℕ) (inForce : TidSet) :
    List ThreadLocalStmt → List (PlainStmt × TidSet)
  | [] => []
  | stmt :: stmts =>
      inForceStmt numThreads inForce stmt ++ inForceStmts numThreads (afterStmt inForce stmt) stmts

def inForceBranches (numThreads : ℕ) (ranges : List TidRange) (remainingTids : TidSet) :
    List (List ThreadLocalStmt) → List (PlainStmt × TidSet)
  | [] => []
  | stmts :: branches =>
      let range : TidSet := (ranges.head?.map TidRange.contains).getD remainingTids
      inForceStmts numThreads range stmts ++
        inForceBranches numThreads ranges.tail (fun tid => remainingTids tid && !range tid) branches

/-- The set in force after a statement: an `iftid` clears it. -/
def afterStmt (inForce : TidSet) : ThreadLocalStmt → TidSet
  | .tidIfElse _ (_ :: _) => INFINITE_SET
  | _ => inForce

end

end InForce

/-- Lower a plain statement for the threads it is tagged with. -/
def lowerTagged (concThreads : ℕ) (st : ScratchSpace × InstrGraph) (tagged : PlainStmt × TidSet) :
    Option (ScratchSpace × InstrGraph) := do
  let (lowered, instrs) ← lowerPlain st.1 concThreads tagged.1
  return (lowered.ss,
    { globalimetas := st.2.globalimetas ++ lowered.setup
      imetas := st.2.imetas ++ instrs.map (·, tagged.2) })

namespace IRPipeline

/-- The set in force. -/
def inForce (irp : IRPipeline) : TidSet := irp.tidrangeContext.getD INFINITE_SET

def core (irp : IRPipeline) : ScratchSpace × InstrGraph := (irp.ss, irp.graph)

theorem foldl_add_global (irp : IRPipeline) (setup : List LogicalInstruction) :
    setup.foldl (add · true ·) irp =
      { irp with graph.globalimetas := irp.graph.globalimetas ++ setup } := by
  induction setup generalizing irp with
  | nil => simp
  | cons linst setup ih =>
      rw [List.foldl_cons, ih]
      simp [add]

theorem foldl_add_thread (irp : IRPipeline) (instrs : List LogicalInstruction) :
    instrs.foldl (add · false ·) irp =
      { irp with graph.imetas := irp.graph.imetas ++ instrs.map (·, irp.inForce) } := by
  induction instrs generalizing irp with
  | nil => simp
  | cons linst instrs ih =>
      rw [List.foldl_cons, ih]
      simp [add, inForce]

/-- Lowering a plain statement of a thread tags its instructions with the set in force. -/
theorem handlePlain_eq (irp : IRPipeline) (concThreads : ℕ) (stmt : PlainStmt) :
    irp.handlePlain concThreads false stmt =
      (lowerTagged concThreads irp.core (stmt, irp.inForce)).map fun st =>
        ⟨st.1, st.2, irp.tidrangeContext⟩ := by
  simp only [handlePlain, lowerTagged, core, foldl_add_global, foldl_add_thread, inForce]
  cases h : lowerPlain irp.ss concThreads stmt <;> simp [h]

mutual

/-- The pass over a statement lowers its plain statements in source order, each for
the set in force. -/
theorem handleStmt_eq (numThreads concThreads : ℕ) (irp : IRPipeline) :
    ∀ stmt : ThreadLocalStmt, ∃ context : Option TidSet,
      context.getD INFINITE_SET = afterStmt irp.inForce stmt ∧
      irp.handleStmt numThreads concThreads stmt =
        ((inForceStmt numThreads irp.inForce stmt).foldlM (lowerTagged concThreads) irp.core).map
          fun st => ⟨st.1, st.2, context⟩
  | .plain stmt => by
      refine ⟨irp.tidrangeContext, rfl, ?_⟩
      simp [handleStmt, inForceStmt, handlePlain_eq]
  | .tidIfElse ranges [] => ⟨irp.tidrangeContext, rfl, rfl⟩
  | .tidIfElse ranges (stmts :: branches) => by
      obtain ⟨context, hcontext, heq⟩ := handleBranches_eq numThreads concThreads ranges
        (fun tid => decide (0 ≤ tid ∧ tid < numThreads)) irp (stmts :: branches)
      refine ⟨context, ?_, by rw [handleStmt, heq, inForceStmt]⟩
      rw [hcontext (.inl (by simp)), afterStmt]
      rfl

theorem handleStmts_eq (numThreads concThreads : ℕ) (irp : IRPipeline) :
    ∀ stmts : List ThreadLocalStmt, ∃ context : Option TidSet,
      irp.handleStmts numThreads concThreads stmts =
        ((inForceStmts numThreads irp.inForce stmts).foldlM (lowerTagged concThreads) irp.core).map
          fun st => ⟨st.1, st.2, context⟩
  | [] => ⟨irp.tidrangeContext, rfl⟩
  | stmt :: stmts => by
      obtain ⟨after, hafter, hstmt⟩ := handleStmt_eq numThreads concThreads irp stmt
      rw [handleStmts, hstmt, inForceStmts, List.foldlM_append]
      cases (inForceStmt numThreads irp.inForce stmt).foldlM (lowerTagged concThreads) irp.core with
      | none => exact ⟨none, rfl⟩
      | some st =>
          obtain ⟨context, heq⟩ := handleStmts_eq numThreads concThreads ⟨st.1, st.2, after⟩ stmts
          refine ⟨context, ?_⟩
          rw [inForce, hafter] at heq
          exact heq

theorem handleBranches_eq (numThreads concThreads : ℕ) (ranges : List TidRange)
    (remainingTids : TidSet) (irp : IRPipeline) :
    ∀ branches : List (List ThreadLocalStmt), ∃ context : Option TidSet,
      (branches ≠ [] ∨ irp.tidrangeContext = none → context = none) ∧
      irp.handleBranches numThreads concThreads ranges remainingTids branches =
        ((inForceBranches numThreads ranges remainingTids branches).foldlM
          (lowerTagged concThreads) irp.core).map fun st => ⟨st.1, st.2, context⟩
  | [] => ⟨irp.tidrangeContext, by simp, rfl⟩
  | stmts :: branches => by
      let range : TidSet := (ranges.head?.map TidRange.contains).getD remainingTids
      obtain ⟨after, hstmts⟩ := handleStmts_eq numThreads concThreads
        { irp with tidrangeContext := some range } stmts
      rw [handleBranches, hstmts, inForceBranches, List.foldlM_append]
      simp only [inForce, Option.getD_some]
      change ∃ context, _ ∧ Option.bind (Option.map _
        ((inForceStmts numThreads range stmts).foldlM (lowerTagged concThreads) irp.core)) _ =
        Option.map _ (Option.bind
          ((inForceStmts numThreads range stmts).foldlM (lowerTagged concThreads) irp.core) _)
      cases (inForceStmts numThreads range stmts).foldlM (lowerTagged concThreads) irp.core with
      | none => exact ⟨none, fun _ => rfl, rfl⟩
      | some st =>
          obtain ⟨context, hnone, heq⟩ := handleBranches_eq numThreads concThreads ranges.tail
            (fun tid => remainingTids tid && !range tid) ⟨st.1, st.2, none⟩ branches
          exact ⟨context, fun _ => hnone (.inr rfl), heq⟩

end

end IRPipeline

/-- Two annotations of the same statements, for `numThreads` threads. -/
def SameReach (numThreads : ℕ) : List (PlainStmt × TidSet) → List (PlainStmt × TidSet) → Prop :=
  List.Forall₂ fun tagged ref => tagged.1 = ref.1 ∧
    (tagged.1.generates → ∀ tid : ℕ, tid < numThreads → tagged.2 tid = ref.2 tid)

/-- The instructions tagged with thread `tid`, numbered from `start`. -/
def receivedFrom (start : ℕ) (imetas : List (LogicalInstruction × TidSet)) (tid : ℕ) :
    List (ℕ × LogicalInstruction) :=
  ((imetas.zipIdx start).filter fun entry => entry.1.2 tid).map fun entry => (entry.2, entry.1.1)

/-- The instructions that thread `tid` is given, each with its position, which tells
the instructions of different statements apart. -/
def received (imetas : List (LogicalInstruction × TidSet)) (tid : ℕ) :
    List (ℕ × LogicalInstruction) :=
  receivedFrom 0 imetas tid

/-- The instructions of the threads, each tagged with the threads that are meant to
execute its statement. -/
def programToReach (program : Program) (concThreads : ℕ) :
    Option (List (LogicalInstruction × TidSet)) := do
  let irp ← program.globalStmts.foldlM (IRPipeline.handlePlain concThreads true) .new
  let (_, graph) ←
    (reachStmts (fun _ => true) program.threadStmts).foldlM (lowerTagged concThreads) irp.core
  return graph.imetas

section Agreement

variable {numThreads concThreads : ℕ}

mutual

/-- Both annotations list the same statements in the same order. -/
theorem inForceStmt_fst (outer inForce : TidSet) : ∀ stmt : ThreadLocalStmt,
    (inForceStmt numThreads inForce stmt).map Prod.fst = (reachStmt outer stmt).map Prod.fst
  | .plain _ => rfl
  | .tidIfElse ranges stmts => inForceBranches_fst ranges outer _ stmts

theorem inForceStmts_fst (outer inForce : TidSet) : ∀ stmts : List ThreadLocalStmt,
    (inForceStmts numThreads inForce stmts).map Prod.fst = (reachStmts outer stmts).map Prod.fst
  | [] => rfl
  | stmt :: stmts => by
      rw [inForceStmts, reachStmts, List.map_append, List.map_append,
        inForceStmt_fst outer inForce stmt, inForceStmts_fst outer _ stmts]

theorem inForceBranches_fst (ranges : List TidRange) (undecided remainingTids : TidSet) :
    ∀ branches : List (List ThreadLocalStmt),
      (inForceBranches numThreads ranges remainingTids branches).map Prod.fst =
        (reachBranches undecided ranges branches).map Prod.fst
  | [] => rfl
  | stmts :: branches => by
      rw [inForceBranches, reachBranches, List.map_append, List.map_append,
        inForceStmts_fst _ _ stmts, inForceBranches_fst ranges.tail _ _ branches]

end

theorem receivedFrom_cons (start tid : ℕ) (entry : LogicalInstruction × TidSet)
    (imetas : List (LogicalInstruction × TidSet)) :
    receivedFrom start (entry :: imetas) tid =
      if entry.2 tid then (start, entry.1) :: receivedFrom (start + 1) imetas tid
      else receivedFrom (start + 1) imetas tid := by
  unfold receivedFrom
  rw [List.zipIdx_cons, List.filter_cons]
  split <;> rfl

theorem le_of_mem_receivedFrom {start tid : ℕ} {imetas : List (LogicalInstruction × TidSet)}
    {entry : ℕ × LogicalInstruction} (h : entry ∈ receivedFrom start imetas tid) :
    start ≤ entry.1 := by
  obtain ⟨tagged, htagged, rfl⟩ := List.mem_map.mp h
  exact List.le_snd_of_mem_zipIdx (List.mem_of_mem_filter htagged)

/-- Two taggings of the same instructions give a thread the same instructions just
when they agree about the thread at each of them. -/
theorem receivedFrom_eq_iff {tid : ℕ} {xs ys : List (LogicalInstruction × TidSet)}
    (same : xs.map Prod.fst = ys.map Prod.fst) (start : ℕ) :
    receivedFrom start xs tid = receivedFrom start ys tid ↔
      List.Forall₂ (fun x y => x.2 tid = y.2 tid) xs ys := by
  induction xs generalizing ys start with
  | nil =>
      obtain rfl : ys = [] := List.map_eq_nil_iff.mp same.symm
      simp
  | cons x xs ih =>
      cases ys with
      | nil => simp at same
      | cons y ys =>
          obtain ⟨hfst, same⟩ : x.1 = y.1 ∧ xs.map Prod.fst = ys.map Prod.fst := by
            simpa using same
          rw [receivedFrom_cons, receivedFrom_cons, List.forall₂_cons, ← ih same (start + 1), hfst]
          cases hx : x.2 tid <;> cases hy : y.2 tid
          · simp
          · refine ⟨fun h => ?_, fun h => by simp at h⟩
            have hmem : (start, y.1) ∈ receivedFrom (start + 1) xs tid := by simp_all
            exact absurd (le_of_mem_receivedFrom hmem) (by simp)
          · refine ⟨fun h => ?_, fun h => by simp at h⟩
            have hmem : (start, y.1) ∈ receivedFrom (start + 1) ys tid := by
              simp only [Bool.false_eq_true, if_false, if_true] at h
              rw [← h]
              exact List.mem_cons_self
            exact absurd (le_of_mem_receivedFrom hmem) (by simp)
          · simp

theorem handleVariableAssignment_ne_nil {st lowered : Lowered} {lname : String}
    {rvalue : ValueExpr} {instrs : List LogicalInstruction}
    (h : st.handleVariableAssignment lname rvalue = some (lowered, instrs)) : instrs ≠ [] := by
  unfold Lowered.handleVariableAssignment at h
  obtain ⟨vm, -, h⟩ := Option.bind_eq_some_iff.mp h
  rintro rfl
  cases rvalue with
  | select cond ifTrue ifFalse =>
      cases cond <;> simp [Lowered.handleSelect, Option.bind_eq_some_iff] at h
  | intConstant intconst =>
      cases hvec : vm.isVector <;> simp [hvec, Option.bind_eq_some_iff] at h
  | _ => simp [Option.bind_eq_some_iff, List.finRange] at h

/-- Lowering adds an instruction exactly for the statements that generate one. -/
theorem lowerPlain_ne_nil {ss : ScratchSpace} {numSlots : ℕ} {stmt : PlainStmt} {lowered : Lowered}
    {instrs : List LogicalInstruction} (h : lowerPlain ss numSlots stmt = some (lowered, instrs)) :
    instrs ≠ [] ↔ stmt.generates := by
  cases stmt with
  | variableDeclaration varType name otherNames =>
      obtain ⟨ss', -, h⟩ := Option.bind_eq_some_iff.mp h
      obtain ⟨-, rfl⟩ : _ ∧ [] = instrs := by simpa using h
      simp [PlainStmt.generates]
  | variableDefinition varType name value =>
      obtain ⟨ss', -, h⟩ := Option.bind_eq_some_iff.mp h
      simp [PlainStmt.generates, handleVariableAssignment_ne_nil h]
  | loadVariable name value => simp [PlainStmt.generates, handleVariableAssignment_ne_nil h]
  | storeMemory name value =>
      have hne : instrs ≠ [] := by
        rintro rfl
        cases value <;> simp [lowerPlain, Lowered.handleStoreMemory, Option.bind_eq_some_iff] at h
      simp [PlainStmt.generates, hne]
  | pause =>
      obtain ⟨-, rfl⟩ : _ ∧ [] = instrs := by simpa [lowerPlain] using h
      simp [PlainStmt.generates]

theorem forall₂_tagged_append (instrs : List LogicalInstruction) (tag tag' : TidSet) (tid : ℕ)
    (news refs : List (LogicalInstruction × TidSet)) :
    List.Forall₂ (fun x y => x.2 tid = y.2 tid) (instrs.map (·, tag) ++ news)
        (instrs.map (·, tag') ++ refs) ↔
      (instrs ≠ [] → tag tid = tag' tid) ∧
        List.Forall₂ (fun x y => x.2 tid = y.2 tid) news refs := by
  induction instrs with
  | nil => simp
  | cons linst instrs ih =>
      rw [List.map_cons, List.map_cons, List.cons_append, List.cons_append, List.forall₂_cons, ih]
      constructor
      · rintro ⟨htag, -, hrest⟩
        exact ⟨fun _ => htag, hrest⟩
      · rintro ⟨htag, hrest⟩
        exact ⟨htag (List.cons_ne_nil _ _), fun _ => htag (List.cons_ne_nil _ _), hrest⟩

/-- Lowering the same statements under two taggings adds the same instructions, whose
tags agree below `numThreads` just when the tags of the generating statements do. -/
theorem foldlM_lowerTagged_agree {xs ys : List (PlainStmt × TidSet)}
    (same : xs.map Prod.fst = ys.map Prod.fst) {st st' : ScratchSpace × InstrGraph}
    (h : xs.foldlM (lowerTagged concThreads) st = some st')
    (refImetas : List (LogicalInstruction × TidSet)) :
    ∃ news refs, st'.2.imetas = st.2.imetas ++ news ∧
      ys.foldlM (lowerTagged concThreads) (st.1, ⟨st.2.globalimetas, refImetas⟩) =
        some (st'.1, ⟨st'.2.globalimetas, refImetas ++ refs⟩) ∧
      news.map Prod.fst = refs.map Prod.fst ∧
      ((∀ tid : ℕ, tid < numThreads → List.Forall₂ (fun x y => x.2 tid = y.2 tid) news refs) ↔
        SameReach numThreads xs ys) := by
  induction xs generalizing ys st refImetas with
  | nil =>
      obtain rfl : ys = [] := List.map_eq_nil_iff.mp same.symm
      obtain rfl : st = st' := by simpa using h
      exact ⟨[], [], by simp, by simp, rfl, by simp [SameReach]⟩
  | cons x xs ih =>
      cases ys with
      | nil => simp at same
      | cons y ys =>
          obtain ⟨hfst, same⟩ : x.1 = y.1 ∧ xs.map Prod.fst = ys.map Prod.fst := by
            simpa using same
          rw [List.foldlM_cons] at h
          obtain ⟨mid, hstep, hrest⟩ := Option.bind_eq_some_iff.mp h
          obtain ⟨⟨lowered, instrs⟩, hlower, hmid⟩ := Option.bind_eq_some_iff.mp hstep
          obtain rfl := Option.some.inj hmid
          obtain ⟨news, refs, himetas, hrefs, hmap, hiff⟩ :=
            ih same hrest (refImetas ++ instrs.map (·, y.2))
          refine ⟨instrs.map (·, x.2) ++ news, instrs.map (·, y.2) ++ refs, ?_, ?_, ?_, ?_⟩
          · rw [himetas, List.append_assoc]
          · rw [List.foldlM_cons, lowerTagged, ← hfst, hlower]
            simpa using hrefs
          · simp [hmap, Function.comp_def]
          · have hgen := lowerPlain_ne_nil hlower
            rw [SameReach, List.forall₂_cons, ← hgen]
            simp only [forall₂_tagged_append]
            constructor
            · intro hall
              exact ⟨⟨hfst, fun hne tid htid => (hall tid htid).1 hne⟩,
                hiff.mp fun tid htid => (hall tid htid).2⟩
            · rintro ⟨⟨-, htags⟩, hsame⟩ tid htid
              exact ⟨fun hne => htags hne tid htid, hiff.mpr hsame tid htid⟩

end Agreement

section Ranges

/-- The threads below `numThreads` are all in the set. -/
def holdsAll (numThreads : ℕ) (tids : TidSet) : Bool :=
  (List.range numThreads).all fun tid => tids tid

/-- Statements of which none generates instructions outside an `iftid`. -/
def plainFree (stmts : List ThreadLocalStmt) : Bool :=
  stmts.all fun
    | .plain stmt => !stmt.generates
    | .tidIfElse .. => true

mutual

/-- The ranges of each `iftid` are disjoint and within `outer`, the threads of the branch
that it stands in. -/
def splitsStmt (numThreads : ℕ) (outer : TidSet) : ThreadLocalStmt → Bool
  | .plain _ => true
  | .tidIfElse ranges stmts => splitsBranches numThreads outer (fun _ => true) ranges stmts

/-- No statement of a branch generates instructions after an `iftid` in it, unless all
threads are in the branch. -/
def splitsStmts (numThreads : ℕ) (outer : TidSet) : List ThreadLocalStmt → Bool
  | [] => true
  | stmt :: stmts =>
      splitsStmt numThreads outer stmt && splitsStmts numThreads outer stmts &&
        (plainFree stmts || holdsAll numThreads outer || stmt matches .plain _)

/-- The else branch is for all the threads that are `undecided`. -/
def splitsBranches (numThreads : ℕ) (outer undecided : TidSet) (ranges : List TidRange) :
    List (List ThreadLocalStmt) → Bool
  | [] => true
  | stmts :: branches =>
      let range : TidSet := (ranges.head?.map TidRange.contains).getD undecided
      (stmts.isEmpty || holdsAll numThreads fun tid => !range tid || outer tid && undecided tid) &&
        splitsStmts numThreads range stmts &&
        splitsBranches numThreads outer (fun tid => undecided tid && !range tid) ranges.tail
          branches

end

variable {numThreads : ℕ}

@[simp] theorem holdsAll_iff {tids : TidSet} :
    holdsAll numThreads tids = true ↔ ∀ tid : ℕ, tid < numThreads → tids tid = true := by
  simp [holdsAll]

theorem SameReach.append {xs ys xs' ys' : List (PlainStmt × TidSet)}
    (h : SameReach numThreads xs ys) (h' : SameReach numThreads xs' ys') :
    SameReach numThreads (xs ++ xs') (ys ++ ys') :=
  List.rel_append h h'

mutual

theorem sameReach_stmt (few : numThreads ≤ 100) {outer inForce reached : TidSet}
    (hreached : ∀ tid : ℕ, tid < numThreads → reached tid = outer tid) :
    ∀ stmt : ThreadLocalStmt, splitsStmt numThreads outer stmt = true →
      ((∀ tid : ℕ, tid < numThreads → inForce tid = outer tid) ∨ plainFree [stmt] = true) →
      SameReach numThreads (inForceStmt numThreads inForce stmt) (reachStmt reached stmt)
  | .plain stmt, _, hinForce => by
      refine .cons ⟨rfl, fun hgen tid htid => ?_⟩ .nil
      obtain hinForce | hfree := hinForce
      · exact (hinForce tid htid).trans (hreached tid htid).symm
      · simp [plainFree, hgen] at hfree
  | .tidIfElse ranges stmts, hsplits, _ => by
      refine sameReach_branches few (fun tid htid => ?_) (fun tid htid => ?_) ranges stmts hsplits
      · simpa using htid
      · rw [hreached tid htid, Bool.and_true]

theorem sameReach_stmts (few : numThreads ≤ 100) {outer inForce reached : TidSet}
    (hreached : ∀ tid : ℕ, tid < numThreads → reached tid = outer tid) :
    ∀ stmts : List ThreadLocalStmt, splitsStmts numThreads outer stmts = true →
      ((∀ tid : ℕ, tid < numThreads → inForce tid = outer tid) ∨ plainFree stmts = true) →
      SameReach numThreads (inForceStmts numThreads inForce stmts) (reachStmts reached stmts)
  | [], _, _ => .nil
  | stmt :: stmts, hsplits, hinForce => by
      simp only [splitsStmts, Bool.and_eq_true, Bool.or_eq_true] at hsplits
      obtain ⟨⟨hstmt, hstmts⟩, hafter⟩ := hsplits
      refine .append (sameReach_stmt few hreached stmt hstmt ?_)
        (sameReach_stmts few hreached stmts hstmts ?_)
      · exact hinForce.imp_right fun hfree => by simp_all [plainFree]
      · cases stmt with
        | plain stmt => exact hinForce.imp_right fun hfree => by simp_all [plainFree]
        | tidIfElse ranges branches =>
            cases branches with
            | nil => exact hinForce.imp_right fun hfree => by simp_all [plainFree]
            | cons first others =>
                -- The set in force is cleared: it holds all the threads of the program.
                obtain (hfree | hall) | hplain := hafter
                · exact Or.inr hfree
                · refine Or.inl fun tid htid => ?_
                  rw [holdsAll_iff.mp hall tid htid, afterStmt, INFINITE_SET]
                  exact decide_eq_true (by omega)
                · simp at hplain

/-- The threads that are `undecided` are those that the code has left, and those of them
that are meant to be in the branch around the `iftid` are the ones that may reach it. -/
theorem sameReach_branches (few : numThreads ≤ 100)
    {outer undecided remainingTids reached : TidSet}
    (hremaining : ∀ tid : ℕ, tid < numThreads → remainingTids tid = undecided tid)
    (hreached : ∀ tid : ℕ, tid < numThreads → reached tid = (outer tid && undecided tid))
    (ranges : List TidRange) : ∀ branches : List (List ThreadLocalStmt),
      splitsBranches numThreads outer undecided ranges branches = true →
      SameReach numThreads (inForceBranches numThreads ranges remainingTids branches)
        (reachBranches reached ranges branches)
  | [], _ => .nil
  | stmts :: branches, hsplits => by
      simp only [splitsBranches, Bool.and_eq_true, Bool.or_eq_true] at hsplits
      obtain ⟨⟨hrange, hstmts⟩, hbranches⟩ := hsplits
      refine .append ?_ (sameReach_branches few (fun tid htid => ?_) (fun tid htid => ?_)
        ranges.tail branches hbranches)
      · obtain hempty | hrange := hrange
        · rw [List.isEmpty_iff.mp hempty]
          exact .nil
        · refine sameReach_stmts few (fun tid htid => ?_) stmts hstmts (Or.inl fun tid htid => ?_)
          · have hin := holdsAll_iff.mp hrange tid htid
            rw [hreached tid htid]
            generalize ranges.head? = range at hin ⊢
            cases houter : outer tid <;> cases hundecided : undecided tid <;>
              cases range <;> simp [houter, hundecided] at hin ⊢ <;> exact hin
          · cases ranges.head? <;> simp [hremaining tid htid]
      · cases ranges.head? <;> simp [hremaining tid htid]
      · rw [hreached tid htid]
        cases ranges.head? <;> simp [Bool.and_assoc]

end

/-- The sets agree in a program of at most 100 threads whose ranges are disjoint and
nested, if nothing is generated after an `iftid` that stands inside a branch. -/
theorem sameReach_of_splits (few : numThreads ≤ 100) {stmts : List ThreadLocalStmt}
    (splits : splitsStmts numThreads (fun _ => true) stmts = true) :
    SameReach numThreads (inForceStmts numThreads INFINITE_SET stmts)
      (reachStmts (fun _ => true) stmts) := by
  refine sameReach_stmts few (fun _ _ => rfl) stmts splits (Or.inl fun tid htid => ?_)
  exact decide_eq_true (by omega)

end Ranges

/-- Global statements add nothing to the threads. -/
theorem foldlM_handlePlain_global {concThreads : ℕ} {stmts : List PlainStmt}
    {irp irp' : IRPipeline}
    (h : stmts.foldlM (IRPipeline.handlePlain concThreads true) irp = some irp') :
    irp'.graph.imetas = irp.graph.imetas ∧ irp'.tidrangeContext = irp.tidrangeContext := by
  induction stmts generalizing irp with
  | nil =>
      obtain rfl : irp = irp' := by simpa using h
      exact ⟨rfl, rfl⟩
  | cons stmt stmts ih =>
      rw [List.foldlM_cons] at h
      obtain ⟨mid, hstep, hrest⟩ := Option.bind_eq_some_iff.mp h
      obtain ⟨⟨lowered, instrs⟩, -, hmid⟩ := Option.bind_eq_some_iff.mp hstep
      obtain rfl := Option.some.inj hmid
      obtain ⟨himetas, hcontext⟩ := ih hrest
      rw [himetas, hcontext, IRPipeline.foldl_add_global, IRPipeline.foldl_add_global]
      exact ⟨rfl, rfl⟩

/-- Every thread is given, in source order, the instructions of the statements it is
meant to execute, if and only if at every statement that generates instructions the
set in force holds, of the threads of the program, exactly those that reach it. -/
theorem received_eq_reach_iff (program : Program) (numThreads concThreads : ℕ) (irp : IRPipeline)
    (accepted : programToIrp program numThreads concThreads = some irp) :
    ∃ reached, programToReach program concThreads = some reached ∧
      ((∀ tid : ℕ, tid < numThreads → received irp.graph.imetas tid = received reached tid) ↔
        SameReach numThreads (inForceStmts numThreads INFINITE_SET program.threadStmts)
          (reachStmts (fun _ => true) program.threadStmts)) := by
  obtain ⟨irp₀, hglobal, hthread⟩ := Option.bind_eq_some_iff.mp accepted
  obtain ⟨himetas₀, hcontext₀⟩ := foldlM_handlePlain_global hglobal
  obtain ⟨context, heq⟩ := irp₀.handleStmts_eq numThreads concThreads program.threadStmts
  rw [IRPipeline.inForce, hcontext₀] at heq
  rw [heq] at hthread
  obtain ⟨st, hfold, rfl⟩ := Option.map_eq_some_iff.mp hthread
  obtain ⟨news, refs, hnews, hrefs, hmap, hiff⟩ := foldlM_lowerTagged_agree
    (inForceStmts_fst (fun _ => true) INFINITE_SET program.threadStmts) hfold []
  have hcore : irp₀.core = (irp₀.ss, ⟨irp₀.graph.globalimetas, []⟩) := by
    obtain ⟨ss, ⟨globalimetas, imetas⟩, context⟩ := irp₀
    obtain rfl : imetas = [] := himetas₀
    rfl
  refine ⟨refs, ?_, ?_⟩
  · have hfold' : (reachStmts (fun _ => true) program.threadStmts).foldlM (lowerTagged concThreads)
        irp₀.core = some (st.1, ⟨st.2.globalimetas, refs⟩) := by
      rw [hcore] at hrefs ⊢
      exact hrefs
    rw [programToReach, hglobal]
    simp [hfold']
  · rw [← hiff]
    have hempty : irp₀.core.2.imetas = [] := by rw [hcore]
    have himetas : st.2.imetas = news := by rw [hnews, hempty, List.nil_append]
    refine forall₂_congr fun tid _ => ?_
    rw [himetas]
    exact receivedFrom_eq_iff hmap 0

/-- A program whose thread 0 alone is meant to assign to `x`, after an `iftid` inside
its branch. -/
def afterNested : Program where
  globalStmts := []
  threadStmts :=
    [.plain (.variableDeclaration .register "x" []),
      .tidIfElse [⟨.numberString false [0], .numberString false [1]⟩]
        [[.tidIfElse [⟨.numberString false [0], .numberString false [1]⟩] [[], []],
          .plain (.loadVariable "x" (.intConstant (.numberString false [7])))],
         []]]

/-- The inner `iftid` clears the set in force, so thread 1 assigns to `x` as well. -/
theorem received_afterNested_ne_reach :
    ((programToIrp afterNested 2 1).map fun irp => received irp.graph.imetas 1) =
        some [(0, .const (wholeVariable (.var "x") false false) 7)] ∧
      (programToReach afterNested 1).map (received · 1) = some [] := by
  decide +kernel

/-- Two branches with disjoint ranges, and a statement for every thread after them. -/
def disjointBranches : Program where
  globalStmts := [.variableDeclaration .register "g" []]
  threadStmts :=
    [.plain (.variableDeclaration .register "x" []),
      .tidIfElse [⟨.numberString false [0], .numberString false [1]⟩]
        [[.plain (.loadVariable "x" (.intConstant (.numberString false [7])))],
         [.plain (.loadVariable "x" (.variable "g" none))]],
      .plain (.storeMemory "g" (.variable "x" none))]

example : splitsStmts 2 (fun _ => true) disjointBranches.threadStmts = true ∧
    splitsStmts 2 (fun _ => true) afterNested.threadStmts = false := by
  decide

theorem received_disjointBranches_eq_reach :
    ∃ irp reached, programToIrp disjointBranches 2 1 = some irp ∧
      programToReach disjointBranches 1 = some reached ∧
      ∀ tid : ℕ, tid < 2 → received irp.graph.imetas tid = received reached tid := by
  obtain ⟨irp, accepted⟩ := Option.isSome_iff_exists.mp
    (show (programToIrp disjointBranches 2 1).isSome by decide +kernel)
  obtain ⟨reached, hreached, hiff⟩ := received_eq_reach_iff disjointBranches 2 1 irp accepted
  refine ⟨irp, reached, accepted, hreached, hiff.mpr ?_⟩
  have below (tags refs : TidSet) (h : ∀ tid : Fin 2, tags tid.val = refs tid.val) :
      ∀ tid : ℕ, tid < 2 → tags tid = refs tid := fun tid htid => h ⟨tid, htid⟩
  refine .cons ⟨rfl, fun _ => below _ _ (by decide)⟩ (.cons ⟨rfl, fun _ => below _ _ (by decide)⟩
    (.cons ⟨rfl, fun _ => below _ _ (by decide)⟩
      (.cons ⟨rfl, fun _ => below _ _ (by decide)⟩ .nil)))

end Explore.Takehome
