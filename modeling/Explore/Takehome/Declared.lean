import Explore.Takehome.Estimate

/-!
# The statements of a program one after the other

The passes over the global statements and over the threads lower all plain statements of a
program in one order, in a scratch space that only grows. At the end it holds exactly the
variables that the statements declare, besides constants.
-/

namespace Explore.Takehome

/-- A plain statement with the instructions that it adds. -/
structure LoweredStmt where
  stmt : PlainStmt
  instrs : List LogicalInstruction

/-- The statements of a program in the order in which they are lowered, each with the number
of slots that its variables get. -/
def Program.lowerOrder (program : Program) (concThreads : ℕ) : List (PlainStmt × ℕ) :=
  program.globalStmts.map (·, 1) ++ program.threadPlain.map (·, concThreads)

/-- Lower statements one after the other. -/
def lowerStmts : ScratchSpace → List (PlainStmt × ℕ) → Option (ScratchSpace × List LoweredStmt)
  | ss, [] => some (ss, [])
  | ss, (stmt, numSlots) :: rest => do
      let (lowered, instrs) ← lowerPlain ss numSlots stmt
      let (ss, others) ← lowerStmts lowered.ss rest
      return (ss, ⟨stmt, instrs⟩ :: others)

/-- The variables that a statement declares, with their types. -/
def PlainStmt.declared : PlainStmt → List (VarType × String)
  | .variableDeclaration varType name otherNames => (name :: otherNames).map (varType, ·)
  | .variableDefinition varType name _ => [(varType, name)]
  | .loadVariable .. | .storeMemory .. | .pause => []

def Program.plainStmts (program : Program) : List PlainStmt :=
  program.globalStmts ++ program.threadPlain

/-- Whether the program declares a variable as `register[]`. -/
def Program.isRegisters (program : Program) (name : String) : Prop :=
  (.registers, name) ∈ program.plainStmts.flatMap PlainStmt.declared

/-- The types of the variables of the scratch space. -/
def TypedAs (ss : ScratchSpace) (isRegisters : String → Prop) : Prop :=
  ∀ name vm, ss.varMetaOf (.var name) = some vm → (vm.isVector = true ↔ isRegisters name)

section Order

variable {ss ss' : ScratchSpace} {slots : ℕ} {program : Program} {numThreads concThreads : ℕ}
  {irp irp' : IRPipeline}

/-- What lowering statements one after the other keeps. -/
theorem lowerStmts_spec {xs : List (PlainStmt × ℕ)} {stmts : List LoweredStmt}
    (hshaped : ss.Shaped slots) (hn : ∀ x ∈ xs, x.2 = 1 ∨ x.2 = slots)
    (h : lowerStmts ss xs = some (ss', stmts)) :
    ss.Extends ss' ∧ ss'.Shaped slots ∧ stmts.map LoweredStmt.stmt = xs.map Prod.fst ∧
      ∀ s ∈ stmts, ∃ before n lowered, before.Shaped slots ∧ (n = 1 ∨ n = slots) ∧
        lowerPlain before n s.stmt = some (lowered, s.instrs) ∧ lowered.ss.Extends ss' := by
  induction xs generalizing ss stmts with
  | nil =>
      obtain ⟨rfl, rfl⟩ := Prod.mk.inj (Option.some.inj h)
      exact ⟨.refl _, hshaped, rfl, List.forall_mem_nil _⟩
  | cons x xs ih =>
      obtain ⟨⟨lowered, instrs⟩, hlower, h⟩ := Option.bind_eq_some_iff.mp h
      obtain ⟨⟨ss₁, others⟩, hrest, hret⟩ := Option.bind_eq_some_iff.mp h
      obtain ⟨rfl, rfl⟩ := Prod.mk.inj (Option.some.inj hret)
      have hx := hn x List.mem_cons_self
      obtain ⟨hext, hsound, -⟩ := lowerPlain_spec hshaped hx hlower
      obtain ⟨hext', hshaped', hmap, hothers⟩ :=
        ih hsound.shaped (fun y hy => hn y (List.mem_cons_of_mem _ hy)) hrest
      refine ⟨hext.trans hext', hshaped', by rw [List.map_cons, List.map_cons, hmap], ?_⟩
      rintro s hs
      obtain rfl | hs := List.mem_cons.mp hs
      · exact ⟨ss, x.2, lowered, hshaped, hx, hlower, hext'⟩
      · exact hothers s hs

theorem lowerStmts_append {ss ss' ss'' : ScratchSpace} {xs ys : List (PlainStmt × ℕ)}
    {first second : List LoweredStmt} (hx : lowerStmts ss xs = some (ss', first))
    (hy : lowerStmts ss' ys = some (ss'', second)) :
    lowerStmts ss (xs ++ ys) = some (ss'', first ++ second) := by
  induction xs generalizing ss first with
  | nil =>
      obtain ⟨rfl, rfl⟩ := Prod.mk.inj (Option.some.inj hx)
      exact hy
  | cons x xs ih =>
      obtain ⟨⟨lowered, instrs⟩, hstmt, hx⟩ := Option.bind_eq_some_iff.mp hx
      obtain ⟨⟨ss₁, others⟩, hrest, hret⟩ := Option.bind_eq_some_iff.mp hx
      obtain ⟨rfl, rfl⟩ := Prod.mk.inj (Option.some.inj hret)
      rw [List.cons_append, lowerStmts, hstmt]
      simp only [Option.bind_eq_bind, Option.bind_some]
      rw [ih hrest]
      rfl

/-- The global statements are lowered one after the other. -/
theorem lowerStmts_of_global {stmts : List PlainStmt}
    (h : stmts.foldlM (IRPipeline.handlePlain concThreads true) irp = some irp') :
    ∃ lowered, lowerStmts irp.ss (stmts.map (·, 1)) = some (irp'.ss, lowered) ∧
      (irp.graph.globalimetas ++ lowered.flatMap LoweredStmt.instrs).Sublist
        irp'.graph.globalimetas := by
  induction stmts generalizing irp with
  | nil =>
      obtain rfl := Option.some.inj h
      exact ⟨[], rfl, by simp⟩
  | cons stmt stmts ih =>
      rw [List.foldlM_cons] at h
      obtain ⟨mid, hstep, hrest⟩ := Option.bind_eq_some_iff.mp h
      obtain ⟨⟨lowered, instrs⟩, hlower, hret⟩ := Option.bind_eq_some_iff.mp hstep
      obtain rfl := Option.some.inj hret
      obtain ⟨others, hothers, hsub⟩ := ih hrest
      rw [IRPipeline.foldl_add_global, IRPipeline.foldl_add_global] at hothers hsub
      refine ⟨⟨stmt, instrs⟩ :: others, ?_, ?_⟩
      · rw [List.map_cons, lowerStmts]
        rw [if_pos rfl] at hlower
        rw [hlower]
        simp only [Option.bind_eq_bind, Option.bind_some]
        rw [hothers]
        rfl
      · rw [List.flatMap_cons, ← List.append_assoc]
        refine List.Sublist.trans (List.Sublist.append_right ?_ _) hsub
        exact (List.sublist_append_left _ _).append (.refl _)

/-- The statements of the threads are lowered one after the other. -/
theorem lowerStmts_of_tagged {xs : List (PlainStmt × TidSet)}
    {st st' : ScratchSpace × InstrGraph}
    (h : xs.foldlM (lowerTagged concThreads) st = some st') :
    ∃ lowered, lowerStmts st.1 ((xs.map Prod.fst).map (·, concThreads)) = some (st'.1, lowered) ∧
      st'.2.imetas.map Prod.fst =
        st.2.imetas.map Prod.fst ++ lowered.flatMap LoweredStmt.instrs ∧
      st.2.globalimetas.Sublist st'.2.globalimetas := by
  induction xs generalizing st with
  | nil =>
      obtain rfl := Option.some.inj h
      exact ⟨[], rfl, by simp, .refl _⟩
  | cons x xs ih =>
      rw [List.foldlM_cons] at h
      obtain ⟨mid, hstep, hrest⟩ := Option.bind_eq_some_iff.mp h
      obtain ⟨⟨lowered, instrs⟩, hlower, hret⟩ := Option.bind_eq_some_iff.mp hstep
      obtain rfl := Option.some.inj hret
      obtain ⟨others, hothers, hmap, hsub⟩ := ih hrest
      refine ⟨⟨x.1, instrs⟩ :: others, ?_, ?_, (List.sublist_append_left _ _).trans hsub⟩
      · rw [List.map_cons, List.map_cons, lowerStmts, hlower]
        simp only [Option.bind_eq_bind, Option.bind_some]
        rw [hothers]
        rfl
      · rw [hmap, List.map_append, List.map_map, List.flatMap_cons, List.append_assoc]
        simp [Function.comp_def]

/-- The instructions of an accepted program are those of its statements, with the setup of
constants among the global ones. -/
theorem lowerStmts_of_programToIrp
    (accepted : programToIrp program numThreads concThreads = some irp) :
    ∃ globals threads,
      lowerStmts .empty (program.lowerOrder concThreads) = some (irp.ss, globals ++ threads) ∧
      (globals.flatMap LoweredStmt.instrs).Sublist irp.graph.globalimetas ∧
      irp.graph.imetas.map Prod.fst = threads.flatMap LoweredStmt.instrs := by
  have hcore := map_core_programToIrp program numThreads concThreads
  rw [accepted, Option.map_some] at hcore
  obtain ⟨irp₀, hglobal, hthread⟩ := Option.bind_eq_some_iff.mp hcore.symm
  obtain ⟨himetas, -⟩ := foldlM_handlePlain_global hglobal
  obtain ⟨globals, hglobals, hsub⟩ := lowerStmts_of_global hglobal
  obtain ⟨threads, hthreads, hmap, hsub'⟩ := lowerStmts_of_tagged hthread
  rw [inForceStmts_threadPlain] at hthreads
  refine ⟨globals, threads, ?_, hsub.trans hsub', ?_⟩
  · exact lowerStmts_append hglobals hthreads
  · have himetas : irp₀.core.2.imetas = [] := himetas
    rw [himetas] at hmap
    exact hmap

end Order

section Declarations

/-- The scratch space holds exactly the declared variables, each as long as its type says. -/
def Declares (ds : List (VarType × String)) (ss : ScratchSpace) : Prop :=
  ∀ varType name, (varType, name) ∈ ds ↔
    ∃ vm, ss.varMetaOf (.var name) = some vm ∧ (vm.isVector = true ↔ varType = .registers)

/-- The same variables, whatever constants there are. -/
def SameVars (ss ss' : ScratchSpace) : Prop :=
  ∀ name, ss'.varMetaOf (.var name) = ss.varMetaOf (.var name)

variable {ss ss' ss'' : ScratchSpace} {ds : List (VarType × String)} {n : ℕ}

theorem SameVars.trans (h : SameVars ss ss') (h' : SameVars ss' ss'') : SameVars ss ss'' :=
  fun name => (h' name).trans (h name)

theorem sameVars_handleConst {st st' : Lowered} {v : ℤ} {isVector : Bool} {op : LogicalOp}
    (h : st.handleConst v isVector = some (st', op)) : SameVars st.ss st'.ss := by
  obtain ⟨⟨ss, firstTime⟩, halloc, hret⟩ := Option.bind_eq_some_iff.mp h
  obtain ⟨rfl, -⟩ := Prod.mk.inj (Option.some.inj hret)
  rw [ScratchSpace.allocConst] at halloc
  split at halloc
  · obtain ⟨rfl, -⟩ := Prod.mk.inj (Option.some.inj halloc)
    exact fun _ => rfl
  · obtain ⟨ss₁, hscratch, heq⟩ := Option.map_eq_some_iff.mp halloc
    obtain ⟨rfl, -⟩ := Prod.mk.inj heq
    exact fun name => ScratchSpace.varMetaOf_allocScratch_of_ne hscratch nofun

theorem sameVars_addrOf {st st' : Lowered} {original : VarOrConstant} {isVector : Bool}
    {op : LogicalOp} (h : st.addrOf original isVector = some (st', op)) :
    SameVars st.ss st'.ss := by
  cases original with
  | var name =>
      obtain ⟨op', -, hret⟩ := Option.bind_eq_some_iff.mp h
      obtain ⟨rfl, -⟩ := Prod.mk.inj (Option.some.inj hret)
      exact fun _ => rfl
  | const intconst => exact sameVars_handleConst h

theorem sameVars_handleSelect {st st' : Lowered} {lname : String} {cond : Condition}
    {ifTrue ifFalse : VarOrConstant} {instrs : List LogicalInstruction}
    (h : st.handleSelect lname cond ifTrue ifFalse = some (st', instrs)) :
    SameVars st.ss st'.ss := by
  cases cond with
  | var name =>
      obtain ⟨caddr, -, h⟩ := Option.bind_eq_some_iff.mp h
      obtain ⟨⟨st₁, lbranch⟩, hl, h⟩ := Option.bind_eq_some_iff.mp h
      obtain ⟨⟨st₂, rbranch⟩, hr, hret⟩ := Option.bind_eq_some_iff.mp h
      obtain ⟨rfl, -⟩ := Prod.mk.inj (Option.some.inj hret)
      exact (sameVars_addrOf hl).trans (sameVars_addrOf hr)
  | cmp left op right =>
      obtain ⟨⟨st₁, l1⟩, h1, h⟩ := Option.bind_eq_some_iff.mp h
      obtain ⟨⟨st₂, r1⟩, h2, h⟩ := Option.bind_eq_some_iff.mp h
      obtain ⟨caddr, -, h⟩ := Option.bind_eq_some_iff.mp h
      obtain ⟨⟨st₃, lbranch⟩, hl, h⟩ := Option.bind_eq_some_iff.mp h
      obtain ⟨⟨st₄, rbranch⟩, hr, h⟩ := Option.bind_eq_some_iff.mp h
      obtain ⟨_, -, hret⟩ := Option.bind_eq_some_iff.mp h
      obtain ⟨rfl, -⟩ := Prod.mk.inj (Option.some.inj hret)
      exact ((sameVars_addrOf h1).trans (sameVars_addrOf h2)).trans
        ((sameVars_addrOf hl).trans (sameVars_addrOf hr))

/-- An assignment declares nothing. -/
theorem sameVars_handleVariableAssignment {st st' : Lowered} {lname : String} {rvalue : ValueExpr}
    {instrs : List LogicalInstruction}
    (h : st.handleVariableAssignment lname rvalue = some (st', instrs)) :
    SameVars st.ss st'.ss := by
  obtain ⟨vm, -, h⟩ := Option.bind_eq_some_iff.mp h
  cases rvalue with
  | derefIndividualWords rname =>
      obtain ⟨_, -, h⟩ := Option.bind_eq_some_iff.mp h
      obtain ⟨_, -, hret⟩ := Option.bind_eq_some_iff.mp h
      obtain ⟨rfl, -⟩ := Prod.mk.inj (Option.some.inj hret)
      exact fun _ => rfl
  | derefVariable rname =>
      obtain ⟨addr, -, hret⟩ := Option.bind_eq_some_iff.mp h
      obtain ⟨rfl, -⟩ := Prod.mk.inj (Option.some.inj hret)
      exact fun _ => rfl
  | derefConstant intconst =>
      obtain ⟨⟨st₁, addr⟩, hconst, hret⟩ := Option.bind_eq_some_iff.mp h
      obtain ⟨rfl, -⟩ := Prod.mk.inj (Option.some.inj hret)
      exact sameVars_handleConst hconst
  | binOp left op right =>
      obtain ⟨⟨st₁, r1⟩, h1, h⟩ := Option.bind_eq_some_iff.mp h
      obtain ⟨⟨st₂, r2⟩, h2, hret⟩ := Option.bind_eq_some_iff.mp h
      obtain ⟨rfl, -⟩ := Prod.mk.inj (Option.some.inj hret)
      exact (sameVars_addrOf h1).trans (sameVars_addrOf h2)
  | multAdd factor1 factor2 add =>
      obtain ⟨_, -, h⟩ := Option.bind_eq_some_iff.mp h
      obtain ⟨r1, -, h⟩ := Option.bind_eq_some_iff.mp h
      obtain ⟨⟨st₁, r2⟩, h2, h⟩ := Option.bind_eq_some_iff.mp h
      obtain ⟨⟨st₂, r3⟩, h3, hret⟩ := Option.bind_eq_some_iff.mp h
      obtain ⟨rfl, -⟩ := Prod.mk.inj (Option.some.inj hret)
      exact (sameVars_addrOf h2).trans (sameVars_addrOf h3)
  | select cond ifTrue ifFalse =>
      obtain ⟨_, -, h⟩ := Option.bind_eq_some_iff.mp h
      exact sameVars_handleSelect h
  | intConstant intconst =>
      dsimp only at h
      split at h
      · obtain ⟨⟨st₁, src⟩, hconst, hret⟩ := Option.bind_eq_some_iff.mp h
        obtain ⟨rfl, -⟩ := Prod.mk.inj (Option.some.inj hret)
        exact sameVars_handleConst hconst
      · obtain ⟨rfl, -⟩ := Prod.mk.inj (Option.some.inj h)
        exact fun _ => rfl
  | «variable» rname index =>
      obtain ⟨rhs, -, hret⟩ := Option.bind_eq_some_iff.mp h
      obtain ⟨rfl, -⟩ := Prod.mk.inj (Option.some.inj hret)
      exact fun _ => rfl

theorem sameVars_handleStoreMemory {st st' : Lowered} {lname : String} {value : ValueExpr}
    {instrs : List LogicalInstruction}
    (h : st.handleStoreMemory lname value = some (st', instrs)) : SameVars st.ss st'.ss := by
  cases value with
  | «variable» rname index =>
      obtain ⟨vm, -, h⟩ := Option.bind_eq_some_iff.mp h
      obtain ⟨addr, -, hret⟩ := Option.bind_eq_some_iff.mp h
      obtain ⟨rfl, -⟩ := Prod.mk.inj (Option.some.inj hret)
      exact fun _ => rfl
  | _ => cases h

theorem Declares.sameVars (h : Declares ds ss) (same : SameVars ss ss') : Declares ds ss' := by
  intro varType name
  rw [same name]
  exact h varType name

/-- A registration declares one variable. -/
theorem Declares.registerVariable {varType : VarType} {name : String} (h : Declares ds ss)
    (hreg : registerVariable ss varType n name = some ss') :
    Declares (ds ++ [(varType, name)]) ss' := by
  have hscratch : ss.allocScratch (.var name) (if varType = .registers then VLEN else 1) n =
      some ss' := by
    cases varType <;> exact hreg
  have hfresh := (ScratchSpace.allocScratch_eq_some hscratch).1
  intro varType' name'
  rw [List.mem_append, List.mem_singleton, h varType' name']
  by_cases hname : name' = name
  · subst hname
    have hnew := ScratchSpace.varMetaOf_allocScratch hscratch
    simp only [hfresh, hnew, reduceCtorEq, false_and, exists_false, false_or, Prod.mk.injEq,
      and_true, Option.some.injEq, exists_eq_left', VariableMeta.isVector, decide_eq_true_eq]
    cases varType <;> cases varType' <;> simp [VLEN]
  · have hold := ScratchSpace.varMetaOf_allocScratch_of_ne hscratch
      (show ScratchName.var name' ≠ .var name by simpa using hname)
    simp [hold, hname]

theorem Declares.foldlM {varType : VarType} {names : List String} (h : Declares ds ss)
    (hreg : names.foldlM (Takehome.registerVariable · varType n) ss = some ss') :
    Declares (ds ++ names.map (varType, ·)) ss' := by
  induction names generalizing ss ds with
  | nil =>
      obtain rfl := Option.some.inj hreg
      rwa [List.map_nil, List.append_nil]
  | cons name names ih =>
      rw [List.foldlM_cons] at hreg
      obtain ⟨ss₁, hfirst, hrest⟩ := Option.bind_eq_some_iff.mp hreg
      have := ih (h.registerVariable hfirst) hrest
      rwa [List.append_assoc] at this

theorem Declares.lowerPlain {stmt : PlainStmt} {lowered : Lowered}
    {instrs : List LogicalInstruction} (h : Declares ds ss)
    (hlower : lowerPlain ss n stmt = some (lowered, instrs)) :
    Declares (ds ++ stmt.declared) lowered.ss := by
  cases stmt with
  | variableDeclaration varType name otherNames =>
      obtain ⟨ss₁, hreg, hret⟩ := Option.bind_eq_some_iff.mp hlower
      obtain ⟨rfl, -⟩ := Prod.mk.inj (Option.some.inj hret)
      exact h.foldlM hreg
  | variableDefinition varType name value =>
      obtain ⟨ss₁, hreg, hvalue⟩ := Option.bind_eq_some_iff.mp hlower
      exact (h.registerVariable hreg).sameVars (sameVars_handleVariableAssignment hvalue)
  | loadVariable name value =>
      rw [PlainStmt.declared, List.append_nil]
      exact h.sameVars (sameVars_handleVariableAssignment hlower)
  | storeMemory name value =>
      rw [PlainStmt.declared, List.append_nil]
      exact h.sameVars (sameVars_handleStoreMemory hlower)
  | pause =>
      obtain ⟨rfl, -⟩ := Prod.mk.inj (Option.some.inj hlower)
      rwa [PlainStmt.declared, List.append_nil]

/-- Lowering declares the variables that the statements declare. -/
theorem Declares.lowerStmts {xs : List (PlainStmt × ℕ)} {stmts : List LoweredStmt}
    (h : Declares ds ss) (hlower : lowerStmts ss xs = some (ss', stmts)) :
    Declares (ds ++ (xs.map Prod.fst).flatMap PlainStmt.declared) ss' := by
  induction xs generalizing ss ds stmts with
  | nil =>
      obtain ⟨rfl, -⟩ := Prod.mk.inj (Option.some.inj hlower)
      rwa [List.map_nil, List.flatMap_nil, List.append_nil]
  | cons x xs ih =>
      obtain ⟨⟨lowered, instrs⟩, hstmt, hlower⟩ := Option.bind_eq_some_iff.mp hlower
      obtain ⟨⟨ss₁, others⟩, hrest, hret⟩ := Option.bind_eq_some_iff.mp hlower
      obtain ⟨rfl, -⟩ := Prod.mk.inj (Option.some.inj hret)
      have := ih (h.lowerPlain hstmt) hrest
      rwa [List.map_cons, List.flatMap_cons, ← List.append_assoc]

theorem declares_empty : Declares [] .empty := by
  intro varType name
  simp [ScratchSpace.varMetaOf, ScratchSpace.empty]

/-- The types of the variables are those declared. -/
theorem Declares.typedAs (h : Declares ds ss) :
    TypedAs ss fun name => (VarType.registers, name) ∈ ds := by
  intro name vm hvm
  refine Iff.trans ?_ (h .registers name).symm
  simp [hvm]

end Declarations

end Explore.Takehome
