import Explore.Takehome.ConstantsFound

/-!
# From programs to bundles

`optimize` lowers a program, gives all threads their instructions and packs them. The bundles
do on the machine what the list of all instructions does one at a time, and so what the program
says. That needs the accesses to a word of memory to be ordered by the computed dependencies,
which are about the scratch space only, and no constant to be borrowed for `tidxlen`.
-/

namespace Explore.Takehome

open GreedyWorkPacker

/-- `work_to_instrs`, in at most `fuel` rounds. -/
def workToInstrs (env : PackerEnv) (fuel : ℕ) (imetas : List InstrMeta) :
    Option (List Instruction) := do
  let st ← GreedyWorkPacker.new env imetas
  let (st, cycles) ← rounds env fuel st
  let (_, more) ← st.haveMore env
  if more then none else return cycles.map Cycle.insts

/-- `print`, of which only the number of concurrent threads can fail: it is the largest number of
slots of a variable, and raises an error when there is no variable. -/
def ScratchSpace.print (ss : ScratchSpace) : Option ℕ :=
  (ss.varMeta.map VariableMeta.slots).max?

/-- `stats_for_nerds`, whose counts of instructions cannot fail. -/
def statsForNerds (_insts : List Instruction) (ss : ScratchSpace) : Option Unit := do
  let _ ← ss.print

/-- `optimize`, for an order in which the packer's loops over `free` may visit it. -/
def optimize (visits : List InstrMeta → List InstrMeta)
    (subperm : ∀ free, (visits free).Subperm free) (program : Program)
    (numThreads concThreads fuel : ℕ) : Option (List Instruction × ScratchSpace) := do
  let (ss, imetas) ← programToWork program numThreads concThreads
  let insts ← workToInstrs ⟨ss, numThreads, concThreads, visits, subperm⟩ fuel imetas
  statsForNerds insts ss
  return (insts, ss)

/-- The statistics fail just when nothing was allocated. -/
theorem statsForNerds_eq (insts : List Instruction) (ss : ScratchSpace) :
    statsForNerds insts ss = if ss.varMeta = [] then none else some () := by
  by_cases hnone : ss.varMeta = []
  · simp [statsForNerds, ScratchSpace.print, hnone]
  · obtain ⟨slots, hslots⟩ : ∃ slots, ss.print = some slots :=
      Option.ne_none_iff_exists'.mp fun h => hnone (by simpa [ScratchSpace.print] using h)
    simp [statsForNerds, hslots, hnone]

section Run

variable {env : PackerEnv} {program : Program} {irp : IRPipeline} {imetas : List InstrMeta}
  {effects : List Effect} {m m' : Machine}

/-- The packer comes to an end, and has issued everything. -/
theorem exists_workToInstrs
    (accepted : programToIrp program env.numThreads env.concThreads = some irp)
    (work : getWork irp.ss irp.graph env.numThreads env.concThreads = some (env.ss, imetas))
    (num : env.numThreads ≤ 100) (short : ∀ x ∈ imetas, x.instidInThread < 100000)
    (few : FewEmpty env.concThreads imetas) :
    ∃ st₀ n st cycles, GreedyWorkPacker.new env imetas = some st₀ ∧
      rounds env n st₀ = some (st, cycles) ∧ st.free = [] ∧ st.frontier = [] ∧
      ∀ fuel, n ≤ fuel → workToInstrs env fuel imetas = some (cycles.map Cycle.insts) := by
  obtain ⟨st₀, n, st, cycles, nodes, pending, hnew, hrun, hfree, hnext, -, inv, hsequence, -,
    hledger, hgate⟩ := exists_run accepted work num short
  have hstop := haveMore_of_free_nil inv hfree
  have hfrontier := frontier_nil_of_fewEmpty work hnext inv hsequence hledger hgate few hfree
  refine ⟨st₀, n, st, cycles, hnew, hrun, hfree, hfrontier, fun fuel hfuel => ?_⟩
  rw [workToInstrs, hnew]
  simp only [Option.bind_eq_bind, Option.bind_some, rounds_of_le hrun hstop hfuel, hstop]
  rfl

end Run

section Programs

variable {visits : List InstrMeta → List InstrMeta}
  {subperm : ∀ free, (visits free).Subperm free} {program : Program} {numThreads concThreads : ℕ}
  {irp : IRPipeline} {ss : ScratchSpace} {imetas : List InstrMeta} {effects : List Effect}
  {m m' : Machine}

theorem optimize_eq (accepted : programToIrp program numThreads concThreads = some irp)
    (work : getWork irp.ss irp.graph numThreads concThreads = some (ss, imetas)) {fuel : ℕ}
    {insts : List Instruction}
    (h : workToInstrs ⟨ss, numThreads, concThreads, visits, subperm⟩ fuel imetas = some insts) :
    optimize visits subperm program numThreads concThreads fuel =
      if ss.varMeta = [] then none else some (insts, ss) := by
  simp only [optimize, programToWork, accepted, work, Option.bind_eq_bind, Option.bind_some, h,
    Option.pure_def, statsForNerds_eq]
  split <;> rfl

/-- For every accepted program in which every thread may start in time, and every order of
visits: the packer ends, and the bundles lead every machine to where the list of all
instructions leads it one at a time, when the list orders the accesses to each word of memory
and no slots of `tidxlen` are set in advance. With no variable `optimize` fails after that, in
the statistics. -/
theorem optimize_agrees (accepted : programToIrp program numThreads concThreads = some irp)
    (work : getWork irp.ss irp.graph numThreads concThreads = some (ss, imetas))
    (num : numThreads ≤ 100) (short : ∀ x ∈ imetas, x.instidInThread < 100000)
    (few : FewEmpty concThreads imetas)
    (tids : irp.ss.hasVariable tidxlen = false ∨ concThreads ≤ 2 * VLEN) :
    ∃ n insts,
      (∀ fuel, n ≤ fuel →
        workToInstrs ⟨ss, numThreads, concThreads, visits, subperm⟩ fuel imetas = some insts ∧
        optimize visits subperm program numThreads concThreads fuel =
          if ss.varMeta = [] then none else some (insts, ss)) ∧
      ∀ (m : Machine) effects m', m.scratch.length = SCRATCH_SIZE →
        m.runList ss concThreads imetas = some (effects, m') → MemOrdered imetas effects →
          m.run insts = some m' := by
  let env : PackerEnv := ⟨ss, numThreads, concThreads, visits, subperm⟩
  have henv : programToIrp program env.numThreads env.concThreads = some irp := accepted
  have hwork : getWork irp.ss irp.graph env.numThreads env.concThreads = some (env.ss, imetas) :=
    work
  obtain ⟨st₀, n, st, cycles, hnew, hrun, hfree, hfrontier, hinsts⟩ :=
    exists_workToInstrs henv hwork num short few
  refine ⟨n, _, fun fuel hfuel => ⟨hinsts fuel hfuel,
    optimize_eq accepted work (hinsts fuel hfuel)⟩, ?_⟩
  intro m effects m' hlength run ordered
  have constants := addsConstants henv hwork tids hlength run
  exact bundles_run henv hwork hnew hrun hfree hfrontier run ordered constants

/-- For every accepted program in which every thread may start in time, and every order of
visits: the packer ends, and the bundles do with the memory and with the global variables what
the program says. `optimize` returns them when there is a variable. -/
theorem optimize_interpret (accepted : programToIrp program numThreads concThreads = some irp)
    (work : getWork irp.ss irp.graph numThreads concThreads = some (ss, imetas))
    (num : numThreads ≤ 100) (short : ∀ x ∈ imetas, x.instidInThread < 100000)
    (few : FewEmpty concThreads imetas)
    (tids : irp.ss.hasVariable tidxlen = false ∨ concThreads ≤ 2 * VLEN)
    (positive : 0 < concThreads)
    (reach : SameReach numThreads (inForceStmts numThreads INFINITE_SET program.threadStmts)
      (reachStmts (fun _ => true) program.threadStmts))
    (read : ∀ stmt ∈ program.plainStmts, ¬ stmt.Misread program.isRegisters)
    (register : (.registers, "tidxlen") ∉ program.declared) :
    ∃ n insts,
      (∀ fuel, n ≤ fuel →
        workToInstrs ⟨ss, numThreads, concThreads, visits, subperm⟩ fuel imetas = some insts ∧
        optimize visits subperm program numThreads concThreads fuel =
          if ss.varMeta = [] then none else some (insts, ss)) ∧
      ∀ (m : Machine) final, m.scratch.length = SCRATCH_SIZE →
        program.interpret numThreads m.mem = some final →
        (∀ effects m', m.runList ss concThreads imetas = some (effects, m') →
          MemOrdered imetas effects) →
        ∃ m', m.run insts = some m' ∧ m'.mem = final.mem ∧
          ∀ name ws, program.isGlobal name → final.store name = some ws → ∀ slot,
            m'.wordsOf ss slot name = some ws := by
  let env : PackerEnv := ⟨ss, numThreads, concThreads, visits, subperm⟩
  have henv : programToIrp program env.numThreads env.concThreads = some irp := accepted
  have hwork : getWork irp.ss irp.graph env.numThreads env.concThreads = some (env.ss, imetas) :=
    work
  obtain ⟨st₀, n, st, cycles, hnew, hrun, hfree, hfrontier, hinsts⟩ :=
    exists_workToInstrs henv hwork num short few
  refine ⟨n, _, fun fuel hfuel => ⟨hinsts fuel hfuel,
    optimize_eq accepted work (hinsts fuel hfuel)⟩, ?_⟩
  intro m final hlength hfinal ordered
  obtain ⟨irp₀, tidmetas, moreglobal, lowers, order⟩ :=
    exists_lowers accepted work positive reach read register
  obtain ⟨effects, m', run, agrees⟩ := lowers.runList_means order hlength hfinal
  have constants := addsConstants henv hwork tids hlength run
  have hbundles := bundles_run henv hwork hnew hrun hfree hfrontier run (ordered effects m' run)
    constants
  refine ⟨m', hbundles, (agrees 0).mem, fun name ws hglobal hws slot => ?_⟩
  refine (agrees slot).vars name ws ?_
  rw [← hws]
  exact if_pos hglobal

/-- A program without variables has bundles, none, and no statistics. -/
example : optimize id (fun _ => .refl _) ⟨[], []⟩ 1 1 0 = none := by decide +kernel

end Programs

section Examples

/-- The words of memory that an instruction accesses. -/
def memAddrs (f : Effect) : List ℕ :=
  (f.reads.map Prod.fst ++ f.writes.map Prod.fst).filterMap fun
    | .mem addr => some addr
    | .scratch _ => none

/-- Where no word is accessed twice, nothing has to be ordered. -/
theorem memOrdered_of_apart {imetas : List InstrMeta} {effects : List Effect}
    (apart : effects.Pairwise fun f g => ∀ a ∈ memAddrs f, a ∉ memAddrs g) :
    MemOrdered imetas effects := by
  have hmem {f : Effect} {a : ℕ} (h : f.Reads (.mem a) ∨ f.Writes (.mem a)) : a ∈ memAddrs f := by
    refine List.mem_filterMap.mpr ⟨.mem a, ?_, rfl⟩
    exact List.mem_append.mpr h
  intro i j f g hf hg hij clash
  obtain ⟨hi, rfl⟩ := List.getElem?_eq_some_iff.mp hf
  obtain ⟨hj, rfl⟩ := List.getElem?_eq_some_iff.mp hg
  have hapart := List.pairwise_iff_getElem.mp apart i j hi hj hij
  obtain ⟨a, ⟨hw, hg⟩ | ⟨hw, hr⟩⟩ := clash
  · exact absurd (hmem hg) (hapart a (hmem (.inr hw)))
  · exact absurd (hmem (.inr hw)) (hapart a (hmem (.inl hr)))

/-- Each thread copies eight words of memory, and adds 1 to them. -/
def copied : Program where
  globalStmts := [.variableDefinition .register "length"
    (.intConstant (.numberString false [2, 4]))]
  threadStmts :=
    [.plain (.variableDeclaration .register "tidxlen" []),
      .plain (.variableDefinition .registers "x" (.derefVariable "tidxlen")),
      .plain (.loadVariable "x" (.binOp (.var "x") .add (.const (.numberString false [1])))),
      .plain (.loadVariable "tidxlen" (.binOp (.var "tidxlen") .add (.var "length"))),
      .plain (.storeMemory "tidxlen" (.variable "x" none))]

/-- The words 0 to 47. -/
def countingTo48 : Machine :=
  ⟨List.replicate SCRATCH_SIZE 0, (List.range 48).map fun i => word i⟩

theorem check_copied : (programToIrp copied 3 2).any fun irp =>
    (getWork irp.ss irp.graph 3 2).any fun work =>
      (countingTo48.runList work.1 2 work.2).any fun result =>
        decide (work.1.varMeta ≠ [] ∧ FewEmpty 2 work.2 ∧
          (∀ x ∈ work.2, x.instidInThread < 100000) ∧
          result.1.Pairwise fun f g => ∀ a ∈ memAddrs f, a ∉ memAddrs g) := by
  decide +kernel

theorem optimize_agrees_copied :
    ∃ irp ss imetas effects m' n insts, programToIrp copied 3 2 = some irp ∧
      getWork irp.ss irp.graph 3 2 = some (ss, imetas) ∧
      countingTo48.runList ss 2 imetas = some (effects, m') ∧
      optimize id (fun _ => .refl _) copied 3 2 n = some (insts, ss) ∧
      countingTo48.run insts = some m' := by
  obtain ⟨irp, accepted, hcheck⟩ := (Option.any_eq_true ..).mp check_copied
  obtain ⟨⟨ss, imetas⟩, hwork, hcheck⟩ := (Option.any_eq_true ..).mp hcheck
  obtain ⟨⟨effects, m'⟩, hrun, hcheck⟩ := (Option.any_eq_true ..).mp hcheck
  obtain ⟨hvars, hfew, hshort, hapart⟩ := of_decide_eq_true hcheck
  obtain ⟨n, insts, hinsts, hbundles⟩ := @optimize_agrees id (fun _ => .refl _) copied 3 2 irp ss
    imetas accepted hwork (by decide) hshort hfew (.inr (by decide))
  have hoptimize := (hinsts n (Nat.le_refl n)).2
  rw [if_neg hvars] at hoptimize
  exact ⟨irp, ss, imetas, effects, m', n, insts, accepted, hwork, hrun, hoptimize,
    hbundles countingTo48 effects m' List.length_replicate hrun (memOrdered_of_apart hapart)⟩

theorem sameReach_copied :
    SameReach 3 (inForceStmts 3 INFINITE_SET copied.threadStmts)
      (reachStmts (fun _ => true) copied.threadStmts) := by
  have below (tags refs : TidSet) (h : ∀ tid : Fin 3, tags tid.val = refs tid.val) :
      ∀ tid : ℕ, tid < 3 → tags tid = refs tid := fun tid htid => h ⟨tid, htid⟩
  exact .cons ⟨rfl, fun _ => below _ _ (by decide)⟩ (.cons ⟨rfl, fun _ => below _ _ (by decide)⟩
    (.cons ⟨rfl, fun _ => below _ _ (by decide)⟩ (.cons ⟨rfl, fun _ => below _ _ (by decide)⟩
      (.cons ⟨rfl, fun _ => below _ _ (by decide)⟩ .nil))))

theorem optimize_interpret_copied :
    ∃ final m' n insts ss, copied.interpret 3 countingTo48.mem = some final ∧
      optimize id (fun _ => .refl _) copied 3 2 n = some (insts, ss) ∧
      countingTo48.run insts = some m' ∧ m'.mem = final.mem := by
  obtain ⟨irp, accepted, hcheck⟩ := (Option.any_eq_true ..).mp check_copied
  obtain ⟨⟨ss, imetas⟩, hwork, hcheck⟩ := (Option.any_eq_true ..).mp hcheck
  obtain ⟨⟨effects, m'⟩, hrun, hcheck⟩ := (Option.any_eq_true ..).mp hcheck
  obtain ⟨hvars, hfew, hshort, hapart⟩ := of_decide_eq_true hcheck
  have hread : ∀ stmt ∈ copied.plainStmts, ¬ stmt.Misread copied.isRegisters := by
    intro stmt hstmt
    simp only [copied, Program.plainStmts, Program.threadPlain, reachStmts, reachStmt,
      List.cons_append, List.nil_append, List.map_cons, List.map_nil, List.mem_cons,
      List.not_mem_nil, or_false] at hstmt
    obtain rfl | rfl | rfl | rfl | rfl | rfl := hstmt <;> simp [PlainStmt.Misread]
  obtain ⟨final, hfinal⟩ := Option.isSome_iff_exists.mp
    (show (copied.interpret 3 countingTo48.mem).isSome by decide +kernel)
  obtain ⟨n, insts, hinsts, hbundles⟩ := @optimize_interpret id (fun _ => .refl _) copied 3 2 irp ss
    imetas accepted hwork (by decide) hshort hfew (.inr (by decide))
    (by decide) sameReach_copied hread (by decide)
  obtain ⟨m₁, hm₁, hmem, -⟩ := hbundles countingTo48 final List.length_replicate hfinal
    fun effects₁ m₁ hrun₁ => by
      obtain ⟨rfl, -⟩ := Prod.mk.inj (Option.some.inj (hrun.symm.trans hrun₁))
      exact memOrdered_of_apart hapart
  have hoptimize := (hinsts n (Nat.le_refl n)).2
  rw [if_neg hvars] at hoptimize
  exact ⟨final, m₁, n, insts, ss, hfinal, hoptimize, hm₁, hmem⟩

end Examples

end Explore.Takehome
