import Explore.Takehome.Kernel
import Explore.Takehome.LoweringMeans

/-!
# The compiled kernel

The statements of the kernel are among those that lowering reads as they say. So its instructions
leave in memory what the reference computes.
-/

namespace Explore.Takehome

section Compiled

variable {height n rounds : ℕ} {program : Program}

theorem IsKernel.not_misread (h : IsKernel height n rounds program) :
    ∀ stmt ∈ program.plainStmts, ¬ stmt.Misread program.isRegisters :=
  fun stmt hstmt => PlainStmt.not_misread (h.moves stmt hstmt)

theorem IsKernel.register (h : IsKernel height n rounds program) :
    (.registers, "tidxlen") ∉ program.declared := by
  rw [h.declared]
  decide

theorem IsKernel.sameReach (h : IsKernel height n rounds program) (hthreads : n ≤ 100) :
    SameReach n (inForceStmts n INFINITE_SET program.threadStmts)
      (reachStmts (fun _ => true) program.threadStmts) :=
  (h.gives.placed hthreads).sameReach

end Compiled

section Runs

variable {t : Tree} {inp : Input} {n concThreads : ℕ} {program : Program} {irp : IRPipeline}
  {ss : ScratchSpace} {imetas : List InstrMeta} {m : Machine}

/-- For every perfect tree and every batch of whole vectors at the root, and every number of
concurrent threads for which there are enough registers: the instructions of the kernel, executed
one at a time, leave in memory the values of the reference, and everything else as it was. -/
theorem runList_inputToProgram (hperfect : t.values.length = 2 ^ (t.height + 1) - 1)
    (hroot : inp.indices = List.replicate inp.values.length 0)
    (hbatch : inp.values.length = VLEN * n) (hn : 0 < n) (hthreads : n ≤ 100)
    (hfits : (buildMemImage t inp).length ≤ 2 ^ 32)
    (hprogram : inputToProgram t.height inp.values.length inp.rounds = some program)
    (positive : 0 < concThreads)
    (accepted : programToIrp program n concThreads = some irp)
    (work : getWork irp.ss irp.graph n concThreads = some (ss, imetas))
    (hscratch : m.scratch.length = SCRATCH_SIZE) (hmem : m.mem = memWords t inp) :
    ∃ inp' effects m', referenceKernel t inp = some inp' ∧
      m.runList ss concThreads imetas = some (effects, m') ∧
      m'.mem = memWords t { inp with values := inp'.values } := by
  have hkernel := isKernel_of_inputToProgram hbatch hn hprogram
  obtain ⟨inp', final, href, hfinal, hvalues⟩ := hkernel.interpret hperfect hroot hbatch hn hfits
  obtain ⟨irp₀, tidmetas, moreglobal, lowers, order⟩ := exists_lowers accepted work positive
    (hkernel.sameReach hthreads) hkernel.not_misread hkernel.register
  rw [← hmem] at hfinal
  obtain ⟨effects, m', hrun, h⟩ := lowers.runList_means order hscratch hfinal
  exact ⟨inp', effects, m', href, hrun, (h 0).mem.trans hvalues⟩

/-- Three nodes, and an item for each lane of 32 vectors. -/
def smallTree : Tree := ⟨1, [5, 6, 7]⟩

def smallBatch : Input := ⟨List.replicate 256 0, List.range 256, 2⟩

def smallMachine : Machine := ⟨List.replicate SCRATCH_SIZE 0, memWords smallTree smallBatch⟩

theorem check_small : ((inputToProgram 1 256 2).bind fun program =>
    (programToIrp program 32 2).bind fun irp =>
      (getWork irp.ss irp.graph 32 2).map (irp, ·)).isSome := by
  decide +kernel

/-- Two rounds on two levels of a tree, and registers for two threads at a time. -/
theorem runList_inputToProgram_small :
    ∃ program irp ss imetas inp' effects m', inputToProgram 1 256 2 = some program ∧
      programToIrp program 32 2 = some irp ∧ getWork irp.ss irp.graph 32 2 = some (ss, imetas) ∧
      referenceKernel smallTree smallBatch = some inp' ∧
      smallMachine.runList ss 2 imetas = some (effects, m') ∧
      m'.mem = memWords smallTree { smallBatch with values := inp'.values } := by
  obtain ⟨accepted, haccepted⟩ := Option.isSome_iff_exists.mp check_small
  obtain ⟨program, hprogram, haccepted⟩ := Option.bind_eq_some_iff.mp haccepted
  obtain ⟨irp, hirp, haccepted⟩ := Option.bind_eq_some_iff.mp haccepted
  obtain ⟨⟨ss, imetas⟩, hwork, -⟩ := Option.map_eq_some_iff.mp haccepted
  have hlength : smallBatch.values.length = 256 := by simp only [smallBatch, List.length_range]
  have hgenerated : inputToProgram 1 smallBatch.values.length 2 = some program := by
    rw [hlength]
    exact hprogram
  have hfits : (buildMemImage smallTree smallBatch).length ≤ 2 ^ 32 := by decide +kernel
  have hroot : smallBatch.indices = List.replicate smallBatch.values.length 0 := by
    rw [hlength]
    rfl
  have hmem : smallMachine.mem = memWords smallTree smallBatch := by rw [smallMachine]
  obtain ⟨inp', effects, m', hruns⟩ := runList_inputToProgram (t := smallTree) (n := 32) (by decide)
    hroot hlength (by decide) (by decide) hfits hgenerated (by decide) hirp hwork
    List.length_replicate hmem
  exact ⟨program, irp, ss, imetas, inp', effects, m', hprogram, hirp, hwork, hruns⟩

end Runs

end Explore.Takehome
