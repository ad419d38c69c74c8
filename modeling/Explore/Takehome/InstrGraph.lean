import Explore.Takehome.Lowering

/-!
# The instructions of all threads and their dependencies

`getWork` gives every thread its instructions, numbers all instructions in program
order (global ones first, then thread by thread), and computes for each the
instructions it unlocks. A forward pass makes each instruction depend on the last
writer of every word it touches; the same pass over the reversed list makes each
instruction unlock the next writer of every word it touches.
-/

namespace Explore.Takehome

def workSlotOf (tid : ℤ) (concThreads : ℕ) : ℤ := tid % concThreads

def tidxlen : ScratchName := .var "tidxlen"

/-- Sets the value of the vector constant register whose value is `srcVal` to `reqVal`. -/
def setConstant (srcVal reqVal : ℤ) : List LogicalInstruction :=
  [.const (scalarWithinVector (.const srcVal true) 0 false) reqVal,
    .vbroadcast (wholeVariable (.const srcVal true) true false)
      (scalarWithinVector (.const srcVal true) 0 true)]

/-- Where the vector additions that fill `tidxlen` start, from `npos` on. The last one
overlaps the one before when the number of threads is no multiple of `VLEN`. -/
def tidStarts (cthreads : ℕ) : ℕ → ℕ → List ℕ
  | 0, _ => []
  | fuel + 1, npos =>
      if npos < cthreads then
        let start := if npos + VLEN - 1 < cthreads then npos else cthreads - VLEN
        start :: tidStarts cthreads fuel (start + VLEN)
      else []

/-- The instruction that sets `tidxlen` at the start of thread `tid`. Threads outside
`INFINITE_SET` cannot be formed. -/
def tidMeta (tid : ℕ) : Option (ℕ × LogicalInstruction) :=
  if INFINITE_SET tid then
    some (tid, .const (wholeVariable tidxlen false false) (tid * VLEN : ℕ))
  else none

/-- `get_tidmetas`: the instructions that set `tidxlen` in each thread, and those that
set it for the first `concThreads` threads at once. -/
def getTidmetas (ss : ScratchSpace) (numThreads concThreads : ℕ) :
    Option (ScratchSpace × List (ℕ × LogicalInstruction) × List LogicalInstruction) := do
  guard (concThreads ≤ numThreads)
  if ¬ ss.hasVariable tidxlen then return (ss, [], [])
  if concThreads ≤ 2 * VLEN then
    return (ss, ← (List.range numThreads).mapM tidMeta, [])
  -- The register of the constant 2 holds `VLEN * VLEN` in between.
  let (ss, _) ← ss.allocConst 2 true
  let firsts ← (List.range VLEN).mapM fun i => do
    return .const (.array (← ArrayOp.of ss tidxlen i false false)) (i * VLEN : ℕ)
  let adds ← (tidStarts concThreads concThreads VLEN).mapM fun start => do
    return .valu .add (.array (← ArrayOp.of ss tidxlen start true false))
      (.array (← ArrayOp.of ss tidxlen (start - VLEN) true true))
      (wholeVariable (.const 2 true) true true)
  let tidspecific ← (List.range' concThreads (numThreads - concThreads)).mapM tidMeta
  return (ss, tidspecific,
    setConstant 2 (VLEN * VLEN : ℕ) ++ firsts ++ adds ++ setConstant 2 2)

/-- The instructions of thread `tid`, in order. -/
def threadInsts (graph : InstrGraph) (tidmetas : List (ℕ × LogicalInstruction)) (tid : ℕ) :
    List LogicalInstruction :=
  (tidmetas.filter fun entry => entry.1 = tid).map Prod.snd ++
    (graph.imetas.filter fun entry => entry.2 tid).map Prod.fst

/-- All instructions in program order, each with its `tid` and `instid_in_thread`. -/
def programOrder (graph : InstrGraph) (numThreads : ℕ) (tidmetas : List (ℕ × LogicalInstruction))
    (moreglobal : List LogicalInstruction) : List (LogicalInstruction × ℤ × ℤ) :=
  (moreglobal ++ graph.globalimetas).map (·, -1, -1) ++
    (List.range numThreads).flatMap fun tid =>
      (threadInsts graph tidmetas tid).zipIdx.map fun entry => (entry.1, (tid : ℤ), (entry.2 : ℤ))

/-- The words that an instruction touches, and those it is marked as writing. -/
structure Access where
  touched : List ℕ
  written : List ℕ

/-- The words of the operands of an instruction. -/
def accessOf (ss : ScratchSpace) (slot : ℤ) (lin : LogicalInstruction) : Option Access := do
  let registers ← lin.operands.mapM fun op => do return (op.isRead, (← op.range ss slot).values)
  return ⟨registers.flatMap Prod.snd, (registers.filter fun reg => !reg.1).flatMap Prod.snd⟩

/-- One dependency pass from instruction `idx` on: the pairs of the last writer of a
word and an instruction that touches it. -/
def dependencyPass (idx : ℕ) (lastWrite : ℕ → Option ℕ) : List Access → List (ℕ × ℕ)
  | [] => []
  | access :: accesses =>
      access.touched.filterMap (fun loc => (lastWrite loc).map (·, idx)) ++
        dependencyPass (idx + 1)
          (fun loc => if loc ∈ access.written then some idx else lastWrite loc) accesses

/-- The edges of both passes, from an instruction to one that it unlocks. -/
def dependencies (accesses : List Access) : List (ℕ × ℕ) :=
  let last := accesses.length - 1
  dependencyPass 0 (fun _ => none) accesses ++
    (dependencyPass 0 (fun _ => none) accesses.reverse).map fun edge =>
    (last - edge.2, last - edge.1)

/-- Add to a sorted set. -/
def addSorted (x : ℕ) : List ℕ → List ℕ
  | [] => [x]
  | y :: ys => if x < y then x :: y :: ys else if x = y then y :: ys else y :: addSorted x ys

/-- The ids that instruction `idx` unlocks. -/
def afterOf (edges : List (ℕ × ℕ)) (idx : ℕ) : List ℕ :=
  (edges.filter fun edge => edge.1 = idx).foldl (fun after edge => addSorted edge.2 after) []

/-- `get_work` up to the packer: the instructions in the order of their ids. -/
def getWork (ss : ScratchSpace) (graph : InstrGraph) (numThreads concThreads : ℕ) :
    Option (ScratchSpace × List InstrMeta) := do
  let (ss, tidmetas, moreglobal) ← getTidmetas ss numThreads concThreads
  let entries := programOrder graph numThreads tidmetas moreglobal
  -- `work_slot_of` divides by the number of concurrent threads.
  if concThreads = 0 ∧ entries ≠ [] then none
  let accesses ← entries.mapM fun entry =>
    accessOf ss (workSlotOf entry.2.1 concThreads) entry.1
  let edges := dependencies accesses
  return (ss, entries.zipIdx.map fun entry =>
    { instid := entry.2
      lin := entry.1.1
      tid := entry.1.2.1
      instidInThread := entry.1.2.2
      after := afterOf edges entry.2 })

/-- `program_to_work`, up to the packer. -/
def programToWork (program : Program) (numThreads concThreads : ℕ) :
    Option (ScratchSpace × List InstrMeta) := do
  let irp ← programToIrp program numThreads concThreads
  getWork irp.ss irp.graph numThreads concThreads

end Explore.Takehome
