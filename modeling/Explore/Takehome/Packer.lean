import Explore.Takehome.InstrGraph

/-!
# The greedy packer

`GreedyWorkPacker` issues the instructions of `getWork` in bundles. `free` holds the
instructions that may be issued now, in order of priority; `frontier` those whose
dependencies are met but whose thread may not start yet. Where an engine has slots
left, the packer splits vector instructions into scalar ones for the `alu` engine and
turns additions of constants into `add_imm` for the `flow` engine.

A loop over `free` whose body changes `free` visits what the iterator of the sorted
container then yields. Which elements these are is a parameter, `visits`: each is an
element of `free` when the loop starts, and none comes twice. (The pieces that the
body adds are skipped when they come up.) The display and the counters that only it
prints are left out.
-/

namespace Explore.Takehome

/-- What stays fixed while the packer runs. -/
structure PackerEnv where
  ss : ScratchSpace
  numThreads : ℕ
  concThreads : ℕ
  visits : List InstrMeta → List InstrMeta
  visits_subperm : ∀ free, (visits free).Subperm free

structure GreedyWorkPacker where
  imetas : List InstrMeta
  incount : List ℤ
  frontier : List InstrMeta
  free : List InstrMeta
  nextBatchTid : ℤ
  schedulableCountByTid : ℤ → ℤ

/-- The order in which `take` serves the engines. -/
def EX_UNITS : List Engine := [.valu, .alu, .load, .store, .flow]

section Priority

/-- The nearest instruction of a thread that `imeta` unlocks. -/
def nextRealInstid (allImetas : List InstrMeta) : ℕ → InstrMeta → List ℤ
  | 0, _ => [-1, -1, -1]
  | fuel + 1, imeta =>
      if imeta.tid ≥ 0 then [imeta.tid, imeta.instidInThread, imeta.instid]
      else
        let cands := imeta.after.filterMap fun nidx =>
          (allImetas[nidx]?).map (nextRealInstid allImetas fuel)
        (cands.foldl (fun best cand =>
          match best with
          | none => some cand
          | some b => some (if cand < b then cand else b)) none).getD [-1, -1, -1]

/-- The key of `imeta_priority_fn`: the block, the thread, the id and the instruction. -/
structure Priority where
  block : List ℤ
  tid : ℤ
  instid : ℕ
  lin : LogicalInstruction

def Priority.lt (a b : Priority) : Bool :=
  if a.block ≠ b.block then a.block < b.block
  else if a.tid ≠ b.tid then a.tid < b.tid
  else if a.instid ≠ b.instid then a.instid < b.instid
  else compare a.lin b.lin == .lt

/-- `block`, whose last checkpoint bounds the instructions of a thread. -/
def priorityBlock (imeta : InstrMeta) (allImetas : List InstrMeta) (concThreads : ℕ) :
    Option (List ℤ) :=
  if imeta.tid < 0 then some (0 :: nextRealInstid allImetas (allImetas.length + 1) imeta)
  else if imeta.instidInThread < 289 then
    some [0, workSlotOf imeta.tid concThreads, imeta.instidInThread]
  else if imeta.instidInThread < 100000 then
    some [1, workSlotOf imeta.tid concThreads, imeta.instidInThread]
  else none

def imetaPriorityFn (imeta : InstrMeta) (allImetas : List InstrMeta) (concThreads : ℕ) :
    Option Priority := do
  return ⟨← priorityBlock imeta allImetas concThreads, imeta.tid, imeta.instid, imeta.lin⟩

end Priority

namespace GreedyWorkPacker

variable (env : PackerEnv)

/-- Insert before the first element of lower priority. -/
def insertByPriority (key : InstrMeta → Option Priority) (priority : Priority) (x : InstrMeta) :
    List InstrMeta → List InstrMeta
  | [] => [x]
  | y :: ys =>
      if (key y).any priority.lt then x :: y :: ys
      else y :: insertByPriority key priority x ys

/-- `self.free.append`. The container is a set. -/
def freeAppend (st : GreedyWorkPacker) (x : InstrMeta) : Option GreedyWorkPacker := do
  let key := fun imeta => imetaPriorityFn imeta st.imetas env.concThreads
  let priority ← key x
  return { st with
    free := if x ∈ st.free then st.free else insertByPriority key priority x st.free }

/-- `self.free.remove`. -/
def freeRemove (st : GreedyWorkPacker) (x : InstrMeta) : Option GreedyWorkPacker :=
  if x ∈ st.free then some { st with free := st.free.erase x } else none

def freeExtend (st : GreedyWorkPacker) (xs : List InstrMeta) : Option GreedyWorkPacker :=
  xs.foldlM (freeAppend env) st

/-- `self.schedulable_count_by_tid[tid] += n`. -/
def addSchedulable (st : GreedyWorkPacker) (tid n : ℤ) : GreedyWorkPacker :=
  { st with
    schedulableCountByTid := fun t =>
      if t = tid then st.schedulableCountByTid t + n else st.schedulableCountByTid t }

/-- `self.incount[idx] += n`. -/
def addIncount (n : ℤ) (st : GreedyWorkPacker) (idx : ℕ) : Option GreedyWorkPacker := do
  let count ← st.incount[idx]?
  return { st with incount := st.incount.set idx (count + n) }

/-- Put an instruction whose dependencies are met where its thread allows. -/
def makeReady (st : GreedyWorkPacker) (imeta : InstrMeta) : Option GreedyWorkPacker := do
  let st ←
    if imeta.tid < st.nextBatchTid then st.freeAppend env imeta
    else some { st with frontier := st.frontier ++ [imeta] }
  return st.addSchedulable imeta.tid 1

/-- `__initialize`. -/
def initialize_ (st : GreedyWorkPacker) : Option GreedyWorkPacker := do
  let st ← (st.imetas.flatMap InstrMeta.after).foldlM (addIncount 1) st
  (List.range st.imetas.length).foldlM (fun st idx => do
    let imeta ← st.imetas[idx]?
    let count ← st.incount[idx]?
    if count = 0 then st.makeReady env imeta else return st) st

def new (imetas : List InstrMeta) : Option GreedyWorkPacker :=
  initialize_ env
    { imetas := imetas
      incount := List.replicate imetas.length 0
      frontier := []
      free := []
      nextBatchTid := env.concThreads
      schedulableCountByTid := fun _ => 0 }

/-- `__fall_down_to_free`. -/
def fallDownToFree (st : GreedyWorkPacker) : Option GreedyWorkPacker :=
  st.frontier.foldlM (fun st imeta => do
    if imeta.tid < st.nextBatchTid then
      let st ← st.freeAppend env imeta
      return { st with frontier := st.frontier.erase imeta }
    else return st) st

/-- What `__retire` does for one of the ids that a retired instruction unlocks. -/
def unlock (st : GreedyWorkPacker) (idx : ℕ) : Option GreedyWorkPacker := do
  let st ← st.addIncount (-1) idx
  let count ← st.incount[idx]?
  if count = 0 then st.makeReady env (← st.imetas[idx]?) else return st

/-- `__retire`. -/
def retire (st : GreedyWorkPacker) (imeta : InstrMeta) : Option GreedyWorkPacker := do
  let st ← st.freeRemove imeta
  let st := st.addSchedulable imeta.tid (-1)
  let newlyScheduledThreads :=
    decide (st.schedulableCountByTid imeta.tid = 0 ∧ st.nextBatchTid < env.numThreads)
  let st :=
    if newlyScheduledThreads then { st with nextBatchTid := st.nextBatchTid + 1 } else st
  let st ← imeta.after.foldlM (unlock env) st
  if newlyScheduledThreads then st.fallDownToFree env else return st

/-- The instructions of an engine that fit its slots, with their serialization. -/
def obtainForEngine (st : GreedyWorkPacker) (engine : Engine) (slots : ℕ) :
    Option (List SerializedInstruction × List InstrMeta) := do
  let toRetire := (st.free.filter fun imeta => imeta.lin.engine = engine).take slots
  let ret ← toRetire.mapM fun imeta =>
    toSerialized env.ss (workSlotOf imeta.tid env.concThreads) imeta.lin
  return (ret, toRetire)

section Split

/-- A new instruction with the ids and the thread of `imeta`; its thread must be in
the default `tidrange`. -/
def derive (imeta : InstrMeta) (lin : LogicalInstruction) (after : List ℕ) : Option InstrMeta :=
  if INFINITE_SET imeta.tid then some { imeta with lin := lin, after := after } else none

/-- Replace `imeta` in `free` by `VLEN` pieces with the same `after`. -/
def replaceByPieces (st : GreedyWorkPacker) (imeta : InstrMeta)
    (piece : Fin 8 → LogicalInstruction) :
    Option GreedyWorkPacker := do
  let nmetas ← (List.finRange 8).mapM fun i => derive imeta (piece i) imeta.after
  let st ← imeta.after.foldlM (addIncount (VLEN - 1)) st
  let st ← st.freeRemove imeta
  let st ← st.freeExtend env nmetas
  return st.addSchedulable imeta.tid (VLEN - 1)

/-- The registers that a split into lanes accepts. -/
def startsAtZero : LogicalOp → Bool
  | .array _ => true
  | .reg r => r.offset = 0

def splitOneFreeValuToAlu (st : GreedyWorkPacker) (imeta : InstrMeta) : Option GreedyWorkPacker :=
  match imeta.lin with
  | .valu op dest a b =>
      if startsAtZero dest ∧ startsAtZero a ∧ startsAtZero b then
        st.replaceByPieces env imeta fun i =>
          .alu op (dest.scalarAtOffset i) (a.scalarAtOffset i) (b.scalarAtOffset i)
      else none
  | _ => none

/-- The first half of a lane of a `multiply_add`, which unlocks the second half. -/
def mulHalf (imeta : InstrMeta) (clen : ℕ) (dest a b : LogicalOp) (i : Fin 8) : Option InstrMeta :=
  derive imeta (.alu .mul (dest.scalarAtOffset i) (a.scalarAtOffset i) (b.scalarAtOffset i))
    [clen + i]

/-- The second half of a lane of a `multiply_add`. -/
def addHalf (imeta : InstrMeta) (clen : ℕ) (dest c : LogicalOp) (i : Fin 8) : Option InstrMeta :=
  derive { imeta with instid := clen + i }
    (.alu .add (dest.scalarAtOffset i) (dest.scalarAtOffset i) (c.scalarAtOffset i)) imeta.after

/-- `__split_one_free_multiply_add`, with whether it split. -/
def splitOneFreeMultiplyAdd (st : GreedyWorkPacker) (imeta : InstrMeta) :
    Option (GreedyWorkPacker × Bool) :=
  match imeta.lin with
  | .multiplyAdd (.reg dest) (.reg a) (.reg b) (.reg c) => do
      guard (dest.offset = 0 ∧ a.offset = 0 ∧ b.offset = 0 ∧ c.offset = 0)
      if ← dest.overlaps c env.ss (workSlotOf imeta.tid env.concThreads) then return (st, false)
      let clen := st.imetas.length
      let first ← (List.finRange 8).mapM (mulHalf imeta clen (.reg dest) (.reg a) (.reg b))
      let second ← (List.finRange 8).mapM (addHalf imeta clen (.reg dest) (.reg c))
      let st := { st with
        imetas := st.imetas ++ second
        incount := st.incount ++ List.replicate VLEN 1 }
      let st ← imeta.after.foldlM (addIncount (VLEN - 1)) st
      let st ← st.freeRemove imeta
      let st ← st.freeExtend env first
      return (st.addSchedulable imeta.tid (VLEN - 1), true)
  | _ => none

/-- `__split_one_free_broadcast`, with whether it split. -/
def splitOneFreeBroadcast (st : GreedyWorkPacker) (imeta : InstrMeta) :
    Option (GreedyWorkPacker × Bool) :=
  match imeta.lin with
  | .vbroadcast (.reg dest) (.reg src) => do
      if ← dest.overlaps src env.ss (workSlotOf imeta.tid env.concThreads) then return (st, false)
      let st ← st.replaceByPieces env imeta fun i =>
        .alu .or (.reg (dest.scalarAtOffset i)) (.reg src) (.reg src)
      return (st, true)
  | _ => none

/-- The state of `__split_valu_into_alu`: what is split so far, and what is put off. -/
structure SplitLoop where
  st : GreedyWorkPacker
  soFar : ℕ
  mulAdds : List InstrMeta
  broadcasts : List InstrMeta

/-- One visit of the loop over `free` in `__split_valu_into_alu`. All operators are
short enough to be split. -/
def splitVisit (toSplit : ℕ) (taken : List InstrMeta) (loop : SplitLoop) (imeta : InstrMeta) :
    Option SplitLoop :=
  if loop.soFar ≥ toSplit then some loop
  else if imeta.lin.engine ≠ .valu ∨ imeta ∈ taken then some loop
  else
    match imeta.lin with
    | .multiplyAdd .. => some { loop with mulAdds := loop.mulAdds ++ [imeta] }
    | .vbroadcast .. => some { loop with broadcasts := loop.broadcasts ++ [imeta] }
    | _ => do return { loop with st := ← loop.st.splitOneFreeValuToAlu env imeta,
                                 soFar := loop.soFar + 1 }

/-- One visit of the loops over what was put off. -/
def splitDeferred (toSplit : ℕ)
    (splitOne : GreedyWorkPacker → InstrMeta → Option (GreedyWorkPacker × Bool))
    (acc : GreedyWorkPacker × ℕ) (imeta : InstrMeta) : Option (GreedyWorkPacker × ℕ) :=
  if acc.2 ≥ toSplit then some acc
  else do
    let (st, split) ← splitOne acc.1 imeta
    return (st, if split then acc.2 + 1 else acc.2)

/-- `__split_valu_into_alu`. -/
def splitValuIntoAlu (st : GreedyWorkPacker) (aluSlots : ℕ) (taken : List InstrMeta) :
    Option GreedyWorkPacker := do
  let toSplit := (aluSlots + VLEN - 1) / VLEN
  let loop ← (env.visits st.free).foldlM (splitVisit env toSplit taken) ⟨st, 0, [], []⟩
  let acc ← loop.broadcasts.foldlM (splitDeferred toSplit (splitOneFreeBroadcast env))
    (loop.st, loop.soFar)
  let acc ← loop.mulAdds.foldlM (splitDeferred toSplit (splitOneFreeMultiplyAdd env)) acc
  return acc.1

/-- `__split_one_vector_imm_add`, with whether it replaced the addition. -/
def splitOneVectorImmAdd (st : GreedyWorkPacker) (imeta : InstrMeta) :
    Option (GreedyWorkPacker × Bool) :=
  match imeta.lin with
  | .valu _ (.reg dest) (.reg a) (.reg b) => do
      let imm ← b.constantValue env.ss
      let st ← st.replaceByPieces env imeta fun i =>
        .addImm (.reg (dest.scalarAtOffset i)) (.reg (a.scalarAtOffset i)) imm
      return (st, true)
  | _ => some (st, false)

/-- `__convert_one_scalar_imm_add`. -/
def convertOneScalarImmAdd (st : GreedyWorkPacker) (imeta : InstrMeta) :
    Option GreedyWorkPacker :=
  match imeta.lin with
  | .alu _ dest a b => do
      let imm ← b.constantValue env.ss
      let nmeta ← derive imeta (.addImm dest a imm) imeta.after
      let st ← st.freeRemove imeta
      st.freeAppend env nmeta
  | _ => none

/-- The state of `__split_add_into_imm`, with the additions replaced so far. -/
structure ImmLoop where
  st : GreedyWorkPacker
  soFar : ℕ
  rewritten : List InstrMeta

/-- One visit of the loop of `__split_add_into_imm`. -/
def immVisit (toSplit : ℕ) (taken : List InstrMeta) (loop : ImmLoop) (imeta : InstrMeta) :
    Option ImmLoop :=
  if loop.soFar ≥ toSplit then some loop
  else if imeta ∈ taken then some loop
  else if imeta.isVectorImmAdd env.ss then do
    let (st, replaced) ← loop.st.splitOneVectorImmAdd env imeta
    return ⟨st, loop.soFar + 1, if replaced then loop.rewritten ++ [imeta] else loop.rewritten⟩
  else if imeta.isScalarImmAdd env.ss then do
    return ⟨← loop.st.convertOneScalarImmAdd env imeta, loop.soFar + 1, loop.rewritten ++ [imeta]⟩
  else some loop

/-- `__split_add_into_imm`, with the additions it replaced. -/
def splitAddIntoImm (st : GreedyWorkPacker) (flowSlots : ℕ) (taken : List InstrMeta) :
    Option (GreedyWorkPacker × List InstrMeta) := do
  let toSplit := (flowSlots + VLEN - 1) / VLEN
  let loop ← (env.visits st.free).foldlM (immVisit env toSplit taken) ⟨st, 0, []⟩
  return (loop.st, loop.rewritten)

end Split

/-- A cycle: the bundle, what it issues, and the additions replaced for it. -/
structure Cycle where
  insts : Instruction
  toRetire : List InstrMeta
  rewritten : List InstrMeta

/-- The part of `take` about one engine. -/
def takeEngine (acc : GreedyWorkPacker × Cycle) (engine : Engine) :
    Option (GreedyWorkPacker × Cycle) := do
  let (st, cycle) := acc
  let (cur, _) ← st.obtainForEngine env engine (SLOT_LIMITS engine)
  let remSlots := SLOT_LIMITS engine - cur.length
  let st ←
    if engine = .alu ∧ remSlots > 0 then st.splitValuIntoAlu env remSlots cycle.toRetire
    else some st
  let (st, rewritten) ←
    if engine = .flow ∧ remSlots > 0 then st.splitAddIntoImm env remSlots cycle.toRetire
    else some (st, [])
  let (cur, done) ← st.obtainForEngine env engine (SLOT_LIMITS engine)
  return (st, ⟨cycle.insts ++ [(engine, cur)], cycle.toRetire ++ done,
    cycle.rewritten ++ rewritten⟩)

/-- `take`. -/
def take (st : GreedyWorkPacker) : Option (GreedyWorkPacker × Cycle) := do
  let (st, cycle) ← EX_UNITS.foldlM (takeEngine env) (st, ⟨[], [], []⟩)
  return (← cycle.toRetire.foldlM (retire env) st, cycle)

/-- `have_more`, which may move instructions to `free`. -/
def haveMore (st : GreedyWorkPacker) : Option (GreedyWorkPacker × Bool) :=
  if st.free.length > 0 then some (st, true)
  else if st.frontier.length > 0 then do
    let st ← st.fallDownToFree env
    return (st, decide (st.free.length > 0))
  else some (st, false)

/-- At most `n` rounds of `while work.have_more(): work.take()`. -/
def rounds : ℕ → GreedyWorkPacker → Option (GreedyWorkPacker × List Cycle)
  | 0, st => some (st, [])
  | n + 1, st => do
      let (st, more) ← st.haveMore env
      if more then
        let (st, cycle) ← st.take env
        let (st, cycles) ← rounds n st
        return (st, cycle :: cycles)
      else return (st, [])

end GreedyWorkPacker

end Explore.Takehome
