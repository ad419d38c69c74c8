import Explore.Takehome.InstrGraph
import Explore.Takehome.Slots

/-!
# The estimate of concurrent threads

`estimate_max_conc_threads` lowers a program for two concurrent threads and extrapolates from
the words that are left. Every further thread takes the words of the variables that the threads
declare, so the estimate is exact for lowering. It leaves out the constant that `get_tidmetas`
allocates for more than `2 * VLEN` threads, and it fails where two threads do not fit.
-/

namespace Explore.Takehome

open Capacity

/-- `estimate_max_conc_threads`. Where two threads do not fit, it calls `__program_to_work`,
which does not exist. -/
def estimateMaxConcThreads (program : Program) (numThreads : ℕ) : Option ℕ := do
  let irp ← programToIrp program numThreads 2
  guard (irp.ss.perThreadSpace ≠ 0)
  return min (2 + irp.ss.freeSpace / irp.ss.perThreadSpace) numThreads

/-- `program_to_work` raises `InsufficientRegisterCountException` on a program that is accepted
for one concurrent thread. Lowering it for more makes the same checks, so that it fails only
when it runs out of scratch space; then `get_tidmetas` may need a new constant. -/
def RunsOutOfScratch (program : Program) (numThreads concThreads : ℕ) : Prop :=
  match programToIrp program numThreads concThreads with
  | none => True
  | some irp => irp.ss.hasVariable tidxlen = true ∧ 2 * VLEN < concThreads ∧
      irp.ss.allocConst 2 true = none

/-- The plain statements of the threads, in source order. -/
def Program.threadPlain (program : Program) : List PlainStmt :=
  (reachStmts (fun _ => true) program.threadStmts).map Prod.fst

/-- The words that the threads declare in each slot. -/
def Program.declaredWords (program : Program) : ℕ :=
  (program.threadPlain.map PlainStmt.declaredWords).sum

/-- The words that lowering uses for several concurrent threads, where `one` is the program
lowered for one. -/
def IRPipeline.wordsFor (one : IRPipeline) (program : Program) (concThreads : ℕ) : ℕ :=
  one.ss.size + (concThreads - 1) * program.declaredWords

section Blocks

variable {slots : ℕ}

/-- The words of the blocks: one slot of each variable, and the further slots of those that
have several. -/
theorem layout_size {blocks : List VariableMeta} {ptr : ℕ} (h : Layout blocks ptr)
    (hshaped : ∀ vm ∈ blocks, vm.Shaped slots) (hslots : 1 ≤ slots) :
    ptr = (blocks.map VariableMeta.length).sum +
      (slots - 1) * ((blocks.filter fun vm => vm.slots > 1).map VariableMeta.length).sum := by
  induction blocks generalizing ptr with
  | nil => simpa [Layout] using h
  | cons vm blocks ih =>
      obtain ⟨hptr, -, hrest⟩ := h
      have hvm := hshaped vm List.mem_cons_self
      have haddr := ih hrest fun old hold => hshaped old (List.mem_cons_of_mem _ hold)
      obtain ⟨more, rfl⟩ := Nat.exists_eq_add_of_le' hslots
      rw [Nat.add_sub_cancel] at haddr ⊢
      rw [VariableMeta.size] at hptr
      by_cases hone : vm.slots = 1
      · have hfilter : (vm :: blocks).filter (fun vm => vm.slots > 1) =
            blocks.filter fun vm => vm.slots > 1 := List.filter_cons_of_neg (by simp [hone])
        rw [hfilter, List.map_cons, List.sum_cons]
        rw [hone] at hptr
        omega
      · have hmany : vm.slots = more + 1 := hvm.slots.resolve_left hone
        have hfilter : (vm :: blocks).filter (fun vm => vm.slots > 1) =
            vm :: blocks.filter fun vm => vm.slots > 1 :=
          List.filter_cons_of_pos (by simp only [decide_eq_true_eq]; omega)
        rw [hfilter, List.map_cons, List.map_cons, List.sum_cons, List.sum_cons, Nat.mul_add]
        rw [hmany, Nat.add_mul] at hptr
        omega

theorem ScratchSpace.Shaped.size_eq {ss : ScratchSpace} (h : ss.Shaped slots) (hslots : 1 ≤ slots) :
    ss.size = (ss.varMeta.map VariableMeta.length).sum + (slots - 1) * ss.perThreadSpace :=
  layout_size ss.layout h hslots

theorem SameBlocks.sum_length {extra : ℕ} {one many : ScratchSpace}
    (h : SameBlocks extra one many) :
    (many.varMeta.map VariableMeta.length).sum = (one.varMeta.map VariableMeta.length).sum := by
  have hlengths := congrArg (List.map Prod.snd) h.keys
  rw [List.map_map, List.map_map] at hlengths
  exact congrArg List.sum hlengths

end Blocks

section Lowering

variable {program : Program} {numThreads concThreads : ℕ} {one : IRPipeline}

theorem inForceStmts_threadPlain (program : Program) (numThreads : ℕ) :
    (inForceStmts numThreads INFINITE_SET program.threadStmts).map Prod.fst =
      program.threadPlain :=
  inForceStmts_fst (fun _ => true) INFINITE_SET program.threadStmts

/-- Lowering statements of the threads for several slots adds the same instructions, if it
fits. -/
theorem foldlM_lowerTagged_follows {extra slots : ℕ} {xs : List (PlainStmt × TidSet)}
    {ss ss' : ScratchSpace} {graph graph' : InstrGraph} {m : Option ScratchSpace}
    (h : ss.Fit extra m) (hslots : 1 ≤ slots)
    (hone : xs.foldlM (lowerTagged 1) (ss, graph) = some (ss', graph')) :
    ∃ many, (m.bind fun ss => xs.foldlM (lowerTagged slots) (ss, graph)) = many.map (·, graph') ∧
      ss'.Fit (extra + (slots - 1) * ((xs.map Prod.fst).map PlainStmt.declaredWords).sum) many := by
  induction xs generalizing ss graph m extra with
  | nil =>
      obtain ⟨rfl, rfl⟩ := Prod.mk.inj (Option.some.inj hone)
      refine ⟨m, ?_, by simpa using h⟩
      cases m <;> rfl
  | cons tagged xs ih =>
      rw [List.foldlM_cons] at hone
      obtain ⟨mid, hstep, hrest⟩ := Option.bind_eq_some_iff.mp hone
      obtain ⟨⟨lowered, instrs⟩, hlower, hret⟩ := Option.bind_eq_some_iff.mp hstep
      obtain rfl := Option.some.inj hret
      obtain ⟨many, hmany, hfits⟩ := lowerPlain_follows h hslots hlower
      have hfits' : lowered.ss.Fit (extra + (slots - 1) * tagged.1.declaredWords)
          (many.map Lowered.ss) := by
        obtain ⟨st', rfl, halong⟩ | ⟨rfl, hover⟩ := hfits
        · exact Or.inl ⟨_, rfl, halong.blocks⟩
        · exact Or.inr ⟨rfl, hover⟩
      obtain ⟨many', hmany', hfits''⟩ := ih hfits' hrest
      refine ⟨many', ?_, ?_⟩
      · have hcons : (m.bind fun ss => (tagged :: xs).foldlM (lowerTagged slots) (ss, graph)) =
            (m.bind (lowerPlain · slots tagged.1)).bind fun result =>
              xs.foldlM (lowerTagged slots) (result.1.ss,
                ⟨graph.globalimetas ++ result.1.setup,
                  graph.imetas ++ result.2.map (·, tagged.2)⟩) := by
          rw [Option.bind_assoc]
          refine congrArg m.bind (funext fun ss => ?_)
          rw [List.foldlM_cons]
          exact Option.bind_assoc _ _ _
        rw [hcons, hmany, ← hmany']
        obtain ⟨st', rfl, halong⟩ | ⟨rfl, -⟩ := hfits
        · simp only [Option.map_some, Option.bind_some, halong.setup]
        · rfl
      · rw [List.map_cons, List.map_cons, List.sum_cons, Nat.mul_add, ← Nat.add_assoc]
        exact hfits''

/-- A program that is accepted for one concurrent thread is lowered for more, with the same
blocks, exactly when that fits. -/
theorem programToIrp_follows (hone : programToIrp program numThreads 1 = some one)
    (hconc : 1 ≤ concThreads) :
    (∃ many, programToIrp program numThreads concThreads = some many ∧
      SameBlocks ((concThreads - 1) * program.declaredWords) one.ss many.ss) ∨
    (programToIrp program numThreads concThreads = none ∧
      SCRATCH_SIZE < one.wordsFor program concThreads) := by
  have hcore := map_core_programToIrp program numThreads 1
  rw [hone, Option.map_some] at hcore
  obtain ⟨irp₀, hglobal, hthread⟩ := Option.bind_eq_some_iff.mp hcore.symm
  obtain ⟨many, hmany, hfits⟩ := foldlM_lowerTagged_follows (m := some irp₀.ss)
    (Or.inl ⟨_, rfl, SameBlocks.refl irp₀.ss⟩) hconc hthread
  rw [inForceStmts_threadPlain, Nat.zero_add] at hfits
  have hglobal' : program.globalStmts.foldlM (IRPipeline.handlePlain concThreads true) .new =
      some irp₀ := hglobal
  have hcore' := map_core_programToIrp program numThreads concThreads
  rw [hglobal', Option.bind_some] at hcore'
  have heq : (programToIrp program numThreads concThreads).map IRPipeline.core =
      many.map (·, one.graph) := hcore'.trans hmany
  obtain ⟨ss, rfl, hsame⟩ | ⟨rfl, hover⟩ := hfits
  · obtain ⟨irp, hirp, hpair⟩ := Option.map_eq_some_iff.mp heq
    obtain ⟨rfl, -⟩ := Prod.mk.inj hpair
    exact Or.inl ⟨irp, hirp, hsame⟩
  · exact Or.inr ⟨Option.map_eq_none_iff.mp heq, hover⟩

theorem programToIrp_eq_none_iff (hone : programToIrp program numThreads 1 = some one)
    (hconc : 1 ≤ concThreads) :
    programToIrp program numThreads concThreads = none ↔
      SCRATCH_SIZE < one.wordsFor program concThreads := by
  obtain ⟨many, hmany, hsame⟩ | ⟨hnone, hover⟩ := programToIrp_follows hone hconc
  · have hfits : one.wordsFor program concThreads ≤ SCRATCH_SIZE := by
      rw [IRPipeline.wordsFor, ScratchSpace.size, ← hsame.size]
      exact many.ss.fits
    rw [hmany]
    exact ⟨fun h => by simp at h, fun h => absurd h (Nat.not_lt.mpr hfits)⟩
  · exact ⟨fun _ => hover, fun _ => hnone⟩

theorem perThreadSpace_eq (hone : programToIrp program numThreads 1 = some one) {two : IRPipeline}
    (htwo : programToIrp program numThreads 2 = some two) :
    two.ss.size = one.wordsFor program 2 ∧ two.ss.perThreadSpace = program.declaredWords := by
  obtain ⟨many, hmany, hsame⟩ | ⟨hnone, -⟩ := programToIrp_follows hone (by decide : 1 ≤ 2)
  · obtain rfl := Option.some.inj (htwo.symm.trans hmany)
    have hsize : two.ss.size = one.wordsFor program 2 := hsame.size
    have htwoShaped : two.ss.Shaped 2 := (wellTyped_of_programToIrp htwo).shaped
    have honeShaped : one.ss.Shaped 1 := (wellTyped_of_programToIrp hone).shaped
    have htwoSize := htwoShaped.size_eq (by decide)
    have honeSize := honeShaped.size_eq (by decide)
    have hlengths := hsame.sum_length
    refine ⟨hsize, ?_⟩
    rw [IRPipeline.wordsFor] at hsize
    omega
  · rw [htwo] at hnone
    simp at hnone

/-- The largest number of threads that the words left by two threads allow. -/
theorem estimateMaxConcThreads_eq (hone : programToIrp program numThreads 1 = some one)
    (hdeclared : 0 < program.declaredWords) :
    estimateMaxConcThreads program numThreads =
      if one.wordsFor program 2 ≤ SCRATCH_SIZE then
        some (min (2 + (SCRATCH_SIZE - one.wordsFor program 2) / program.declaredWords) numThreads)
      else none := by
  unfold estimateMaxConcThreads
  cases htwo : programToIrp program numThreads 2 with
  | none =>
      have hover := (programToIrp_eq_none_iff hone (by decide)).mp htwo
      rw [if_neg (Nat.not_le.mpr hover)]
      rfl
  | some two =>
      have hfits : one.wordsFor program 2 ≤ SCRATCH_SIZE := by
        by_contra hover
        have hnone := (programToIrp_eq_none_iff hone (by decide)).mpr (Nat.not_le.mp hover)
        rw [htwo] at hnone
        simp at hnone
      obtain ⟨hsize, hperThread⟩ := perThreadSpace_eq hone htwo
      rw [if_pos hfits, ← hsize, ← hperThread]
      simp [ScratchSpace.freeSpace, hperThread, Nat.pos_iff_ne_zero.mp hdeclared]

theorem allocConst_eq_none_iff {ss : ScratchSpace} {v : ℤ} {isVector : Bool} :
    ss.allocConst v isVector = none ↔ ss.hasVariable (.const v isVector) = false ∧
      SCRATCH_SIZE < ss.size + if isVector then VLEN else 1 := by
  unfold ScratchSpace.allocConst
  cases hhas : ss.hasVariable (.const v isVector) with
  | true => simp
  | false =>
      have hfresh : ss.varMetaOf (.const v isVector) = none := by
        simpa [ScratchSpace.hasVariable] using hhas
      rw [if_neg (by simp), Option.map_eq_none_iff, ← Option.not_isSome_iff_eq_none,
        ScratchSpace.allocScratch_isSome]
      simp [hfresh, ScratchSpace.size]

/-- The scratch space runs out in lowering, or at the constant of `get_tidmetas`. -/
theorem runsOutOfScratch_iff (hone : programToIrp program numThreads 1 = some one)
    (hconc : 1 ≤ concThreads) :
    RunsOutOfScratch program numThreads concThreads ↔
      SCRATCH_SIZE < one.wordsFor program concThreads ∨
        (one.ss.hasVariable tidxlen = true ∧ one.ss.hasVariable (.const 2 true) = false ∧
          2 * VLEN < concThreads ∧ SCRATCH_SIZE < one.wordsFor program concThreads + VLEN) := by
  unfold RunsOutOfScratch
  obtain ⟨many, hmany, hsame⟩ | ⟨hnone, hover⟩ := programToIrp_follows hone hconc
  · have hsize : many.ss.size = one.wordsFor program concThreads := hsame.size
    have hfits := many.ss.fits
    rw [hmany]
    dsimp only
    rw [allocConst_eq_none_iff, hsame.hasVariable, hsame.hasVariable, hsize]
    constructor
    · rintro ⟨htidxlen, hlarge, hfresh, hover⟩
      exact Or.inr ⟨htidxlen, hfresh, hlarge, hover⟩
    · rintro (hover | ⟨htidxlen, hfresh, hlarge, hover⟩)
      · rw [← hsize] at hover
        exact absurd hfits (Nat.not_le.mpr hover)
      · exact ⟨htidxlen, hlarge, hfresh, hover⟩
  · rw [hnone]
    exact ⟨fun _ => Or.inl hover, fun _ => trivial⟩

end Lowering

/-- The estimate is the largest number of concurrent threads for which the scratch space does
not run out. -/
def EstimateIsGreatest (program : Program) (numThreads : ℕ) : Prop :=
  ∃ conc, estimateMaxConcThreads program numThreads = some conc ∧
    IsGreatest {c | 1 ≤ c ∧ c ≤ numThreads ∧ ¬ RunsOutOfScratch program numThreads c} conc

/-- The largest number of threads that can be lowered, up to `numThreads`, leaves no room for a
vector constant 2 that the program does not use and `get_tidmetas` needs. -/
def NoRoomForTidConstant (program : Program) (numThreads : ℕ) (one : IRPipeline) : Prop :=
  one.ss.hasVariable tidxlen = true ∧ one.ss.hasVariable (.const 2 true) = false ∧
    ∃ conc, 2 * VLEN < conc ∧ conc ≤ numThreads ∧ one.wordsFor program conc ≤ SCRATCH_SIZE ∧
      SCRATCH_SIZE < one.wordsFor program conc + VLEN ∧
      (conc = numThreads ∨ SCRATCH_SIZE < one.wordsFor program (conc + 1))

theorem wordsFor_le_iff {program : Program} {one : IRPipeline}
    (hdeclared : 0 < program.declaredWords)
    (htwo : one.wordsFor program 2 ≤ SCRATCH_SIZE) {conc : ℕ} (hconc : 1 ≤ conc) :
    one.wordsFor program conc ≤ SCRATCH_SIZE ↔
      conc ≤ 2 + (SCRATCH_SIZE - one.wordsFor program 2) / program.declaredWords := by
  obtain ⟨more, rfl⟩ := Nat.exists_eq_add_of_le' hconc
  have hdiv := Nat.le_div_iff_mul_le (x := more - 1) (y := SCRATCH_SIZE - one.wordsFor program 2)
    hdeclared
  have hsecond : (2 - 1) * program.declaredWords = program.declaredWords := Nat.one_mul _
  unfold IRPipeline.wordsFor at htwo hdiv ⊢
  rw [hsecond] at htwo hdiv ⊢
  rw [Nat.add_sub_cancel]
  obtain rfl | ⟨rest, rfl⟩ : more = 0 ∨ ∃ rest, more = rest + 1 := by
    cases more with
    | zero => exact Or.inl rfl
    | succ rest => exact Or.inr ⟨rest, rfl⟩
  · omega
  · rw [Nat.add_sub_cancel] at hdiv
    rw [Nat.add_mul, Nat.one_mul]
    omega

theorem declaredWords_pos {program : Program}
    (hdeclares : ∃ stmt ∈ program.threadPlain, 0 < stmt.declaredWords) :
    0 < program.declaredWords := by
  obtain ⟨stmt, hstmt, hpos⟩ := hdeclares
  exact List.sum_pos_iff_exists_pos_nat.mpr
    ⟨stmt.declaredWords, List.mem_map_of_mem hstmt, hpos⟩

/-- The estimate is right exactly when two threads fit and the constant of `get_tidmetas` finds
room beside the threads that do. -/
theorem estimateIsGreatest_iff (program : Program) (numThreads : ℕ) (one : IRPipeline)
    (hone : programToIrp program numThreads 1 = some one)
    (hdeclares : ∃ stmt ∈ program.threadPlain, 0 < stmt.declaredWords) (hthreads : 1 ≤ numThreads) :
    EstimateIsGreatest program numThreads ↔
      one.wordsFor program 2 ≤ SCRATCH_SIZE ∧ ¬ NoRoomForTidConstant program numThreads one := by
  have hdeclared := declaredWords_pos hdeclares
  have hestimate := estimateMaxConcThreads_eq hone hdeclared
  by_cases htwo : one.wordsFor program 2 ≤ SCRATCH_SIZE
  · rw [if_pos htwo] at hestimate
    have hfits {conc : ℕ} (hconc : 1 ≤ conc) := wordsFor_le_iff hdeclared htwo hconc
    generalize hmost : 2 + (SCRATCH_SIZE - one.wordsFor program 2) / program.declaredWords = most
      at hestimate hfits
    have hmost : 2 ≤ most := hmost ▸ Nat.le_add_right 2 _
    have hpos : 1 ≤ min most numThreads := by omega
    refine ⟨?_, ?_⟩
    · rintro ⟨conc, hconc, ⟨-, -, hruns⟩, -⟩
      obtain rfl := Option.some.inj (hestimate.symm.trans hconc)
      refine ⟨htwo, ?_⟩
      rintro ⟨htidxlen, hfresh, conc, hlarge, hle, hroom, hover, hlast⟩
      have hconcMost := (hfits (by omega)).mp hroom
      have hconc : conc = min most numThreads := by
        obtain rfl | hnext := hlast
        · omega
        · have hnot := mt (hfits (by omega)).mpr (Nat.not_le.mpr hnext)
          omega
      rw [hconc] at hlarge hover
      exact hruns ((runsOutOfScratch_iff hone hpos).mpr (Or.inr ⟨htidxlen, hfresh, hlarge, hover⟩))
    · rintro ⟨-, hroom⟩
      refine ⟨_, hestimate, ⟨hpos, Nat.min_le_right _ _, fun hruns => ?_⟩, ?_⟩
      · have hmin := (hfits hpos).mpr (Nat.min_le_left _ _)
        obtain hover | ⟨htidxlen, hfresh, hlarge, hover⟩ :=
          (runsOutOfScratch_iff hone hpos).mp hruns
        · omega
        · refine hroom ⟨htidxlen, hfresh, _, hlarge, Nat.min_le_right _ _, hmin, hover, ?_⟩
          by_cases hn : min most numThreads = numThreads
          · exact Or.inl hn
          · refine Or.inr (Nat.not_le.mp fun hnext => ?_)
            have := (hfits (by omega)).mp hnext
            omega
      · rintro conc ⟨hconc, hle, hruns⟩
        have hover := mt (fun h => (runsOutOfScratch_iff hone hconc).mpr (Or.inl h)) hruns
        exact Nat.le_min.mpr ⟨(hfits hconc).mp (Nat.not_lt.mp hover), hle⟩
  · rw [if_neg htwo] at hestimate
    refine ⟨?_, fun h => absurd h.1 htwo⟩
    rintro ⟨conc, hconc, -⟩
    rw [hestimate] at hconc
    simp at hconc

/-- Seventeen threads of this program take 1530 of the 1536 words. -/
def crowded : Program where
  globalStmts := []
  threadStmts :=
    [.plain (.variableDeclaration .register "tidxlen" ["p"]),
      .plain (.variableDeclaration .registers "a"
        ["b", "c", "d", "e", "f", "g", "h", "i", "j", "k"])]

/-- The estimate for seventeen threads is seventeen, but then the constant of `get_tidmetas`
does not fit. -/
theorem not_estimateIsGreatest_crowded :
    (programToIrp crowded 17 1).isSome ∧ (∃ stmt ∈ crowded.threadPlain, 0 < stmt.declaredWords) ∧
      estimateMaxConcThreads crowded 17 = some 17 ∧ RunsOutOfScratch crowded 17 17 ∧
      ¬ EstimateIsGreatest crowded 17 := by
  have hestimate : estimateMaxConcThreads crowded 17 = some 17 := by decide +kernel
  have hruns : RunsOutOfScratch crowded 17 17 := by
    have hirp : ((programToIrp crowded 17 17).map fun irp =>
        irp.ss.hasVariable tidxlen && (irp.ss.allocConst 2 true).isNone) = some true := by
      decide +kernel
    obtain ⟨irp, heq, hcheck⟩ := Option.map_eq_some_iff.mp hirp
    obtain ⟨htidxlen, hnone⟩ := Bool.and_eq_true_iff.mp hcheck
    rw [RunsOutOfScratch, heq]
    exact ⟨htidxlen, by decide, Option.isNone_iff_eq_none.mp hnone⟩
  refine ⟨by decide +kernel, ⟨_, List.mem_cons_self, by decide⟩, hestimate, hruns, ?_⟩
  rintro ⟨conc, hconc, ⟨-, -, hfits⟩, -⟩
  obtain rfl := Option.some.inj (hestimate.symm.trans hconc)
  exact hfits hruns

/-- A program with a scalar for each thread. -/
def oneScalar : Program where
  globalStmts := [.variableDefinition .register "g" (.intConstant (.numberString false [7]))]
  threadStmts :=
    [.plain (.variableDefinition .register "x"
        (.binOp (.var "g") .add (.const (.numberString false [2])))),
      .plain (.storeMemory "x" (.variable "g" none))]

theorem estimateIsGreatest_oneScalar : EstimateIsGreatest oneScalar 64 := by
  obtain ⟨one, hone⟩ := Option.isSome_iff_exists.mp
    (show (programToIrp oneScalar 64 1).isSome by decide +kernel)
  have hwords : ((programToIrp oneScalar 64 1).map fun one =>
      (one.wordsFor oneScalar 2, one.ss.hasVariable tidxlen)) = some (4, false) := by decide +kernel
  rw [hone] at hwords
  obtain ⟨htwo, htidxlen⟩ := Prod.mk.inj (Option.some.inj hwords)
  refine (estimateIsGreatest_iff oneScalar 64 one hone
    ⟨_, List.mem_cons_self, by decide⟩ (by decide)).mpr ⟨?_, ?_⟩
  · rw [htwo]
    decide
  · rintro ⟨hhas, -⟩
    rw [htidxlen] at hhas
    simp at hhas

end Explore.Takehome
