import Explore.Takehome.Effects
import Explore.Takehome.Start

/-!
# The bundles of the packer

Every bundle keeps to the slots of the engines, and no slot reads or writes a scratch word
that another slot of the bundle writes. So what a bundle does to the scratch space does not
depend on the order of its slots, although all writes land at the end of the cycle.
-/

namespace Explore.Takehome

open Pending GreedyWorkPacker

/-- Neither of two slots writes a scratch word that the other reads or writes. -/
def HazardFree (a b : SerializedInstruction) : Prop :=
  (∀ loc ∈ a.targets, loc ∉ b.targets ∧ loc ∉ b.sources) ∧ ∀ loc ∈ b.targets, loc ∉ a.sources

/-- The same slots of the same engines in another order. -/
def SameSlots (bundle bundle' : Instruction) : Prop :=
  ∃ mid, bundle.Perm mid ∧
    List.Forall₂ (fun entry entry' => entry.1 = entry'.1 ∧ entry.2.Perm entry'.2) mid bundle'

/-- A bundle that the machine accepts and whose slots do not get in each other's way. -/
structure Legal (bundle : Instruction) : Prop where
  engines : bundle.map Prod.fst = EX_UNITS
  engine : ∀ entry ∈ bundle, ∀ slot ∈ entry.2, slot.engine = entry.1
  limits : ∀ entry ∈ bundle, entry.2.length ≤ SLOT_LIMITS entry.1
  hazardFree : (bundle.flatMap Prod.snd).Pairwise HazardFree
  order : ∀ (m : Machine) (bundle' : Instruction), SameSlots bundle bundle' →
    (m.step bundle').map Machine.scratch = (m.step bundle).map Machine.scratch

section Step

variable {m : Machine} {bundle bundle' : Instruction}

/-- The writes of some slots, each a list. -/
def slotWrites (m : Machine) (slots : List SerializedInstruction) :
    Option (List (List (Loc × Word))) :=
  slots.mapM (Inst.writes m.read)

/-- What the machine does with a bundle that keeps to its limits. -/
theorem step_eq (m : Machine) (engine : ∀ entry ∈ bundle, ∀ slot ∈ entry.2, slot.engine = entry.1)
    (limits : ∀ entry ∈ bundle, entry.2.length ≤ SLOT_LIMITS entry.1) :
    m.step bundle = (slotWrites m (bundle.flatMap Prod.snd)).bind fun writes =>
      writes.flatten.foldlM Machine.write m := by
  have hengine : ∀ entry ∈ bundle, m.engineWrites entry =
      (slotWrites m entry.2).map List.flatten := by
    rintro ⟨engine', slots⟩ hentry
    rw [Machine.engineWrites, if_pos (limits _ hentry)]
    congr 1
    exact mapM_congr fun slot hslot => if_pos (engine _ hentry slot hslot)
  rw [Machine.step, mapM_congr hengine, mapM_map_result, slotWrites, mapM_flatMap]
  change _ = ((bundle.mapM fun entry => slotWrites m entry.2).map List.flatten).bind _
  cases bundle.mapM fun entry => slotWrites m entry.2 with
  | none => rfl
  | some writes => simp [List.flatten_flatten]

variable {slots slots' : List SerializedInstruction}

/-- The writes of slots that do not get in each other's way meet in memory only. -/
theorem pairwise_writes {writes : List (List (Loc × Word))} (hazardFree : slots.Pairwise HazardFree)
    (h : slotWrites m slots = some writes) (addr : ℕ) : writes.Pairwise fun vs ws =>
      Loc.scratch addr ∉ vs.map Prod.fst ∨ Loc.scratch addr ∉ ws.map Prod.fst := by
  obtain ⟨hlength, hget⟩ := List.forall₂_iff_get.mp (forall₂_of_mapM h)
  refine List.pairwise_iff_getElem.mpr fun i j hi hj hij => ?_
  have hfree := List.pairwise_iff_getElem.mp hazardFree i j (by omega) (by omega) hij
  have hvs := Inst.map_fst_writes (hget i (by omega) hi)
  have hws := Inst.map_fst_writes (hget j (by omega) hj)
  simp only [List.get_eq_getElem] at hvs hws
  rw [hvs, hws]
  by_contra hboth
  simp only [List.mem_append, List.mem_map, Loc.scratch.injEq, reduceCtorEq, and_false,
    exists_false, or_false, exists_eq_right, not_or, not_not] at hboth
  exact (hfree.1 addr hboth.1).1 hboth.2

/-- What slots do to the scratch space does not depend on their order. -/
theorem land_perm {m' : Machine} (perm : slots.Perm slots') (hazardFree : slots.Pairwise HazardFree)
    (h : ((slotWrites m slots).bind fun writes => writes.flatten.foldlM Machine.write m) =
      some m') :
    ∃ m'', ((slotWrites m slots').bind fun writes => writes.flatten.foldlM Machine.write m) =
      some m'' ∧ m''.scratch = m'.scratch := by
  obtain ⟨writes, hwrites, hland⟩ := Option.bind_eq_some_iff.mp h
  obtain ⟨writes', hwrites', hperm⟩ := mapM_perm perm hwrites
  obtain ⟨hexist, hread⟩ := read_of_foldlM_write hland
  obtain ⟨m'', hland'⟩ := exists_foldlM_write fun w hw => hexist w (by
    rw [List.mem_flatten] at hw ⊢
    obtain ⟨ws, hws, hw⟩ := hw
    exact ⟨ws, hperm.mem_iff.mpr hws, hw⟩)
  obtain ⟨-, hread'⟩ := read_of_foldlM_write hland'
  refine ⟨m'', by rw [slotWrites, hwrites']; exact hland', List.ext_getElem? fun addr => ?_⟩
  have hsame := overwrite_perm (σ := m.read) hperm (pairwise_writes hazardFree hwrites addr)
  rw [← hread, ← hread'] at hsame
  exact hsame.symm

theorem HazardFree.symm {a b : SerializedInstruction} (h : HazardFree a b) : HazardFree b a :=
  ⟨fun loc hloc => ⟨fun ha => (h.1 loc ha).1 hloc, h.2 loc hloc⟩, fun loc hloc => (h.1 loc hloc).2⟩

theorem SameSlots.exists_entry (same : SameSlots bundle bundle') :
    ∀ entry' ∈ bundle', ∃ entry ∈ bundle, entry.1 = entry'.1 ∧ entry.2.Perm entry'.2 := by
  obtain ⟨mid, hperm, hall⟩ := same
  intro entry' hentry'
  obtain ⟨hlength, hget⟩ := List.forall₂_iff_get.mp hall
  obtain ⟨i, hi, rfl⟩ := List.getElem_of_mem hentry'
  exact ⟨mid[i], hperm.mem_iff.mpr (List.getElem_mem _), hget i (by omega) hi⟩

theorem SameSlots.perm (same : SameSlots bundle bundle') :
    (bundle.flatMap Prod.snd).Perm (bundle'.flatMap Prod.snd) := by
  obtain ⟨mid, hperm, hall⟩ := same
  refine (hperm.flatMap_right Prod.snd).trans ?_
  clear hperm
  induction hall with
  | nil => exact .refl _
  | cons hentry _ ih => exact hentry.2.append ih

/-- A bundle that keeps to its limits and is free of hazards does the same in every order. -/
theorem step_sameSlots (engine : ∀ entry ∈ bundle, ∀ slot ∈ entry.2, slot.engine = entry.1)
    (limits : ∀ entry ∈ bundle, entry.2.length ≤ SLOT_LIMITS entry.1)
    (hazardFree : (bundle.flatMap Prod.snd).Pairwise HazardFree)
    (same : SameSlots bundle bundle') (m : Machine) :
    (m.step bundle').map Machine.scratch = (m.step bundle).map Machine.scratch := by
  have engine' : ∀ entry ∈ bundle', ∀ slot ∈ entry.2, slot.engine = entry.1 := by
    intro entry' hentry' slot hslot
    obtain ⟨entry, hentry, heq, hperm⟩ := same.exists_entry entry' hentry'
    exact (engine entry hentry slot (hperm.mem_iff.mpr hslot)).trans heq
  have limits' : ∀ entry ∈ bundle', entry.2.length ≤ SLOT_LIMITS entry.1 := by
    intro entry' hentry'
    obtain ⟨entry, hentry, heq, hperm⟩ := same.exists_entry entry' hentry'
    rw [← hperm.length_eq, ← heq]
    exact limits entry hentry
  have hazardFree' : (bundle'.flatMap Prod.snd).Pairwise HazardFree :=
    same.perm.pairwise hazardFree fun h => h.symm
  rw [step_eq m engine limits, step_eq m engine' limits']
  generalize hland : ((slotWrites m (bundle.flatMap Prod.snd)).bind fun writes =>
    writes.flatten.foldlM Machine.write m) = o
  cases o with
  | some m' =>
      obtain ⟨m'', hland', hscratch⟩ := land_perm same.perm hazardFree hland
      rw [hland', Option.map_some, Option.map_some, hscratch]
  | none =>
      generalize hland' : ((slotWrites m (bundle'.flatMap Prod.snd)).bind fun writes =>
        writes.flatten.foldlM Machine.write m) = o'
      cases o' with
      | none => rfl
      | some m' =>
          obtain ⟨m'', hback, -⟩ := land_perm same.perm.symm hazardFree' hland'
          rw [hland] at hback
          cases hback

end Step

section Packer

variable {env : PackerEnv} {imetas : List InstrMeta} {cycle : Cycle} {engines : List Engine}

theorem Inst.engine_of_mapM {α β : Type} {f : α → Option β} {inst : Inst α} {inst' : Inst β}
    (h : inst.mapM f = some inst') : inst'.engine = inst.engine := by
  revert h
  cases inst <;>
    simp only [Inst.mapM, Option.bind_eq_bind, Option.bind_eq_some_iff, Option.pure_def,
      Option.some.injEq, forall_exists_index, and_imp] <;>
    intros <;> subst_vars <;> rfl

theorem hazardFree_of_not_conflicts {a b : SerializedInstruction} (h : ¬ a.Conflicts b) :
    HazardFree a b := by
  have htarget {i : SerializedInstruction} {loc : ℕ} (hloc : loc ∈ i.targets) :
      loc ∈ i.marked ∧ loc ∈ i.touched :=
    ⟨i.targets_subset_marked hloc, i.marked_subset_touched (i.targets_subset_marked hloc)⟩
  refine ⟨fun loc ha => ⟨fun hb => ?_, fun hb => ?_⟩, fun loc hb ha => ?_⟩
  · exact h ⟨loc, (htarget ha).2, (htarget hb).2, .inl (htarget ha).1⟩
  · exact h ⟨loc, (htarget ha).2, b.sources_subset_touched hb, .inl (htarget ha).1⟩
  · exact h ⟨loc, a.sources_subset_touched ha, (htarget hb).2, .inr (htarget hb).1⟩

/-- The slots of a bundle, one for each instruction that the cycle retires. -/
theorem slots_of_issuesAll (h : cycle.IssuesAll env) :
    List.Forall₂ (fun x inst => instOf env x = some inst) cycle.toRetire
      (cycle.insts.flatMap Prod.snd) := by
  obtain ⟨parts, hparts, hretire⟩ := h
  rw [hretire]
  generalize cycle.insts = insts at hparts
  clear hretire
  induction hparts with
  | nil => exact .nil
  | cons hserves _ ih => exact List.rel_append hserves.insts ih

theorem Gathered.legal {extra : InstrMeta → InstrMeta → Prop} (h : Gathered env EX_UNITS cycle)
    (apart : cycle.toRetire.Pairwise fun x y => ¬ Conflict env extra x y) : Legal cycle.insts := by
  have hserves : ∀ entry ∈ cycle.insts, ∃ done, Serves env entry done := by
    obtain ⟨parts, hparts, -⟩ := h.issues
    intro entry hentry
    obtain ⟨hlength, hget⟩ := List.forall₂_iff_get.mp hparts
    obtain ⟨i, hi, rfl⟩ := List.getElem_of_mem hentry
    exact ⟨_, hget i hi (by omega)⟩
  have engine : ∀ entry ∈ cycle.insts, ∀ slot ∈ entry.2, slot.engine = entry.1 := by
    intro entry hentry slot hslot
    obtain ⟨done, hdone⟩ := hserves entry hentry
    obtain ⟨hlength, hget⟩ := List.forall₂_iff_get.mp hdone.insts
    obtain ⟨i, hi, rfl⟩ := List.getElem_of_mem hslot
    have hi' : i < done.length := by omega
    exact (Inst.engine_of_mapM (hget i hi' hi)).trans (hdone.engine _ (List.getElem_mem hi'))
  have limits : ∀ entry ∈ cycle.insts, entry.2.length ≤ SLOT_LIMITS entry.1 := by
    intro entry hentry
    obtain ⟨done, hdone⟩ := hserves entry hentry
    rw [← hdone.insts.length_eq]
    exact hdone.limit
  have hazardFree : (cycle.insts.flatMap Prod.snd).Pairwise HazardFree := by
    obtain ⟨hlength, hget⟩ := List.forall₂_iff_get.mp (slots_of_issuesAll h.issues)
    refine List.pairwise_iff_getElem.mpr fun i j hi hj hij => ?_
    have hi' : i < cycle.toRetire.length := by omega
    have hj' : j < cycle.toRetire.length := by omega
    refine hazardFree_of_not_conflicts fun hconf => ?_
    exact List.pairwise_iff_getElem.mp apart i j hi' hj' hij
      (.inl ⟨_, _, hget i hi' hi, hget j hj' hj, hconf⟩)
  exact ⟨h.order, engine, limits, hazardFree, fun m bundle' same =>
    step_sameSlots engine limits hazardFree same m⟩

variable {program : Program} {threads slots : ℕ} {irp : IRPipeline} {st₀ st : GreedyWorkPacker}
  {n : ℕ} {cycles : List Cycle}

/-- The packer starts with the list of an accepted program in an order that respects all
conflicts, whatever it does with the loops over `free`. -/
theorem start_of_getWork (accepted : programToIrp program threads slots = some irp)
    (work : getWork irp.ss irp.graph env.numThreads env.concThreads = some (env.ss, imetas))
    (start : GreedyWorkPacker.new env imetas = some st₀) :
    Inv env False (fun _ _ => False) imetas imetas st₀ := by
  have typed := wellTyped_of_programToIrp accepted
  have good : ∀ x ∈ imetas, Good env False x :=
    good_of_getWork typed work False.elim False.elim
  have order : InOrder env (fun _ _ => False) imetas imetas :=
    (assembled_of_getWork typed.fits work).inOrder fun _ _ _ _ _ _ _ => False.elim
  exact ((new_meets (assembled_of_getWork typed.fits work) good order).of_eq_some start).1

/-- For the instructions of every program and every number of rounds of the packer, however it
splits instructions, each bundle keeps to the slots of the engines, no slot writes a scratch word
that another slot of the bundle reads or writes, and the effect on the scratch space does not
depend on the order of the slots. -/
theorem bundles_legal (accepted : programToIrp program threads slots = some irp)
    (work : getWork irp.ss irp.graph env.numThreads env.concThreads = some (env.ss, imetas))
    (start : GreedyWorkPacker.new env imetas = some st₀)
    (run : rounds env n st₀ = some (st, cycles)) : ∀ cycle ∈ cycles, Legal cycle.insts := by
  have inv := start_of_getWork accepted work start
  have hextra : Extra fun _ _ => False := ⟨fun _ _ => id, fun _ _ => False.elim⟩
  have ran := (rounds_meets hextra n inv).of_eq_some run
  intro cycle hcycle
  exact (ran.gathered cycle hcycle).legal (ran.apart cycle hcycle)

/-- A packer for `threads` threads at once whose loops visit all that is free. -/
def packerFor (threads : ℕ) (ss : ScratchSpace) : PackerEnv :=
  ⟨ss, threads, threads, id, fun _ => .refl _⟩

/-- A program whose threads multiply and add vectors. -/
def fused : Program where
  globalStmts := []
  threadStmts :=
    [.plain (.variableDefinition .registers "v" (.intConstant (.numberString false [3]))),
      .plain (.variableDefinition .registers "w" (.multAdd "v" (.var "v") (.var "v")))]

theorem bundles_legal_fused :
    ∃ irp ss imetas st₀ st cycles, programToIrp fused 8 8 = some irp ∧
      getWork irp.ss irp.graph 8 8 = some (ss, imetas) ∧
      GreedyWorkPacker.new (packerFor 8 ss) imetas = some st₀ ∧
      rounds (packerFor 8 ss) 9 st₀ = some (st, cycles) ∧ cycles.length = 4 ∧
      ∀ cycle ∈ cycles, Legal cycle.insts := by
  have hcheck : ((programToIrp fused 8 8).bind fun irp => getWork irp.ss irp.graph 8 8).any
      fun work => (GreedyWorkPacker.new (packerFor 8 work.1) work.2).any fun st₀ =>
        (rounds (packerFor 8 work.1) 9 st₀).any fun result => result.2.length = 4 := by
    decide +kernel
  obtain ⟨⟨ss, imetas⟩, hwork, hcheck⟩ := (Option.any_eq_true ..).mp hcheck
  obtain ⟨irp, hirp, hwork⟩ := Option.bind_eq_some_iff.mp hwork
  obtain ⟨st₀, hstart, hcheck⟩ := (Option.any_eq_true ..).mp hcheck
  obtain ⟨⟨st, cycles⟩, hrun, hlength⟩ := (Option.any_eq_true ..).mp hcheck
  have hwork' : getWork irp.ss irp.graph (packerFor 8 ss).numThreads
      (packerFor 8 ss).concThreads = some ((packerFor 8 ss).ss, imetas) := hwork
  exact ⟨irp, ss, imetas, st₀, st, cycles, hirp, hwork, hstart, hrun, of_decide_eq_true hlength,
    bundles_legal hirp hwork' hstart hrun⟩

end Packer

end Explore.Takehome
