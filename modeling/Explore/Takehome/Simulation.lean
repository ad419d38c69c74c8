import Explore.Takehome.IssuedOnce
import Explore.Takehome.PieceEffects

/-!
# The bundles do what the list does

The instructions that are pending, one after the other, lead from the state of the machine to
the state that the whole list leads to. A split keeps this, since the pieces together do what
the instruction does. An instruction that nothing blocks can be done first, since it clashes
with none before it, and the instructions of a bundle, which do not clash, can be done at
once. So when nothing is pending any more the machine is where the list leads to.
-/

namespace Explore.Takehome

open Pending GreedyWorkPacker Relation

/-- A load or store. -/
def Accesses (x : InstrMeta) : Prop := x.lin.engine = .load ∨ x.lin.engine = .store

/-- Loads and stores whose effects meet in memory. -/
def MemConflict (effect : InstrMeta → Effect) (x y : InstrMeta) : Prop :=
  Accesses x ∧ Accesses y ∧ MemClash (effect x) (effect y)

theorem extra_memConflict (effect : InstrMeta → Effect) : Extra (MemConflict effect) where
  symm _ _ h := ⟨h.2.1, h.1, h.2.2.symm⟩
  engine _ _ h := h.1

/-- An instruction with its effect: it adds only constants that it finds, and a load or store
does what it does in the list. -/
structure Known (env : PackerEnv) (effect : InstrMeta → Effect) (z : InstrMeta × Effect) :
    Prop where
  adds : AddsConstant env z
  access : Accesses z.1 → z.2 = effect z.1

/-- Instructions that lead, one after the other, from `σ` to `τ`. -/
def Leads (env : PackerEnv) (effect : InstrMeta → Effect) (xs : List InstrMeta)
    (σ τ : Loc → Option Word) : Prop :=
  ∃ zs : List (InstrMeta × Effect), zs.map Prod.fst = xs ∧
    Runs (listActions env.ss env.concThreads) σ zs τ ∧ ∀ z ∈ zs, Known env effect z

section Leads

variable {env : PackerEnv} {effect : InstrMeta → Effect} {ok : Prop} {x y : InstrMeta}
  {f g : Effect} {σ σ' ρ ρ' τ : Loc → Option Word}
    {xs ys nodes pending pending' done : List InstrMeta}
  {p q : List InstrMeta × List InstrMeta}

theorem leads_append : Leads env effect (xs ++ ys) σ τ ↔
    ∃ ρ, Leads env effect xs σ ρ ∧ Leads env effect ys ρ τ := by
  constructor
  · rintro ⟨zs, hzs, hruns, hknown⟩
    obtain ⟨zs₁, zs₂, rfl, rfl, rfl⟩ := List.map_eq_append_iff.mp hzs
    obtain ⟨ρ, hfirst, hsecond⟩ := runs_append.mp hruns
    obtain ⟨hknown₁, hknown₂⟩ := List.forall_mem_append.mp hknown
    exact ⟨ρ, ⟨zs₁, rfl, hfirst, hknown₁⟩, zs₂, rfl, hsecond, hknown₂⟩
  · rintro ⟨ρ, ⟨zs₁, rfl, hfirst, hknown₁⟩, zs₂, rfl, hsecond, hknown₂⟩
    exact ⟨zs₁ ++ zs₂, List.map_append, runs_append.mpr ⟨ρ, hfirst, hsecond⟩,
      List.forall_mem_append.mpr ⟨hknown₁, hknown₂⟩⟩

theorem leads_cons : Leads env effect (x :: xs) σ τ ↔
    ∃ f ρ, Fires (listActions env.ss env.concThreads) σ x f ρ ∧ Known env effect (x, f) ∧
      Leads env effect xs ρ τ := by
  constructor
  · rintro ⟨zs, hzs, hruns, hknown⟩
    obtain ⟨⟨_, f⟩, zs, rfl, rfl, rfl⟩ := List.map_eq_cons_iff.mp hzs
    obtain ⟨hfirst, hrest⟩ := List.forall_mem_cons.mp hknown
    obtain _ | ⟨hfires, hruns⟩ := hruns
    exact ⟨f, _, hfires, hfirst, zs, rfl, hruns, hrest⟩
  · rintro ⟨f, ρ, hfires, hfirst, zs, rfl, hruns, hrest⟩
    exact ⟨(x, f) :: zs, rfl, .cons hfires hruns, List.forall_mem_cons.mpr ⟨hfirst, hrest⟩⟩

/-- Pieces lead where the instruction does. -/
theorem Leads.of_pieces {clen : ℕ} {pieces new : List InstrMeta}
    (split : Pieces env clen x pieces new) (good : Good env ok x)
    (fires : Fires (listActions env.ss env.concThreads) σ x f τ) (known : Known env effect (x, f)) :
    Leads env effect pieces σ τ := by
  obtain ⟨zs, rfl, hruns, hadds⟩ := split.acts good fires known.adds
  refine ⟨zs, rfl, hruns, fun z hz => ⟨hadds z hz, fun haccess => ?_⟩⟩
  have hscalar := (split.within good z.1 (List.mem_map.mpr ⟨z, hz, rfl⟩)).engine
  rcases hscalar with hscalar | hscalar <;> rcases haccess with haccess | haccess <;> simp_all

theorem Leads.splitStep (h : Leads env effect p.2 σ τ) (step : SplitStep env p q)
    (good : ∀ x ∈ p.2, Good env ok x) : Leads env effect q.2 σ τ := by
  obtain ⟨-, split⟩ := step
  rename_i nodes before rest pieces new x
  obtain ⟨ρ, hbefore, hrest⟩ := leads_append.mp h
  obtain ⟨f, ρ', hfires, hknown, hrest⟩ := leads_cons.mp hrest
  have hpieces := Leads.of_pieces split (good x (by simp)) hfires hknown
  exact leads_append.mpr ⟨ρ', leads_append.mpr ⟨ρ, hbefore, hpieces⟩, hrest⟩

theorem Leads.splits (h : Leads env effect p.2 σ τ) (steps : ReflTransGen (SplitStep env) p q)
    (good : ∀ x ∈ p.2, Good env ok x) (order : InOrder env (MemConflict effect) p.1 p.2) :
    Leads env effect q.2 σ τ ∧ (∀ x ∈ q.2, Good env ok x) ∧
      InOrder env (MemConflict effect) q.1 q.2 := by
  induction steps with
  | refl => exact ⟨h, good, order⟩
  | tail _ step ih =>
      obtain ⟨hleads, hgood, horder⟩ := ih
      exact ⟨hleads.splitStep step hgood, step.preserves (extra_memConflict effect) hgood horder⟩

/-- Effects that clash come from instructions that conflict. -/
theorem conflict_of_clash (hf : Fires (listActions env.ss env.concThreads) σ x f σ')
    (hg : Fires (listActions env.ss env.concThreads) ρ y g ρ') (knownf : Known env effect (x, f))
    (knowng : Known env effect (y, g)) (clash : f.Clash g) :
    Conflict env (MemConflict effect) x y := by
  obtain ⟨a, ha, -⟩ := Option.bind_eq_some_iff.mp hf.writes
  obtain ⟨b, hb, -⟩ := Option.bind_eq_some_iff.mp hg.writes
  have accesses {z : InstrMeta} {h h' : Effect} {σ₁ σ₂ : Loc → Option Word}
      {c : SerializedInstruction} (hz : Fires (listActions env.ss env.concThreads) σ₁ z h σ₂)
      (hc : instOf env z = some c) (hclash : MemClash h h') : Accesses z := by
    by_contra hnot
    rw [Accesses, not_or, ← Inst.engine_of_mapM hc] at hnot
    exact not_memClash_of_scalar hz hc hnot.1 hnot.2 hclash
  obtain hconf | hmem := conflicts_of_clash hf hg ha hb clash
  · exact .inl ⟨a, b, ha, hb, hconf⟩
  · have hx := accesses hf ha hmem
    have hy := accesses hg hb hmem.symm
    refine .inr ⟨hx, hy, ?_⟩
    rw [← knownf.access hx, ← knowng.access hy]
    exact hmem

/-- An instruction that conflicts with none before it can be done first. -/
theorem Leads.moveFront (h : Leads env effect (xs ++ x :: ys) σ τ)
    (apart : ∀ y ∈ xs, ¬ Conflict env (MemConflict effect) y x) :
    Leads env effect (x :: (xs ++ ys)) σ τ := by
  obtain ⟨zs, hzs, hruns, hknown⟩ := h
  obtain ⟨zs₁, zs₂, rfl, rfl, hcons⟩ := List.map_eq_append_iff.mp hzs
  obtain ⟨z, zs₂, rfl, rfl, rfl⟩ := List.map_eq_cons_iff.mp hcons
  have hfires := hruns.exists_fires
  refine ⟨z :: (zs₁ ++ zs₂), by simp, hruns.moveFront fun y hy hclash => ?_, fun y hy => ?_⟩
  · obtain ⟨_, _, hf⟩ := hfires y (List.mem_append_left _ hy)
    obtain ⟨_, _, hg⟩ := hfires z (List.mem_append_right _ List.mem_cons_self)
    apply apart y.1 (List.mem_map.mpr ⟨y, hy, rfl⟩)
    exact conflict_of_clash hf hg (hknown y (List.mem_append_left _ hy))
      (hknown z (List.mem_append_right _ List.mem_cons_self)) hclash
  · apply hknown
    simp only [List.mem_cons, List.mem_append] at hy ⊢
    tauto

/-- Instructions that leave the pending ones when nothing blocks them can be done before the
others. -/
theorem Leads.issues (h : Leads env effect pending σ τ)
    (order : InOrder env (MemConflict effect) nodes pending)
    (issues : Issues pending done pending') :
    ∃ ρ, Leads env effect done σ ρ ∧ Leads env effect pending' ρ τ := by
  induction issues generalizing σ with
  | nil => exact ⟨σ, ⟨[], rfl, .nil, List.forall_mem_nil _⟩, h⟩
  | cons ready _ ih =>
      obtain ⟨f, ρ, hfires, hknown, hrest⟩ :=
        leads_cons.mp (h.moveFront (order.not_conflict_of_before ready))
      obtain ⟨ρ', hdone, hpending⟩ := ih hrest (order.done ready)
      exact ⟨ρ', leads_cons.mpr ⟨f, ρ, hfires, hknown, hdone⟩, hpending⟩

theorem Issues.inOrder (order : InOrder env (MemConflict effect) nodes pending)
    (issues : Issues pending done pending') :
    InOrder env (MemConflict effect) nodes pending' := by
  induction issues with
  | nil => exact order
  | cons ready _ ih => exact ih (order.done ready)

end Leads

section Cycles

variable {env : PackerEnv} {effect : InstrMeta → Effect} {ok : Prop} {m : Machine} {cycle : Cycle}
  {cycles : List Cycle} {σ τ : Loc → Option Word} {p q : List InstrMeta × List InstrMeta}

/-- What the slots of a bundle write. -/
theorem slotWrites_of_fires {xs : List InstrMeta} {slots : List SerializedInstruction}
    {zs : List (InstrMeta × Effect)}
    (slot : List.Forall₂ (fun x inst => instOf env x = some inst) xs slots)
    (hzs : zs.map Prod.fst = xs)
    (fires : ∀ z ∈ zs, ∃ ρ, Fires (listActions env.ss env.concThreads) m.read z.1 z.2 ρ) :
    slotWrites m slots = some (zs.map fun z => z.2.writes) := by
  induction slot generalizing zs with
  | nil =>
      obtain rfl := List.map_eq_nil_iff.mp hzs
      rfl
  | cons hinst _ ih =>
      obtain ⟨z, zs, rfl, rfl, rfl⟩ := List.map_eq_cons_iff.mp hzs
      obtain ⟨⟨ρ, hz⟩, hzs⟩ := List.forall_mem_cons.mp fires
      have hrest := ih rfl hzs
      rw [slotWrites] at hrest ⊢
      rw [List.mapM_cons, (effect_of_fires hz hinst).2, hrest]
      rfl

/-- A bundle does at once what its instructions do one after the other. -/
theorem step_of_leads (gathered : Gathered env EX_UNITS cycle)
    (apart : cycle.toRetire.Pairwise fun x y => ¬ Conflict env (MemConflict effect) x y)
    (leads : Leads env effect cycle.toRetire m.read τ) :
    ∃ m', m.step cycle.insts = some m' ∧ m'.read = τ := by
  obtain ⟨zs, hzs, hruns, hknown⟩ := leads
  have hlegal := gathered.legal apart
  have hapart : zs.Pairwise fun y z => ¬ y.2.Clash z.2 := by
    rw [← hzs] at apart
    refine (List.pairwise_map.mp apart).imp_of_mem fun {y z} hy hz hnot hclash => ?_
    obtain ⟨_, _, hf⟩ := hruns.exists_fires y hy
    obtain ⟨_, _, hg⟩ := hruns.exists_fires z hz
    exact hnot (conflict_of_clash hf hg (hknown y hy) (hknown z hz) hclash)
  obtain ⟨hfires, rfl⟩ := hruns.atOnce hapart
  have hslots := slotWrites_of_fires (slots_of_issuesAll gathered.issues) hzs
    fun z hz => ⟨_, hfires z hz⟩
  have hexist : ∀ w ∈ (zs.map fun z => z.2.writes).flatten, (m.read w.1).isSome := by
    intro w hw
    obtain ⟨ws, hws, hw⟩ := List.mem_flatten.mp hw
    obtain ⟨z, hz, rfl⟩ := List.mem_map.mp hws
    exact (hfires z hz).exist w hw
  obtain ⟨m', hland⟩ := exists_foldlM_write hexist
  refine ⟨m', ?_, ?_⟩
  · rw [step_eq m hlegal.engine hlegal.limits, hslots]
    exact hland
  · rw [(read_of_foldlM_write hland).2, List.flatMap_def]

/-- The bundles of a run of the packer lead where the pending instructions lead. -/
theorem Leads.schedule (h : Leads env effect p.2 m.read τ) (schedule : Schedule env p cycles q)
    (good : ∀ x ∈ p.2, Good env ok x) (order : InOrder env (MemConflict effect) p.1 p.2)
    (gathered : ∀ cycle ∈ cycles, Gathered env EX_UNITS cycle)
    (apart : ∀ cycle ∈ cycles,
      cycle.toRetire.Pairwise fun x y => ¬ Conflict env (MemConflict effect) x y) :
    ∃ m', m.run (cycles.map Cycle.insts) = some m' ∧ Leads env effect q.2 m'.read τ := by
  induction schedule generalizing m with
  | nil => exact ⟨m, rfl, h⟩
  | cons splits issues _ ih =>
      obtain ⟨hgathered, hgathereds⟩ := List.forall_mem_cons.mp gathered
      obtain ⟨hapart, haparts⟩ := List.forall_mem_cons.mp apart
      obtain ⟨hmid, hgood, horder⟩ := h.splits splits good order
      obtain ⟨ρ, hdone, hpending⟩ := hmid.issues horder issues
      obtain ⟨m₁, hstep, rfl⟩ := step_of_leads hgathered hapart hdone
      have hsub := issues.sublist
      obtain ⟨m', hrun, hleads⟩ := ih hpending (fun x hx => hgood x (hsub.subset hx))
        (issues.inOrder horder) hgathereds haparts
      refine ⟨m', ?_, hleads⟩
      rw [List.map_cons, Machine.run, List.foldlM_cons, hstep]
      exact hrun

end Cycles

section Packer

variable {env : PackerEnv} {program : Program} {threads slots : ℕ} {irp : IRPipeline}
  {imetas : List InstrMeta} {effects : List Effect} {m m' : Machine} {st₀ st : GreedyWorkPacker}
  {n : ℕ} {cycles : List Cycle}

/-- Accesses to the same word of memory, one of which is a store, are ordered by `after`. -/
def MemOrdered (imetas : List InstrMeta) (effects : List Effect) : Prop :=
  ∀ (i j : ℕ) (f g : Effect), effects[i]? = some f → effects[j]? = some g → i < j →
    MemClash f g → Reaches imetas i j

/-- In a run of the list every constant register that is added holds the constant. -/
def AddsConstants (env : PackerEnv) (imetas : List InstrMeta) (effects : List Effect) : Prop :=
  ∀ z ∈ imetas.zip effects, AddsConstant env z

/-- The list leads from where it starts to where it ends. -/
theorem leads_of_runList (nodup : imetas.Nodup)
    (run : m.runList env.ss env.concThreads imetas = some (effects, m'))
    (constants : AddsConstants env imetas effects) :
    Leads env (effectOf imetas effects) imetas m.read m'.read := by
  obtain ⟨hlength, hruns⟩ := runs_of_runList run
  refine ⟨imetas.zip effects, List.map_fst_zip (by omega), hruns, fun z hz =>
    ⟨constants z hz, fun _ => ?_⟩⟩
  rw [zip_effects nodup hlength] at hz
  obtain ⟨x, -, rfl⟩ := List.mem_map.mp hz
  rfl

theorem effectOf_getElem (nodup : imetas.Nodup) {i : ℕ} {x : InstrMeta} {f : Effect}
    (hx : imetas[i]? = some x) (hf : effects[i]? = some f) : effectOf imetas effects x = f := by
  obtain ⟨hi, rfl⟩ := List.getElem?_eq_some_iff.mp hx
  rw [effectOf, nodup.idxOf_getElem i hi, hf]
  rfl

/-- When all instructions are issued, the machine is where the list leads to. -/
theorem bundles_run (accepted : programToIrp program threads slots = some irp)
    (work : getWork irp.ss irp.graph env.numThreads env.concThreads = some (env.ss, imetas))
    (start : GreedyWorkPacker.new env imetas = some st₀)
    (rounds : rounds env n st₀ = some (st, cycles)) (free : st.free = [])
    (frontier : st.frontier = [])
    (run : m.runList env.ss env.concThreads imetas = some (effects, m'))
    (ordered : MemOrdered imetas effects) (constants : AddsConstants env imetas effects) :
    m.run (cycles.map Cycle.insts) = some m' := by
  have typed := wellTyped_of_programToIrp accepted
  have assembled := assembled_of_getWork typed.fits work
  have good : ∀ x ∈ imetas, Good env False x := good_of_getWork typed work False.elim False.elim
  have hlength := (runs_of_runList run).1
  have order : InOrder env (MemConflict (effectOf imetas effects)) imetas imetas := by
    refine assembled.inOrder fun i j x y hx hy hij hconf => ?_
    have hi := (List.getElem?_eq_some_iff.mp hx).1
    have hj := (List.getElem?_eq_some_iff.mp hy).1
    have hf := List.getElem?_eq_getElem (hlength ▸ hi)
    have hg := List.getElem?_eq_getElem (hlength ▸ hj)
    have hclash := hconf.2.2
    rw [effectOf_getElem assembled.nodup hx hf, effectOf_getElem assembled.nodup hy hg] at hclash
    exact ordered i j _ _ hf hg hij hclash
  have inv := ((new_meets assembled good order).of_eq_some start).1
  have ran := (rounds_meets (extra_memConflict _) n inv).of_eq_some rounds
  obtain ⟨nodes, pending, hschedule, inv', -, -⟩ := ran.steps
  have hsequence := (assembled.inSequence (tids_of_getWork work).2).schedule hschedule
  obtain rfl := inv'.pending_nil hsequence free frontier
  obtain ⟨m₁, hrun, zs, hzs, hruns, -⟩ := (leads_of_runList assembled.nodup run constants).schedule
    hschedule good order ran.gathered ran.apart
  obtain rfl := List.map_eq_nil_iff.mp hzs
  rw [hrun, Machine.eq_of_read hruns.eq_of_nil]

end Packer

end Explore.Takehome
