import Explore.Takehome.Assembly
import Explore.Takehome.Effects

/-!
# The dependency graph is sufficient

The passes of `get_work` record for each word only the nearest writer before and after an
instruction. That is enough: as long as no store meets another access to the same word of
memory, instructions may be executed in every order that respects `after`, and each finds
and writes what it does in program order. The proof moves instructions to the front one by
one, past others that they do not clash with.
-/

namespace Explore.Takehome

/-- One of the two stores to a word of memory that the other accesses. -/
def MemClash (f g : Effect) : Prop :=
  ∃ addr, f.Writes (.mem addr) ∧ (g.Reads (.mem addr) ∨ g.Writes (.mem addr)) ∨
    g.Writes (.mem addr) ∧ f.Reads (.mem addr)

theorem MemClash.symm {f g : Effect} (h : MemClash f g) : MemClash g f := by
  obtain ⟨addr, ⟨hf, hg | hg⟩ | ⟨hg, hf⟩⟩ := h
  · exact ⟨addr, .inr ⟨hf, hg⟩⟩
  · exact ⟨addr, .inl ⟨hg, .inr hf⟩⟩
  · exact ⟨addr, .inl ⟨hg, .inl hf⟩⟩

/-- No word of memory that an instruction stores to is accessed by another one. -/
def NoAlias (effects : List Effect) : Prop :=
  effects.Pairwise fun f g => ¬ MemClash f g

section Clash

variable {ss : ScratchSpace} {concThreads : ℕ} {σ σ' τ τ' : Loc → Option Word} {x y : InstrMeta}
  {f g : Effect} {a b : SerializedInstruction} {loc : ℕ}

theorem mem_sources_of_reads (h : Fires (listActions ss concThreads) σ x f σ')
    (ha : toSerialized ss (workSlotOf x.tid concThreads) x.lin = some a)
    (hloc : f.Reads (.scratch loc)) : loc ∈ a.sources := by
  rw [Footprint.Reads, h.reads, List.map_map] at hloc
  simpa [listActions, ha, Inst.reads] using hloc

theorem mem_targets_of_writes (h : Fires (listActions ss concThreads) σ x f σ')
    (ha : toSerialized ss (workSlotOf x.tid concThreads) x.lin = some a)
    (hloc : f.Writes (.scratch loc)) : loc ∈ a.targets := by
  have hwrites := h.writes
  simp only [listActions, ha, Option.bind_some] at hwrites
  rw [Footprint.Writes, Inst.map_fst_writes hwrites] at hloc
  simpa using hloc

/-- Effects that clash come from a conflict on the scratch space or from memory. -/
theorem conflicts_of_clash (hf : Fires (listActions ss concThreads) σ x f σ')
    (hg : Fires (listActions ss concThreads) τ y g τ')
    (ha : toSerialized ss (workSlotOf x.tid concThreads) x.lin = some a)
    (hb : toSerialized ss (workSlotOf y.tid concThreads) y.lin = some b) (h : f.Clash g) :
    a.Conflicts b ∨ MemClash f g := by
  obtain ⟨loc | addr, h⟩ := h
  · left
    have touched_left (h : loc ∈ a.targets) : loc ∈ a.touched :=
      a.marked_subset_touched (a.targets_subset_marked h)
    have touched_right (h : loc ∈ b.targets) : loc ∈ b.touched :=
      b.marked_subset_touched (b.targets_subset_marked h)
    obtain ⟨hw, hr | hw'⟩ | ⟨hw, hr⟩ := h
    · have hw := mem_targets_of_writes hf ha hw
      exact ⟨loc, touched_left hw, b.sources_subset_touched (mem_sources_of_reads hg hb hr),
        .inl (a.targets_subset_marked hw)⟩
    · have hw := mem_targets_of_writes hf ha hw
      exact ⟨loc, touched_left hw, touched_right (mem_targets_of_writes hg hb hw'),
        .inl (a.targets_subset_marked hw)⟩
    · have hw := mem_targets_of_writes hg hb hw
      exact ⟨loc, a.sources_subset_touched (mem_sources_of_reads hf ha hr), touched_right hw,
        .inr (b.targets_subset_marked hw)⟩
  · exact .inr ⟨addr, h⟩

end Clash

section Orders

variable {ss : ScratchSpace} {concThreads : ℕ} {imetas order : List InstrMeta}

/-- The order respects `after`: no instruction comes before one that unlocks it. -/
def RespectsAfter (order : List InstrMeta) : Prop :=
  order.Pairwise fun x y => x.instid ∉ y.after

/-- What an instruction reaches comes after it in an order that respects `after`:
induction along the path. -/
theorem mem_of_reaches (assembled : Assembled ss concThreads imetas) {front back : List InstrMeta}
    (perm : (front ++ back).Perm imetas) (respects : RespectsAfter (front ++ back))
    {y : InstrMeta} (hy : y ∈ back) {k : ℕ} (path : Reaches imetas y.instid k) :
    ∃ z ∈ back, z.instid = k := by
  have hstep {z : InstrMeta} {k : ℕ} (hz : z ∈ back) (hunlocks : Unlocks imetas z.instid k) :
      ∃ w ∈ back, w.instid = k := by
    obtain ⟨z', hz', hk⟩ := hunlocks
    have hzmem : z ∈ imetas := perm.mem_iff.mp (List.mem_append_right _ hz)
    obtain ⟨i, hi, rfl⟩ := List.getElem_of_mem hzmem
    rw [assembled.instid i _ (List.getElem?_eq_getElem hi), List.getElem?_eq_getElem hi] at hz'
    obtain rfl := Option.some.inj hz'
    have hlt := (assembled.after_lt _ hzmem k hk).2
    have hid := assembled.instid k _ (List.getElem?_eq_getElem hlt)
    refine ⟨imetas[k], ?_, hid⟩
    obtain hfront | hback := List.mem_append.mp (perm.mem_iff.mpr (List.getElem_mem hlt))
    · exact absurd (by rwa [hid]) ((List.pairwise_append.mp respects).2.2 _ hfront _ hz)
    · exact hback
  induction path with
  | single hunlocks => exact hstep hy hunlocks
  | tail _ hunlocks ih =>
      obtain ⟨z, hz, rfl⟩ := ih
      exact hstep hz hunlocks

/-- Instructions are known by their ids. -/
theorem Assembled.eq_of_instid (assembled : Assembled ss concThreads imetas) {x y : InstrMeta}
    (hx : x ∈ imetas) (hy : y ∈ imetas) (h : x.instid = y.instid) : x = y := by
  obtain ⟨i, hi, rfl⟩ := List.getElem_of_mem hx
  obtain ⟨j, hj, rfl⟩ := List.getElem_of_mem hy
  rw [assembled.instid i _ (List.getElem?_eq_getElem hi),
    assembled.instid j _ (List.getElem?_eq_getElem hj)] at h
  subst h
  rfl

theorem Assembled.sorted (assembled : Assembled ss concThreads imetas) :
    imetas.Pairwise fun x y => x.instid < y.instid := by
  refine List.pairwise_iff_getElem.mpr fun i j hi hj hij => ?_
  rw [assembled.instid i _ (List.getElem?_eq_getElem hi),
    assembled.instid j _ (List.getElem?_eq_getElem hj)]
  exact hij

theorem Assembled.nodup (assembled : Assembled ss concThreads imetas) : imetas.Nodup :=
  assembled.sorted.imp fun hlt heq => Nat.ne_of_lt hlt (congrArg InstrMeta.instid heq)

/-- An order that respects `after` keeps the order of instructions that conflict. -/
theorem lt_of_conflicts (assembled : Assembled ss concThreads imetas) (perm : order.Perm imetas)
    (respects : RespectsAfter order) :
    order.Pairwise fun x y => ∀ a b,
      toSerialized ss (workSlotOf x.tid concThreads) x.lin = some a →
      toSerialized ss (workSlotOf y.tid concThreads) y.lin = some b →
      a.Conflicts b → x.instid < y.instid := by
  suffices h : ∀ back front, front ++ back = order → back.Pairwise fun x y => ∀ a b,
      toSerialized ss (workSlotOf x.tid concThreads) x.lin = some a →
      toSerialized ss (workSlotOf y.tid concThreads) y.lin = some b →
      a.Conflicts b → x.instid < y.instid from h order [] rfl
  intro back
  induction back with
  | nil => exact fun _ _ => .nil
  | cons x back ih =>
      rintro front rfl
      refine List.pairwise_cons.mpr ⟨fun y hy a b ha hb hconf => ?_, ih (front ++ [x]) (by simp)⟩
      have hnodup := (List.nodup_append.mp (perm.nodup_iff.mpr assembled.nodup)).2.1
      have hx : x ∈ imetas := perm.mem_iff.mp (by simp)
      have hyx : y ∈ imetas := perm.mem_iff.mp (by simp [hy])
      by_contra hle
      have hlt : y.instid < x.instid := by
        refine Nat.lt_of_le_of_ne (Nat.le_of_not_lt hle) fun heq => ?_
        obtain rfl := assembled.eq_of_instid hyx hx heq
        exact (List.nodup_cons.mp hnodup).1 hy
      have hget {z : InstrMeta} (hz : z ∈ imetas) : imetas[z.instid]? = some z := by
        obtain ⟨i, hi, rfl⟩ := List.getElem_of_mem hz
        rw [assembled.instid i _ (List.getElem?_eq_getElem hi), List.getElem?_eq_getElem hi]
      have hpath := assembled.reaches _ _ y x b a (hget hyx) (hget hx) hlt hb ha hconf.symm
      have happend : front ++ x :: back = (front ++ [x]) ++ back := by simp
      rw [happend] at perm respects
      obtain ⟨z, hz, hid⟩ := mem_of_reaches assembled perm respects hy hpath
      have hzmem : z ∈ imetas := perm.mem_iff.mp (List.mem_append_right _ hz)
      obtain rfl := assembled.eq_of_instid hzmem hx hid
      exact (List.nodup_cons.mp hnodup).1 hz

end Orders

section Sufficient

variable {ss ss' : ScratchSpace} {graph : InstrGraph} {numThreads concThreads : ℕ}
  {imetas order order' : List InstrMeta} {m m' : Machine} {effects : List Effect}

/-- The effect of an instruction in a run of a list. -/
def effectOf (order : List InstrMeta) (effects : List Effect) (x : InstrMeta) : Effect :=
  (effects[order.idxOf x]?).getD ⟨[], []⟩

theorem zip_effects (nodup : order.Nodup) (hlength : effects.length = order.length) :
    order.zip effects = order.map fun x => (x, effectOf order effects x) := by
  refine List.ext_getElem (by simp [hlength]) fun i hi _ => ?_
  have hi : i < order.length := by simpa [hlength] using hi
  rw [List.getElem_zip, List.getElem_map, effectOf, nodup.idxOf_getElem i hi,
    List.getElem?_eq_getElem (hlength ▸ hi)]
  rfl

/-- Different instructions do not meet in memory. -/
theorem NoAlias.not_memClash (noAlias : NoAlias effects) (hlength : effects.length = order.length)
    {x y : InstrMeta} (hx : x ∈ order) (hy : y ∈ order) (hne : x ≠ y) :
    ¬ MemClash (effectOf order effects x) (effectOf order effects y) := by
  have hx' := List.idxOf_lt_length_of_mem hx
  have hy' := List.idxOf_lt_length_of_mem hy
  rw [← hlength] at hx' hy'
  rw [effectOf, effectOf, List.getElem?_eq_getElem hx', List.getElem?_eq_getElem hy']
  obtain hlt | heq | hgt := Nat.lt_trichotomy (order.idxOf x) (order.idxOf y)
  · exact List.pairwise_iff_getElem.mp noAlias _ _ hx' hy' hlt
  · exact absurd ((List.idxOf_inj hx).mp heq) hne
  · exact fun h => List.pairwise_iff_getElem.mp noAlias _ _ hy' hx' hgt h.symm

theorem pairwise_idxOf (nodup : order.Nodup) :
    order.Pairwise fun x y => order.idxOf x < order.idxOf y := by
  refine List.pairwise_iff_getElem.mpr fun i j hi hj hij => ?_
  rwa [nodup.idxOf_getElem, nodup.idxOf_getElem]

/-- Two orders that respect `after` agree on what conflicts. -/
theorem idxOf_lt_of_conflicts (assembled : Assembled ss concThreads imetas)
    (perm : order.Perm imetas) (respects : RespectsAfter order) {x y : InstrMeta} (hx : x ∈ order)
    (hy : y ∈ order) {a b : SerializedInstruction}
    (ha : toSerialized ss (workSlotOf x.tid concThreads) x.lin = some a)
    (hb : toSerialized ss (workSlotOf y.tid concThreads) y.lin = some b) (hconf : a.Conflicts b)
    (hlt : x.instid < y.instid) : order.idxOf x < order.idxOf y := by
  have hpairs := List.pairwise_iff_getElem.mp (lt_of_conflicts assembled perm respects)
  have hx' := List.idxOf_lt_length_of_mem hx
  have hy' := List.idxOf_lt_length_of_mem hy
  by_contra hle
  have hne : order.idxOf y ≠ order.idxOf x := by
    intro heq
    obtain rfl := (List.idxOf_inj hy).mp heq
    exact Nat.lt_irrefl _ hlt
  have hback := hpairs (order.idxOf y) (order.idxOf x) hy' hx' (by omega) b a
    (by rwa [List.getElem_idxOf]) (by rwa [List.getElem_idxOf]) hconf.symm
  rw [List.getElem_idxOf, List.getElem_idxOf] at hback
  omega

/-- The instructions of a list have the same effects in every order that respects
`after`, and lead to the same machine. -/
theorem runList_order (assembled : Assembled ss concThreads imetas) (perm : order.Perm imetas)
    (respects : RespectsAfter order) (perm' : order'.Perm imetas)
    (respects' : RespectsAfter order')
    (run : m.runList ss concThreads order = some (effects, m')) (noAlias : NoAlias effects) :
    ∃ effects', m.runList ss concThreads order' = some (effects', m') ∧
      (order'.zip effects').Perm (order.zip effects) := by
  obtain ⟨hlength, hruns⟩ := runs_of_runList run
  have nodup : order.Nodup := perm.nodup_iff.mpr assembled.nodup
  rw [zip_effects nodup hlength] at hruns ⊢
  let entry := fun x => (x, effectOf order effects x)
  have hmem {x : InstrMeta} (hx : x ∈ order') : x ∈ order :=
    perm.mem_iff.mpr (perm'.mem_iff.mp hx)
  have hreorders : Reorders (fun y z => y.2.Clash z.2) (order.map entry) (order'.map entry) := by
    refine .of_perm (fun z => order.idxOf z.1) (fun y z h => h.symm)
      (List.pairwise_map.mpr (pairwise_idxOf nodup)) ((perm'.trans perm.symm).map entry)
      (List.pairwise_map.mpr ?_)
    refine (List.Pairwise.and (lt_of_conflicts assembled perm' respects')
      (perm'.nodup_iff.mpr assembled.nodup)).imp_of_mem fun {x y} hx hy ⟨hlt, hne⟩ hclash => ?_
    have hx := hmem hx
    have hy := hmem hy
    obtain ⟨_, _, hf⟩ := hruns.exists_fires (entry x) (List.mem_map.mpr ⟨x, hx, rfl⟩)
    obtain ⟨_, _, hg⟩ := hruns.exists_fires (entry y) (List.mem_map.mpr ⟨y, hy, rfl⟩)
    obtain ⟨a, ha⟩ := assembled.inst x (perm.mem_iff.mp hx)
    obtain ⟨b, hb⟩ := assembled.inst y (perm.mem_iff.mp hy)
    obtain hconf | hclash := conflicts_of_clash hf hg ha hb hclash
    · exact idxOf_lt_of_conflicts assembled perm respects hx hy ha hb hconf (hlt a b ha hb hconf)
    · exact absurd hclash (noAlias.not_memClash hlength hx hy hne)
  obtain ⟨m'', hrun, hread⟩ := runList_of_runs (hruns.reorders hreorders)
  obtain rfl := Machine.eq_of_read hread
  have hfst : (order'.map entry).map Prod.fst = order' := by
    rw [List.map_map]
    exact List.map_id order'
  have hzip : order'.zip ((order'.map entry).map Prod.snd) = order'.map entry := by
    have h : (order'.map id).zip (order'.map (effectOf order effects)) = order'.map entry :=
      List.zip_map'
    rw [List.map_id] at h
    rw [List.map_map]
    exact h
  rw [hfst] at hrun
  refine ⟨_, hrun, ?_⟩
  rw [hzip]
  exact (perm'.trans perm.symm).map entry

/-- The program order respects `after`. -/
theorem Assembled.respectsAfter (assembled : Assembled ss concThreads imetas) :
    RespectsAfter imetas := by
  refine assembled.sorted.imp_of_mem fun {x y} _ hy hlt hmem => ?_
  have := (assembled.after_lt y hy _ hmem).1
  omega

theorem Assembled.lt_of_unlocks (assembled : Assembled ss concThreads imetas) {a b : ℕ}
    (h : Unlocks imetas a b) : a < b := by
  obtain ⟨x, hx, hb⟩ := h
  rw [← assembled.instid a x hx]
  exact (assembled.after_lt x (List.mem_of_getElem? hx) b hb).1

theorem Assembled.lt_of_reaches (assembled : Assembled ss concThreads imetas) {a b : ℕ}
    (h : Reaches imetas a b) : a < b := by
  induction h with
  | single h => exact assembled.lt_of_unlocks h
  | tail _ h ih => exact ih.trans (assembled.lt_of_unlocks h)

/-- For the instructions of every program, over every scratch layout, `after` goes forward
and has no cycle. As long as memory accesses do not alias, all orders that respect it (the
program order is one) do the same from any state: each instruction reads and writes the
same words with the same values, and the machine at the end is the same. -/
theorem after_sufficient {program : Program} {threads slots : ℕ} {irp : IRPipeline}
    (accepted : programToIrp program threads slots = some irp)
    (h : getWork ss irp.graph numThreads concThreads = some (ss', imetas)) :
    (∀ a b, Unlocks imetas a b → a < b) ∧ (∀ a, ¬ Reaches imetas a a) ∧ RespectsAfter imetas ∧
      ∀ order order', order.Perm imetas → RespectsAfter order → order'.Perm imetas →
        RespectsAfter order' → ∀ (m m' : Machine) (effects : List Effect),
          m.runList ss' concThreads order = some (effects, m') → NoAlias effects →
            ∃ effects', m.runList ss' concThreads order' = some (effects', m') ∧
              (order'.zip effects').Perm (order.zip effects) := by
  have assembled := assembled_of_getWork (wellTyped_of_programToIrp accepted).fits h
  refine ⟨fun a b => assembled.lt_of_unlocks, fun a ha => ?_, assembled.respectsAfter, ?_⟩
  · exact Nat.lt_irrefl a (assembled.lt_of_reaches ha)
  · intro order order' perm respects perm' respects' m m' effects run noAlias
    exact runList_order assembled perm respects perm' respects' run noAlias

/-- A program whose threads add up in registers of their own. -/
def doubled : Program where
  globalStmts := []
  threadStmts :=
    [.plain (.variableDefinition .register "x" (.intConstant (.numberString false [1]))),
      .plain (.variableDefinition .register "y" (.binOp (.var "x") .add (.var "x")))]

/-- The two threads in turns. -/
def alternating (imetas : List InstrMeta) : List InstrMeta := [0, 2, 1, 3].filterMap (imetas[·]?)

def writesScratch (effect : Effect) : Bool :=
  effect.writes.all fun w => match w.1 with
    | .scratch _ => true
    | .mem _ => false

theorem noAlias_of_writesScratch (h : effects.all writesScratch = true) : NoAlias effects := by
  have hno (f : Effect) (hf : f ∈ effects) (addr : ℕ) : ¬ f.Writes (.mem addr) := by
    intro hw
    obtain ⟨w, hw, heq⟩ := List.mem_map.mp hw
    have hall := List.all_eq_true.mp (List.all_eq_true.mp h f hf) w hw
    rw [heq] at hall
    cases hall
  refine List.pairwise_iff_getElem.mpr fun i j hi hj _ ⟨addr, hclash⟩ => ?_
  obtain ⟨hw, -⟩ | ⟨hw, -⟩ := hclash
  · exact hno _ (List.getElem_mem hi) addr hw
  · exact hno _ (List.getElem_mem hj) addr hw

theorem after_sufficient_doubled :
    ∃ irp ss imetas effects effects' m', programToIrp doubled 2 2 = some irp ∧
      getWork irp.ss irp.graph 2 2 = some (ss, imetas) ∧ imetas ≠ alternating imetas ∧
      (Machine.initial []).runList ss 2 imetas = some (effects, m') ∧
      (Machine.initial []).runList ss 2 (alternating imetas) = some (effects', m') := by
  have hcheck : ((programToIrp doubled 2 2).bind fun irp => getWork irp.ss irp.graph 2 2).any
      fun work => decide (work.2 ≠ alternating work.2 ∧
        (alternating work.2).Perm work.2 ∧
        (alternating work.2).Pairwise fun x y => x.instid ∉ y.after) &&
        ((Machine.initial []).runList work.1 2 work.2).any fun run => run.1.all writesScratch := by
    decide +kernel
  obtain ⟨⟨ss, imetas⟩, hwork, hcheck⟩ := (Option.any_eq_true ..).mp hcheck
  obtain ⟨irp, hirp, hwork⟩ := Option.bind_eq_some_iff.mp hwork
  obtain ⟨hshape, hrun⟩ := Bool.and_eq_true_iff.mp hcheck
  obtain ⟨hne, hperm, hrespects⟩ := of_decide_eq_true hshape
  obtain ⟨⟨effects, m'⟩, hrun, hscratch⟩ := (Option.any_eq_true ..).mp hrun
  obtain ⟨-, -, hprogram, horders⟩ := after_sufficient hirp hwork
  obtain ⟨effects', hrun', -⟩ := horders imetas (alternating imetas) (.refl _) hprogram hperm
    hrespects _ _ _ hrun (noAlias_of_writesScratch hscratch)
  exact ⟨irp, ss, imetas, effects, effects', m', hirp, hwork, hne, hrun, hrun'⟩

end Sufficient

end Explore.Takehome
