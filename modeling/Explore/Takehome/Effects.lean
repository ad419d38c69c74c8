import Explore.Lib.Footprint
import Explore.Lib.Outcome
import Explore.Takehome.Hazards
import Explore.Takehome.Words

/-!
# What instructions read and write

An instruction reads scratch words and, if it loads, memory at an address that it reads;
it writes scratch words or, if it stores, memory. Its effect is what it reads and writes
with the values. Instructions of which neither writes a word of the other have no conflict
on the scratch space and share no word of memory that one of them stores to.
-/

namespace Explore.Takehome

namespace Inst

/-- The scratch words that an instruction reads. -/
def sources : SerializedInstruction → List ℕ
  | alu _ _ a1 a2 => [a1, a2]
  | addImm _ a _ => [a]
  | vselect _ cond a b => lanes cond ++ lanes a ++ lanes b
  | const _ _ => []
  | load _ addr | vload _ addr => [addr]
  | store addr src => [addr, src]
  | vstore addr src => addr :: lanes src
  | valu _ _ a1 a2 => lanes a1 ++ lanes a2
  | multiplyAdd _ a b c => lanes a ++ lanes b ++ lanes c
  | vbroadcast _ src => [src]

/-- The scratch words that an instruction writes. -/
def targets : SerializedInstruction → List ℕ
  | alu _ dest _ _ | addImm dest _ _ | const dest _ | load dest _ => [dest]
  | store _ _ | vstore _ _ => []
  | vselect dest _ _ _ | vload dest _ | valu _ dest _ _ | multiplyAdd dest _ _ _
  | vbroadcast dest _ => lanes dest

/-- The words of memory that an instruction loads when it finds `σ`. -/
def loaded (σ : Loc → Option Word) : SerializedInstruction → List ℕ
  | load _ addr => ((σ (.scratch addr)).map fun base => [base.toNat]).getD []
  | vload _ addr => ((σ (.scratch addr)).map fun base => lanes base.toNat).getD []
  | _ => []

/-- The words of memory that an instruction stores to when it finds `σ`. -/
def stored (σ : Loc → Option Word) : SerializedInstruction → List ℕ
  | store addr _ => ((σ (.scratch addr)).map fun base => [base.toNat]).getD []
  | vstore addr _ => ((σ (.scratch addr)).map fun base => lanes base.toNat).getD []
  | _ => []

def reads (inst : SerializedInstruction) (σ : Loc → Option Word) : List Loc :=
  inst.sources.map Loc.scratch ++ (inst.loaded σ).map Loc.mem

end Inst

theorem map_range_eq_lanes (addr : ℕ) : (List.range VLEN).map (addr + ·) = lanes addr := by
  rw [lanes, List.range'_eq_map_range]

theorem add_mem_lanes {addr i : ℕ} (hi : i ∈ List.range VLEN) : addr + i ∈ lanes addr := by
  rw [← map_range_eq_lanes]
  exact List.mem_map.mpr ⟨i, hi, rfl⟩

section Determined

variable {σ τ : Loc → Option Word} {inst : SerializedInstruction}

theorem aluLane_congr {op : AluOp} {dest a1 a2 i : ℕ}
    (h1 : τ (.scratch (a1 + i)) = σ (.scratch (a1 + i)))
    (h2 : τ (.scratch (a2 + i)) = σ (.scratch (a2 + i))) :
    aluLane τ op dest a1 a2 i = aluLane σ op dest a1 a2 i := by
  rw [aluLane, aluLane, h1, h2]

/-- An instruction is determined by the words that it reads. -/
theorem Inst.determined (inst : SerializedInstruction) (σ τ : Loc → Option Word)
    (same : ∀ l ∈ inst.reads σ, τ l = σ l) :
    inst.reads τ = inst.reads σ ∧ inst.writes τ = inst.writes σ := by
  have hsource (a : ℕ) (ha : a ∈ inst.sources) : τ (.scratch a) = σ (.scratch a) :=
    same _ (List.mem_append_left _ (List.mem_map.mpr ⟨a, ha, rfl⟩))
  have hloaded (a : ℕ) (ha : a ∈ inst.loaded σ) : τ (.mem a) = σ (.mem a) :=
    same _ (List.mem_append_right _ (List.mem_map.mpr ⟨a, ha, rfl⟩))
  have hlane (addr : ℕ) {i : ℕ} (hsub : lanes addr ⊆ inst.sources) (hi : i ∈ List.range VLEN) :
      τ (.scratch (addr + i)) = σ (.scratch (addr + i)) := hsource _ (hsub (add_mem_lanes hi))
  cases inst with
  | alu op dest a1 a2 =>
      refine ⟨rfl, ?_⟩
      have h1 := hsource a1 (by simp [sources])
      have h2 := hsource a2 (by simp [sources])
      rw [writes, writes, aluLane_congr h1 h2]
  | addImm dest a imm =>
      refine ⟨rfl, ?_⟩
      rw [writes, writes, hsource a (by simp [sources])]
  | vselect dest cond a b =>
      refine ⟨rfl, mapM_congr fun i hi => ?_⟩
      rw [hlane cond (by simp [sources]) hi, hlane a (by simp [sources]) hi,
        hlane b (by simp [sources]) hi]
  | const dest val => exact ⟨rfl, rfl⟩
  | load dest addr =>
      have haddr := hsource addr (by simp [sources])
      refine ⟨by rw [reads, reads, loaded, loaded, haddr], ?_⟩
      rw [writes, writes, haddr]
      cases hbase : σ (.scratch addr) with
      | none => rfl
      | some base => simp [hloaded base.toNat (by simp [loaded, hbase])]
  | vload dest addr =>
      have haddr := hsource addr (by simp [sources])
      refine ⟨by rw [reads, reads, loaded, loaded, haddr], ?_⟩
      rw [writes, writes, haddr]
      cases hbase : σ (.scratch addr) with
      | none => rfl
      | some base =>
          simp only [Option.bind_eq_bind, Option.bind_some]
          refine mapM_congr fun i hi => ?_
          rw [hloaded (base.toNat + i) (by simpa [loaded, hbase] using add_mem_lanes hi)]
  | store addr src =>
      refine ⟨rfl, ?_⟩
      rw [writes, writes, hsource addr (by simp [sources]), hsource src (by simp [sources])]
  | vstore addr src =>
      refine ⟨rfl, ?_⟩
      rw [writes, writes, hsource addr (by simp [sources])]
      refine bind_congr fun base => mapM_congr fun i hi => ?_
      rw [hlane src (by simp [sources]) hi]
  | valu op dest a1 a2 =>
      refine ⟨rfl, mapM_congr fun i hi => ?_⟩
      exact aluLane_congr (hlane a1 (by simp [sources]) hi) (hlane a2 (by simp [sources]) hi)
  | multiplyAdd dest a b c =>
      refine ⟨rfl, mapM_congr fun i hi => ?_⟩
      rw [hlane a (by simp [sources]) hi, hlane b (by simp [sources]) hi,
        hlane c (by simp [sources]) hi]
  | vbroadcast dest src =>
      refine ⟨rfl, ?_⟩
      rw [writes, writes, hsource src (by simp [sources])]

end Determined

section Writes

variable {σ : Loc → Option Word} {inst : SerializedInstruction} {ws : List (Loc × Word)}

/-- The writes of a vector operation, one for each lane. -/
theorem map_fst_of_mapM_lanes {f : ℕ → Option (Loc × Word)} (loc : ℕ → Loc) (addr : ℕ)
    (h : (List.range VLEN).mapM f = some ws) (hloc : ∀ i w, f i = some w → w.1 = loc (addr + i)) :
    ws.map Prod.fst = (lanes addr).map loc := by
  rw [map_of_mapM h hloc, ← map_range_eq_lanes, List.map_map]
  rfl

theorem fst_of_aluLane {op : AluOp} {dest a1 a2 i : ℕ} {w : Loc × Word}
    (h : aluLane σ op dest a1 a2 i = some w) : w.1 = .scratch (dest + i) := by
  simp only [aluLane, Option.bind_eq_bind, Option.bind_eq_some_iff, Option.pure_def,
    Option.some.injEq] at h
  obtain ⟨_, _, _, _, _, _, _, rfl⟩ := h
  rfl

/-- Where an instruction writes. -/
theorem Inst.map_fst_writes (h : inst.writes σ = some ws) :
    ws.map Prod.fst = inst.targets.map Loc.scratch ++ (inst.stored σ).map Loc.mem := by
  cases inst with
  | alu op dest a1 a2 =>
      obtain ⟨w, hw, hret⟩ := Option.bind_eq_some_iff.mp h
      obtain rfl := Option.some.inj hret
      simpa [targets, stored] using fst_of_aluLane hw
  | addImm dest a imm =>
      obtain ⟨w, -, hret⟩ := Option.bind_eq_some_iff.mp h
      obtain rfl := Option.some.inj hret
      rfl
  | vselect dest cond a b =>
      rw [map_fst_of_mapM_lanes Loc.scratch dest h fun i w hw => ?_]
      · simp [targets, stored]
      · obtain ⟨c, -, hw⟩ := Option.bind_eq_some_iff.mp hw
        dsimp only at hw
        split at hw
        all_goals
          obtain ⟨val, -, hret⟩ := Option.bind_eq_some_iff.mp hw
          rw [← Option.some.inj hret]
  | const dest val =>
      obtain rfl := Option.some.inj h
      rfl
  | load dest addr =>
      obtain ⟨base, hbase, h⟩ := Option.bind_eq_some_iff.mp h
      obtain ⟨val, -, hret⟩ := Option.bind_eq_some_iff.mp h
      obtain rfl := Option.some.inj hret
      rfl
  | vload dest addr =>
      obtain ⟨base, hbase, h⟩ := Option.bind_eq_some_iff.mp h
      rw [map_fst_of_mapM_lanes Loc.scratch dest h fun i w hw => ?_]
      · simp [targets, stored]
      · obtain ⟨val, -, hret⟩ := Option.bind_eq_some_iff.mp hw
        rw [← Option.some.inj hret]
  | store addr src =>
      obtain ⟨base, hbase, h⟩ := Option.bind_eq_some_iff.mp h
      obtain ⟨val, -, hret⟩ := Option.bind_eq_some_iff.mp h
      obtain rfl := Option.some.inj hret
      simp [targets, stored, hbase]
  | vstore addr src =>
      obtain ⟨base, hbase, h⟩ := Option.bind_eq_some_iff.mp h
      rw [map_fst_of_mapM_lanes Loc.mem base.toNat h fun i w hw => ?_]
      · simp [targets, stored, hbase]
      · obtain ⟨val, -, hret⟩ := Option.bind_eq_some_iff.mp hw
        rw [← Option.some.inj hret]
  | valu op dest a1 a2 =>
      rw [map_fst_of_mapM_lanes Loc.scratch dest h fun i w hw => fst_of_aluLane hw]
      simp [targets, stored]
  | multiplyAdd dest a b c =>
      rw [map_fst_of_mapM_lanes Loc.scratch dest h fun i w hw => ?_]
      · simp [targets, stored]
      · simp only [Option.bind_eq_bind, Option.bind_eq_some_iff, Option.pure_def,
          Option.some.injEq] at hw
        obtain ⟨_, _, _, _, _, _, rfl⟩ := hw
        rfl
  | vbroadcast dest src =>
      obtain ⟨val, -, hret⟩ := Option.bind_eq_some_iff.mp h
      obtain rfl := Option.some.inj hret
      have hlanes : List.map Loc.scratch (lanes dest) =
          (List.range VLEN).map fun i => Loc.scratch (dest + i) := by
        rw [← map_range_eq_lanes, List.map_map]
        rfl
      simp [targets, stored, hlanes]

theorem Inst.sources_subset_touched (inst : SerializedInstruction) :
    inst.sources ⊆ inst.touched := by
  cases inst <;> intro a <;> simp only [sources, touched, List.mem_cons, List.mem_append] <;> tauto

theorem Inst.targets_subset_marked (inst : SerializedInstruction) :
    inst.targets ⊆ inst.marked := by
  cases inst <;> simp [targets, marked]

end Writes

section Machine

variable {m m' : Machine} {ws : List (Loc × Word)}

/-- Landing writes on words that exist. -/
theorem read_of_foldlM_write (h : ws.foldlM Machine.write m = some m') :
    (∀ w ∈ ws, (m.read w.1).isSome) ∧ m'.read = overwrite m.read ws := by
  induction ws generalizing m with
  | nil =>
      obtain rfl := Option.some.inj h
      exact ⟨List.forall_mem_nil _, rfl⟩
  | cons w ws ih =>
      rw [List.foldlM_cons] at h
      obtain ⟨mid, hmid, hrest⟩ := Option.bind_eq_some_iff.mp h
      have hread : mid.read = Function.update m.read w.1 (some w.2) := by
        funext l
        rw [read_write hmid, Function.update_apply]
      have hsome : (m.read w.1).isSome := by
        obtain ⟨l, val⟩ := w
        cases l
        all_goals
          simp only [Machine.write] at hmid
          split at hmid
          · simpa [Machine.read]
          · cases hmid
      obtain ⟨hexist, hresult⟩ := ih hrest
      refine ⟨List.forall_mem_cons.mpr ⟨hsome, fun w' hw' => ?_⟩, by rw [hresult, hread]; rfl⟩
      have hw' := hexist w' hw'
      rw [hread, Function.update_apply] at hw'
      split at hw'
      · rename_i heq
        rwa [heq]
      · exact hw'

theorem exists_foldlM_write (h : ∀ w ∈ ws, (m.read w.1).isSome) :
    ∃ m', ws.foldlM Machine.write m = some m' := by
  induction ws generalizing m with
  | nil => exact ⟨m, rfl⟩
  | cons w ws ih =>
      obtain ⟨hw, hws⟩ := List.forall_mem_cons.mp h
      obtain ⟨mid, hmid⟩ := exists_write w.2 hw
      obtain ⟨m', hm'⟩ := @ih mid fun w' hw' => by
        rw [read_write hmid]
        split
        · rfl
        · exact hws w' hw'
      exact ⟨m', by rw [List.foldlM_cons, hmid]; exact hm'⟩

theorem Machine.eq_of_read (h : m.read = m'.read) : m = m' := by
  obtain ⟨scratch, mem⟩ := m
  obtain ⟨scratch', mem'⟩ := m'
  have hscratch : scratch = scratch' := List.ext_getElem? fun a => congrFun h (.scratch a)
  have hmem : mem = mem' := List.ext_getElem? fun a => congrFun h (.mem a)
  rw [hscratch, hmem]

end Machine

section Lists

/-- What an instruction reads and writes, with the values. -/
abbrev Effect := Footprint Loc Word

/-- The instructions of a list, as actions on the words of the machine. -/
def listActions (ss : ScratchSpace) (concThreads : ℕ) : Actions InstrMeta Loc Word where
  reads x σ := ((toSerialized ss (workSlotOf x.tid concThreads) x.lin).map (·.reads σ)).getD []
  writes x σ := (toSerialized ss (workSlotOf x.tid concThreads) x.lin).bind (Inst.writes σ)
  determined x σ τ same := by
    cases hinst : toSerialized ss (workSlotOf x.tid concThreads) x.lin with
    | none => exact ⟨rfl, rfl⟩
    | some inst =>
        rw [hinst] at same
        exact inst.determined σ τ same

/-- The effect of an instruction on the machine. -/
def Machine.effect (m : Machine) (inst : SerializedInstruction) : Option Effect := do
  return ⟨(inst.reads m.read).map fun l => (l, m.read l), ← inst.writes m.read⟩

/-- Execute the instructions of a list one at a time, and note their effects. -/
def Machine.runList (ss : ScratchSpace) (concThreads : ℕ) (m : Machine) :
    List InstrMeta → Option (List Effect × Machine)
  | [] => some ([], m)
  | x :: xs => do
      let inst ← toSerialized ss (workSlotOf x.tid concThreads) x.lin
      let effect ← m.effect inst
      let (effects, m') ← (← m.exec inst).runList ss concThreads xs
      return (effect :: effects, m')

variable {ss : ScratchSpace} {concThreads : ℕ} {m m' : Machine} {x : InstrMeta}
  {xs : List InstrMeta} {zs : List (InstrMeta × Effect)} {effects : List Effect}
  {inst : SerializedInstruction} {f : Effect} {τ : Loc → Option Word}

theorem fires_of_exec
    (hinst : toSerialized ss (workSlotOf x.tid concThreads) x.lin = some inst)
    (heffect : m.effect inst = some f) (hexec : m.exec inst = some m') :
    Fires (listActions ss concThreads) m.read x f m'.read := by
  rw [Machine.exec_eq] at hexec
  obtain ⟨ws, hws, hland⟩ := Option.bind_eq_some_iff.mp hexec
  simp only [Machine.effect, hws, Option.bind_eq_bind, Option.bind_some, Option.pure_def,
    Option.some.injEq] at heffect
  obtain rfl := heffect
  obtain ⟨hexist, hresult⟩ := read_of_foldlM_write hland
  exact ⟨by simp [listActions, hinst], by simp [listActions, hinst, hws], hexist, hresult⟩

theorem exec_of_fires (h : Fires (listActions ss concThreads) m.read x f τ) :
    ∃ inst m', toSerialized ss (workSlotOf x.tid concThreads) x.lin = some inst ∧
      m.effect inst = some f ∧ m.exec inst = some m' ∧ m'.read = τ := by
  obtain ⟨inst, hinst, hws⟩ := Option.bind_eq_some_iff.mp h.writes
  obtain ⟨m', hm'⟩ := exists_foldlM_write h.exist
  have hreads := h.reads
  simp only [listActions, hinst, Option.map_some, Option.getD_some] at hreads
  refine ⟨inst, m', hinst, ?_, by rw [Machine.exec_eq, hws]; exact hm', ?_⟩
  · rw [Machine.effect, hws, ← hreads]
    rfl
  · rw [h.result]
    exact (read_of_foldlM_write hm').2

/-- A run of a list on the machine is a run of its actions. -/
theorem runs_of_runList (h : m.runList ss concThreads xs = some (effects, m')) :
    effects.length = xs.length ∧
      Runs (listActions ss concThreads) m.read (xs.zip effects) m'.read := by
  induction xs generalizing m effects with
  | nil =>
      obtain ⟨rfl, rfl⟩ := Prod.mk.inj (Option.some.inj h)
      exact ⟨rfl, .nil⟩
  | cons x xs ih =>
      obtain ⟨inst, hinst, h⟩ := Option.bind_eq_some_iff.mp h
      obtain ⟨effect, heffect, h⟩ := Option.bind_eq_some_iff.mp h
      obtain ⟨mid, hexec, h⟩ := Option.bind_eq_some_iff.mp h
      obtain ⟨⟨effects', m''⟩, hrest, hret⟩ := Option.bind_eq_some_iff.mp h
      obtain ⟨rfl, rfl⟩ := Prod.mk.inj (Option.some.inj hret)
      obtain ⟨hlength, hruns⟩ := ih hrest
      exact ⟨congrArg (· + 1) hlength, .cons (fires_of_exec hinst heffect hexec) hruns⟩

theorem runList_of_runs (h : Runs (listActions ss concThreads) m.read zs τ) :
    ∃ m', m.runList ss concThreads (zs.map Prod.fst) = some (zs.map Prod.snd, m') ∧
      m'.read = τ := by
  induction zs generalizing m with
  | nil =>
      cases h
      exact ⟨m, rfl, rfl⟩
  | cons z zs ih =>
      obtain _ | ⟨hz, hrest⟩ := h
      obtain ⟨inst, mid, hinst, heffect, hexec, rfl⟩ := exec_of_fires hz
      obtain ⟨m', hm', hread⟩ := ih hrest
      refine ⟨m', ?_, hread⟩
      simp only [List.map_cons, Machine.runList, hinst, heffect, hexec, hm', Option.bind_eq_bind,
        Option.bind_some, Option.pure_def]

end Lists

end Explore.Takehome
