import Explore.Takehome.Reordering
import Explore.Takehome.Splitting
import Mathlib.Data.List.Nodup

/-!
# The pieces of an instruction do what it does

The lanes of a vector instruction read their own words and write their own words, so eight
scalar instructions, one after the other, do what it does; the first halves of a
`multiply_add` leave the products in the destination, where the second halves find them.
An addition may become an `add_imm` when it finds the value of the constant in the register
that it adds.
-/

namespace Explore.Takehome

/-- The instruction adds the constant `imm`, which is to be found in the scratch word `loc`. -/
def Adds (ss : ScratchSpace) (slot : ℤ) (imm : ℤ) (loc : ℕ) : LogicalInstruction → Prop
  | .alu .add _ _ b => b.constantValue ss = some imm ∧ b.addrOf ss slot = some loc
  | .valu .add _ _ b | .multiplyAdd _ _ _ b =>
      b.constantValue ss = some imm ∧ ∃ addr, b.addrOf ss slot = some addr ∧ loc ∈ lanes addr
  | _ => False

/-- An instruction that adds a constant register found the value of the constant there. -/
def AddsConstant (env : PackerEnv) (z : InstrMeta × Effect) : Prop :=
  ∀ imm loc v, Adds env.ss (workSlotOf z.1.tid env.concThreads) imm loc z.1.lin →
    (Loc.scratch loc, v) ∈ z.2.reads → v = some (word imm)

section Fires

variable {env : PackerEnv} {x : InstrMeta} {f : Effect} {σ τ : Loc → Option Word}
  {inst : SerializedInstruction} {ws : List (Loc × Word)}

/-- What an instruction reads and writes when it finds `σ`. -/
def effectAt (σ : Loc → Option Word) (inst : SerializedInstruction) (ws : List (Loc × Word)) :
    Effect :=
  ⟨(inst.reads σ).map fun l => (l, σ l), ws⟩

theorem fires_of_inst (hinst : instOf env x = some inst) (writes : inst.writes σ = some ws)
    (exist : ∀ w ∈ ws, (σ w.1).isSome) :
    Fires (listActions env.ss env.concThreads) σ x (effectAt σ inst ws) (overwrite σ ws) := by
  rw [instOf] at hinst
  exact ⟨by simp [listActions, hinst, effectAt], by simp [listActions, hinst, writes, effectAt],
    exist, rfl⟩

theorem effect_of_fires (fires : Fires (listActions env.ss env.concThreads) σ x f τ)
    (hinst : instOf env x = some inst) :
    f.reads = (inst.reads σ).map (fun l => (l, σ l)) ∧ inst.writes σ = some f.writes := by
  have hreads := fires.reads
  have hwrites := fires.writes
  rw [instOf] at hinst
  simp only [listActions, hinst, Option.map_some, Option.getD_some,
    Option.bind_some] at hreads hwrites
  exact ⟨hreads, hwrites⟩

theorem Inst.loaded_eq_nil (h : inst.engine ≠ .load) : inst.loaded σ = [] := by
  cases inst with
  | load | vload => exact absurd rfl h
  | _ => rfl

theorem Inst.stored_eq_nil (h : inst.engine ≠ .store) : inst.stored σ = [] := by
  cases inst with
  | store | vstore => exact absurd rfl h
  | _ => rfl

/-- An instruction that neither loads nor stores does not meet another one in memory. -/
theorem not_memClash_of_scalar {g : Effect}
    (fires : Fires (listActions env.ss env.concThreads) σ x f τ)
    (hinst : instOf env x = some inst) (load : inst.engine ≠ .load) (store : inst.engine ≠ .store) :
    ¬ MemClash f g := by
  obtain ⟨hreads, hwrites⟩ := effect_of_fires fires hinst
  have hnot (addr : ℕ) : ¬ f.Reads (.mem addr) ∧ ¬ f.Writes (.mem addr) := by
    constructor
    · intro h
      rw [Footprint.Reads, hreads, Inst.reads, Inst.loaded_eq_nil load] at h
      simp at h
    · intro h
      rw [Footprint.Writes, Inst.map_fst_writes hwrites, Inst.stored_eq_nil store] at h
      simp at h
  rintro ⟨addr, ⟨hw, -⟩ | ⟨-, hr⟩⟩
  · exact (hnot addr).2 hw
  · exact (hnot addr).1 hr

/-- The word of a constant that is added is one that the instruction reads. -/
theorem mem_sources_of_adds {imm : ℤ} {loc : ℕ} (hinst : instOf env x = some inst)
    (adds : Adds env.ss (workSlotOf x.tid env.concThreads) imm loc x.lin) :
    loc ∈ inst.sources := by
  generalize hlin : x.lin = lin at adds
  cases lin with
  | alu op dest a b =>
      obtain ⟨d, a', b', rfl, -, -, hb⟩ := instOf_alu hlin hinst
      cases op with
      | add =>
          obtain rfl := Option.some.inj (hb.symm.trans adds.2)
          simp [Inst.sources]
      | _ => exact adds.elim
  | valu op dest a b =>
      obtain ⟨d, a', b', rfl, -, -, hb⟩ := instOf_valu hlin hinst
      cases op with
      | add =>
          obtain ⟨-, addr, haddr, hloc⟩ := adds
          obtain rfl := Option.some.inj (hb.symm.trans haddr)
          simp [Inst.sources, hloc]
      | _ => exact adds.elim
  | multiplyAdd dest a b c =>
      obtain ⟨d, a', b', c', rfl, -, -, -, hc⟩ := instOf_multiplyAdd hlin hinst
      obtain ⟨-, addr, haddr, hloc⟩ := adds
      obtain rfl := Option.some.inj (hc.symm.trans haddr)
      simp [Inst.sources, hloc]
  | _ => exact adds.elim

/-- What an instruction found is what the words held. -/
theorem addsConstant_iff (fires : Fires (listActions env.ss env.concThreads) σ x f τ)
    (hinst : instOf env x = some inst) :
    AddsConstant env (x, f) ↔ ∀ imm loc,
      Adds env.ss (workSlotOf x.tid env.concThreads) imm loc x.lin →
        σ (.scratch loc) = some (word imm) := by
  obtain ⟨hreads, -⟩ := effect_of_fires fires hinst
  constructor
  · intro h imm loc adds
    apply h imm loc _ adds
    rw [hreads]
    have hmem := mem_sources_of_adds hinst adds
    exact List.mem_map.mpr ⟨_, List.mem_append_left _ (List.mem_map.mpr ⟨loc, hmem, rfl⟩), rfl⟩
  · intro h imm loc v adds hmem
    rw [hreads] at hmem
    obtain ⟨l, -, heq⟩ := List.mem_map.mp hmem
    obtain ⟨rfl, rfl⟩ := Prod.mk.inj heq
    exact h imm loc adds

end Fires

section Rows

variable {env : PackerEnv} {σ : Loc → Option Word}

/-- The results of a loop over the lanes. -/
theorem exists_lanes_of_mapM {β : Type} {g : ℕ → Option β} {ys : List β}
    (h : (List.range VLEN).mapM g = some ys) :
    ∃ w : Fin 8 → β, (∀ i : Fin 8, g i = some (w i)) ∧ ys = (List.finRange 8).map w := by
  obtain ⟨hlength, hget⟩ := List.forall₂_iff_get.mp (forall₂_of_mapM h)
  have hlength : ys.length = 8 := by
    simpa [VLEN] using hlength.symm
  refine ⟨fun i => ys[i.val], fun i => ?_, ?_⟩
  · have hi := hget i.val (by simp [VLEN]) (by omega)
    simpa using hi
  · apply List.ext_getElem
    · simpa using hlength
    · intro i hi hi'
      simp

/-- Scalar instructions, one for each lane, that do not conflict. -/
theorem runs_row {p : Fin 8 → InstrMeta} {g : Fin 8 → SerializedInstruction}
    {w : Fin 8 → Loc × Word} (insts : ∀ i, instOf env (p i) = some (g i))
    (scalar : ∀ i, (g i).engine = .alu ∨ (g i).engine = .flow)
    (writes : ∀ i, (g i).writes σ = some [w i]) (exist : ∀ i, (σ (w i).1).isSome)
    (apart : ∀ i j, i ≠ j → ¬ (g i).Conflicts (g j)) :
    Runs (listActions env.ss env.concThreads) σ
      ((List.finRange 8).map fun i => (p i, effectAt σ (g i) [w i]))
      (overwrite σ ((List.finRange 8).map w)) := by
  have hfires (i : Fin 8) := fires_of_inst (insts i) (writes i) fun v hv => by
    obtain rfl := List.mem_singleton.mp hv
    exact exist i
  have hresult : ((List.finRange 8).map fun i => (p i, effectAt σ (g i) [w i])).flatMap
      (fun z => z.2.writes) = (List.finRange 8).map w := by
    rw [List.flatMap_map]
    exact List.flatMap_pure_eq_map w _
  rw [← hresult]
  apply Runs.together
  · intro z hz
    obtain ⟨i, -, rfl⟩ := List.mem_map.mp hz
    exact hfires i
  · refine List.pairwise_map.mpr ((List.nodup_finRange 8).imp_of_mem fun {i j} _ _ hij hclash => ?_)
    obtain hconf | hmem := conflicts_of_clash (hfires i) (hfires j) (insts i) (insts j) hclash
    · exact apart i j hij hconf
    · have hload : (g i).engine ≠ .load := by
        rcases scalar i with h | h <;> simp [h]
      have hstore : (g i).engine ≠ .store := by
        rcases scalar i with h | h <;> simp [h]
      exact not_memClash_of_scalar (hfires i) (insts i) hload hstore hmem

end Rows

section Pieces

variable {env : PackerEnv} {ok : Prop} {clen : ℕ} {x : InstrMeta} {pieces new : List InstrMeta}
  {f : Effect} {σ τ : Loc → Option Word}

theorem aluLane_eq_some {op : AluOp} {d a b i : ℕ} {w : Loc × Word}
    (h : aluLane σ op d a b i = some w) :
    ∃ u v val, σ (.scratch (a + i)) = some u ∧ σ (.scratch (b + i)) = some v ∧
      op.eval u v = some val ∧ w = (.scratch (d + i), val) := by
  obtain ⟨u, hu, h⟩ := Option.bind_eq_some_iff.mp h
  obtain ⟨v, hv, h⟩ := Option.bind_eq_some_iff.mp h
  obtain ⟨val, hval, hret⟩ := Option.bind_eq_some_iff.mp h
  exact ⟨u, v, val, hu, hv, hval, (Option.some.inj hret).symm⟩

theorem writes_alu {op : AluOp} {d a b : ℕ} {u v val : Word} (hu : σ (.scratch a) = some u)
    (hv : σ (.scratch b) = some v) (hval : op.eval u v = some val) :
    (Inst.alu op d a b).writes σ = some [(.scratch d, val)] := by
  simp [Inst.writes, aluLane, hu, hv, hval]

theorem writes_addImm {d a : ℕ} {imm : ℤ} {u : Word} (hu : σ (.scratch a) = some u) :
    (Inst.addImm d a imm).writes σ = some [(.scratch d, u + word imm)] := by
  simp [Inst.writes, hu]

/-- Pieces in place of `x`, each of which adds only constants that it finds. -/
def Acts (env : PackerEnv) (σ : Loc → Option Word) (pieces : List InstrMeta)
    (τ : Loc → Option Word) : Prop :=
  ∃ zs : List (InstrMeta × Effect), zs.map Prod.fst = pieces ∧
    Runs (listActions env.ss env.concThreads) σ zs τ ∧ ∀ z ∈ zs, AddsConstant env z

theorem Acts.append {τ' : Loc → Option Word} {others : List InstrMeta} (h : Acts env σ pieces τ)
    (h' : Acts env τ others τ') : Acts env σ (pieces ++ others) τ' := by
  obtain ⟨zs, rfl, hruns, hadds⟩ := h
  obtain ⟨zs', rfl, hruns', hadds'⟩ := h'
  refine ⟨zs ++ zs', List.map_append, runs_append.mpr ⟨τ, hruns, hruns'⟩, fun z hz => ?_⟩
  rcases List.mem_append.mp hz with hz | hz
  · exact hadds z hz
  · exact hadds' z hz

/-- A row of scalar instructions. -/
theorem acts_row {p : Fin 8 → InstrMeta} {g : Fin 8 → SerializedInstruction}
    {w : Fin 8 → Loc × Word} (insts : ∀ i, instOf env (p i) = some (g i))
    (scalar : ∀ i, (g i).engine = .alu ∨ (g i).engine = .flow)
    (writes : ∀ i, (g i).writes σ = some [w i]) (exist : ∀ i, (σ (w i).1).isSome)
    (apart : ∀ i j, i ≠ j → ¬ (g i).Conflicts (g j))
    (adds : ∀ i imm loc, Adds env.ss (workSlotOf (p i).tid env.concThreads) imm loc (p i).lin →
      σ (.scratch loc) = some (word imm)) :
    Acts env σ ((List.finRange 8).map p) (overwrite σ ((List.finRange 8).map w)) := by
  refine ⟨_, ?_, runs_row insts scalar writes exist apart, fun z hz => ?_⟩
  · rw [List.map_map]
    rfl
  · obtain ⟨i, -, rfl⟩ := List.mem_map.mp hz
    have hfires := fires_of_inst (insts i) (writes i) fun v hv => by
      obtain rfl := List.mem_singleton.mp hv
      exact exist i
    exact (addsConstant_iff hfires (insts i)).mpr (adds i)

/-- What a vector instruction writes in each lane, in words that exist. -/
theorem exists_lane_writes {inst : SerializedInstruction} {lane : ℕ → Option (Loc × Word)}
    (fires : Fires (listActions env.ss env.concThreads) σ x f τ) (hinst : instOf env x = some inst)
    (writes : inst.writes σ = (List.range VLEN).mapM lane) :
    ∃ w : Fin 8 → Loc × Word, (∀ i : Fin 8, lane i = some (w i)) ∧ (∀ i, (σ (w i).1).isSome) ∧
      τ = overwrite σ ((List.finRange 8).map w) := by
  obtain ⟨-, hwrites⟩ := effect_of_fires fires hinst
  obtain ⟨w, hlane, hws⟩ := exists_lanes_of_mapM (writes.symm.trans hwrites)
  refine ⟨w, hlane, fun i => ?_, hws ▸ fires.result⟩
  apply fires.exist
  rw [hws]
  exact List.mem_map.mpr ⟨i, List.mem_finRange i, rfl⟩

theorem constantValue_scalarAtOffset (ss : ScratchSpace) (b : LogicalOp) (i : Fin 8) :
    (b.scalarAtOffset i).constantValue ss = b.constantValue ss := by
  cases b <;> rfl

theorem add_lt_lanes (addr : ℕ) (i : Fin 8) : addr + i ∈ lanes addr := by
  apply mem_lanes.mpr
  omega

/-- The lanes of an operation on vectors. -/
theorem acts_valu {op : AluOp} {dest a b : LogicalOp} (lin : x.lin = .valu op dest a b)
    (good : Good env ok x) (fires : Fires (listActions env.ss env.concThreads) σ x f τ)
    (constant : AddsConstant env (x, f)) :
    Acts env σ (lanesOf x fun i =>
      .alu op (dest.scalarAtOffset i) (a.scalarAtOffset i) (b.scalarAtOffset i)) τ := by
  obtain ⟨⟨inst, hinst, safe⟩, laned, -, -, -⟩ := good
  obtain ⟨d, a', b', rfl, hd, ha, hb⟩ := instOf_valu lin hinst
  have hconst := (addsConstant_iff fires hinst).mp constant
  rw [lin] at laned hconst
  obtain ⟨w, hlane, hexist, rfl⟩ := exists_lane_writes fires hinst rfl
  have hb' (i : Fin 8) := addrOf_scalarAtOffset i laned.2.2 hb
  refine acts_row (g := fun i => .alu op (d + i) (a' + i) (b' + i)) (fun i => ?_)
    (fun _ => .inl rfl) (fun i => ?_) hexist
    (fun i j hij => not_conflicts_lane op safe.1 safe.2 hij) fun i imm loc adds => ?_
  · simp [instOf, toSerialized, Inst.mapM, addrOf_scalarAtOffset i laned.1 hd,
      addrOf_scalarAtOffset i laned.2.1 ha, hb']
  · obtain ⟨u, v, val, hu, hv, hval, hw⟩ := aluLane_eq_some (hlane i)
    rw [writes_alu hu hv hval, hw]
  · cases op with
    | add =>
        obtain ⟨hvalue, haddr⟩ := adds
        obtain rfl := Option.some.inj ((hb' i).symm.trans haddr)
        rw [constantValue_scalarAtOffset] at hvalue
        exact hconst imm _ ⟨hvalue, b', hb, add_lt_lanes b' i⟩
    | _ => exact adds.elim

/-- Each lane of a broadcast copies the word by itself. -/
theorem acts_broadcast {dest src : LogicalRegister}
    (lin : x.lin = .vbroadcast (.reg dest) (.reg src))
    (apart : dest.overlaps src env.ss (workSlotOf x.tid env.concThreads) = some false)
    (good : Good env ok x) (fires : Fires (listActions env.ss env.concThreads) σ x f τ) :
    Acts env σ (lanesOf x fun i =>
      .alu .or (.reg (dest.scalarAtOffset i)) (.reg src) (.reg src)) τ := by
  obtain ⟨⟨inst, hinst, safe⟩, laned, -, -, -⟩ := good
  obtain ⟨d, s, rfl, hd, hs⟩ := instOf_vbroadcast lin hinst
  rw [lin] at laned
  obtain ⟨_, _, hdest, hsrc, hvec, hword⟩ := laned
  obtain rfl := LogicalOp.reg.inj hdest
  obtain rfl := LogicalOp.reg.inj hsrc
  have hzero : GreedyWorkPacker.startsAtZero (.reg dest) := by
    simp [GreedyWorkPacker.startsAtZero, LogicalRegister.offset, hvec]
  obtain ⟨-, hwrites⟩ := effect_of_fires fires hinst
  obtain ⟨val, hval, hret⟩ := Option.bind_eq_some_iff.mp hwrites
  have hws : f.writes = (List.finRange 8).map fun i : Fin 8 => (Loc.scratch (d + i), val) :=
    (Option.some.inj hret).symm
  obtain rfl := fires.result
  rw [hws]
  refine acts_row (g := fun i => .alu .or (d + i) s s) (fun i => ?_) (fun _ => .inl rfl)
    (fun i => ?_) (fun i => ?_)
    (fun i j hij => not_conflicts_broadcastLane (not_overlap_word hvec hword hd hs apart) hij)
    fun i imm loc => False.elim
  · have hlane := addrOf_scalarAtOffset i hzero hd
    rw [LogicalOp.scalarAtOffset] at hlane
    simp [instOf, toSerialized, Inst.mapM, hlane, hs]
  · rw [writes_alu hval hval rfl, BitVec.or_self]
  · apply fires.exist (Loc.scratch (d + i), val)
    rw [hws]
    exact List.mem_map.mpr ⟨i, List.mem_finRange i, rfl⟩

/-- The lanes of the addition of a constant. -/
theorem acts_vectorImm {dest a b : LogicalRegister} {imm : ℤ}
    (lin : x.lin = .valu .add (.reg dest) (.reg a) (.reg b))
    (const : b.constantValue env.ss = some imm) (good : Good env ok x)
    (fires : Fires (listActions env.ss env.concThreads) σ x f τ)
    (constant : AddsConstant env (x, f)) :
    Acts env σ (lanesOf x fun i =>
      .addImm (.reg (dest.scalarAtOffset i)) (.reg (a.scalarAtOffset i)) imm) τ := by
  obtain ⟨⟨inst, hinst, safe⟩, laned, -, -, -⟩ := good
  obtain ⟨d, a', b', rfl, hd, ha, hb⟩ := instOf_valu lin hinst
  have hconst := (addsConstant_iff fires hinst).mp constant
  rw [lin] at laned hconst
  obtain ⟨w, hlane, hexist, rfl⟩ := exists_lane_writes fires hinst rfl
  refine acts_row (g := fun i => .addImm (d + i) (a' + i) imm) (fun i => ?_)
    (fun _ => .inr rfl) (fun i => ?_) hexist
    (fun i j hij => not_conflicts_immLane imm safe.1 hij) fun i imm loc => False.elim
  · have hd := addrOf_scalarAtOffset i laned.1 hd
    have ha := addrOf_scalarAtOffset i laned.2.1 ha
    rw [LogicalOp.scalarAtOffset] at hd ha
    simp [instOf, toSerialized, Inst.mapM, hd, ha]
  · obtain ⟨u, v, val, hu, hv, hval, hw⟩ := aluLane_eq_some (hlane i)
    have hfound := hconst imm _ ⟨const, b', hb, add_lt_lanes b' i⟩
    obtain rfl := Option.some.inj (hv.symm.trans hfound)
    obtain rfl := Option.some.inj hval
    rw [writes_addImm hu, hw]

/-- The addition of a constant to a word. -/
theorem acts_scalarImm {dest a b : LogicalOp} {imm : ℤ} (lin : x.lin = .alu .add dest a b)
    (const : b.constantValue env.ss = some imm) (good : Good env ok x)
    (fires : Fires (listActions env.ss env.concThreads) σ x f τ)
    (constant : AddsConstant env (x, f)) : Acts env σ [{ x with lin := .addImm dest a imm }] τ := by
  obtain ⟨⟨inst, hinst, safe⟩, -, -, -, -⟩ := good
  obtain ⟨d, a', b', rfl, hd, ha, hb⟩ := instOf_alu lin hinst
  have hconst := (addsConstant_iff fires hinst).mp constant
  rw [lin] at hconst
  have hfound := hconst imm b' ⟨const, hb⟩
  obtain ⟨-, hwrites⟩ := effect_of_fires fires hinst
  obtain ⟨w, hlane, hret⟩ := Option.bind_eq_some_iff.mp hwrites
  have hws : f.writes = [w] := (Option.some.inj hret).symm
  obtain ⟨u, v, val, hu, hv, hval, rfl⟩ := aluLane_eq_some hlane
  obtain rfl := Option.some.inj (hv.symm.trans hfound)
  obtain rfl := Option.some.inj hval
  have hpiece : instOf env { x with lin := .addImm dest a imm } = some (.addImm d a' imm) := by
    simp [instOf, toSerialized, Inst.mapM, hd, ha]
  have hfires := fires_of_inst hpiece (writes_addImm hu) (hws ▸ fires.exist)
  refine ⟨[(_, _)], rfl, .cons hfires ?_, fun z hz => ?_⟩
  · rw [fires.result, hws]
    exact .nil
  · obtain rfl := List.mem_singleton.mp hz
    exact fun imm loc v => False.elim

/-- The words of a row of lanes are different. -/
theorem nodup_lanes {w : Fin 8 → Loc × Word} {d : ℕ} (hw : ∀ i, (w i).1 = .scratch (d + i)) :
    (((List.finRange 8).map w).map Prod.fst).Nodup := by
  rw [List.map_map]
  refine List.Nodup.map (fun i j hij => ?_) (List.nodup_finRange 8)
  have hij : (w i).1 = (w j).1 := hij
  rw [hw, hw] at hij
  have hij := Loc.scratch.inj hij
  exact Fin.ext (by omega)

/-- The products land in the destination before the second halves read them there. -/
theorem acts_multiplyAdd {dest a b c : LogicalRegister}
    (lin : x.lin = .multiplyAdd (.reg dest) (.reg a) (.reg b) (.reg c))
    (apart : dest.overlaps c env.ss (workSlotOf x.tid env.concThreads) = some false)
    (good : Good env ok x) (fires : Fires (listActions env.ss env.concThreads) σ x f τ)
    (constant : AddsConstant env (x, f)) :
    Acts env σ (mulHalves x clen dest a b ++ addHalves x clen dest c) τ := by
  obtain ⟨⟨inst, hinst, safe⟩, laned, -, -, -⟩ := good
  obtain ⟨d, a', b', c', rfl, hd, ha, hb, hc⟩ := instOf_multiplyAdd lin hinst
  have hconst := (addsConstant_iff fires hinst).mp constant
  rw [lin] at laned hconst
  obtain ⟨_, _, _, _, hdest, hreg₁, hreg₂, hreg₃, hdv, hav, hbv, hcv⟩ := laned
  obtain rfl := LogicalOp.reg.inj hdest
  obtain rfl := LogicalOp.reg.inj hreg₁
  obtain rfl := LogicalOp.reg.inj hreg₂
  obtain rfl := LogicalOp.reg.inj hreg₃
  have hdisjoint := not_overlap_vectors hdv hcv hd hc apart
  have hlane {r : LogicalRegister} {addr : ℕ} (hr : r.part = .vector)
      (haddr : LogicalOp.addrOf env.ss (workSlotOf x.tid env.concThreads) (.reg r) = some addr)
      (i : Fin 8) : LogicalOp.addrOf env.ss (workSlotOf x.tid env.concThreads)
        (.reg (r.scalarAtOffset i)) = some (addr + i) := by
    have hzero : GreedyWorkPacker.startsAtZero (.reg r) := by
      simp [GreedyWorkPacker.startsAtZero, LogicalRegister.offset, hr]
    exact addrOf_scalarAtOffset i hzero haddr
  obtain ⟨w, hwrite, hexist, rfl⟩ := exists_lane_writes fires hinst rfl
  have hvalues (i : Fin 8) : ∃ u v t, σ (.scratch (a' + i)) = some u ∧
      σ (.scratch (b' + i)) = some v ∧ σ (.scratch (c' + i)) = some t ∧
      w i = (.scratch (d + i), u * v + t) := by
    have h := hwrite i
    simp only [Option.bind_eq_bind, Option.bind_eq_some_iff, Option.pure_def,
      Option.some.injEq] at h
    obtain ⟨u, hu, v, hv, t, ht, hw⟩ := h
    exact ⟨u, v, t, hu, hv, ht, hw.symm⟩
  choose u v t hu hv ht hw using hvalues
  let product := fun i : Fin 8 => (Loc.scratch (d + i), u i * v i)
  let mid := overwrite σ ((List.finRange 8).map product)
  have hfound (i : Fin 8) : mid (.scratch (d + i)) = some (u i * v i) := by
    apply overwrite_of_mem (nodup_lanes fun _ => rfl)
    exact List.mem_map.mpr ⟨i, List.mem_finRange i, rfl⟩
  have hkept (i : Fin 8) : mid (.scratch (c' + i)) = σ (.scratch (c' + i)) := by
    apply overwrite_of_notMem
    intro hmem
    obtain ⟨_, hmem, heq⟩ := List.mem_map.mp hmem
    obtain ⟨j, -, rfl⟩ := List.mem_map.mp hmem
    have heq := Loc.scratch.inj heq
    omega
  have hdest (i : Fin 8) : (σ (.scratch (d + i))).isSome := by
    have h := hexist i
    rwa [hw i] at h
  have hmid (l : Loc) : (mid l).isSome = (σ l).isSome := by
    apply isSome_overwrite
    intro y hy
    obtain ⟨i, -, rfl⟩ := List.mem_map.mp hy
    exact hdest i
  have hfirst : Acts env σ (mulHalves x clen dest a b) mid := by
    refine acts_row (g := fun i => .alu .mul (d + i) (a' + i) (b' + i)) (fun i => ?_)
      (fun _ => .inl rfl) (fun i => writes_alu (hu i) (hv i) rfl) hdest
      (fun i j hij => not_conflicts_lane .mul safe.1 safe.2.1 hij) fun i imm loc => False.elim
    simp [instOf, toSerialized, Inst.mapM, hlane hdv hd, hlane hav ha, hlane hbv hb]
  have hsecond : Acts env mid (addHalves x clen dest c)
      (overwrite mid ((List.finRange 8).map w)) := by
    refine acts_row (g := fun i => .alu .add (d + i) (d + i) (c' + i)) (fun i => ?_)
      (fun _ => .inl rfl) (fun i => ?_) (fun i => ?_)
      (fun i j hij => not_conflicts_lane .add (.inl rfl) (.inr ?_) hij) fun i imm loc adds => ?_
    · simp [instOf, toSerialized, Inst.mapM, hlane hdv hd, hlane hcv hc]
    · rw [writes_alu (hfound i) ((hkept i).trans (ht i)) rfl, hw i]
    · rw [hmid]
      exact hexist i
    · exact hdisjoint
    · obtain ⟨hvalue, haddr⟩ := adds
      obtain rfl := Option.some.inj ((hlane hcv hc i).symm.trans haddr)
      rw [hkept]
      exact hconst imm _ ⟨hvalue, c', hc, add_lt_lanes c' i⟩
  have hresult : overwrite mid ((List.finRange 8).map w) =
      overwrite σ ((List.finRange 8).map w) := by
    apply overwrite_overwrite
    rw [List.map_map, List.map_map]
    apply List.map_congr_left
    intro i _
    exact (congrArg Prod.fst (hw i)).symm
  rw [← hresult]
  exact hfirst.append hsecond

/-- The pieces of an instruction together do what it does. -/
theorem Pieces.acts (h : Pieces env clen x pieces new) (good : Good env ok x)
    (fires : Fires (listActions env.ss env.concThreads) σ x f τ)
    (constant : AddsConstant env (x, f)) : Acts env σ pieces τ := by
  cases h with
  | valu lin => exact acts_valu lin good fires constant
  | broadcast lin apart => exact acts_broadcast lin apart good fires
  | vectorImm lin const => exact acts_vectorImm lin const good fires constant
  | scalarImm lin const => exact acts_scalarImm lin const good fires constant
  | multiplyAdd lin apart => exact acts_multiplyAdd lin apart good fires constant

end Pieces

end Explore.Takehome
