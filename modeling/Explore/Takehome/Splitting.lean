import Explore.Lib.Pending
import Explore.Takehome.Hazards
import Explore.Takehome.PackerSpec

/-!
# Splitting keeps the order of conflicts

`Pieces` lists the ways in which the packer replaces an instruction by others. For
each, the new instructions stay within the words of the old one and do not conflict
with each other, so an order of the pending instructions that respects all conflicts
still does after the replacement. Conflicts beyond the scratch space, such as those of
memory, may be added as long as they are between loads and stores.
-/

namespace Explore.Takehome

open Pending

/-- The instruction with the addresses that it gets when it is issued. -/
def instOf (env : PackerEnv) (x : InstrMeta) : Option SerializedInstruction :=
  toSerialized env.ss (workSlotOf x.tid env.concThreads) x.lin

/-- A conflict about scratch words, or an extra one. -/
def Conflict (env : PackerEnv) (extra : InstrMeta → InstrMeta → Prop) (x y : InstrMeta) : Prop :=
  (∃ i j, instOf env x = some i ∧ instOf env y = some j ∧ i.Conflicts j) ∨ extra x y

/-- The operands of a vector instruction can be taken apart into lanes. -/
def Laned : LogicalInstruction → Prop
  | .valu _ dest a b =>
      GreedyWorkPacker.startsAtZero dest ∧ GreedyWorkPacker.startsAtZero a ∧
        GreedyWorkPacker.startsAtZero b
  | .multiplyAdd dest a b c =>
      ∃ d a' b' c' : LogicalRegister, dest = .reg d ∧ a = .reg a' ∧ b = .reg b' ∧ c = .reg c' ∧
        d.part = .vector ∧ a'.part = .vector ∧ b'.part = .vector ∧ c'.part = .vector
  | .vbroadcast dest src =>
      ∃ d s : LogicalRegister, dest = .reg d ∧ src = .reg s ∧ d.part = .vector ∧ s.isVector = false
  | _ => True

/-- What holds of every instruction while it is pending. -/
structure Good (env : PackerEnv) (ok : Prop) (x : InstrMeta) : Prop where
  inst : ∃ inst, instOf env x = some inst ∧ LaneSafe inst
  laned : Laned x.lin
  ranges : x.lin.engine = .valu → ∀ r : LogicalRegister, LogicalOp.reg r ∈ x.lin.operands →
    ∃ range, r.range env.ss (workSlotOf x.tid env.concThreads) = some range
  short : ok → GreedyWorkPacker.Short x
  tid : ok → INFINITE_SET x.tid = true

/-- The pieces of `x`, one a lane. -/
def lanesOf (x : InstrMeta) (piece : Fin 8 → LogicalInstruction) : List InstrMeta :=
  (List.finRange 8).map fun i : Fin 8 => { x with lin := piece i }

/-- The first halves of the lanes of a `multiply_add`, when there are `clen` nodes. -/
def mulHalves (x : InstrMeta) (clen : ℕ) (dest a b : LogicalRegister) : List InstrMeta :=
  (List.finRange 8).map fun i : Fin 8 => { x with
    lin := .alu .mul (.reg (dest.scalarAtOffset i)) (.reg (a.scalarAtOffset i))
      (.reg (b.scalarAtOffset i))
    after := [clen + i.val] }

/-- The second halves, which are new nodes. -/
def addHalves (x : InstrMeta) (clen : ℕ) (dest c : LogicalRegister) : List InstrMeta :=
  (List.finRange 8).map fun i : Fin 8 => { x with
    instid := clen + i.val
    lin := .alu .add (.reg (dest.scalarAtOffset i)) (.reg (dest.scalarAtOffset i))
      (.reg (c.scalarAtOffset i)) }

/-- The packer replaces `x` by a list of instructions, some of which are new nodes. -/
inductive Pieces (env : PackerEnv) (clen : ℕ) (x : InstrMeta) :
    List InstrMeta → List InstrMeta → Prop
  | valu {op : AluOp} {dest a b : LogicalOp} (lin : x.lin = .valu op dest a b) :
      Pieces env clen x (lanesOf x fun i =>
        .alu op (dest.scalarAtOffset i) (a.scalarAtOffset i) (b.scalarAtOffset i)) []
  | broadcast {dest src : LogicalRegister} (lin : x.lin = .vbroadcast (.reg dest) (.reg src))
      (apart : dest.overlaps src env.ss (workSlotOf x.tid env.concThreads) = some false) :
      Pieces env clen x (lanesOf x fun i =>
        .alu .or (.reg (dest.scalarAtOffset i)) (.reg src) (.reg src)) []
  | vectorImm {dest a b : LogicalRegister} {imm : ℤ}
      (lin : x.lin = .valu .add (.reg dest) (.reg a) (.reg b))
      (const : b.constantValue env.ss = some imm) :
      Pieces env clen x (lanesOf x fun i =>
        .addImm (.reg (dest.scalarAtOffset i)) (.reg (a.scalarAtOffset i)) imm) []
  | scalarImm {dest a b : LogicalOp} {imm : ℤ} (lin : x.lin = .alu .add dest a b)
      (const : b.constantValue env.ss = some imm) :
      Pieces env clen x [{ x with lin := .addImm dest a imm }] []
  | multiplyAdd {dest a b c : LogicalRegister}
      (lin : x.lin = .multiplyAdd (.reg dest) (.reg a) (.reg b) (.reg c))
      (apart : dest.overlaps c env.ss (workSlotOf x.tid env.concThreads) = some false) :
      Pieces env clen x (mulHalves x clen dest a b ++ addHalves x clen dest c)
        (addHalves x clen dest c)

/-- One replacement of a pending instruction that is not blocked. -/
inductive SplitStep (env : PackerEnv) :
    List InstrMeta × List InstrMeta → List InstrMeta × List InstrMeta → Prop
  | intro {nodes before rest pieces new : List InstrMeta} {x : InstrMeta}
      (ready : ¬ Blocked InstrMeta.after (before ++ x :: rest) x.instid)
      (split : Pieces env nodes.length x pieces new) :
      SplitStep env (nodes, before ++ x :: rest) (nodes ++ new, before ++ pieces ++ rest)

section Addresses

variable {ss : ScratchSpace} {slot : ℤ} {addr : ℕ} {op : LogicalOp} {r that : LogicalRegister}

theorem addrOf_scalarAtOffset (i : Fin 8) (zero : GreedyWorkPacker.startsAtZero op)
    (h : op.addrOf ss slot = some addr) :
    (op.scalarAtOffset i).addrOf ss slot = some (addr + i) := by
  cases op with
  | array a =>
      obtain ⟨vm, hvm, h⟩ := Option.bind_eq_some_iff.mp h
      obtain ⟨base, hbase, h⟩ := Option.bind_eq_some_iff.mp h
      obtain rfl := Option.some.inj h
      simp [LogicalOp.scalarAtOffset, LogicalOp.addrOf, ArrayOp.addrOf, ArrayOp.scalarAtOffset, hvm,
        hbase, Nat.add_assoc]
  | reg r =>
      obtain ⟨vm, hvm, h⟩ := Option.bind_eq_some_iff.mp h
      obtain ⟨base, hbase, h⟩ := Option.bind_eq_some_iff.mp h
      obtain rfl := Option.some.inj h
      have hzero : r.offset = 0 := by simpa [GreedyWorkPacker.startsAtZero] using zero
      simp [LogicalOp.scalarAtOffset, LogicalOp.addrOf, LogicalRegister.addrOf,
        LogicalRegister.scalarAtOffset, hvm, hbase, hzero]
      rfl

theorem range_of_vector (hr : r.part = .vector) (h : r.addrOf ss slot = some addr) {range : Range}
    (hrange : r.range ss slot = some range) : range = ⟨addr, addr + 7⟩ := by
  obtain ⟨vm, hvm, h⟩ := Option.bind_eq_some_iff.mp h
  obtain ⟨base, hbase, h⟩ := Option.bind_eq_some_iff.mp h
  obtain rfl := Option.some.inj h
  simp only [LogicalRegister.range, hvm, hbase, hr, Option.bind_eq_bind, Option.bind_some] at hrange
  split at hrange
  · simpa [LogicalRegister.offset, hr, VLEN] using (Option.some.inj hrange).symm
  · simp at hrange

theorem range_of_word (hr : r.isVector = false) (h : r.addrOf ss slot = some addr) {range : Range}
    (hrange : r.range ss slot = some range) : range = ⟨addr, addr⟩ := by
  obtain ⟨vm, hvm, h⟩ := Option.bind_eq_some_iff.mp h
  obtain ⟨base, hbase, h⟩ := Option.bind_eq_some_iff.mp h
  obtain rfl := Option.some.inj h
  cases hpart : r.part with
  | vector => simp [LogicalRegister.isVector, hpart] at hr
  | word offset =>
      simp only [LogicalRegister.range, hvm, hbase, hpart, Option.bind_eq_bind,
        Option.bind_some] at hrange
      simpa [LogicalRegister.offset, hpart] using (Option.some.inj hrange).symm

theorem ranges_of_overlaps (h : r.overlaps that ss slot = some false) :
    ∃ range range', r.range ss slot = some range ∧ that.range ss slot = some range' ∧
      (range.hi < range'.lo ∨ range'.hi < range.lo ∨ range.hi < range.lo ∨
      range'.hi < range'.lo) := by
  obtain ⟨range, hrange, h⟩ := Option.bind_eq_some_iff.mp h
  obtain ⟨range', hrange', h⟩ := Option.bind_eq_some_iff.mp h
  refine ⟨range, range', hrange, hrange', ?_⟩
  simp [Range.isEmpty, Range.intersect] at h
  omega

end Addresses

section PieceAddresses

variable {env : PackerEnv} {x : InstrMeta} {inst : SerializedInstruction}

theorem instOf_valu {op : AluOp} {dest a b : LogicalOp} (lin : x.lin = .valu op dest a b)
    (h : instOf env x = some inst) :
    ∃ d a' b', inst = .valu op d a' b' ∧
      dest.addrOf env.ss (workSlotOf x.tid env.concThreads) = some d ∧
      a.addrOf env.ss (workSlotOf x.tid env.concThreads) = some a' ∧
      b.addrOf env.ss (workSlotOf x.tid env.concThreads) = some b' := by
  rw [instOf, lin, toSerialized, Inst.mapM] at h
  simp only [Option.bind_eq_bind, Option.bind_eq_some_iff, Option.pure_def,
    Option.some.injEq] at h
  obtain ⟨d, hd, a', ha, b', hb, rfl⟩ := h
  exact ⟨d, a', b', rfl, hd, ha, hb⟩

theorem instOf_alu {op : AluOp} {dest a b : LogicalOp} (lin : x.lin = .alu op dest a b)
    (h : instOf env x = some inst) :
    ∃ d a' b', inst = .alu op d a' b' ∧
      dest.addrOf env.ss (workSlotOf x.tid env.concThreads) = some d ∧
      a.addrOf env.ss (workSlotOf x.tid env.concThreads) = some a' ∧
      b.addrOf env.ss (workSlotOf x.tid env.concThreads) = some b' := by
  rw [instOf, lin, toSerialized, Inst.mapM] at h
  simp only [Option.bind_eq_bind, Option.bind_eq_some_iff, Option.pure_def,
    Option.some.injEq] at h
  obtain ⟨d, hd, a', ha, b', hb, rfl⟩ := h
  exact ⟨d, a', b', rfl, hd, ha, hb⟩

theorem instOf_vbroadcast {dest src : LogicalOp} (lin : x.lin = .vbroadcast dest src)
    (h : instOf env x = some inst) :
    ∃ d s, inst = .vbroadcast d s ∧
      dest.addrOf env.ss (workSlotOf x.tid env.concThreads) = some d ∧
      src.addrOf env.ss (workSlotOf x.tid env.concThreads) = some s := by
  rw [instOf, lin, toSerialized, Inst.mapM] at h
  simp only [Option.bind_eq_bind, Option.bind_eq_some_iff, Option.pure_def,
    Option.some.injEq] at h
  obtain ⟨d, hd, s, hs, rfl⟩ := h
  exact ⟨d, s, rfl, hd, hs⟩

theorem instOf_multiplyAdd {dest a b c : LogicalOp} (lin : x.lin = .multiplyAdd dest a b c)
    (h : instOf env x = some inst) :
    ∃ d a' b' c', inst = .multiplyAdd d a' b' c' ∧
      dest.addrOf env.ss (workSlotOf x.tid env.concThreads) = some d ∧
      a.addrOf env.ss (workSlotOf x.tid env.concThreads) = some a' ∧
      b.addrOf env.ss (workSlotOf x.tid env.concThreads) = some b' ∧
      c.addrOf env.ss (workSlotOf x.tid env.concThreads) = some c' := by
  rw [instOf, lin, toSerialized, Inst.mapM] at h
  simp only [Option.bind_eq_bind, Option.bind_eq_some_iff, Option.pure_def,
    Option.some.injEq] at h
  obtain ⟨d, hd, a', ha, b', hb, c', hc, rfl⟩ := h
  exact ⟨d, a', b', c', rfl, hd, ha, hb, hc⟩

end PieceAddresses

/-- A scalar instruction of the same thread that stays within the words of `x`. -/
structure Within (env : PackerEnv) (x p : InstrMeta) : Prop where
  inst : ∃ i j, instOf env p = some i ∧ instOf env x = some j ∧ i.touched ⊆ j.touched ∧
    i.marked ⊆ j.marked
  engine : p.lin.engine = .alu ∨ p.lin.engine = .flow
  scalar : ∀ i, instOf env p = some i → LaneSafe i
  laned : Laned p.lin
  tid : p.tid = x.tid
  instidInThread : p.instidInThread = x.instidInThread

section Within

variable {env : PackerEnv} {ok : Prop} {extra : InstrMeta → InstrMeta → Prop} {x p y : InstrMeta}

theorem Within.good (h : Within env x p) (good : Good env ok x) : Good env ok p where
  inst := by
    obtain ⟨i, -, hi, -⟩ := h.inst
    exact ⟨i, hi, h.scalar i hi⟩
  laned := h.laned
  ranges := fun hvalu => by rcases h.engine with he | he <;> simp [he] at hvalu
  short := fun hok => by
    rw [GreedyWorkPacker.Short, h.tid, h.instidInThread]
    exact good.short hok
  tid := fun hok => h.tid ▸ good.tid hok

theorem Conflict.symm (extra_symm : ∀ a b, extra a b → extra b a) (h : Conflict env extra x y) :
    Conflict env extra y x := by
  rcases h with ⟨i, j, hi, hj, hconf⟩ | h
  · exact .inl ⟨j, i, hj, hi, hconf.symm⟩
  · exact .inr (extra_symm x y h)

theorem Within.conflict_left
    (extra_engine : ∀ a b, extra a b → a.lin.engine = .load ∨ a.lin.engine = .store)
    (h : Within env x p) (hconf : Conflict env extra p y) : Conflict env extra x y := by
  rcases hconf with ⟨i, j, hi, hj, hconf⟩ | hextra
  · obtain ⟨i', k, hi', hk, htouched, hmarked⟩ := h.inst
    obtain rfl := Option.some.inj (hi.symm.trans hi')
    exact .inl ⟨k, j, hk, hj, hconf.of_subset htouched hmarked⟩
  · rcases h.engine with hp | hp <;> rcases extra_engine p y hextra with he | he <;> simp_all

end Within

section PieceCases

variable {env : PackerEnv} {ok : Prop} {clen : ℕ} {x : InstrMeta} {pieces new : List InstrMeta}

theorem mem_lanesOf {piece : Fin 8 → LogicalInstruction} {p : InstrMeta} :
    p ∈ lanesOf x piece ↔ ∃ i, { x with lin := piece i } = p := by
  simp [lanesOf]

theorem not_overlap_vectors {r that : LogicalRegister} {slot : ℤ} {a b : ℕ}
    (hr : r.part = .vector) (hthat : that.part = .vector) (ha : r.addrOf env.ss slot = some a)
    (hb : that.addrOf env.ss slot = some b) (h : r.overlaps that env.ss slot = some false) :
    a + 8 ≤ b ∨ b + 8 ≤ a := by
  obtain ⟨range, range', hrange, hrange', hdisjoint⟩ := ranges_of_overlaps h
  obtain rfl := range_of_vector hr ha hrange
  obtain rfl := range_of_vector hthat hb hrange'
  dsimp only at hdisjoint
  omega

theorem not_overlap_word {r that : LogicalRegister} {slot : ℤ} {a b : ℕ}
    (hr : r.part = .vector) (hthat : that.isVector = false) (ha : r.addrOf env.ss slot = some a)
    (hb : that.addrOf env.ss slot = some b) (h : r.overlaps that env.ss slot = some false) :
    b < a ∨ a + 8 ≤ b := by
  obtain ⟨range, range', hrange, hrange', hdisjoint⟩ := ranges_of_overlaps h
  obtain rfl := range_of_vector hr ha hrange
  obtain rfl := range_of_word hthat hb hrange'
  dsimp only at hdisjoint
  omega

/-- The pieces with their addresses. The first halves of a `multiply_add` come before
all second halves. -/
theorem Pieces.exists_insts (h : Pieces env clen x pieces new) (good : Good env ok x) :
    (∃ (piece : Fin 8 → LogicalInstruction) (f : Fin 8 → SerializedInstruction),
      pieces = lanesOf x piece ∧ new = [] ∧
      (∀ i, toSerialized env.ss (workSlotOf x.tid env.concThreads) (piece i) = some (f i)) ∧
      (∀ i, Within env x { x with lin := piece i }) ∧
      ∀ i j, i ≠ j → ¬ (f i).Conflicts (f j)) ∨
    (∃ p : LogicalInstruction, pieces = [{ x with lin := p }] ∧ new = [] ∧
      Within env x { x with lin := p }) ∨
    ∃ dest a b c, x.lin = .multiplyAdd (.reg dest) (.reg a) (.reg b) (.reg c) ∧
      dest.overlaps c env.ss (workSlotOf x.tid env.concThreads) = some false ∧
      pieces = mulHalves x clen dest a b ++ addHalves x clen dest c ∧
      new = addHalves x clen dest c := by
  obtain ⟨⟨inst, hinst, safe⟩, laned, -, -, -⟩ := good
  cases h with
  | valu lin =>
      rename_i op dest a b
      obtain ⟨d, a', b', rfl, hd, ha, hb⟩ := instOf_valu lin hinst
      rw [lin] at laned
      have hpiece (i : Fin 8) : toSerialized env.ss (workSlotOf x.tid env.concThreads)
          (.alu op (dest.scalarAtOffset i) (a.scalarAtOffset i) (b.scalarAtOffset i)) =
          some (.alu op (d + i) (a' + i) (b' + i)) := by
        simp [toSerialized, Inst.mapM, addrOf_scalarAtOffset i laned.1 hd,
          addrOf_scalarAtOffset i laned.2.1 ha, addrOf_scalarAtOffset i laned.2.2 hb]
      refine .inl ⟨_, fun i => .alu op (d + i) (a' + i) (b' + i), rfl, rfl, hpiece, fun i => ?_,
        fun i j hij => not_conflicts_lane op safe.1 safe.2 hij⟩
      refine ⟨⟨_, _, hpiece i, hinst, ?_, ?_⟩, .inl rfl, fun j hj => ?_, trivial, rfl, rfl⟩
      · intro loc hloc
        simp only [Inst.touched, List.mem_cons, List.mem_append, mem_lanes,
          List.not_mem_nil, or_false] at hloc ⊢
        omega
      · intro loc hloc
        simp only [Inst.marked, List.mem_cons, mem_lanes, List.not_mem_nil, or_false] at hloc ⊢
        omega
      · obtain rfl := Option.some.inj ((hpiece i).symm.trans hj)
        trivial
  | broadcast lin apart =>
      rename_i dest src
      obtain ⟨d, s, rfl, hd, hs⟩ := instOf_vbroadcast lin hinst
      rw [lin] at laned
      obtain ⟨_, _, hdest, hsrc, hvec, hword⟩ := laned
      obtain rfl := LogicalOp.reg.inj hdest
      obtain rfl := LogicalOp.reg.inj hsrc
      have hzero : GreedyWorkPacker.startsAtZero (.reg dest) := by
        simp [GreedyWorkPacker.startsAtZero, LogicalRegister.offset, hvec]
      have hpiece (i : Fin 8) : toSerialized env.ss (workSlotOf x.tid env.concThreads)
          (.alu .or (.reg (dest.scalarAtOffset i)) (.reg src) (.reg src)) =
          some (.alu .or (d + i) s s) := by
        have hlane := addrOf_scalarAtOffset i hzero hd
        rw [LogicalOp.scalarAtOffset] at hlane
        simp [toSerialized, Inst.mapM, hlane, hs]
      refine .inl ⟨_, fun i => .alu .or (d + i) s s, rfl, rfl, hpiece, fun i => ?_,
        fun i j hij => not_conflicts_broadcastLane (not_overlap_word hvec hword hd hs apart) hij⟩
      refine ⟨⟨_, _, hpiece i, hinst, ?_, ?_⟩, .inl rfl, fun j hj => ?_, trivial, rfl, rfl⟩
      · intro loc hloc
        simp only [Inst.touched, List.mem_cons, List.mem_append, mem_lanes,
          List.not_mem_nil, or_false] at hloc ⊢
        omega
      · intro loc hloc
        simp only [Inst.marked, List.mem_cons, mem_lanes, List.not_mem_nil, or_false] at hloc ⊢
        omega
      · obtain rfl := Option.some.inj ((hpiece i).symm.trans hj)
        trivial
  | vectorImm lin const =>
      rename_i dest a b imm
      obtain ⟨d, a', b', rfl, hd, ha, hb⟩ := instOf_valu lin hinst
      rw [lin] at laned
      have hpiece (i : Fin 8) : toSerialized env.ss (workSlotOf x.tid env.concThreads)
          (.addImm (.reg (dest.scalarAtOffset i)) (.reg (a.scalarAtOffset i)) imm) =
          some (.addImm (d + i) (a' + i) imm) := by
        have hlane := addrOf_scalarAtOffset i laned.1 hd
        have hlane' := addrOf_scalarAtOffset i laned.2.1 ha
        rw [LogicalOp.scalarAtOffset] at hlane hlane'
        simp [toSerialized, Inst.mapM, hlane, hlane']
      refine .inl ⟨_, fun i => .addImm (d + i) (a' + i) imm, rfl, rfl, hpiece, fun i => ?_,
        fun i j hij => not_conflicts_immLane imm safe.1 hij⟩
      refine ⟨⟨_, _, hpiece i, hinst, ?_, ?_⟩, .inr rfl, fun j hj => ?_, trivial, rfl, rfl⟩
      · intro loc hloc
        simp only [Inst.touched, List.mem_cons, List.mem_append, mem_lanes,
          List.not_mem_nil, or_false] at hloc ⊢
        omega
      · intro loc hloc
        simp only [Inst.marked, List.mem_cons, mem_lanes, List.not_mem_nil, or_false] at hloc ⊢
        omega
      · obtain rfl := Option.some.inj ((hpiece i).symm.trans hj)
        trivial
  | scalarImm lin const =>
      rename_i dest a b imm
      obtain ⟨d, a', b', rfl, hd, ha, hb⟩ := instOf_alu lin hinst
      have hpiece : toSerialized env.ss (workSlotOf x.tid env.concThreads) (.addImm dest a imm) =
          some (.addImm d a' imm) := by
        simp [toSerialized, Inst.mapM, hd, ha]
      refine .inr (.inl ⟨_, rfl, rfl, ⟨_, _, hpiece, hinst, ?_, ?_⟩, .inr rfl, fun j hj => ?_,
        trivial, rfl, rfl⟩)
      · intro loc
        simp only [Inst.touched, List.mem_cons, List.not_mem_nil]
        tauto
      · exact List.Subset.refl _
      · obtain rfl := Option.some.inj (hpiece.symm.trans hj)
        trivial
  | multiplyAdd lin apart => exact .inr (.inr ⟨_, _, _, _, lin, apart, rfl, rfl⟩)

theorem getElem?_map_finRange {f : Fin 8 → InstrMeta} {i : ℕ} {p : InstrMeta}
    (h : ((List.finRange 8).map f)[i]? = some p) : ∃ k : Fin 8, k.val = i ∧ f k = p := by
  obtain ⟨hi, rfl⟩ := List.getElem?_eq_some_iff.mp h
  exact ⟨⟨i, by simpa using hi⟩, rfl, by simp⟩

/-- The halves of the lanes of a `multiply_add` with their addresses. -/
theorem halves_insts {dest a b c : LogicalRegister} (good : Good env ok x)
    (lin : x.lin = .multiplyAdd (.reg dest) (.reg a) (.reg b) (.reg c))
    (apart : dest.overlaps c env.ss (workSlotOf x.tid env.concThreads) = some false) :
    ∃ d a' b' c' : ℕ, Apart d a' ∧ Apart d b' ∧ (d + 8 ≤ c' ∨ c' + 8 ≤ d) ∧
      (∀ p ∈ mulHalves x clen dest a b ++ addHalves x clen dest c, Within env x p) ∧
      (∀ (i : ℕ) (p : InstrMeta), (mulHalves x clen dest a b)[i]? = some p →
        ∃ k : Fin 8, k.val = i ∧ p.instid = x.instid ∧ p.after = [clen + i] ∧
          instOf env p = some (.alu .mul (d + k) (a' + k) (b' + k))) ∧
      ∀ (i : ℕ) (p : InstrMeta), (addHalves x clen dest c)[i]? = some p →
        ∃ k : Fin 8, k.val = i ∧ p.instid = clen + i ∧ p.after = x.after ∧
          instOf env p = some (.alu .add (d + k) (d + k) (c' + k)) := by
  obtain ⟨⟨inst, hinst, safe⟩, laned, -, -, -⟩ := good
  obtain ⟨d, a', b', c', rfl, hd, ha, hb, hc⟩ := instOf_multiplyAdd lin hinst
  rw [lin] at laned
  obtain ⟨_, _, _, _, hdest, hreg₁, hreg₂, hreg₃, hdv, hav, hbv, hcv⟩ := laned
  obtain rfl := LogicalOp.reg.inj hdest
  obtain rfl := LogicalOp.reg.inj hreg₁
  obtain rfl := LogicalOp.reg.inj hreg₂
  obtain rfl := LogicalOp.reg.inj hreg₃
  have hlane {r : LogicalRegister} {addr : ℕ} (hr : r.part = .vector)
      (haddr : LogicalOp.addrOf env.ss (workSlotOf x.tid env.concThreads) (.reg r) = some addr)
      (i : Fin 8) : LogicalOp.addrOf env.ss (workSlotOf x.tid env.concThreads)
        (.reg (r.scalarAtOffset i)) = some (addr + i) := by
    have hzero : GreedyWorkPacker.startsAtZero (.reg r) := by
      simp [GreedyWorkPacker.startsAtZero, LogicalRegister.offset, hr]
    exact addrOf_scalarAtOffset i hzero haddr
  have hfirst (i : Fin 8) : toSerialized env.ss (workSlotOf x.tid env.concThreads)
      (.alu .mul (.reg (dest.scalarAtOffset i)) (.reg (a.scalarAtOffset i))
        (.reg (b.scalarAtOffset i))) = some (.alu .mul (d + i) (a' + i) (b' + i)) := by
    simp [toSerialized, Inst.mapM, hlane hdv hd, hlane hav ha, hlane hbv hb]
  have hsecond (i : Fin 8) : toSerialized env.ss (workSlotOf x.tid env.concThreads)
      (.alu .add (.reg (dest.scalarAtOffset i)) (.reg (dest.scalarAtOffset i))
        (.reg (c.scalarAtOffset i))) = some (.alu .add (d + i) (d + i) (c' + i)) := by
    simp [toSerialized, Inst.mapM, hlane hdv hd, hlane hcv hc]
  refine ⟨d, a', b', c', safe.1, safe.2.1, not_overlap_vectors hdv hcv hd hc apart, ?_, ?_, ?_⟩
  · intro p hp
    have within {p : InstrMeta} {i : Fin 8} {f : SerializedInstruction} (hf : instOf env p = some f)
        (htouched : f.touched ⊆ Inst.touched (.multiplyAdd d a' b' c'))
        (hmarked : f.marked ⊆ Inst.marked (.multiplyAdd d a' b' c'))
        (engine : p.lin.engine = .alu) (safe : LaneSafe f) (laned : Laned p.lin)
        (tid : p.tid = x.tid) (iit : p.instidInThread = x.instidInThread) : Within env x p :=
      ⟨⟨f, _, hf, hinst, htouched, hmarked⟩, .inl engine,
        fun j hj => Option.some.inj (hf.symm.trans hj) ▸ safe, laned, tid, iit⟩
    rcases List.mem_append.mp hp with hp | hp
    all_goals
      obtain ⟨i, -, rfl⟩ := List.mem_map.mp hp
    · refine within (i := i) (hfirst i) ?_ ?_ rfl trivial trivial rfl rfl
      all_goals
        intro loc hloc
        simp only [Inst.touched, Inst.marked, List.mem_cons, List.mem_append, mem_lanes,
          List.not_mem_nil, or_false] at hloc ⊢
        omega
    · refine within (i := i) (hsecond i) ?_ ?_ rfl trivial trivial rfl rfl
      all_goals
        intro loc hloc
        simp only [Inst.touched, Inst.marked, List.mem_cons, List.mem_append, mem_lanes,
          List.not_mem_nil, or_false] at hloc ⊢
        omega
  · intro i p hp
    obtain ⟨k, rfl, rfl⟩ := getElem?_map_finRange hp
    exact ⟨k, rfl, rfl, rfl, hfirst k⟩
  · intro i p hp
    obtain ⟨k, rfl, rfl⟩ := getElem?_map_finRange hp
    exact ⟨k, rfl, rfl, rfl, hsecond k⟩

end PieceCases

section Order

variable {env : PackerEnv} {ok : Prop} {extra : InstrMeta → InstrMeta → Prop} {clen : ℕ}
  {x : InstrMeta} {nodes before rest pieces new : List InstrMeta}

/-- An order that respects all conflicts: see `Pending.Ordered`. -/
abbrev InOrder (env : PackerEnv) (extra : InstrMeta → InstrMeta → Prop)
    (nodes pending : List InstrMeta) : Prop :=
  Ordered InstrMeta.instid InstrMeta.after (Conflict env extra) nodes pending

/-- Conflicts besides those of scratch words: symmetric, and between loads and stores. -/
structure Extra (extra : InstrMeta → InstrMeta → Prop) : Prop where
  symm : ∀ a b, extra a b → extra b a
  engine : ∀ a b, extra a b → a.lin.engine = .load ∨ a.lin.engine = .store

theorem not_conflict_of_scalar (hextra : Extra extra) {p q : InstrMeta}
    {i j : SerializedInstruction}
    (hp : instOf env p = some i) (hq : instOf env q = some j)
    (engine : p.lin.engine = .alu ∨ p.lin.engine = .flow) (h : ¬ i.Conflicts j) :
    ¬ Conflict env extra p q := by
  rintro (⟨i', j', hi', hj', hconf⟩ | hconf)
  · obtain rfl := Option.some.inj (hp.symm.trans hi')
    obtain rfl := Option.some.inj (hq.symm.trans hj')
    exact h hconf
  · rcases engine with he | he <;> rcases hextra.engine p q hconf with he' | he' <;> simp_all

theorem Within.before_rest (hextra : Extra extra) {p y : InstrMeta} (h : Within env x p) :
    (Conflict env extra y p → Conflict env extra y x) ∧
      (Conflict env extra p y → Conflict env extra x y) :=
  ⟨fun hconf => (h.conflict_left hextra.engine (hconf.symm hextra.symm)).symm hextra.symm,
    fun hconf => h.conflict_left hextra.engine hconf⟩

theorem Pieces.within (h : Pieces env clen x pieces new) (good : Good env ok x) :
    ∀ p ∈ pieces, Within env x p := by
  rcases h.exists_insts good with ⟨piece, f, rfl, -, -, within, -⟩ | ⟨q, rfl, -, within⟩ |
    ⟨dest, a, b, c, lin, apart, rfl, -⟩
  · intro p hp
    obtain ⟨i, rfl⟩ := mem_lanesOf.mp hp
    exact within i
  · intro p hp
    obtain rfl := List.mem_singleton.mp hp
    exact within
  · obtain ⟨_, _, _, _, -, -, -, within, -⟩ := halves_insts good lin apart
    exact within

/-- A replacement keeps the order of all conflicts. -/
theorem Pieces.inOrder (hextra : Extra extra) (h : Pieces env nodes.length x pieces new)
    (good : Good env ok x) (order : InOrder env extra nodes (before ++ x :: rest))
    (ready : ¬ Blocked InstrMeta.after (before ++ x :: rest) x.instid) :
    InOrder env extra (nodes ++ new) (before ++ pieces ++ rest) := by
  have within := h.within good
  have hbefore : ∀ p ∈ pieces, ∀ a ∈ before, Conflict env extra a p → Conflict env extra a x :=
    fun p hp a _ => ((within p hp).before_rest hextra).1
  have hrest : ∀ p ∈ pieces, ∀ b ∈ rest, Conflict env extra p b → Conflict env extra x b :=
    fun p hp b _ => ((within p hp).before_rest hextra).2
  rcases h.exists_insts good with ⟨piece, f, rfl, rfl, hf, -, apart⟩ | ⟨q, rfl, rfl, -⟩ |
    ⟨dest, a, b, c, lin, hoverlap, rfl, rfl⟩
  · rw [List.append_nil]
    refine order.replace ready (by simp [lanesOf]) ?_ hbefore hrest ?_
    · intro p hp
      obtain ⟨i, rfl⟩ := mem_lanesOf.mp hp
      exact ⟨rfl, rfl⟩
    · refine List.pairwise_map.mpr ((List.nodup_finRange 8).imp_of_mem fun {i j} _ _ hij => ?_)
      exact not_conflict_of_scalar hextra (hf i) (hf j)
        (within _ (mem_lanesOf.mpr ⟨i, rfl⟩)).engine (apart i j hij)
  · rw [List.append_nil]
    refine order.replace ready (List.cons_ne_nil _ _) ?_ hbefore hrest (List.pairwise_singleton _ _)
    intro p hp
    obtain rfl := List.mem_singleton.mp hp
    exact ⟨rfl, rfl⟩
  · obtain ⟨d, a', b', c', ha, hb, hc, -, hfirst, hsecond⟩ :=
      halves_insts good lin hoverlap
    refine order.fork ready (by simp [mulHalves, addHalves]) (fun i p hp => ?_) (fun i s hs => ?_)
      hbefore hrest ?_ ?_ ?_
    · obtain ⟨k, -, hid, hafter, -⟩ := hfirst i p hp
      exact ⟨hid, hafter⟩
    · obtain ⟨k, -, hid, hafter, -⟩ := hsecond i s hs
      exact ⟨hid, hafter⟩
    · refine List.pairwise_iff_getElem.mpr fun i j hi hj hij => ?_
      obtain ⟨k, hk, -, -, hki⟩ := hfirst i _ (List.getElem?_eq_getElem hi)
      obtain ⟨l, hl, -, -, hlj⟩ := hfirst j _ (List.getElem?_eq_getElem hj)
      exact not_conflict_of_scalar hextra hki hlj
        (within _ (List.mem_append_left _ (List.getElem_mem hi))).engine
        (not_conflicts_lane .mul ha hb (by rintro rfl; omega))
    · refine List.pairwise_iff_getElem.mpr fun i j hi hj hij => ?_
      obtain ⟨k, hk, -, -, hki⟩ := hsecond i _ (List.getElem?_eq_getElem hi)
      obtain ⟨l, hl, -, -, hlj⟩ := hsecond j _ (List.getElem?_eq_getElem hj)
      refine not_conflict_of_scalar hextra hki hlj
        (within _ (List.mem_append_right _ (List.getElem_mem hi))).engine
        (not_conflicts_lane .add (.inl rfl) ?_ (by rintro rfl; omega))
      rcases hc with hc | hc
      · exact .inr (.inl hc)
      · exact .inr (.inr hc)
    · intro i j p s hp hs hconf
      obtain ⟨k, rfl, -, -, hkp⟩ := hfirst i p hp
      obtain ⟨l, rfl, -, -, hls⟩ := hsecond j s hs
      by_contra hne
      refine not_conflict_of_scalar hextra hkp hls
        (within _ (List.mem_append_left _ (List.mem_of_getElem? hp))).engine
          (fun hconf' => ?_) hconf
      exact hne (congrArg Fin.val (lane_eq_of_conflicts_halves ha hb hc hconf'))

theorem SplitStep.preserves (hextra : Extra extra) {p q : List InstrMeta × List InstrMeta}
    (h : SplitStep env p q) (good : ∀ x ∈ p.2, Good env ok x) (order : InOrder env extra p.1 p.2) :
    (∀ x ∈ q.2, Good env ok x) ∧ InOrder env extra q.1 q.2 := by
  obtain ⟨ready, split⟩ := h
  rename_i nodes before rest pieces new x
  have hx : Good env ok x := good x (by simp)
  refine ⟨fun y hy => ?_, split.inOrder hextra hx order ready⟩
  simp only [List.mem_append] at hy
  rcases hy with (hy | hy) | hy
  · exact good y (by simp [hy])
  · exact (split.within hx y hy).good hx
  · exact good y (by simp [hy])

end Order

end Explore.Takehome
