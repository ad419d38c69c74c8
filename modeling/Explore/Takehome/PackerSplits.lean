import Explore.Takehome.PackerInv
import Mathlib.Data.List.Nodup

/-!
# Splitting keeps the invariant of the packer

Each splitting function of the packer performs one `SplitStep` on the pending
instructions and keeps everything else that is free. The loops over `free` perform
several; the instructions already taken for the bundle stay free throughout.
-/

namespace Explore.Takehome

open Pending GreedyWorkPacker

variable {env : PackerEnv} {ok : Prop} {extra : InstrMeta → InstrMeta → Prop}
  {nodes pending before rest pieces : List InstrMeta} {st st' : GreedyWorkPacker} {x : InstrMeta}

section Replace

theorem count_flatMap_after (same : ∀ p ∈ pieces, p.after = x.after) (k : ℕ) :
    (pieces.flatMap InstrMeta.after).count k = pieces.length * x.after.count k := by
  induction pieces with
  | nil => simp
  | cons p pieces ih =>
      rw [List.flatMap_cons, List.count_append, same p List.mem_cons_self,
        ih fun q hq => same q (List.mem_cons_of_mem p hq), List.length_cons]
      ring

theorem countP_tid_pieces (same : ∀ p ∈ pieces, p.tid = x.tid) (t : ℤ) :
    (pieces.countP fun p => p.tid = t) = if t = x.tid then pieces.length else 0 := by
  split
  case isTrue h => exact List.countP_eq_length.mpr fun p hp => by simp [same p hp, h]
  case isFalse h => exact List.countP_eq_zero.mpr fun p hp => by simpa [same p hp] using Ne.symm h

/-- The instructions that are ready after a replacement by pieces of the same id. -/
theorem Inv.ready_replace (inv : Inv env ok extra nodes (before ++ x :: rest) st)
    (hx : x ∈ st.free) (nonempty : pieces ≠ [])
    (same : ∀ p ∈ pieces, p.instid = x.instid ∧ p.after = x.after) :
    (pieces ++ st.free.erase x ++ st.frontier).Perm ((before ++ pieces ++ rest).filter fun y =>
      y.instid ∉ (before ++ pieces ++ rest).flatMap InstrMeta.after) := by
  obtain ⟨-, hready⟩ := inv.ready_of_mem_free hx
  obtain ⟨q, hq⟩ := List.exists_mem_of_ne_nil pieces nonempty
  have hmem (k : ℕ) : k ∈ (before ++ pieces ++ rest).flatMap InstrMeta.after ↔
      k ∈ (before ++ x :: rest).flatMap InstrMeta.after := by
    simp only [List.mem_flatMap, List.mem_append, List.mem_cons]
    constructor
    · rintro ⟨y, (hy | hy) | hy, hk⟩
      · exact ⟨y, .inl hy, hk⟩
      · exact ⟨x, .inr (.inl rfl), (same y hy).2 ▸ hk⟩
      · exact ⟨y, .inr (.inr hy), hk⟩
    · rintro ⟨y, hy | rfl | hy, hk⟩
      · exact ⟨y, .inl (.inl hy), hk⟩
      · exact ⟨q, .inl (.inr hq), (same q hq).2 ▸ hk⟩
      · exact ⟨y, .inr hy, hk⟩
  have hfree : (st.free ++ st.frontier).Perm (x :: (st.free.erase x ++ st.frontier)) :=
    (List.perm_cons_erase hx).append_right st.frontier
  have hold : (st.free.erase x ++ st.frontier).Perm ((before ++ rest).filter fun y =>
      y.instid ∉ (before ++ x :: rest).flatMap InstrMeta.after) := by
    have hfilter : ((before ++ x :: rest).filter fun y =>
        y.instid ∉ (before ++ x :: rest).flatMap InstrMeta.after).Perm (x :: (before ++ rest).filter
          fun y => y.instid ∉ (before ++ x :: rest).flatMap InstrMeta.after) := by
      refine (List.perm_middle.filter _).trans ?_
      rw [List.filter_cons_of_pos (by simpa [Blocked] using hready)]
    exact (hfree.symm.trans (inv.tracks.ready.trans hfilter)).cons_inv
  have hpieces : pieces.filter (fun y =>
      y.instid ∉ (before ++ x :: rest).flatMap InstrMeta.after) = pieces :=
    List.filter_eq_self.mpr fun p hp => by
      rw [(same p hp).1]
      simpa [Blocked] using hready
  have hcongr : ((before ++ pieces ++ rest).filter fun y =>
      y.instid ∉ (before ++ pieces ++ rest).flatMap InstrMeta.after) =
      (before ++ pieces ++ rest).filter fun y =>
        y.instid ∉ (before ++ x :: rest).flatMap InstrMeta.after :=
    List.filter_congr fun y _ => by rw [decide_eq_decide, hmem]
  rw [hcongr, List.append_assoc, List.append_assoc, List.filter_append, List.filter_append, hpieces]
  refine (hold.append_left pieces).trans ?_
  rw [List.filter_append, ← List.append_assoc, ← List.append_assoc]
  exact List.perm_append_comm.append_right _

theorem nodup_ready (order : InOrder env extra nodes pending)
    (good : ∀ y ∈ pending, Good env ok y) :
    (pending.filter fun y => y.instid ∉ pending.flatMap InstrMeta.after).Nodup := by
  refine order.nodup_of_ready List.filter_sublist ?_ fun x hx => (good x hx).conflict_self
  intro y hy
  simpa [Blocked] using (List.mem_filter.mp hy).2

/-- What a state must be after a replacement by pieces of the same id. -/
theorem Inv.replace (hextra : Extra extra) (inv : Inv env ok extra nodes (before ++ x :: rest) st)
    (hx : x ∈ st.free) (split : Pieces env nodes.length x pieces []) (nonempty : pieces ≠ [])
    (same : ∀ p ∈ pieces, p.instid = x.instid ∧ p.after = x.after)
    (himetas : st'.imetas = st.imetas) (hlength : st'.incount.length = st.incount.length)
    (hincount : ∀ k, st'.incount[k]? =
      (st.incount[k]?).map (· + ((pieces.length : ℤ) - 1) * x.after.count k))
    (hfree : st'.free.Perm (pieces ++ st.free.erase x)) (hfrontier : st'.frontier = st.frontier)
    (hsched : ∀ t, st'.schedulableCountByTid t =
      st.schedulableCountByTid t + if t = x.tid then (pieces.length : ℤ) - 1 else 0)
    (hnext : st'.nextBatchTid = st.nextBatchTid) :
    Inv env ok extra nodes (before ++ pieces ++ rest) st' := by
  obtain ⟨hpending, hready⟩ := inv.ready_of_mem_free hx
  have hgood : Good env ok x := inv.good x hpending
  have hwithin := split.within hgood
  have hstep : SplitStep env (nodes, before ++ x :: rest)
      (nodes ++ [], before ++ pieces ++ rest) := .intro hready split
  obtain ⟨hgood', horder⟩ := hstep.preserves hextra inv.good inv.order
  rw [List.append_nil] at horder
  have hfree' : (st'.free ++ st'.frontier).Perm (pieces ++ st.free.erase x ++ st.frontier) :=
    hfrontier ▸ hfree.append_right _
  refine ⟨horder, hgood', ⟨himetas.trans inv.tracks.imetas, hlength.trans inv.tracks.length,
    fun k hk => ?_, hfree'.trans (inv.ready_replace hx nonempty same), fun t => ?_⟩,
    fun y hy => ?_, fun y hy => ?_⟩
  · rw [hincount k, inv.tracks.incount k hk, Option.map_some]
    congr 1
    simp only [List.flatMap_append, List.flatMap_cons, List.count_append,
      count_flatMap_after fun p hp => (same p hp).2]
    push_cast
    ring
  · have hnew : ((st'.free ++ st'.frontier).countP fun y => y.tid = t) =
        (if t = x.tid then pieces.length else 0) +
          (st.free.erase x ++ st.frontier).countP fun y => y.tid = t := by
      rw [hfree'.countP_eq, List.append_assoc, List.countP_append,
        countP_tid_pieces fun p hp => (hwithin p hp).tid]
    have hold : (((st.free ++ st.frontier).countP fun y => y.tid = t : ℕ) : ℤ) =
        ((st.free.erase x ++ st.frontier).countP fun y => y.tid = t : ℕ) +
          if t = x.tid then 1 else 0 := by
      rw [((List.perm_cons_erase hx).append_right st.frontier).countP_eq, List.cons_append,
        countP_tid_cons]
    rw [hsched t, inv.tracks.scheduled t, hnew, hold]
    split <;> push_cast <;> ring
  · rw [hnext]
    rcases List.mem_append.mp (hfree.mem_iff.mp hy) with hy | hy
    · rw [(hwithin y hy).tid]
      exact inv.free_lt x hx
    · exact inv.free_lt y (List.mem_of_mem_erase hy)
  · rw [hnext]
    rw [hfrontier] at hy
    exact inv.frontier_ge y hy

/-- The pieces can be added to `free` as new elements. -/
theorem Inv.nodup_replace (hextra : Extra extra)
    (inv : Inv env ok extra nodes (before ++ x :: rest) st) (hx : x ∈ st.free)
    (split : Pieces env nodes.length x pieces []) (nonempty : pieces ≠ [])
    (same : ∀ p ∈ pieces, p.instid = x.instid ∧ p.after = x.after) :
    (pieces ++ st.free.erase x).Nodup := by
  obtain ⟨hpending, hready⟩ := inv.ready_of_mem_free hx
  have hstep : SplitStep env (nodes, before ++ x :: rest)
      (nodes ++ [], before ++ pieces ++ rest) := .intro hready split
  obtain ⟨hgood', horder⟩ := hstep.preserves hextra inv.good inv.order
  have hnodup := (inv.ready_replace hx nonempty same).nodup_iff.mpr (nodup_ready horder hgood')
  exact (List.nodup_append.mp hnodup).1

end Replace

/-- What a splitting function guarantees: a replacement of `x`, and nothing else that is
free is lost. -/
def SplitPost (env : PackerEnv) (ok : Prop) (extra : InstrMeta → InstrMeta → Prop)
    (nodes pending : List InstrMeta) (st : GreedyWorkPacker) (x : InstrMeta)
    (st' : GreedyWorkPacker) : Prop :=
  ∃ nodes' pending', SplitStep env (nodes, pending) (nodes', pending') ∧
    Inv env ok extra nodes' pending' st' ∧ st'.nextBatchTid = st.nextBatchTid ∧
    ∀ y ∈ st.free, y ≠ x → y ∈ st'.free

section Lanes

variable {piece : Fin 8 → LogicalInstruction}

theorem derive_eq (hokay : INFINITE_SET x.tid = true) (lin : LogicalInstruction) (after : List ℕ) :
    derive x lin after = some { x with lin := lin, after := after } := if_pos hokay

/-- `replaceByPieces` on a free instruction. -/
theorem replaceByPieces_meets (hextra : Extra extra) (inv : Inv env ok extra nodes pending st)
    (hx : x ∈ st.free) (split : Pieces env nodes.length x (lanesOf x piece) []) :
    Meets ok (st.replaceByPieces env x piece) (SplitPost env ok extra nodes pending st x) := by
  obtain ⟨hpending, hready⟩ := inv.ready_of_mem_free hx
  obtain ⟨before, rest, rfl⟩ := List.append_of_mem hpending
  have hgood : Good env ok x := inv.good x hpending
  have nonempty : lanesOf x piece ≠ [] := by simp [lanesOf]
  have hlength : (lanesOf x piece).length = 8 := by simp [lanesOf]
  have same : ∀ p ∈ lanesOf x piece, p.instid = x.instid ∧ p.after = x.after := by
    intro p hp
    obtain ⟨i, rfl⟩ := mem_lanesOf.mp hp
    exact ⟨rfl, rfl⟩
  rw [replaceByPieces]
  by_cases htid : INFINITE_SET x.tid = true
  · have hderive : (List.finRange 8).mapM (fun i => derive x (piece i) x.after) =
        some (lanesOf x piece) := by
      simp only [derive_eq htid]
      rfl
    obtain ⟨incount, hadd, hlen, hget⟩ := foldlM_addIncount st (VLEN - 1)
      fun k hk => by
        rw [inv.tracks.length]
        exact inv.order.after_lt x hpending k hk
    rw [hderive]
    simp only [Option.bind_eq_bind, Option.bind_some, hadd, freeRemove_eq (show x ∈
      GreedyWorkPacker.free { st with incount := incount } from hx)]
    refine (freeExtend_meets
      (inv.nodup_replace hextra hx split nonempty same) fun hok p hp =>
        ((split.within hgood p hp).good hgood).short hok).bind ?_
    rintro _ ⟨free, hfree, rfl⟩
    refine ⟨nodes ++ [], before ++ lanesOf x piece ++ rest, .intro hready split, ?_, rfl,
      fun y hy hne => ?_⟩
    · rw [List.append_nil]
      refine inv.replace hextra hx split nonempty same rfl hlen (fun k => ?_) hfree rfl
        (fun t => ?_) rfl
      · rw [hlength]
        exact hget k
      · rw [addSchedulable_count, hlength]
        rfl
    · exact hfree.mem_iff.mpr (List.mem_append_right _ ((List.mem_erase_of_ne hne).mpr hy))
  · have hderive : (List.finRange 8).mapM (fun i => derive x (piece i) x.after) = none := by
      simp [derive, htid, List.finRange_succ]
    rw [hderive]
    exact fun hok => htid (hgood.tid hok)

end Lanes

section SplitOne

/-- A split that may decline. -/
def SplitOrNot (env : PackerEnv) (ok : Prop) (extra : InstrMeta → InstrMeta → Prop)
    (nodes pending : List InstrMeta) (st : GreedyWorkPacker) (x : InstrMeta)
    (result : GreedyWorkPacker × Bool) : Prop :=
  result = (st, false) ∨
    result.2 = true ∧ SplitPost env ok extra nodes pending st x result.1

theorem splitOneFreeValuToAlu_meets (hextra : Extra extra)
    (inv : Inv env ok extra nodes pending st) (hx : x ∈ st.free) {op : AluOp}
    {dest a b : LogicalOp} (lin : x.lin = .valu op dest a b) :
    Meets ok (st.splitOneFreeValuToAlu env x) (SplitPost env ok extra nodes pending st x) := by
  have laned := (inv.good x (inv.ready_of_mem_free hx).1).laned
  rw [lin, Laned] at laned
  simp only [splitOneFreeValuToAlu, lin]
  rw [if_pos laned]
  exact replaceByPieces_meets hextra inv hx (.valu lin)

theorem splitOneFreeBroadcast_meets (hextra : Extra extra)
    (inv : Inv env ok extra nodes pending st) (hx : x ∈ st.free) {dest src : LogicalOp}
    (lin : x.lin = .vbroadcast dest src) :
    Meets ok (st.splitOneFreeBroadcast env x) (SplitOrNot env ok extra nodes pending st x) := by
  have good := inv.good x (inv.ready_of_mem_free hx).1
  have laned := good.laned
  rw [lin] at laned
  obtain ⟨d, s, rfl, rfl, -, -⟩ := laned
  obtain ⟨range, hrange⟩ := good.ranges (by simp [lin, Inst.engine]) d
    (by simp [lin, Inst.operands])
  obtain ⟨range', hrange'⟩ :=
    good.ranges (by simp [lin, Inst.engine]) s (by simp [lin, Inst.operands])
  obtain ⟨overlap, hoverlap⟩ : ∃ overlap, d.overlaps s env.ss
      (workSlotOf x.tid env.concThreads) = some overlap := by
    simp [LogicalRegister.overlaps, hrange, hrange']
  simp only [splitOneFreeBroadcast, lin, hoverlap, Option.bind_eq_bind, Option.bind_some]
  cases overlap with
  | true => exact .inl rfl
  | false =>
      refine (replaceByPieces_meets hextra inv hx (.broadcast lin hoverlap)).bind fun st' h => ?_
      exact .inr ⟨rfl, h⟩

theorem splitOneVectorImmAdd_meets (hextra : Extra extra)
    (inv : Inv env ok extra nodes pending st) (hx : x ∈ st.free)
    (imm : x.isVectorImmAdd env.ss = true) :
    Meets ok (st.splitOneVectorImmAdd env x) (SplitOrNot env ok extra nodes pending st x) := by
  unfold InstrMeta.isVectorImmAdd at imm
  split at imm
  case h_2 => simp at imm
  case h_1 dest a b lin =>
    simp only [Bool.and_eq_true] at imm
    obtain ⟨value, hvalue⟩ := Option.isSome_iff_exists.mp imm.2
    unfold splitOneVectorImmAdd
    rw [lin]
    cases dest with
    | array dest => exact .inl rfl
    | reg dest =>
      cases a with
      | array a => exact .inl rfl
      | reg a =>
        cases b with
        | array b => exact .inl rfl
        | reg b =>
          have hconst : b.constantValue env.ss = some value := hvalue
          simp only [hconst, Option.bind_eq_bind, Option.bind_some]
          refine (replaceByPieces_meets hextra inv hx (.vectorImm lin hconst)).bind fun st' h => ?_
          exact .inr ⟨rfl, h⟩

theorem convertOneScalarImmAdd_meets (hextra : Extra extra)
    (inv : Inv env ok extra nodes pending st) (hx : x ∈ st.free)
    (imm : x.isScalarImmAdd env.ss = true) :
    Meets ok (st.convertOneScalarImmAdd env x) (SplitPost env ok extra nodes pending st x) := by
  obtain ⟨hpending, hready⟩ := inv.ready_of_mem_free hx
  obtain ⟨before, rest, rfl⟩ := List.append_of_mem hpending
  have hgood : Good env ok x := inv.good x hpending
  unfold InstrMeta.isScalarImmAdd at imm
  split at imm
  case h_2 => simp at imm
  case h_1 dest a b lin =>
    simp only [Bool.and_eq_true] at imm
    obtain ⟨value, hvalue⟩ := Option.isSome_iff_exists.mp imm.2
    let nmeta : InstrMeta := { x with lin := .addImm dest a value }
    have split : Pieces env nodes.length x [nmeta] [] := .scalarImm lin hvalue
    have same : ∀ p ∈ [nmeta], p.instid = x.instid ∧ p.after = x.after := by simp [nmeta]
    simp only [convertOneScalarImmAdd, lin, hvalue, Option.bind_eq_bind, Option.bind_some]
    by_cases htid : INFINITE_SET x.tid = true
    · simp only [derive_eq htid, freeRemove_eq hx, Option.bind_some]
      have hnew := inv.nodup_replace hextra hx split (List.cons_ne_nil _ _) same
      refine (freeAppend_meets (x := nmeta)
        (List.nodup_cons.mp hnew).1 fun hok => hgood.short hok).mono ?_
      rintro _ ⟨free, hfree, rfl⟩
      refine ⟨nodes ++ [], before ++ [nmeta] ++ rest, .intro hready split, ?_, rfl,
        fun y hy hne => ?_⟩
      · rw [List.append_nil]
        exact inv.replace hextra hx split (List.cons_ne_nil _ _) same rfl rfl
          (fun k => by simp) hfree rfl (fun t => by simp) rfl
      · exact hfree.mem_iff.mpr (List.mem_cons_of_mem _ ((List.mem_erase_of_ne hne).mpr hy))
    · simp only [derive, if_neg htid]
      exact fun hok => htid (hgood.tid hok)

end SplitOne

section MultiplyAdd

variable {dest a b c : LogicalRegister}

theorem flatMap_after_mulHalves (clen : ℕ) :
    (mulHalves x clen dest a b).flatMap InstrMeta.after =
      (List.finRange 8).map fun i => clen + i.val := by
  rw [mulHalves, List.flatMap_map]
  exact List.map_eq_flatMap.symm

theorem mem_after_mulHalves {clen k : ℕ} :
    k ∈ (mulHalves x clen dest a b).flatMap InstrMeta.after ↔ clen ≤ k ∧ k < clen + 8 := by
  rw [flatMap_after_mulHalves, List.mem_map]
  constructor
  · rintro ⟨i, -, rfl⟩
    omega
  · rintro ⟨hle, hlt⟩
    exact ⟨⟨k - clen, by omega⟩, List.mem_finRange _, by dsimp only; omega⟩

theorem after_addHalves (clen : ℕ) : ∀ p ∈ addHalves x clen dest c, p.after = x.after := by
  intro p hp
  obtain ⟨i, -, rfl⟩ := List.mem_map.mp hp
  rfl

/-- What the pending instructions unlock after a `multiply_add` is split: the new nodes
once each, and what the instruction unlocks eight times. -/
theorem count_after_fork (before rest : List InstrMeta) (dest : LogicalRegister) {clen k : ℕ}
    (hx : ∀ k ∈ x.after, k < clen)
    (hother : ∀ y, y ∈ before ∨ y ∈ rest → ∀ k ∈ y.after, k < clen) :
    ((before ++ (mulHalves x clen dest a b ++ addHalves x clen dest c) ++ rest).flatMap
        InstrMeta.after).count k =
      if k < clen then
        ((before ++ x :: rest).flatMap InstrMeta.after).count k + 7 * x.after.count k
      else if k < clen + 8 then 1 else 0 := by
  have hzero {ids : List ℕ} (hids : ∀ j ∈ ids, j < clen) (hk : ¬ k < clen) : ids.count k = 0 :=
    List.count_eq_zero.mpr fun hmem => hk (hids k hmem)
  have hflat {ys : List InstrMeta} (hys : ∀ y ∈ ys, ∀ k ∈ y.after, k < clen) :
      ∀ j ∈ ys.flatMap InstrMeta.after, j < clen := by
    intro j hj
    obtain ⟨y, hy, hjy⟩ := List.mem_flatMap.mp hj
    exact hys y hy j hjy
  have hlen : (addHalves x clen dest c).length = 8 := by simp [addHalves]
  simp only [List.flatMap_append, List.flatMap_cons, List.count_append,
    count_flatMap_after (after_addHalves clen), hlen]
  by_cases hk : k < clen
  · have hnot : ((mulHalves x clen dest a b).flatMap InstrMeta.after).count k = 0 := by
      refine List.count_eq_zero.mpr fun hmem => ?_
      have := mem_after_mulHalves.mp hmem
      omega
    rw [if_pos hk, hnot]
    ring
  · rw [if_neg hk, hzero hx hk, hzero (hflat fun y hy => hother y (.inl hy)) hk,
      hzero (hflat fun y hy => hother y (.inr hy)) hk]
    have hnodup : ((mulHalves x clen dest a b).flatMap InstrMeta.after).Nodup := by
      rw [flatMap_after_mulHalves]
      exact List.Nodup.map (fun i j hij => Fin.ext (by simpa using hij)) (List.nodup_finRange 8)
    by_cases hlt : k < clen + 8
    · rw [if_pos hlt, List.count_eq_one_of_mem hnodup (mem_after_mulHalves.mpr ⟨by omega, hlt⟩)]
    · rw [if_neg hlt, List.count_eq_zero.mpr fun hmem => hlt (mem_after_mulHalves.mp hmem).2]

/-- The instructions that are ready after a `multiply_add` is split. -/
theorem Inv.ready_fork (inv : Inv env ok extra nodes (before ++ x :: rest) st) (hx : x ∈ st.free)
    {pending' : List InstrMeta} (hpending' : pending' = before ++
      (mulHalves x nodes.length dest a b ++ addHalves x nodes.length dest c) ++ rest) :
    (mulHalves x nodes.length dest a b ++ st.free.erase x ++ st.frontier).Perm
      (pending'.filter fun y => y.instid ∉ pending'.flatMap InstrMeta.after) := by
  obtain ⟨hpending, hready⟩ := inv.ready_of_mem_free hx
  have hafter := inv.order.after_lt
  have hother : ∀ y, y ∈ before ∨ y ∈ rest → ∀ k ∈ y.after, k < nodes.length := fun y hy =>
    hafter y (by rcases hy with hy | hy <;> simp [hy])
  have hcount (k : ℕ) := hpending' ▸ count_after_fork before rest dest (a := a) (b := b) (c := c)
    (k := k) (hafter x hpending) hother
  have hmem {k : ℕ} (hk : k < nodes.length) : k ∈ pending'.flatMap InstrMeta.after ↔
      k ∈ (before ++ x :: rest).flatMap InstrMeta.after := by
    rw [← List.count_pos_iff, ← List.count_pos_iff, hcount, if_pos hk]
    have : 0 < x.after.count k →
        0 < ((before ++ x :: rest).flatMap InstrMeta.after).count k := fun h =>
      List.count_pos_iff.mpr (List.mem_flatMap.mpr ⟨x, hpending, List.count_pos_iff.mp h⟩)
    omega
  have hkeep {ys : List InstrMeta} (hys : ∀ y ∈ ys, y ∈ before ++ x :: rest) :
      ys.filter (fun y => y.instid ∉ pending'.flatMap InstrMeta.after) =
        ys.filter fun y => y.instid ∉ (before ++ x :: rest).flatMap InstrMeta.after :=
    List.filter_congr fun y hy => by
      rw [decide_eq_decide, hmem (inv.order.id_lt y (hys y hy))]
  have hfirsts : (mulHalves x nodes.length dest a b).filter
      (fun y => y.instid ∉ pending'.flatMap InstrMeta.after) =
      mulHalves x nodes.length dest a b := by
    refine List.filter_eq_self.mpr fun p hp => ?_
    obtain ⟨i, -, rfl⟩ := List.mem_map.mp hp
    have := hmem (inv.order.id_lt x hpending)
    simpa [this, Blocked] using hready
  have hseconds : (addHalves x nodes.length dest c).filter
      (fun y => y.instid ∉ pending'.flatMap InstrMeta.after) = [] := by
    refine List.filter_eq_nil_iff.mpr fun p hp => ?_
    obtain ⟨i, -, rfl⟩ := List.mem_map.mp hp
    have hone := hcount (nodes.length + i)
    rw [if_neg (by omega), if_pos (by omega)] at hone
    have hin : nodes.length + i.val ∈ pending'.flatMap InstrMeta.after :=
      List.count_pos_iff.mp (by omega)
    simpa using hin
  have hold : (st.free.erase x ++ st.frontier).Perm ((before ++ rest).filter fun y =>
      y.instid ∉ (before ++ x :: rest).flatMap InstrMeta.after) := by
    have hfree : (st.free ++ st.frontier).Perm (x :: (st.free.erase x ++ st.frontier)) :=
      (List.perm_cons_erase hx).append_right st.frontier
    have hfilter : ((before ++ x :: rest).filter fun y =>
        y.instid ∉ (before ++ x :: rest).flatMap InstrMeta.after).Perm (x :: (before ++ rest).filter
          fun y => y.instid ∉ (before ++ x :: rest).flatMap InstrMeta.after) := by
      refine (List.perm_middle.filter _).trans ?_
      rw [List.filter_cons_of_pos (by simpa [Blocked] using hready)]
    exact (hfree.symm.trans (inv.tracks.ready.trans hfilter)).cons_inv
  have hresult : pending'.filter (fun y => y.instid ∉ pending'.flatMap InstrMeta.after) =
      before.filter (fun y => y.instid ∉ (before ++ x :: rest).flatMap InstrMeta.after) ++
        mulHalves x nodes.length dest a b ++
        rest.filter fun y => y.instid ∉ (before ++ x :: rest).flatMap InstrMeta.after := by
    conv_lhs => rw [hpending']
    rw [List.filter_append, List.filter_append, List.filter_append, ← hpending', hfirsts, hseconds,
      List.append_nil, hkeep fun y hy => by simp [hy], hkeep fun y hy => by simp [hy]]
  rw [hresult, List.append_assoc]
  refine (hold.append_left _).trans ?_
  rw [List.filter_append, ← List.append_assoc]
  exact List.perm_append_comm.append_right _

/-- What a state must be after a `multiply_add` is split. -/
theorem Inv.fork (hextra : Extra extra) (inv : Inv env ok extra nodes (before ++ x :: rest) st)
    (hx : x ∈ st.free)
    (lin : x.lin = .multiplyAdd (.reg dest) (.reg a) (.reg b) (.reg c))
    (apart : dest.overlaps c env.ss (workSlotOf x.tid env.concThreads) = some false)
    (himetas : st'.imetas = st.imetas ++ addHalves x nodes.length dest c)
    (hlength : st'.incount.length = st.incount.length + 8)
    (hincount : ∀ k, st'.incount[k]? = ((st.incount ++ List.replicate 8 1)[k]?).map
      (· + 7 * (x.after.count k : ℤ)))
    (hfree : st'.free.Perm (mulHalves x nodes.length dest a b ++ st.free.erase x))
    (hfrontier : st'.frontier = st.frontier)
    (hsched : ∀ t, st'.schedulableCountByTid t =
      st.schedulableCountByTid t + if t = x.tid then 7 else 0)
    (hnext : st'.nextBatchTid = st.nextBatchTid) :
    Inv env ok extra (nodes ++ addHalves x nodes.length dest c)
      (before ++ (mulHalves x nodes.length dest a b ++ addHalves x nodes.length dest c) ++ rest)
      st' := by
  obtain ⟨hpending, hready⟩ := inv.ready_of_mem_free hx
  have hgood : Good env ok x := inv.good x hpending
  have hafter := inv.order.after_lt
  have split : Pieces env nodes.length x _ _ := .multiplyAdd lin apart
  have hwithin := split.within hgood
  obtain ⟨hgood', horder⟩ := (SplitStep.intro hready split).preserves hextra inv.good inv.order
  have hlen : (addHalves x nodes.length dest c).length = 8 := by simp [addHalves]
  have hfree' : (st'.free ++ st'.frontier).Perm
      (mulHalves x nodes.length dest a b ++ st.free.erase x ++ st.frontier) :=
    hfrontier ▸ hfree.append_right _
  have hfirst_tid : ∀ p ∈ mulHalves x nodes.length dest a b, p.tid = x.tid := fun p hp =>
    (hwithin p (List.mem_append_left _ hp)).tid
  refine ⟨horder, hgood', ⟨?_, ?_, fun k hk => ?_, hfree'.trans (inv.ready_fork hx rfl),
    fun t => ?_⟩, fun y hy => ?_, fun y hy => ?_⟩
  · rw [himetas, inv.tracks.imetas]
  · rw [hlength, inv.tracks.length, List.length_append, hlen]
  · have hcount := count_after_fork before rest dest (a := a) (b := b) (c := c) (k := k)
      (hafter x hpending) fun y hy => hafter y (by
        rcases hy with hy | hy <;> simp [hy])
    rw [List.length_append, hlen] at hk
    rw [hcount, hincount k]
    by_cases hold : k < nodes.length
    · rw [if_pos hold, List.getElem?_append_left (by rw [inv.tracks.length]; exact hold),
        inv.tracks.incount k hold, Option.map_some]
      push_cast
      rfl
    · have hzero : x.after.count k = 0 :=
        List.count_eq_zero.mpr fun hmem => hold (hafter x hpending k hmem)
      rw [if_neg hold, if_pos hk, List.getElem?_append_right (by rw [inv.tracks.length]; omega),
        List.getElem?_replicate_of_lt (by rw [inv.tracks.length]; omega), hzero]
      simp
  · have hnew : ((st'.free ++ st'.frontier).countP fun y => y.tid = t) =
        (if t = x.tid then 8 else 0) +
          (st.free.erase x ++ st.frontier).countP fun y => y.tid = t := by
      rw [hfree'.countP_eq, List.append_assoc, List.countP_append, countP_tid_pieces hfirst_tid]
      rfl
    have hold : (((st.free ++ st.frontier).countP fun y => y.tid = t : ℕ) : ℤ) =
        ((st.free.erase x ++ st.frontier).countP fun y => y.tid = t : ℕ) +
          if t = x.tid then 1 else 0 := by
      rw [((List.perm_cons_erase hx).append_right st.frontier).countP_eq, List.cons_append,
        countP_tid_cons]
    rw [hsched t, inv.tracks.scheduled t, hnew, hold]
    split <;> push_cast <;> ring
  · rw [hnext]
    rcases List.mem_append.mp (hfree.mem_iff.mp hy) with hy | hy
    · rw [hfirst_tid y hy]
      exact inv.free_lt x hx
    · exact inv.free_lt y (List.mem_of_mem_erase hy)
  · rw [hnext]
    rw [hfrontier] at hy
    exact inv.frontier_ge y hy

theorem splitOneFreeMultiplyAdd_meets (hextra : Extra extra)
    (inv : Inv env ok extra nodes pending st) (hx : x ∈ st.free) {dest a b c : LogicalOp}
    (lin : x.lin = .multiplyAdd dest a b c) :
    Meets ok (st.splitOneFreeMultiplyAdd env x) (SplitOrNot env ok extra nodes pending st x) := by
  obtain ⟨hpending, hready⟩ := inv.ready_of_mem_free hx
  obtain ⟨before, rest, rfl⟩ := List.append_of_mem hpending
  have hgood : Good env ok x := inv.good x hpending
  have laned := hgood.laned
  rw [lin] at laned
  obtain ⟨dest, a, b, c, rfl, rfl, rfl, rfl, hdv, hav, hbv, hcv⟩ := laned
  obtain ⟨range, hrange⟩ := hgood.ranges (by simp [lin, Inst.engine]) dest
    (by simp [lin, Inst.operands])
  obtain ⟨range', hrange'⟩ := hgood.ranges (by simp [lin, Inst.engine]) c
    (by simp [lin, Inst.operands])
  obtain ⟨overlap, hoverlap⟩ : ∃ overlap, dest.overlaps c env.ss
      (workSlotOf x.tid env.concThreads) = some overlap := by
    simp [LogicalRegister.overlaps, hrange, hrange']
  have hzero : dest.offset = 0 ∧ a.offset = 0 ∧ b.offset = 0 ∧ c.offset = 0 := by
    simp [LogicalRegister.offset, hdv, hav, hbv, hcv]
  simp only [splitOneFreeMultiplyAdd, lin, guard, if_pos hzero, Option.pure_def, hoverlap,
    Option.bind_eq_bind, Option.bind_some]
  cases overlap with
  | true => exact .inl rfl
  | false =>
      simp only [Bool.false_eq_true, if_false]
      by_cases htid : INFINITE_SET x.tid = true
      · have hfirst : (List.finRange 8).mapM (mulHalf x st.imetas.length (.reg dest) (.reg a)
            (.reg b)) = some (mulHalves x nodes.length dest a b) := by
          have hderive : mulHalf x nodes.length (.reg dest) (.reg a) (.reg b) = fun i =>
            some { x with
              lin := .alu .mul (.reg (dest.scalarAtOffset i)) (.reg (a.scalarAtOffset i))
                (.reg (b.scalarAtOffset i))
              after := [nodes.length + i.val] } := funext fun i => derive_eq htid _ _
          rw [inv.tracks.imetas, hderive]
          rfl
        have hsecond : (List.finRange 8).mapM (addHalf x st.imetas.length (.reg dest) (.reg c)) =
            some (addHalves x nodes.length dest c) := by
          have hderive : addHalf x nodes.length (.reg dest) (.reg c) = fun i => some { x with
              instid := nodes.length + i.val
              lin := .alu .add (.reg (dest.scalarAtOffset i)) (.reg (dest.scalarAtOffset i))
                (.reg (c.scalarAtOffset i)) } := funext fun i =>
            derive_eq (x := { x with instid := nodes.length + i.val }) htid _ _
          rw [inv.tracks.imetas, hderive]
          rfl
        let st₁ : GreedyWorkPacker :=
          { st with
            imetas := st.imetas ++ addHalves x nodes.length dest c
            incount := st.incount ++ List.replicate VLEN 1 }
        obtain ⟨incount, hadd, hlen, hget⟩ := foldlM_addIncount st₁
          (VLEN - 1) fun k hk => by
            have := inv.order.after_lt x hpending k hk
            simp only [st₁, List.length_append, inv.tracks.length]
            omega
        have split : Pieces env nodes.length x _ _ := .multiplyAdd lin hoverlap
        obtain ⟨hgood', horder⟩ :=
          (SplitStep.intro hready split).preserves hextra inv.good inv.order
        have hnodup := (List.nodup_append.mp
          ((inv.ready_fork (a := a) (b := b) hx rfl).nodup_iff.mpr
            (nodup_ready horder hgood'))).1
        simp only [hfirst, hsecond, Option.bind_some]
        rw [show x.after.foldlM (addIncount (VLEN - 1)) _ = _ from hadd]
        simp only [Option.bind_some, freeRemove_eq (show x ∈ GreedyWorkPacker.free
          { st₁ with incount := incount } from hx)]
        refine (freeExtend_meets
          hnodup fun hok p hp => ((split.within hgood p (List.mem_append_left _ hp)).good
            hgood).short hok).bind ?_
        rintro _ ⟨free, hfree, rfl⟩
        refine .inr ⟨rfl, _, _, .intro hready split, ?_, rfl, fun y hy hne => ?_⟩
        · refine inv.fork hextra hx lin hoverlap rfl ?_ hget hfree rfl (fun t => ?_) rfl
          · simpa [st₁, VLEN] using hlen
          · rw [addSchedulable_count]
            rfl
        · exact hfree.mem_iff.mpr (List.mem_append_right _ ((List.mem_erase_of_ne hne).mpr hy))
      · have hfirst : (List.finRange 8).mapM (mulHalf x st.imetas.length (.reg dest) (.reg a)
            (.reg b)) = none := by
          simp [mulHalf, derive, htid, List.finRange_succ]
        rw [hfirst]
        exact fun hok => htid (hgood.tid hok)

end MultiplyAdd

end Explore.Takehome
