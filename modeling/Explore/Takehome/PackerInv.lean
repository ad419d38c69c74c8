import Explore.Takehome.Splitting

/-!
# The invariant of the packer

`Inv` relates the state of the packer to the list of pending instructions, in program
order, that it stands for: `incount` counts for each id the pending instructions that
unlock it, and `free` and `frontier` together are the pending instructions that none
unlocks. Retiring an instruction removes it from the list; splitting replaces it.
-/

namespace Explore.Takehome

open Pending GreedyWorkPacker

/-- `unlocks` is what the pending instructions unlock, with what is still to be
subtracted from `incount`. -/
structure Tracks (unlocks : List ℕ) (nodes pending : List InstrMeta) (st : GreedyWorkPacker) :
    Prop where
  imetas : st.imetas = nodes
  length : st.incount.length = nodes.length
  incount : ∀ k < nodes.length, st.incount[k]? = some (unlocks.count k : ℤ)
  ready : (st.free ++ st.frontier).Perm (pending.filter fun x => x.instid ∉ unlocks)
  scheduled : ∀ t, st.schedulableCountByTid t =
    ((st.free ++ st.frontier).countP fun x => x.tid = t : ℕ)

/-- The state of the packer between operations. -/
structure Inv (env : PackerEnv) (ok : Prop) (extra : InstrMeta → InstrMeta → Prop)
    (nodes pending : List InstrMeta) (st : GreedyWorkPacker) : Prop where
  order : InOrder env extra nodes pending
  good : ∀ x ∈ pending, Good env ok x
  tracks : Tracks (pending.flatMap InstrMeta.after) nodes pending st
  free_lt : ∀ x ∈ st.free, x.tid < st.nextBatchTid
  frontier_ge : ∀ x ∈ st.frontier, st.nextBatchTid ≤ x.tid

/-- Instructions only became ready, each where its thread allows. -/
structure Grows (st st' : GreedyWorkPacker) : Prop where
  nextBatchTid : st'.nextBatchTid = st.nextBatchTid
  free_subset : st.free ⊆ st'.free
  free_lt : ∀ x ∈ st'.free, x ∈ st.free ∨ x.tid < st.nextBatchTid
  frontier_ge : ∀ x ∈ st'.frontier, x ∈ st.frontier ∨ st.nextBatchTid ≤ x.tid

theorem Grows.refl (st : GreedyWorkPacker) : Grows st st :=
  ⟨rfl, List.Subset.refl _, fun _ => .inl, fun _ => .inl⟩

theorem Grows.trans {st st' st'' : GreedyWorkPacker} (h : Grows st st') (h' : Grows st' st'') :
    Grows st st'' where
  nextBatchTid := h'.nextBatchTid.trans h.nextBatchTid
  free_subset := List.Subset.trans h.free_subset h'.free_subset
  free_lt := fun x hx => by
    rcases h'.free_lt x hx with hx | hx
    · exact h.free_lt x hx
    · exact .inr (h.nextBatchTid ▸ hx)
  frontier_ge := fun x hx => by
    rcases h'.frontier_ge x hx with hx | hx
    · exact h.frontier_ge x hx
    · exact .inr (h.nextBatchTid ▸ hx)

section Unlock

variable {env : PackerEnv} {ok : Prop} {nodes pending : List InstrMeta} {st : GreedyWorkPacker}
  {idx : ℕ} {unlocks : List ℕ} {y : InstrMeta}

/-- Once the last unlock of a node is gone, exactly the node becomes ready. -/
theorem filter_ready_cons (node : pending.filter (fun x => x.instid = idx) = [y])
    (last : idx ∉ unlocks) :
    (pending.filter fun x => x.instid ∉ unlocks).Perm
      (y :: pending.filter fun x => x.instid ∉ idx :: unlocks) := by
  have hsplit := List.filter_append_perm (fun x : InstrMeta => x.instid = idx)
    (pending.filter fun x => x.instid ∉ unlocks)
  have hnode : (pending.filter fun x => x.instid ∉ unlocks).filter (fun x => x.instid = idx) =
      [y] := by
    rw [List.filter_filter, ← node]
    refine List.filter_congr fun x _ => ?_
    by_cases hx : x.instid = idx
    · simp [hx, last]
    · simp [hx]
  have hrest : (pending.filter fun x => x.instid ∉ unlocks).filter
      (fun x => !decide (x.instid = idx)) = pending.filter fun x => x.instid ∉ idx :: unlocks := by
    rw [List.filter_filter]
    refine List.filter_congr fun x _ => ?_
    by_cases hx : x.instid = idx <;> simp [hx]
  rw [hnode, hrest] at hsplit
  exact hsplit.symm

theorem Tracks.node_not_mem (tracks : Tracks (idx :: unlocks) nodes pending st)
    (hy : y.instid = idx) : y ∉ st.free := by
  intro hmem
  have hready := tracks.ready.mem_iff.mp (List.mem_append_left _ hmem)
  simp [hy] at hready

theorem countP_tid_cons (y : InstrMeta) (xs : List InstrMeta) (t : ℤ) :
    ((y :: xs).countP fun x => x.tid = t : ℕ) =
      ((xs.countP fun x => x.tid = t : ℕ) : ℤ) + if t = y.tid then 1 else 0 := by
  rw [List.countP_cons]
  by_cases ht : t = y.tid
  · simp [ht]
  · simp [ht, Ne.symm ht]

/-- An instruction that becomes ready. -/
theorem makeReady_grows (st : GreedyWorkPacker) (new : y ∉ st.free) (short : ok → Short y)
    (scheduled : ∀ t, st.schedulableCountByTid t =
      ((st.free ++ st.frontier).countP fun x => x.tid = t : ℕ)) :
    Meets ok (st.makeReady env y) fun st' =>
      st'.imetas = st.imetas ∧ st'.incount = st.incount ∧
      (st'.free ++ st'.frontier).Perm (y :: (st.free ++ st.frontier)) ∧
      (∀ t, st'.schedulableCountByTid t =
        ((st'.free ++ st'.frontier).countP fun x => x.tid = t : ℕ)) ∧ Grows st st' := by
  refine (makeReady_meets st new short).mono ?_
  rintro _ ⟨free, frontier, hmoved, rfl⟩
  have hperm : (free ++ frontier).Perm (y :: (st.free ++ st.frontier)) := by
    rcases hmoved with ⟨-, hfree, rfl⟩ | ⟨-, rfl, rfl⟩
    · exact (hfree.append_right _).trans (.refl _)
    · rw [← List.append_assoc]
      exact List.perm_append_singleton _ _
  refine ⟨rfl, rfl, hperm, fun t => ?_, rfl, ?_, ?_, ?_⟩
  · rw [addSchedulable_count]
    simp only [addSchedulable]
    rw [hperm.countP_eq, countP_tid_cons, ← scheduled t]
  · intro x hx
    rcases hmoved with ⟨-, hfree, rfl⟩ | ⟨-, rfl, rfl⟩
    · exact hfree.mem_iff.mpr (List.mem_cons_of_mem y hx)
    · exact hx
  · intro x hx
    rcases hmoved with ⟨htid, hfree, rfl⟩ | ⟨-, rfl, rfl⟩
    · rcases List.mem_cons.mp (hfree.mem_iff.mp hx) with rfl | hx
      · exact .inr htid
      · exact .inl hx
    · exact .inl hx
  · intro x hx
    rcases hmoved with ⟨-, hfree, rfl⟩ | ⟨htid, rfl, rfl⟩
    · exact .inl hx
    · rcases List.mem_append.mp hx with hx | hx
      · exact .inl hx
      · obtain rfl := List.mem_singleton.mp hx
        exact .inr (not_lt.mp htid)

/-- One id of a retired instruction's `after`. -/
theorem unlock_meets (tracks : Tracks (idx :: unlocks) nodes pending st)
    (hnode : nodes[idx]? = some y) (hy : y.instid = idx)
    (node : pending.filter (fun x => x.instid = idx) = [y]) (short : ok → Short y) :
    Meets ok (st.unlock env idx) fun st' =>
      Tracks unlocks nodes pending st' ∧ Grows st st' := by
  have hidx : idx < nodes.length := (List.getElem?_eq_some_iff.mp hnode).1
  obtain ⟨incount, hadd, hlen, hget⟩ := foldlM_addIncount st (-1) fun k hk => by
    obtain rfl := List.mem_singleton.mp hk
    rw [tracks.length]
    exact hidx
  have hadd' : addIncount (-1) st idx = some { st with incount := incount } := by
    simpa using hadd
  have hcount : ∀ k < nodes.length, incount[k]? = some (unlocks.count k : ℤ) := by
    intro k hk
    rw [hget k, tracks.incount k hk, Option.map_some]
    congr 1
    by_cases hk : idx = k <;> simp [hk]
  rw [unlock, hadd']
  simp only [Option.bind_eq_bind, Option.bind_some, hcount idx hidx]
  by_cases hlast : idx ∈ unlocks
  · rw [if_neg (by exact_mod_cast (List.count_pos_iff.mpr hlast).ne')]
    refine ⟨⟨tracks.imetas, hlen.trans tracks.length, hcount, ?_, tracks.scheduled⟩,
      ⟨rfl, List.Subset.refl _, fun _ => .inl, fun _ => .inl⟩⟩
    refine tracks.ready.trans (.of_eq (List.filter_congr fun x _ => ?_))
    by_cases hx : x.instid = idx <;> simp [hx, hlast]
  · have himetas : st.imetas[idx]? = some y := by rw [tracks.imetas, hnode]
    rw [if_pos (by exact_mod_cast List.count_eq_zero_of_not_mem hlast), himetas]
    have hnew : y ∉ st.free := tracks.node_not_mem hy
    refine (makeReady_grows { st with incount := incount } hnew short tracks.scheduled).mono ?_
    rintro st' ⟨himetas', hincount', hperm, hsched, hgrows⟩
    refine ⟨⟨himetas'.trans tracks.imetas, ?_, fun k hk => ?_, ?_, hsched⟩,
      ⟨hgrows.nextBatchTid, hgrows.free_subset, hgrows.free_lt, hgrows.frontier_ge⟩⟩
    · rw [hincount']
      exact hlen.trans tracks.length
    · rw [hincount']
      exact hcount k hk
    · exact hperm.trans ((tracks.ready.cons y).trans (filter_ready_cons node hlast).symm)

/-- All ids of a retired instruction's `after`. -/
theorem foldlM_unlock_meets {ids : List ℕ} (tracks : Tracks (ids ++ unlocks) nodes pending st)
    (node : ∀ k ∈ ids, ∃ y, nodes[k]? = some y ∧ y.instid = k ∧
      pending.filter (fun x => x.instid = k) = [y] ∧ (ok → Short y)) :
    Meets ok (ids.foldlM (unlock env) st) fun st' =>
      Tracks unlocks nodes pending st' ∧ Grows st st' := by
  refine (Meets.foldlM (fun todo st' => (∀ k ∈ todo, k ∈ ids) ∧
    Tracks (todo ++ unlocks) nodes pending st' ∧ Grows st st') (fun k todo st' => ?_) ids st
    ⟨fun _ hk => hk, tracks, .refl st⟩).mono fun st' h => h.2
  rintro ⟨hids, htracks, hgrows⟩
  obtain ⟨y, hnode, hy, hfilter, hshort⟩ := node k (hids k List.mem_cons_self)
  refine (unlock_meets htracks hnode hy hfilter hshort).mono ?_
  rintro st'' ⟨htracks', hgrows'⟩
  exact ⟨fun k hk => hids k (List.mem_cons_of_mem _ hk), htracks', hgrows.trans hgrows'⟩

end Unlock

section FallDown

variable {env : PackerEnv} {ok : Prop} {st : GreedyWorkPacker}

/-- `__fall_down_to_free` moves every instruction whose thread may run. -/
theorem fallDownToFree_meets (distinct : (st.free ++ st.frontier).Nodup)
    (short : ok → ∀ x ∈ st.frontier, Short x) :
    Meets ok (st.fallDownToFree env) fun st' => ∃ free frontier,
      st' = { st with free := free, frontier := frontier } ∧
      (free ++ frontier).Perm (st.free ++ st.frontier) ∧ st.free ⊆ free ∧
      (∀ x ∈ free, x ∈ st.free ∨ x.tid < st.nextBatchTid) ∧
      ∀ x ∈ frontier, st.nextBatchTid ≤ x.tid := by
  refine (Meets.foldlM (fun todo st' => ∃ free kept,
    st' = { st with free := free, frontier := kept ++ todo } ∧ (∀ x ∈ todo, x ∈ st.frontier) ∧
    (free ++ (kept ++ todo)).Perm (st.free ++ st.frontier) ∧ st.free ⊆ free ∧
    (∀ x ∈ free, x ∈ st.free ∨ x.tid < st.nextBatchTid) ∧
    ∀ x ∈ kept, st.nextBatchTid ≤ x.tid) (fun x todo st' => ?_) st.frontier st
    ⟨st.free, [], rfl, fun _ hx => hx, .refl _, List.Subset.refl _, fun _ => .inl, by simp⟩).mono ?_
  · rintro ⟨free, kept, rfl, htodo, hperm, hsub, hfree, hkept⟩
    by_cases htid : x.tid < st.nextBatchTid
    · have hnew : x ∉ free := by
        intro hx
        have hnodup := hperm.nodup_iff.mpr distinct
        exact (List.nodup_append.mp hnodup).2.2 x hx x (by simp) rfl
      rw [if_pos htid]
      refine (freeAppend_meets hnew
        fun hok => short hok x (htodo x List.mem_cons_self)).bind ?_
      rintro _ ⟨free', hfree', rfl⟩
      have hnot : x ∉ kept := fun hx => absurd htid (not_lt.mpr (hkept x hx))
      refine ⟨free', kept, ?_, fun y hy => htodo y (List.mem_cons_of_mem x hy), ?_, ?_, ?_, hkept⟩
      · simp [List.erase_append_right _ hnot]
      · refine ((hfree'.append_right _).trans ?_).trans hperm
        rw [← List.append_assoc, ← List.append_assoc]
        exact (List.perm_middle).symm
      · exact List.Subset.trans hsub fun y hy => hfree'.mem_iff.mpr (List.mem_cons_of_mem x hy)
      · intro y hy
        rcases List.mem_cons.mp (hfree'.mem_iff.mp hy) with rfl | hy
        · exact .inr htid
        · exact hfree y hy
    · rw [if_neg htid]
      refine ⟨free, kept ++ [x], by simp, fun y hy => htodo y (List.mem_cons_of_mem x hy),
        by simpa using hperm, hsub, hfree, fun y hy => ?_⟩
      rcases List.mem_append.mp hy with hy | hy
      · exact hkept y hy
      · obtain rfl := List.mem_singleton.mp hy
        exact not_lt.mp htid
  · rintro _ ⟨free, kept, rfl, -, hperm, hsub, hfree, hkept⟩
    rw [List.append_nil] at hperm
    exact ⟨free, kept, by rw [List.append_nil], hperm, hsub, hfree, hkept⟩

end FallDown

section Retire

variable {env : PackerEnv} {ok : Prop} {extra : InstrMeta → InstrMeta → Prop}
  {nodes pending before rest : List InstrMeta} {st : GreedyWorkPacker} {x : InstrMeta}

theorem Good.conflict_self (good : Good env ok x) : Conflict env extra x x := by
  obtain ⟨inst, hinst, -⟩ := good.inst
  exact .inl ⟨inst, inst, hinst, hinst, inst.conflicts_self⟩

namespace Inv

theorem mem_ready (inv : Inv env ok extra nodes pending st) :
    x ∈ st.free ∨ x ∈ st.frontier ↔ x ∈ pending ∧ ¬ Blocked InstrMeta.after pending x.instid := by
  rw [← List.mem_append, inv.tracks.ready.mem_iff]
  simp [Blocked]

theorem ready_of_mem_free (inv : Inv env ok extra nodes pending st) (hx : x ∈ st.free) :
    x ∈ pending ∧ ¬ Blocked InstrMeta.after pending x.instid := inv.mem_ready.mp (.inl hx)

/-- No instruction is ready twice. -/
theorem nodup (inv : Inv env ok extra nodes pending st) : (st.free ++ st.frontier).Nodup := by
  refine inv.tracks.ready.nodup_iff.mpr (inv.order.nodup_of_ready List.filter_sublist ?_
    fun x hx => (inv.good x hx).conflict_self)
  intro x hx
  simpa [Blocked] using (List.mem_filter.mp hx).2

end Inv

theorem countP_tid_erase {xs : List InstrMeta} (hx : x ∈ xs) (t : ℤ) :
    (((xs.erase x).countP fun y => y.tid = t : ℕ) : ℤ) =
      (xs.countP fun y => y.tid = t : ℕ) + if t = x.tid then -1 else 0 := by
  rw [(List.perm_cons_erase hx).countP_eq, countP_tid_cons]
  split <;> omega

/-- The state of `__retire` after the instruction left `free`. -/
theorem Inv.tracks_erase (inv : Inv env ok extra nodes (before ++ x :: rest) st)
    (hx : x ∈ st.free) (nextBatchTid : ℤ) :
    Tracks (x.after ++ (before ++ rest).flatMap InstrMeta.after) nodes (before ++ rest)
      { ({ st with free := st.free.erase x }.addSchedulable x.tid (-1)) with
        nextBatchTid := nextBatchTid } := by
  obtain ⟨-, hready⟩ := inv.ready_of_mem_free hx
  have hperm : ((before ++ x :: rest).flatMap InstrMeta.after).Perm
      (x.after ++ (before ++ rest).flatMap InstrMeta.after) := by
    simpa using (List.perm_middle (a := x)).flatMap_right InstrMeta.after
  have hmem (k : ℕ) := hperm.mem_iff (a := k)
  refine ⟨inv.tracks.imetas, inv.tracks.length, fun k hk => ?_, ?_, fun t => ?_⟩
  · rw [← hperm.count_eq]
    exact inv.tracks.incount k hk
  · have hfree : (st.free ++ st.frontier).Perm (x :: (st.free.erase x ++ st.frontier)) :=
      (List.perm_cons_erase hx).append_right st.frontier
    have hfilter : ((before ++ x :: rest).filter fun y =>
        y.instid ∉ (before ++ x :: rest).flatMap InstrMeta.after).Perm
        (x :: (before ++ rest).filter fun y =>
          y.instid ∉ x.after ++ (before ++ rest).flatMap InstrMeta.after) := by
      refine (List.perm_middle.filter _).trans ?_
      rw [List.filter_cons_of_pos (by simpa [Blocked] using hready)]
      refine .cons x (.of_eq (List.filter_congr fun y _ => ?_))
      rw [decide_eq_decide, hmem]
    exact (hfree.symm.trans (inv.tracks.ready.trans hfilter)).cons_inv
  · have hfree : ((st.free.erase x ++ st.frontier).countP fun y => y.tid = t) =
        ((st.free ++ st.frontier).erase x).countP fun y => y.tid = t := by
      rw [List.erase_append_left _ hx]
    change (GreedyWorkPacker.addSchedulable { st with free := st.free.erase x } x.tid
      (-1)).schedulableCountByTid t = ((st.free.erase x ++ st.frontier).countP _ : ℕ)
    rw [addSchedulable_count, hfree, countP_tid_erase (List.mem_append_left _ hx),
      ← inv.tracks.scheduled t]

/-- `__retire` removes a free instruction from the pending ones. When the thread has no
other instruction ready, one more thread may start. -/
theorem retire_meets (inv : Inv env ok extra nodes (before ++ x :: rest) st) (hx : x ∈ st.free) :
    Meets ok (st.retire env x) fun st' =>
      Inv env ok extra nodes (before ++ rest) st' ∧
      (∀ y ∈ st.free, y ≠ x → y ∈ st'.free) ∧
      st'.nextBatchTid = if ((st.free ++ st.frontier).countP fun y => y.tid = x.tid) = 1 ∧
        st.nextBatchTid < env.numThreads then st.nextBatchTid + 1 else st.nextBatchTid := by
  obtain ⟨hpending, hready⟩ := inv.ready_of_mem_free hx
  have horder := inv.order.done hready
  have hgood : ∀ y ∈ before ++ rest, Good env ok y := fun y hy => inv.good y (by
    rcases List.mem_append.mp hy with hy | hy <;> simp [hy])
  have hnode : ∀ k ∈ x.after, ∃ y, nodes[k]? = some y ∧ y.instid = k ∧
      (before ++ rest).filter (fun x => x.instid = k) = [y] ∧ (ok → Short y) := by
    intro k hk
    have hlt := inv.order.after_lt x hpending k hk
    have hblocked := blocked_of_mem_after hpending hk
    have hne : x.instid ≠ k := fun heq => hready (heq ▸ hblocked)
    have hget := List.getElem?_eq_getElem hlt
    have hwait := inv.order.waiting k _ hget hblocked
    have hmem := inv.order.node_mem hget hblocked
    rw [List.filter_append, List.filter_cons_of_neg (by simpa using hne)] at hwait
    exact ⟨_, hget, inv.order.id_node k _ hget, by rw [List.filter_append, hwait],
      fun hok => (inv.good _ hmem).short hok⟩
  have hcount : ((GreedyWorkPacker.addSchedulable { st with free := st.free.erase x } x.tid
      (-1)).schedulableCountByTid x.tid = 0) ↔
      ((st.free ++ st.frontier).countP fun y => y.tid = x.tid) = 1 := by
    rw [addSchedulable_count, inv.tracks.scheduled, if_pos rfl]
    omega
  have hkeep (y : InstrMeta) (hy : y ∈ st.free) (hne : y ≠ x) : y ∈ st.free.erase x :=
    (List.mem_erase_of_ne hne).mpr hy
  rw [retire, freeRemove_eq hx]
  simp only [Option.bind_eq_bind, Option.bind_some, addSchedulable_nextBatchTid, hcount]
  by_cases hnewly : ((st.free ++ st.frontier).countP fun y => y.tid = x.tid) = 1 ∧
      st.nextBatchTid < env.numThreads
  · simp only [hnewly, and_self, decide_true, if_true]
    refine (foldlM_unlock_meets (inv.tracks_erase hx _) hnode).bind ?_
    rintro st₁ ⟨htracks, hgrows⟩
    have hdistinct : (st₁.free ++ st₁.frontier).Nodup := by
      refine htracks.ready.nodup_iff.mpr (horder.nodup_of_ready List.filter_sublist ?_
        fun x hx => (hgood x hx).conflict_self)
      intro y hy
      simpa [Blocked] using (List.mem_filter.mp hy).2
    have hshort : ok → ∀ y ∈ st₁.frontier, Short y := fun hok y hy =>
      (hgood y (List.mem_filter.mp (htracks.ready.mem_iff.mp
        (List.mem_append_right _ hy))).1).short hok
    refine (fallDownToFree_meets hdistinct hshort).mono ?_
    rintro _ ⟨free, frontier, rfl, hperm, hsub, hfree, hfrontier⟩
    refine ⟨⟨horder, hgood, ⟨htracks.imetas, htracks.length, htracks.incount,
      hperm.trans htracks.ready, fun t => ?_⟩, fun y hy => ?_, hfrontier⟩, fun y hy hne => ?_,
      hgrows.nextBatchTid⟩
    · exact (htracks.scheduled t).trans (by rw [← hperm.countP_eq])
    · change y.tid < st₁.nextBatchTid
      rw [hgrows.nextBatchTid]
      rcases hfree y hy with hy | hy
      · rcases hgrows.free_lt y hy with hy | hy
        · exact (inv.free_lt y (List.mem_of_mem_erase hy)).trans (Int.lt_succ _)
        · exact hy
      · rwa [hgrows.nextBatchTid] at hy
    · exact hsub (hgrows.free_subset (hkeep y hy hne))
  · simp only [hnewly, decide_false, Bool.false_eq_true, if_false]
    refine (foldlM_unlock_meets (inv.tracks_erase hx st.nextBatchTid) hnode).bind ?_
    rintro st₁ ⟨htracks, hgrows⟩
    refine ⟨⟨horder, hgood, htracks, fun y hy => ?_, fun y hy => ?_⟩, fun y hy hne => ?_,
      hgrows.nextBatchTid⟩
    · rw [hgrows.nextBatchTid]
      rcases hgrows.free_lt y hy with hy | hy
      · exact inv.free_lt y (List.mem_of_mem_erase hy)
      · exact hy
    · rw [hgrows.nextBatchTid]
      rcases hgrows.frontier_ge y hy with hy | hy
      · exact inv.frontier_ge y hy
      · exact hy
    · exact hgrows.free_subset (hkeep y hy hne)

end Retire

end Explore.Takehome
