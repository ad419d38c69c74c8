import Explore.Lib.Outcome
import Explore.Takehome.Packer
import Mathlib.Tactic.Ring

/-!
# What the operations of the packer do

One specification for each small operation on the state, in the form that the proofs
about whole cycles use: which fields change, and to what. `ok` is a promise under
which no operation raises an exception.
-/

namespace Explore.Takehome.GreedyWorkPacker

variable {env : PackerEnv} {ok : Prop} {st : GreedyWorkPacker} {x : InstrMeta}

/-- An instruction with a priority: no thread has 100000 instructions or more. -/
def Short (x : InstrMeta) : Prop := 0 ≤ x.tid → x.instidInThread < 100000

theorem Short.exists_priority (short : Short x) (allImetas : List InstrMeta) (concThreads : ℕ) :
    ∃ priority, imetaPriorityFn x allImetas concThreads = some priority := by
  unfold imetaPriorityFn priorityBlock
  by_cases hneg : x.tid < 0
  · simp [hneg]
  · have hlt := short (by omega)
    by_cases hsmall : x.instidInThread < 289 <;> simp [hneg, hsmall, hlt]

theorem perm_insertByPriority (key : InstrMeta → Option Priority) (priority : Priority)
    (x : InstrMeta) (ys : List InstrMeta) :
    (insertByPriority key priority x ys).Perm (x :: ys) := by
  induction ys with
  | nil => exact .refl _
  | cons y ys ih =>
      rw [insertByPriority]
      split
      · exact .refl _
      · exact (ih.cons y).trans (.swap x y ys)

theorem freeAppend_meets (new : x ∉ st.free) (short : ok → Short x) :
    Meets ok (st.freeAppend env x) fun st' =>
      ∃ free, free.Perm (x :: st.free) ∧ st' = { st with free := free } := by
  refine Meets.of_forall (fun st' h => ?_) fun hok => ?_
  · obtain ⟨priority, -, hst⟩ := Option.bind_eq_some_iff.mp h
    obtain rfl := Option.some.inj hst
    exact ⟨_, by rw [if_neg new]; exact perm_insertByPriority _ _ _ _, rfl⟩
  · obtain ⟨priority, hpriority⟩ := (short hok).exists_priority st.imetas env.concThreads
    simp [freeAppend, hpriority]

theorem freeExtend_meets {xs : List InstrMeta} (distinct : (xs ++ st.free).Nodup)
    (short : ok → ∀ x ∈ xs, Short x) :
    Meets ok (st.freeExtend env xs) fun st' =>
      ∃ free, free.Perm (xs ++ st.free) ∧ st' = { st with free := free } := by
  refine (Meets.foldlM (fun todo st' => ∃ free done,
    xs = done ++ todo ∧ free.Perm (done ++ st.free) ∧ st' = { st with free := free })
    (fun x todo st' => ?_) xs st ⟨st.free, [], rfl, .refl _, rfl⟩).mono ?_
  · rintro ⟨free, done, rfl, hperm, rfl⟩
    have hnew : x ∉ free := by
      intro hx
      have hnodup := distinct
      rw [List.append_assoc, List.nodup_append] at hnodup
      rcases List.mem_append.mp (hperm.mem_iff.mp hx) with hx | hx
      · exact hnodup.2.2 x hx x (by simp) rfl
      · exact (List.nodup_cons.mp hnodup.2.1).1 (List.mem_append_right _ hx)
    refine (freeAppend_meets hnew
      fun hok => short hok x (by simp)).mono ?_
    rintro _ ⟨free', hfree', rfl⟩
    refine ⟨free', done ++ [x], by simp, hfree'.trans ((hperm.cons x).trans ?_), rfl⟩
    rw [List.append_assoc]
    exact List.perm_middle.symm
  · rintro st' ⟨free, done, hdone, hperm, rfl⟩
    rw [List.append_nil] at hdone
    subst hdone
    exact ⟨free, hperm, rfl⟩

theorem freeRemove_eq (hx : x ∈ st.free) :
    st.freeRemove x = some { st with free := st.free.erase x } := if_pos hx

/-- Adding `n` at every id of a list. -/
theorem foldlM_addIncount (st : GreedyWorkPacker) (n : ℤ) {ids : List ℕ}
    (bound : ∀ idx ∈ ids, idx < st.incount.length) :
    ∃ incount, ids.foldlM (addIncount n) st = some { st with incount := incount } ∧
      incount.length = st.incount.length ∧
      ∀ k, incount[k]? = (st.incount[k]?).map (· + n * ids.count k) := by
  induction ids generalizing st with
  | nil => exact ⟨st.incount, rfl, rfl, fun k => by simp⟩
  | cons idx ids ih =>
      have hidx : idx < st.incount.length := bound idx List.mem_cons_self
      let mid := st.incount.set idx (st.incount[idx] + n)
      obtain ⟨incount, hfold, hlen, hget⟩ := ih { st with incount := mid }
        fun k hk => by simpa [mid] using bound k (List.mem_cons_of_mem _ hk)
      refine ⟨incount, ?_, by simpa [mid] using hlen, fun k => ?_⟩
      · rw [List.foldlM_cons, addIncount, List.getElem?_eq_getElem hidx]
        exact hfold
      · rw [hget k, List.count_cons]
        by_cases hk : idx = k
        · subst hk
          rw [List.getElem?_set_self hidx, List.getElem?_eq_getElem hidx]
          simp only [Option.map_some, BEq.rfl, if_true, Nat.cast_add, Nat.cast_one]
          congr 1
          ring
        · rw [List.getElem?_set_ne hk]
          simp [hk]

@[simp] theorem addSchedulable_imetas (tid n : ℤ) : (st.addSchedulable tid n).imetas = st.imetas :=
  rfl
@[simp] theorem addSchedulable_incount (tid n : ℤ) :
    (st.addSchedulable tid n).incount = st.incount := rfl
@[simp] theorem addSchedulable_free (tid n : ℤ) : (st.addSchedulable tid n).free = st.free := rfl
@[simp] theorem addSchedulable_frontier (tid n : ℤ) :
    (st.addSchedulable tid n).frontier = st.frontier := rfl
@[simp] theorem addSchedulable_nextBatchTid (tid n : ℤ) :
    (st.addSchedulable tid n).nextBatchTid = st.nextBatchTid := rfl

/-- A thread's count after `n` more of its instructions may be scheduled. -/
theorem addSchedulable_count (tid n t : ℤ) :
    (st.addSchedulable tid n).schedulableCountByTid t =
      st.schedulableCountByTid t + if t = tid then n else 0 := by
  rw [addSchedulable]
  dsimp only
  split <;> simp

theorem makeReady_meets (st : GreedyWorkPacker) (new : x ∉ st.free) (short : ok → Short x) :
    Meets ok (st.makeReady env x) fun st' =>
      ∃ free frontier,
        (x.tid < st.nextBatchTid ∧ free.Perm (x :: st.free) ∧ frontier = st.frontier ∨
          ¬ x.tid < st.nextBatchTid ∧ free = st.free ∧ frontier = st.frontier ++ [x]) ∧
        st' = { st with free := free, frontier := frontier }.addSchedulable x.tid 1 := by
  unfold makeReady
  by_cases htid : x.tid < st.nextBatchTid
  · rw [if_pos htid]
    refine (freeAppend_meets new short).bind ?_
    rintro _ ⟨free, hperm, rfl⟩
    exact ⟨free, st.frontier, .inl ⟨htid, hperm, rfl⟩, rfl⟩
  · rw [if_neg htid]
    exact ⟨st.free, st.frontier ++ [x], .inr ⟨htid, rfl, rfl⟩, rfl⟩

end Explore.Takehome.GreedyWorkPacker
