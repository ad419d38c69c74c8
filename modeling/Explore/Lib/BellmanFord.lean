import Mathlib.Algebra.Order.BigOperators.Group.List
import Mathlib.Data.List.Perm.Subperm
import Mathlib.Order.Bounds.Basic

/-!
# Rounds of relaxation

A round lowers the value at each vertex to the least of its own and of what an edge into it
offers. A walk without a repeated edge is as short as any, so after as many rounds as there
are edges nothing changes, and then the values are the distances from the source.
-/

namespace Explore.BellmanFord

variable {V K : Type*}

structure Edge (V K : Type*) where
  u : V
  v : V
  c : K

section Minimum

variable [LinearOrder K]

theorem le_foldl_min_iff {x a : K} {values : List K} :
    x ≤ values.foldl min a ↔ x ≤ a ∧ ∀ y ∈ values, x ≤ y := by
  induction values generalizing a with
  | nil => simp
  | cons y values ih =>
      rw [List.foldl_cons, ih, le_min_iff, List.forall_mem_cons]
      exact and_assoc

theorem foldl_min_eq_or_mem (values : List K) (a : K) :
    values.foldl min a = a ∨ values.foldl min a ∈ values := by
  induction values generalizing a with
  | nil => exact Or.inl rfl
  | cons y values ih =>
      rw [List.foldl_cons]
      obtain heq | hmem := ih (min a y)
      · rw [heq]
        obtain hmin | hmin := min_choice a y
        · exact Or.inl hmin
        · rw [hmin]
          exact Or.inr List.mem_cons_self
      · exact Or.inr (List.mem_cons_of_mem _ hmem)

end Minimum

section Round

variable [DecidableEq V] [AddCommMonoid K] [LinearOrder K]

/-- What the edges into `v` offer. -/
def candidates (edges : List (Edge V K)) (best : V → K) (v : V) : List K :=
  (edges.filter fun e => e.v = v).map fun e => best e.u + e.c

/-- One round. -/
def relax (edges : List (Edge V K)) (best : V → K) (v : V) : K :=
  (candidates edges best v).foldl min (best v)

variable {edges : List (Edge V K)} {best : V → K} {v : V}

omit [LinearOrder K] in
theorem mem_candidates {x : K} :
    x ∈ candidates edges best v ↔ ∃ e ∈ edges, e.v = v ∧ best e.u + e.c = x := by
  simp [candidates, and_assoc]

theorem le_relax_iff {x : K} :
    x ≤ relax edges best v ↔ x ≤ best v ∧ ∀ e ∈ edges, e.v = v → x ≤ best e.u + e.c := by
  rw [relax, le_foldl_min_iff]
  refine and_congr_right fun _ => ⟨fun h e he hv => ?_, fun h y hy => ?_⟩
  · exact h _ (mem_candidates.mpr ⟨e, he, hv, rfl⟩)
  · obtain ⟨e, he, hv, rfl⟩ := mem_candidates.mp hy
    exact h e he hv

theorem relax_le : relax edges best v ≤ best v := (le_relax_iff.mp le_rfl).1

theorem relax_le_of_mem {e : Edge V K} (he : e ∈ edges) :
    relax edges best e.v ≤ best e.u + e.c :=
  (le_relax_iff.mp le_rfl).2 e he rfl

theorem relax_eq_or (edges : List (Edge V K)) (best : V → K) (v : V) :
    relax edges best v = best v ∨
      ∃ e ∈ edges, e.v = v ∧ relax edges best v = best e.u + e.c := by
  obtain heq | hmem := foldl_min_eq_or_mem (candidates edges best v) (best v)
  · exact Or.inl heq
  · obtain ⟨e, he, hv, hvalue⟩ := mem_candidates.mp hmem
    exact Or.inr ⟨e, he, hv, hvalue.symm⟩

end Round

section Walks

/-- A walk from `s`, with its last edge first. -/
inductive Walk (edges : List (Edge V K)) (s : V) : V → List (Edge V K) → Prop
  | nil : Walk edges s s []
  | extend {e : Edge V K} {p : List (Edge V K)} :
      Walk edges s e.u p → e ∈ edges → Walk edges s e.v (e :: p)

variable {edges : List (Edge V K)} {s v : V} {p : List (Edge V K)}

theorem Walk.subset (walk : Walk edges s v p) : p ⊆ edges := by
  induction walk with
  | nil => exact List.nil_subset _
  | extend _ he ih => exact List.cons_subset.mpr ⟨he, ih⟩

/-- A walk up to one of its edges is a walk. -/
theorem Walk.upTo {later earlier : List (Edge V K)} {e : Edge V K}
    (walk : Walk edges s v (later ++ e :: earlier)) : Walk edges s e.v (e :: earlier) := by
  induction later generalizing v with
  | nil =>
      cases walk with
      | extend walk he => exact .extend walk he
  | cons last later ih =>
      cases walk with
      | extend walk _ => exact ih walk

variable [AddCommMonoid K]

def weight (p : List (Edge V K)) : K := (p.map Edge.c).sum

@[simp] theorem weight_nil : weight ([] : List (Edge V K)) = 0 := rfl

@[simp] theorem weight_cons (e : Edge V K) (p : List (Edge V K)) :
    weight (e :: p) = e.c + weight p := rfl

/-- The distance from `s` to `v`, which is `sentinel` if there is no walk. -/
def IsDistance [LE K] (edges : List (Edge V K)) (s : V) (sentinel : K) (v : V) (d : K) : Prop :=
  IsLeast {w | ∃ p, Walk edges s v p ∧ weight p = w} d ∨
    (∀ p, ¬Walk edges s v p) ∧ d = sentinel

variable [LinearOrder K] [IsOrderedAddMonoid K]

theorem weight_nonneg (nonneg : ∀ e ∈ edges, 0 ≤ e.c) (hp : p ⊆ edges) : 0 ≤ weight p := by
  refine List.sum_nonneg fun c hc => ?_
  obtain ⟨e, he, rfl⟩ := List.mem_map.mp hc
  exact nonneg e (hp he)

/-- Leaving out what lies between two uses of one edge makes a walk no longer. -/
theorem Walk.exists_nodup (nonneg : ∀ e ∈ edges, 0 ≤ e.c) (walk : Walk edges s v p) :
    ∃ q, Walk edges s v q ∧ q.Nodup ∧ weight q ≤ weight p := by
  induction walk with
  | nil => exact ⟨[], .nil, List.nodup_nil, le_rfl⟩
  | @extend e p walk he ih =>
      obtain ⟨q, hq, hnodup, hle⟩ := ih
      by_cases hmem : e ∈ q
      · obtain ⟨later, earlier, rfl⟩ := List.append_of_mem hmem
        refine ⟨e :: earlier, hq.upTo, (List.nodup_append.mp hnodup).2.1, ?_⟩
        have hlater : 0 ≤ weight later :=
          weight_nonneg nonneg fun f hf => hq.subset (List.mem_append_left _ hf)
        calc weight (e :: earlier) ≤ weight later + weight (e :: earlier) :=
              le_add_of_nonneg_left hlater
          _ = weight (later ++ e :: earlier) := by simp [weight]
          _ ≤ weight p := hle
          _ ≤ e.c + weight p := le_add_of_nonneg_left (nonneg e he)
      · exact ⟨e :: q, .extend hq he, List.nodup_cons.mpr ⟨hmem, hnodup⟩, by
          rw [weight_cons, weight_cons]
          gcongr⟩

/-- A walk without a repeated edge is no longer than all edges together. -/
theorem weight_le_of_nodup (nonneg : ∀ e ∈ edges, 0 ≤ e.c) (nodup : p.Nodup) (hp : p ⊆ edges) :
    weight p ≤ weight edges := by
  obtain ⟨q, hperm, hsublist⟩ := nodup.subperm hp
  rw [weight, ← (hperm.map Edge.c).sum_eq]
  refine (hsublist.map Edge.c).sum_le_sum fun c hc => ?_
  obtain ⟨e, he, rfl⟩ := List.mem_map.mp hc
  exact nonneg e he

end Walks

section Rounds

variable [DecidableEq V] [AddCommMonoid K] [LinearOrder K]

/-- The values before the first round. -/
def initial (s : V) (sentinel : K) (v : V) : K := if v = s then 0 else sentinel

/-- The values after `k` rounds. -/
def rounds (edges : List (Edge V K)) (k : ℕ) (best : V → K) : V → K := (relax edges)^[k] best

variable {edges : List (Edge V K)} {best : V → K} {s v : V} {sentinel : K} {k m : ℕ}

@[simp] theorem rounds_zero : rounds edges 0 best = best := rfl

theorem rounds_succ : rounds edges (k + 1) best = relax edges (rounds edges k best) :=
  Function.iterate_succ_apply' _ _ _

theorem rounds_rounds : rounds edges k (rounds edges m best) = rounds edges (k + m) best :=
  (Function.iterate_add_apply _ _ _ _).symm

theorem rounds_le_rounds (best : V → K) (v : V) (hk : k ≤ m) :
    rounds edges m best v ≤ rounds edges k best v := by
  induction m, hk using Nat.le_induction with
  | base => exact le_rfl
  | succ m hk ih =>
      rw [rounds_succ]
      exact relax_le.trans ih

/-- Where a round changes nothing no later one does. -/
theorem rounds_eq_of_fixed (hfixed : relax edges (rounds edges k best) = rounds edges k best)
    (hk : k ≤ m) : rounds edges m best = rounds edges k best := by
  induction m, hk using Nat.le_induction with
  | base => rfl
  | succ m hk ih => rw [rounds_succ, ih, hfixed]

/-- Rounds look at all walks of their number. -/
theorem rounds_le_weight {p : List (Edge V K)} (walk : Walk edges s v p) (hk : p.length ≤ k)
    [IsOrderedAddMonoid K] : rounds edges k (initial s sentinel) v ≤ weight p := by
  induction walk generalizing k with
  | nil =>
      refine (rounds_le_rounds (initial s sentinel) s (Nat.zero_le k)).trans ?_
      rw [rounds_zero, initial, if_pos rfl, weight_nil]
  | @extend e p walk he ih =>
      obtain ⟨k, rfl⟩ : ∃ j, k = j + 1 := ⟨k - 1, by rw [List.length_cons] at hk; omega⟩
      rw [rounds_succ, weight_cons, add_comm]
      refine (relax_le_of_mem he).trans ?_
      gcongr
      exact ih (Nat.le_of_succ_le_succ hk)

theorem rounds_le_sentinel (hsentinel : 0 ≤ sentinel) :
    rounds edges k (initial s sentinel) v ≤ sentinel := by
  refine (rounds_le_rounds (initial s sentinel) v (Nat.zero_le k)).trans ?_
  rw [rounds_zero, initial]
  split
  · exact hsentinel
  · exact le_rfl

variable [IsOrderedAddMonoid K]

/-- A value below the sentinel is the weight of a walk. -/
theorem rounds_eq_or_walk (hsentinel : 0 ≤ sentinel) (nonneg : ∀ e ∈ edges, 0 ≤ e.c) (k : ℕ)
    (v : V) : rounds edges k (initial s sentinel) v = sentinel ∨
      ∃ p, Walk edges s v p ∧ weight p = rounds edges k (initial s sentinel) v := by
  induction k generalizing v with
  | zero =>
      rw [rounds_zero, initial]
      split
      · rename_i heq
        exact Or.inr ⟨[], heq ▸ .nil, rfl⟩
      · exact Or.inl rfl
  | succ k ih =>
      have hle : rounds edges (k + 1) (initial s sentinel) v ≤ sentinel :=
        rounds_le_sentinel hsentinel
      rw [rounds_succ] at hle ⊢
      obtain heq | ⟨e, he, rfl, heq⟩ := relax_eq_or edges (rounds edges k (initial s sentinel)) v
      · rw [heq]
        exact ih v
      · rw [heq] at hle ⊢
        obtain hfar | ⟨p, walk, hweight⟩ := ih e.u
        · rw [hfar] at hle ⊢
          exact Or.inl (le_antisymm hle (le_add_of_nonneg_right (nonneg e he)))
        · exact Or.inr ⟨e :: p, .extend walk he, by rw [weight_cons, hweight, add_comm]⟩

/-- After as many rounds as there are edges nothing changes. -/
theorem rounds_eq_rounds_length (hsentinel : 0 ≤ sentinel) (nonneg : ∀ e ∈ edges, 0 ≤ e.c)
    (hk : edges.length ≤ k) :
    rounds edges k (initial s sentinel) = rounds edges edges.length (initial s sentinel) := by
  funext v
  refine le_antisymm (rounds_le_rounds _ v hk) ?_
  obtain heq | ⟨p, walk, hweight⟩ := rounds_eq_or_walk (s := s) hsentinel nonneg k v
  · rw [heq]
    exact rounds_le_sentinel hsentinel
  · obtain ⟨q, hq, hnodup, hle⟩ := walk.exists_nodup nonneg
    rw [← hweight]
    exact (rounds_le_weight hq (hnodup.subperm hq.subset).length_le).trans hle

/-- Values that a round does not change are the distances. -/
theorem isDistance_of_fixed (nonneg : ∀ e ∈ edges, 0 ≤ e.c) (total : weight edges < sentinel)
    (hfixed : relax edges (rounds edges k (initial s sentinel)) =
      rounds edges k (initial s sentinel)) (v : V) :
    IsDistance edges s sentinel v (rounds edges k (initial s sentinel) v) := by
  have hsentinel : 0 ≤ sentinel :=
    (weight_nonneg nonneg (List.Subset.refl edges)).trans total.le
  have hleast : ∀ p, Walk edges s v p →
      rounds edges k (initial s sentinel) v ≤ weight p := by
    intro p walk
    rw [← rounds_eq_of_fixed hfixed (Nat.le_max_left k p.length)]
    exact rounds_le_weight walk (Nat.le_max_right k p.length)
  obtain heq | hwalk := rounds_eq_or_walk (s := s) hsentinel nonneg k v
  · refine Or.inr ⟨fun p walk => ?_, heq⟩
    obtain ⟨q, hq, hnodup, -⟩ := walk.exists_nodup nonneg
    have hfar : sentinel ≤ weight q := heq ▸ hleast q hq
    exact absurd total (not_lt_of_ge (hfar.trans (weight_le_of_nodup nonneg hnodup hq.subset)))
  · refine Or.inl ⟨hwalk, fun w hw => ?_⟩
    obtain ⟨p, walk, rfl⟩ := hw
    exact hleast p walk

end Rounds

end Explore.BellmanFord
