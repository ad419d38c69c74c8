import Mathlib.Data.List.Forall2

/-!
# Partial and total correctness of computations that may fail

`Meets ok o Q` says that a result of `o` satisfies `Q`, and that `o` has a result when
`ok` holds. With `ok` false it is partial correctness, with `ok` true total
correctness; a proof by the rules below gives both at once.
-/

namespace Explore

universe u

variable {α β σ : Type u} {ok : Prop}

/-- The outcome `o` fails only if `ok` does, and otherwise satisfies `Q`. -/
def Meets (ok : Prop) (o : Option α) (Q : α → Prop) : Prop :=
  match o with
  | none => ¬ ok
  | some a => Q a

namespace Meets

variable {o : Option α} {Q R : α → Prop}

theorem mono (h : Meets ok o Q) (hQR : ∀ a, Q a → R a) : Meets ok o R := by
  cases o with
  | none => exact h
  | some a => exact hQR a h

theorem bind {f : α → Option β} {P : β → Prop} (h : Meets ok o Q)
    (hf : ∀ a, Q a → Meets ok (f a) P) : Meets ok (o >>= f) P := by
  cases o with
  | none => exact h
  | some a => exact hf a h

/-- A computation that is done in one of two ways and then goes on. -/
theorem ite_bind {c : Prop} [Decidable c] {o' : Option α} {f : α → Option β} {P : β → Prop}
    (h : Meets ok (if c then o else o') Q) (hf : ∀ a, Q a → Meets ok (f a) P) :
    Meets ok (if c then o >>= f else o' >>= f) P := by
  by_cases hc : c
  · rw [if_pos hc] at h ⊢
    exact bind h hf
  · rw [if_neg hc] at h ⊢
    exact bind h hf

/-- The postcondition of a result. -/
theorem of_eq_some {a : α} (h : Meets ok o Q) (ho : o = some a) : Q a := by
  subst ho
  exact h

theorem exists_of_ok (h : Meets ok o Q) (hok : ok) : ∃ a, o = some a ∧ Q a := by
  cases o with
  | none => exact absurd hok h
  | some a => exact ⟨a, rfl, h⟩

/-- A computation that is known to have a result. -/
theorem of_some {a : α} (ho : o = some a) (h : Q a) : Meets ok o Q := by
  subst ho
  exact h

theorem of_forall (h : ∀ a, o = some a → Q a) (hok : ok → o.isSome) : Meets ok o Q := by
  cases o with
  | none => exact fun hk => by simpa using hok hk
  | some a => exact h a rfl

/-- A loop keeps an invariant that also speaks of the elements still to come. -/
theorem foldlM {f : σ → α → Option σ} (inv : List α → σ → Prop)
    (step : ∀ x xs s, inv (x :: xs) s → Meets ok (f s x) (inv xs)) :
    ∀ (xs : List α) (s : σ), inv xs s → Meets ok (xs.foldlM f s) (inv [])
  | [], _, h => h
  | x :: xs, s, h => by
      rw [List.foldlM_cons]
      exact bind (step x xs s h) fun s' h' => foldlM inv step xs s' h'

/-- A loop that collects results, each with its own postcondition. -/
theorem mapM {f : α → Option β} {P : α → β → Prop} :
    ∀ {xs : List α}, (∀ x ∈ xs, Meets ok (f x) (P x)) →
      Meets ok (xs.mapM f) (List.Forall₂ P xs)
  | [], _ => .nil
  | x :: xs, h => by
      rw [List.mapM_cons]
      refine bind (h x List.mem_cons_self) fun y hy => ?_
      refine bind (mapM fun x' hx' => h x' (List.mem_cons_of_mem _ hx')) fun ys hys => ?_
      exact .cons hy hys

end Meets

/-- A loop that collects results none of which fails. -/
theorem mapM_eq_map {f : α → Option β} {g : α → β} {xs : List α}
    (h : ∀ x ∈ xs, f x = some (g x)) : xs.mapM f = some (xs.map g) := by
  induction xs with
  | nil => rfl
  | cons x xs ih =>
      rw [List.mapM_cons, h x List.mem_cons_self, ih fun y hy => h y (List.mem_cons_of_mem x hy)]
      rfl

theorem mapM_congr {f g : α → Option β} {xs : List α} (h : ∀ x ∈ xs, f x = g x) :
    xs.mapM f = xs.mapM g := by
  induction xs with
  | nil => rfl
  | cons x xs ih =>
      rw [List.mapM_cons, List.mapM_cons, h x List.mem_cons_self,
        ih fun y hy => h y (List.mem_cons_of_mem x hy)]

/-- The results of a loop that collects results, one for each element. -/
theorem forall₂_of_mapM {f : α → Option β} {xs : List α} {ys : List β}
    (h : xs.mapM f = some ys) : List.Forall₂ (fun x y => f x = some y) xs ys := by
  induction xs generalizing ys with
  | nil =>
      obtain rfl := Option.some.inj h
      exact .nil
  | cons x xs ih =>
      rw [List.mapM_cons] at h
      obtain ⟨y, hy, h⟩ := Option.bind_eq_some_iff.mp h
      obtain ⟨ys, hys, hret⟩ := Option.bind_eq_some_iff.mp h
      obtain rfl := Option.some.inj hret
      exact .cons hy (ih hys)

/-- What is known of each result of a loop that collects results, as a list. -/
theorem map_of_mapM {γ : Type u} {f : α → Option β} {g : β → γ} {k : α → γ} {xs : List α}
    {ys : List β} (h : xs.mapM f = some ys) (hk : ∀ x y, f x = some y → g y = k x) :
    ys.map g = xs.map k := by
  have hall := forall₂_of_mapM h
  clear h
  induction hall with
  | nil => rfl
  | cons hxy _ ih => rw [List.map_cons, List.map_cons, hk _ _ hxy, ih]

/-- Every result of a loop that collects results comes from one element. -/
theorem exists_of_mem_mapM {f : α → Option β} {xs : List α} {ys : List β}
    (h : xs.mapM f = some ys) {y : β} (hy : y ∈ ys) : ∃ x ∈ xs, f x = some y := by
  obtain ⟨i, hi, rfl⟩ := List.getElem_of_mem hy
  obtain ⟨hlength, hget⟩ := List.forall₂_iff_get.mp (forall₂_of_mapM h)
  exact ⟨_, List.get_mem xs ⟨i, hlength ▸ hi⟩, hget i (hlength ▸ hi) hi⟩

/-- The result of a loop that collects results at a position. -/
theorem getElem?_of_mapM {f : α → Option β} {xs : List α} {ys : List β} {i : ℕ} {x : α}
    (h : xs.mapM f = some ys) (hx : xs[i]? = some x) : ∃ y, ys[i]? = some y ∧ f x = some y := by
  obtain ⟨hi, rfl⟩ := List.getElem?_eq_some_iff.mp hx
  obtain ⟨hlength, hget⟩ := List.forall₂_iff_get.mp (forall₂_of_mapM h)
  exact ⟨_, List.getElem?_eq_getElem (hlength ▸ hi), hget i hi (hlength ▸ hi)⟩

/-- A loop whose results are changed by a function. -/
theorem mapM_map_result {γ : Type u} (f : α → Option β) (g : β → γ) (xs : List α) :
    (xs.mapM fun x => (f x).map g) = (xs.mapM f).map (List.map g) := by
  induction xs with
  | nil => rfl
  | cons x xs ih =>
      rw [List.mapM_cons, List.mapM_cons, ih]
      cases f x with
      | none => rfl
      | some y => cases xs.mapM f <;> rfl

/-- A loop over lists one after the other. -/
theorem mapM_flatMap {γ : Type u} (f : α → Option β) (g : γ → List α) (xs : List γ) :
    (xs.flatMap g).mapM f = (xs.mapM fun x => (g x).mapM f).map List.flatten := by
  induction xs with
  | nil => rfl
  | cons x xs ih =>
      rw [List.flatMap_cons, List.mapM_append, ih, List.mapM_cons]
      cases (g x).mapM f with
      | none => rfl
      | some ys =>
          cases xs.mapM fun x => (g x).mapM f with
          | none => rfl
          | some yss => rfl

/-- A loop that collects results, in another order. -/
theorem mapM_perm {f : α → Option β} {xs xs' : List α} {ys : List β} (perm : xs.Perm xs')
    (h : xs.mapM f = some ys) : ∃ ys', xs'.mapM f = some ys' ∧ ys.Perm ys' := by
  induction perm generalizing ys with
  | nil => exact ⟨ys, h, .refl _⟩
  | cons x _ ih =>
      rw [List.mapM_cons] at h
      obtain ⟨y, hy, h⟩ := Option.bind_eq_some_iff.mp h
      obtain ⟨ys, hys, hret⟩ := Option.bind_eq_some_iff.mp h
      obtain rfl := Option.some.inj hret
      obtain ⟨ys', hys', hperm⟩ := ih hys
      exact ⟨y :: ys', by rw [List.mapM_cons, hy, hys']; rfl, hperm.cons y⟩
  | swap x x' xs =>
      rw [List.mapM_cons, List.mapM_cons] at h
      obtain ⟨y', hy', h⟩ := Option.bind_eq_some_iff.mp h
      obtain ⟨rest, hrest, hret⟩ := Option.bind_eq_some_iff.mp h
      obtain ⟨y, hy, hrest⟩ := Option.bind_eq_some_iff.mp hrest
      obtain ⟨ys, hys, hret'⟩ := Option.bind_eq_some_iff.mp hrest
      obtain rfl := Option.some.inj hret'
      obtain rfl := Option.some.inj hret
      exact ⟨y :: y' :: ys, by rw [List.mapM_cons, List.mapM_cons, hy, hy', hys]; rfl,
        .swap y y' ys⟩
  | trans _ _ ih ih' =>
      obtain ⟨ys', hys', hperm⟩ := ih h
      obtain ⟨ys'', hys'', hperm'⟩ := ih' hys'
      exact ⟨ys'', hys'', hperm.trans hperm'⟩

end Explore
