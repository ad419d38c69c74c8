import Mathlib.Data.List.Basic

/-!
# Running out of a resource

Two runs of one computation over states that use a resource of which there is a limited
amount. The second run needs `extra` more of it than the first, and fails where that is over
the limit. While the first run goes on, a failed second run is kept as `none`.
-/

namespace Explore.Capacity

variable {σ ρ α β : Type*} {limit : ℕ} {used : σ → ℕ} {R R' : σ → σ → Prop}
  {extra extra' : ℕ} {s start : σ} {m : Option σ}

/-- `m` corresponds to the state `s`, unless that would use more than the limit. -/
def Fits (limit : ℕ) (used : σ → ℕ) (R : σ → σ → Prop) (extra : ℕ) (s : σ) (m : Option σ) : Prop :=
  (∃ s', m = some s' ∧ R s s') ∨ (m = none ∧ limit < used s + extra)

/-- Where the first run succeeds, it has not freed any of the resource, and the second one has
the same result in a corresponding state. -/
def Follows (limit : ℕ) (used : σ → ℕ) (R : σ → σ → Prop) (extra : ℕ) (start : σ)
    (one many : Option (σ × α)) : Prop :=
  ∀ s a, one = some (s, a) → used start ≤ used s ∧
    ∃ m : Option σ, many = m.map (·, a) ∧ Fits limit used R extra s m

theorem Follows.pure (h : Fits limit used R extra s m) (a : α) :
    Follows limit used R extra s (some (s, a)) (m.bind fun s' => some (s', a)) := by
  intro s₁ b heq
  obtain ⟨rfl, rfl⟩ := Prod.mk.inj (Option.some.inj heq)
  refine ⟨Nat.le_refl _, m, ?_, h⟩
  cases m <;> rfl

theorem Follows.none (many : Option (σ × α)) : Follows limit used R extra s none many := by
  intro s₁ a heq
  simp at heq

/-- One step after another. -/
theorem Follows.bind {one : Option (σ × α)} {run : σ → Option (σ × α)}
    {f g : σ × α → Option (σ × β)}
    (h : Follows limit used R extra start one (m.bind run))
    (next : ∀ s a m, Fits limit used R extra s m →
      Follows limit used R' extra' s (f (s, a)) (m.bind fun s' => g (s', a))) :
    Follows limit used R' extra' start (one.bind f) (m.bind fun s' => (run s').bind g) := by
  intro s₂ b heq
  obtain ⟨⟨s₁, a⟩, hone, hf⟩ := Option.bind_eq_some_iff.mp heq
  obtain ⟨hle, m₁, hrun, hfits⟩ := h s₁ a hone
  obtain ⟨hle', m₂, hmany, hfits'⟩ := next s₁ a m₁ hfits s₂ b hf
  refine ⟨Nat.le_trans hle hle', m₂, ?_, hfits'⟩
  rw [← hmany, ← Option.bind_assoc, hrun, Option.bind_map]
  rfl

/-- Both runs read the same value. -/
theorem Follows.read {read : σ → Option ρ} {f : ρ → Option (σ × α)} {g : σ → ρ → Option (σ × α)}
    (h : Fits limit used R extra s m) (hread : ∀ s', R s s' → read s' = read s)
    (next : ∀ r, read s = some r →
      Follows limit used R' extra' s (f r) (m.bind fun s' => g s' r)) :
    Follows limit used R' extra' s ((read s).bind f)
      (m.bind fun s' => (read s').bind (g s')) := by
  intro s₁ a heq
  obtain ⟨r, hr, hf⟩ := Option.bind_eq_some_iff.mp heq
  obtain ⟨hle, m', hmany, hfits⟩ := next r hr s₁ a hf
  refine ⟨hle, m', ?_, hfits⟩
  rw [← hmany]
  obtain ⟨s', rfl, hrel⟩ | ⟨rfl, -⟩ := h
  · change (read s').bind (g s') = g s' r
    rw [hread s' hrel, hr]
    rfl
  · rfl

/-- A check that depends on neither state. -/
theorem Follows.check {o : Option ρ} {f : ρ → Option (σ × α)} {g : σ → ρ → Option (σ × α)}
    (next : ∀ r, o = some r → Follows limit used R' extra' s (f r) (m.bind fun s' => g s' r)) :
    Follows limit used R' extra' s (o.bind f) (m.bind fun s' => o.bind (g s')) := by
  intro s₁ a heq
  obtain ⟨r, rfl, hf⟩ := Option.bind_eq_some_iff.mp heq
  exact next r rfl s₁ a hf

end Explore.Capacity
