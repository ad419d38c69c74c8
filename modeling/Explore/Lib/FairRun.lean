import Mathlib.Order.WellFounded

/-!
# Fair runs that make progress

A run gives turns to agents. If every turn of an unfinished agent decreases a
measure, and every other turn changes nothing, then a run that keeps giving turns
to each agent reaches a state where all are finished.
-/

namespace Explore.FairRun

variable {σ ι : Type*}

/-- What the turns of a run do: decrease the measure, or nothing for an agent that
is finished. -/
def Progress (state : ℕ → σ) (turn : ℕ → ι) (finished : σ → ι → Prop) (measure : σ → ℕ) : Prop :=
  ∀ n, measure (state (n + 1)) < measure (state n) ∨
    state (n + 1) = state n ∧ finished (state n) (turn n)

/-- Where the measure is least the run stands still. -/
theorem Progress.stable {state : ℕ → σ} {turn : ℕ → ι} {finished : σ → ι → Prop}
    {measure : σ → ℕ} (h : Progress state turn finished measure) {n : ℕ}
    (least : ∀ m, measure (state n) ≤ measure (state m)) (k : ℕ) : state (n + k) = state n := by
  induction k with
  | zero => rfl
  | succ k ih =>
      obtain hless | ⟨hsame, -⟩ := h (n + k)
      · have := least (n + k + 1)
        rw [ih] at hless
        omega
      · exact hsame.trans ih

/-- A fair run finishes all agents. -/
theorem Progress.exists_finished {state : ℕ → σ} {turn : ℕ → ι} {finished : σ → ι → Prop}
    {measure : σ → ℕ} (h : Progress state turn finished measure) {agents : ι → Prop}
    (fair : ∀ i, agents i → ∀ n, ∃ m ≥ n, turn m = i) :
    ∃ n, ∀ i, agents i → finished (state n) i := by
  obtain ⟨n, least⟩ : ∃ n, ∀ m, measure (state n) ≤ measure (state m) :=
    ⟨Function.argmin fun n => measure (state n), fun m =>
      Function.argmin_le (fun n => measure (state n)) m⟩
  refine ⟨n, fun i hi => ?_⟩
  obtain ⟨m, hm, rfl⟩ := fair i hi n
  obtain ⟨k, rfl⟩ := Nat.exists_eq_add_of_le hm
  have hsame := h.stable least k
  obtain hless | ⟨-, hfinished⟩ := h (n + k)
  · have := least (n + k + 1)
    rw [hsame] at hless
    omega
  · rwa [hsame] at hfinished

end Explore.FairRun
