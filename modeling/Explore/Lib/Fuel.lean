import Mathlib.Order.Lattice

/-!
# Loops with a bound on their rounds

A loop without a bound of its own is given one, and reports a fault of its own
when it is used up. `Settles` says what the loop does without the bound: every
bound either is used up or gives the same outcome, and a large enough bound gives
it. A loop that never ends settles to the fault itself.
-/

namespace Explore

universe u

variable {α β ε : Type u} {outOfFuel : ε}

/-- The computation `f`, given enough fuel, ends in `r`. -/
def Settles (outOfFuel : ε) (f : ℕ → Except ε α) (r : Except ε α) : Prop :=
  (∀ fuel, f fuel = .error outOfFuel ∨ f fuel = r) ∧ ∃ enough, ∀ fuel ≥ enough, f fuel = r

namespace Settles

variable {f : ℕ → Except ε α} {r r' : Except ε α}

theorem const (r : Except ε α) : Settles outOfFuel (fun _ => r) r :=
  ⟨fun _ => Or.inr rfl, 0, fun _ _ => rfl⟩

/-- A computation that uses up every bound. -/
theorem never (h : ∀ fuel, f fuel = .error outOfFuel) : Settles outOfFuel f (.error outOfFuel) :=
  ⟨fun fuel => Or.inl (h fuel), 0, fun fuel _ => h fuel⟩

theorem congr {g : ℕ → Except ε α} (h : Settles outOfFuel f r) (hg : ∀ fuel, g fuel = f fuel) :
    Settles outOfFuel g r := by
  rwa [show g = f from funext hg]

theorem bind {g : ℕ → α → Except ε β} {a : α} {s : Except ε β}
    (h : Settles outOfFuel f (.ok a)) (hg : Settles outOfFuel (fun fuel => g fuel a) s) :
    Settles outOfFuel (fun fuel => f fuel >>= g fuel) s := by
  obtain ⟨hf, enough, henough⟩ := h
  obtain ⟨hg, enough', henough'⟩ := hg
  refine ⟨fun fuel => ?_, max enough enough', fun fuel hfuel => ?_⟩ <;> dsimp only
  · obtain hout | hok := hf fuel
    · exact Or.inl (by rw [hout]; rfl)
    · rw [hok]
      exact hg fuel
  · rw [henough fuel (le_trans (le_max_left ..) hfuel)]
    exact henough' fuel (le_trans (le_max_right ..) hfuel)

theorem bind_error {g : ℕ → α → Except ε β} {e : ε} (h : Settles outOfFuel f (.error e)) :
    Settles outOfFuel (fun fuel => f fuel >>= g fuel) (.error e) := by
  obtain ⟨hf, enough, henough⟩ := h
  refine ⟨fun fuel => ?_, enough, fun fuel hfuel => ?_⟩ <;> dsimp only
  · obtain hout | herror := hf fuel
    · exact Or.inl (by rw [hout]; rfl)
    · exact Or.inr (by rw [herror]; rfl)
  · rw [henough fuel hfuel]
    rfl

/-- Some bound gives a result if and only if the computation settles to one. -/
theorem exists_ok_iff (h : Settles outOfFuel f r) :
    (∃ fuel a, f fuel = .ok a) ↔ ∃ a, r = .ok a := by
  obtain ⟨hf, enough, henough⟩ := h
  constructor
  · rintro ⟨fuel, a, hok⟩
    obtain hout | hr := hf fuel
    · rw [hok] at hout
      cases hout
    · exact ⟨a, hr.symm.trans hok⟩
  · rintro ⟨a, rfl⟩
    exact ⟨enough, a, henough enough (Nat.le_refl _)⟩

/-- No bound gives a fault if and only if the computation does not settle to it. -/
theorem forall_ne_error_iff {e : ε} (h : Settles outOfFuel f r) (he : e ≠ outOfFuel) :
    (∀ fuel, f fuel ≠ .error e) ↔ r ≠ .error e := by
  obtain ⟨hf, enough, henough⟩ := h
  constructor
  · rintro hne rfl
    exact hne enough (henough enough (Nat.le_refl _))
  · intro hne fuel herror
    obtain hout | hr := hf fuel
    · rw [herror] at hout
      exact he (Except.error.inj hout)
    · exact hne (hr.symm.trans herror)

/-- A result at any bound is the one the computation settles to. -/
theorem eq_of_ok (h : Settles outOfFuel f r) {fuel : ℕ} {a : α} (hok : f fuel = .ok a) :
    r = .ok a := by
  obtain hout | hr := h.1 fuel
  · rw [hok] at hout
    cases hout
  · exact hr.symm.trans hok

end Settles

end Explore
