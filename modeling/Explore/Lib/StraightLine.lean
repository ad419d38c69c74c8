import Mathlib.Data.List.Basic
import Mathlib.Tactic.Common

/-!
# Straight-line code

Code is a list of instructions, of which each may fail. Two kinds of statements about it are
combined by the rules below. `Refines` says that the code does, on represented states, what a
function does: when the function has a result, the code ends in a state that represents it.
`Checks` is about the runs that there are: every instruction finds a state that meets a
condition, and the last one leads to a state that meets the postcondition.
-/

namespace Explore.StraightLine

universe u v w

variable {ι : Type u} {σ : Type v} {α β γ δ : Type w} {step : σ → ι → Option σ}

/-- The code ends whenever `f` has a result, in a state that represents the result. -/
def Refines (step : σ → ι → Option σ) (rep : α → σ → Prop) (f : α → Option β) (code : List ι)
    (rep' : β → σ → Prop) : Prop :=
  ∀ a b s, rep a s → f a = some b → ∃ s', code.foldlM step s = some s' ∧ rep' b s'

namespace Refines

variable {rep : α → σ → Prop} {rep' : β → σ → Prop} {rep'' : γ → σ → Prop} {f : α → Option β}
  {g : β → Option γ} {code code' : List ι}

theorem skip (rep : α → σ → Prop) : Refines step rep some [] rep := by
  intro a b s hs hf
  obtain rfl := Option.some.inj hf
  exact ⟨s, rfl, hs⟩

theorem seq (first : Refines step rep f code rep') (second : Refines step rep' g code' rep'') :
    Refines step rep (fun a => (f a).bind g) (code ++ code') rep'' := by
  intro a c s hs hfg
  obtain ⟨b, hf, hg⟩ := Option.bind_eq_some_iff.mp hfg
  obtain ⟨mid, hcode, hmid⟩ := first a b s hs hf
  obtain ⟨s', hcode', hrep⟩ := second b c mid hmid hg
  refine ⟨s', ?_, hrep⟩
  rw [List.foldlM_append, hcode]
  exact hcode'

/-- A loop whose body refines one step, from one position of the list to the next. -/
theorem loop {rep : ℕ → α → σ → Prop} {f : α → δ → Option α} {body : δ → List ι} {xs : List δ}
    (h : ∀ i x, xs[i]? = some x → Refines step (rep i) (f · x) (body x) (rep (i + 1))) :
    Refines step (rep 0) (xs.foldlM f) (xs.flatMap body) (rep xs.length) := by
  induction xs generalizing rep with
  | nil => exact skip _
  | cons x xs ih =>
      intro a b s hs hf
      have hfirst := h 0 x List.getElem?_cons_zero
      have hrest := @ih (fun i => rep (i + 1)) fun i y hy =>
        h (i + 1) y (by rw [List.getElem?_cons_succ]; exact hy)
      apply (hfirst.seq hrest) a b s hs
      exact List.foldlM_cons.symm.trans hf

end Refines

/-- Every instruction of a run from `s` finds a state that meets `ok`. -/
def Along (step : σ → ι → Option σ) (ok : σ → ι → Prop) : σ → List ι → Prop
  | _, [] => True
  | s, i :: code => ok s i ∧ ∀ s', step s i = some s' → Along step ok s' code

/-- What holds along code holds along its end. -/
theorem Along.of_append {ok : σ → ι → Prop} {code code' : List ι} {s s' : σ}
    (h : Along step ok s (code ++ code')) (hrun : code.foldlM step s = some s') :
    Along step ok s' code' := by
  induction code generalizing s with
  | nil =>
      obtain rfl := Option.some.inj hrun
      exact h
  | cons i code ih =>
      rw [List.foldlM_cons] at hrun
      obtain ⟨mid, hmid, hrest⟩ := Option.bind_eq_some_iff.mp hrun
      exact ih (h.2 mid hmid) hrest

/-- Every run of the code from a state in `pre` meets `ok` at each instruction, and ends
in `post`. -/
def Checks (step : σ → ι → Option σ) (ok : σ → ι → Prop) (pre : σ → Prop) (code : List ι)
    (post : σ → Prop) : Prop :=
  ∀ s s', pre s → code.foldlM step s = some s' → Along step ok s code ∧ post s'

namespace Checks

variable {ok : σ → ι → Prop} {pre mid post : σ → Prop} {code code' : List ι}

theorem skip (pre : σ → Prop) : Checks step ok pre [] pre := by
  intro s s' hs hrun
  obtain rfl := Option.some.inj hrun
  exact ⟨trivial, hs⟩

theorem along_append {s : σ} (first : Along step ok s code)
    (second : ∀ s', code.foldlM step s = some s' → Along step ok s' code') :
    Along step ok s (code ++ code') := by
  induction code generalizing s with
  | nil => exact second s rfl
  | cons i code ih =>
      refine ⟨first.1, fun s' hs' => ih (first.2 s' hs') fun s'' hs'' => second s'' ?_⟩
      rw [List.foldlM_cons, hs']
      exact hs''

theorem seq (first : Checks step ok pre code mid) (second : Checks step ok mid code' post) :
    Checks step ok pre (code ++ code') post := by
  intro s s' hs hrun
  rw [List.foldlM_append] at hrun
  obtain ⟨t, hcode, hcode'⟩ := Option.bind_eq_some_iff.mp hrun
  obtain ⟨hfirst, hmid⟩ := first s t hs hcode
  obtain ⟨-, hpost⟩ := second t s' hmid hcode'
  refine ⟨along_append hfirst fun t' ht' => ?_, hpost⟩
  obtain rfl := Option.some.inj (hcode.symm.trans ht')
  exact (second t s' hmid hcode').1

/-- Instructions that keep a condition, which is enough for each of them. -/
theorem of_kept (keeps : ∀ i ∈ code, ∀ s s', pre s → step s i = some s' → pre s')
    (enough : ∀ i ∈ code, ∀ s, pre s → ok s i) : Checks step ok pre code pre := by
  induction code with
  | nil => exact skip pre
  | cons i code ih =>
      obtain ⟨hi, hkeeps⟩ := List.forall_mem_cons.mp keeps
      obtain ⟨hok, henough⟩ := List.forall_mem_cons.mp enough
      intro s s' hs hrun
      rw [List.foldlM_cons] at hrun
      obtain ⟨t, ht, hrest⟩ := Option.bind_eq_some_iff.mp hrun
      have hcode := ih hkeeps henough
      refine ⟨⟨hok s hs, fun t' ht' => ?_⟩, (hcode t s' (hi s t hs ht) hrest).2⟩
      obtain rfl := Option.some.inj (ht.symm.trans ht')
      exact (hcode t s' (hi s t hs ht) hrest).1

/-- Code that nothing is asked of, and that is known to end in `post`. -/
theorem of_ends (enough : ∀ i ∈ code, ∀ s, ok s i)
    (ends : ∀ s, pre s → ∃ s', code.foldlM step s = some s' ∧ post s') :
    Checks step ok pre code post := by
  intro s s' hs hrun
  obtain ⟨t, ht, hpost⟩ := ends s hs
  obtain rfl := Option.some.inj (ht.symm.trans hrun)
  refine ⟨?_, hpost⟩
  have hany : Checks step ok (fun _ => True) code fun _ => True :=
    of_kept (fun _ _ _ _ _ _ => trivial) fun i hi s _ => enough i hi s
  exact (hany s t trivial hrun).1

end Checks

end Explore.StraightLine
