import Mathlib.Data.List.Basic
import Mathlib.Data.List.Perm.Basic
import Mathlib.Logic.Function.Basic

/-!
# Reordering actions by what they read and write

The contents of a store give a value to the locations that exist. An action reads some
locations, which may depend on what it finds in others that it reads, and then writes.
Its footprint is what it read, with the values, and what it wrote. Two footprints clash
when one writes a location that the other touches. An action can be moved before others
that it does not clash with, each of which keeps its footprint, and actions that do not
clash do the same all at once as one after the other.
-/

namespace Explore

universe u v w

variable {α : Type u} {L : Type v} {V : Type w}

section Overwrite

variable [DecidableEq L] {σ τ : L → Option V} {ws ws' : List (L × V)} {l : L}

/-- The contents after some writes, the last one to a location being the one that counts. -/
def overwrite (σ : L → Option V) (ws : List (L × V)) : L → Option V :=
  ws.foldl (fun σ w => Function.update σ w.1 (some w.2)) σ

@[simp] theorem overwrite_nil (σ : L → Option V) : overwrite σ [] = σ := rfl

@[simp] theorem overwrite_cons (σ : L → Option V) (w : L × V) (ws : List (L × V)) :
    overwrite σ (w :: ws) = overwrite (Function.update σ w.1 (some w.2)) ws := rfl

theorem overwrite_append (σ : L → Option V) (ws ws' : List (L × V)) :
    overwrite σ (ws ++ ws') = overwrite (overwrite σ ws) ws' := List.foldl_append

theorem overwrite_of_notMem (h : l ∉ ws.map Prod.fst) : overwrite σ ws l = σ l := by
  induction ws generalizing σ with
  | nil => rfl
  | cons w ws ih =>
      rw [List.map_cons, List.mem_cons, not_or] at h
      rw [overwrite_cons, ih h.2, Function.update_of_ne h.1]

/-- A location that is written does not depend on what it held. -/
theorem overwrite_congr (h : l ∈ ws.map Prod.fst ∨ σ l = τ l) :
    overwrite σ ws l = overwrite τ ws l := by
  induction ws generalizing σ τ with
  | nil =>
      obtain h | h := h
      · cases h
      · exact h
  | cons w ws ih =>
      rw [overwrite_cons, overwrite_cons]
      apply ih
      by_cases hw : l = w.1
      · subst hw
        exact .inr (by rw [Function.update_self, Function.update_self])
      · rw [List.map_cons, List.mem_cons] at h
        obtain (h | h) | h := h
        · exact absurd h hw
        · exact .inl h
        · exact .inr (by rw [Function.update_of_ne hw, Function.update_of_ne hw, h])

/-- A location that is written once. -/
theorem overwrite_of_mem {v : V} (distinct : (ws.map Prod.fst).Nodup) (h : (l, v) ∈ ws) :
    overwrite σ ws l = some v := by
  induction ws generalizing σ with
  | nil => cases h
  | cons w ws ih =>
      obtain ⟨hfirst, hrest⟩ := List.nodup_cons.mp distinct
      obtain rfl | h := List.mem_cons.mp h
      · rw [overwrite_cons, overwrite_of_notMem hfirst, Function.update_self]
      · exact ih hrest h

/-- Writes to the locations that some writes were made to hide these. -/
theorem overwrite_overwrite (same : ws.map Prod.fst = ws'.map Prod.fst) :
    overwrite (overwrite σ ws) ws' = overwrite σ ws' := by
  funext l
  apply overwrite_congr
  by_cases h : l ∈ ws'.map Prod.fst
  · exact .inl h
  · exact .inr (overwrite_of_notMem (same ▸ h))

/-- Writes to existing locations keep which locations exist. -/
theorem isSome_overwrite (exist : ∀ w ∈ ws, (σ w.1).isSome) :
    (overwrite σ ws l).isSome = (σ l).isSome := by
  induction ws generalizing σ with
  | nil => rfl
  | cons w ws ih =>
      have hupdate (l : L) : (Function.update σ w.1 (some w.2) l).isSome = (σ l).isSome := by
        by_cases hl : l = w.1
        · subst hl
          rw [Function.update_self, exist w List.mem_cons_self]
          rfl
        · rw [Function.update_of_ne hl]
      rw [overwrite_cons, ih fun w' hw' => ?_, hupdate]
      rw [hupdate]
      exact exist w' (List.mem_cons_of_mem w hw')

/-- Writes to different locations commute. -/
theorem overwrite_comm (apart : ∀ l ∈ ws.map Prod.fst, l ∉ ws'.map Prod.fst) :
    overwrite (overwrite σ ws) ws' = overwrite (overwrite σ ws') ws := by
  funext l
  by_cases h : l ∈ ws.map Prod.fst
  · rw [overwrite_of_notMem (apart l h)]
    exact overwrite_congr (.inl h)
  · rw [overwrite_of_notMem h]
    exact overwrite_congr (.inr (overwrite_of_notMem h))

/-- A location that one of some lists writes holds what that list writes. -/
theorem overwrite_flatten {before after : List (List (L × V))}
    (hbefore : ∀ vs ∈ before, l ∉ vs.map Prod.fst) (hafter : ∀ vs ∈ after, l ∉ vs.map Prod.fst) :
    overwrite σ (before ++ ws :: after).flatten l = overwrite σ ws l := by
  have hnot {vss : List (List (L × V))} (h : ∀ vs ∈ vss, l ∉ vs.map Prod.fst) :
      l ∉ vss.flatten.map Prod.fst := by
    intro hl
    obtain ⟨w, hw, hfst⟩ := List.mem_map.mp hl
    obtain ⟨vs, hvs, hw⟩ := List.mem_flatten.mp hw
    exact h vs hvs (List.mem_map.mpr ⟨w, hw, hfst⟩)
  rw [List.flatten_append, List.flatten_cons, overwrite_append, overwrite_append,
    overwrite_of_notMem (hnot hafter)]
  exact overwrite_congr (.inr (overwrite_of_notMem (hnot hbefore)))

/-- The order of lists of which at most one writes a location does not matter there. -/
theorem overwrite_perm {wss wss' : List (List (L × V))} (perm : wss.Perm wss')
    (single : wss.Pairwise fun vs ws => l ∉ vs.map Prod.fst ∨ l ∉ ws.map Prod.fst) :
    overwrite σ wss.flatten l = overwrite σ wss'.flatten l := by
  by_cases h : ∃ ws ∈ wss, l ∈ ws.map Prod.fst
  · obtain ⟨ws, hws, hl⟩ := h
    obtain ⟨before, after, rfl⟩ := List.append_of_mem hws
    obtain ⟨before', after', rfl⟩ := List.append_of_mem (perm.mem_iff.mp hws)
    obtain ⟨-, hrest, hbefore⟩ := List.pairwise_append.mp single
    have hbefore : ∀ vs ∈ before, l ∉ vs.map Prod.fst := fun vs hvs =>
      (hbefore vs hvs ws List.mem_cons_self).resolve_right (not_not.mpr hl)
    have hafter : ∀ vs ∈ after, l ∉ vs.map Prod.fst := fun vs hvs =>
      ((List.pairwise_cons.mp hrest).1 vs hvs).resolve_left (not_not.mpr hl)
    have hothers : (before' ++ after').Perm (before ++ after) :=
      (List.perm_middle.symm.trans (perm.symm.trans List.perm_middle)).cons_inv
    have hmem : ∀ vs ∈ before' ++ after', l ∉ vs.map Prod.fst := by
      intro vs hvs
      rcases List.mem_append.mp (hothers.mem_iff.mp hvs) with hvs | hvs
      · exact hbefore vs hvs
      · exact hafter vs hvs
    rw [overwrite_flatten hbefore hafter, overwrite_flatten
      (fun vs hvs => hmem vs (List.mem_append_left _ hvs))
      fun vs hvs => hmem vs (List.mem_append_right _ hvs)]
  · have hnot {vss : List (List (L × V))} (hsub : ∀ vs ∈ vss, vs ∈ wss) :
        l ∉ vss.flatten.map Prod.fst := by
      intro hl
      obtain ⟨w, hw, hfst⟩ := List.mem_map.mp hl
      obtain ⟨vs, hvs, hw⟩ := List.mem_flatten.mp hw
      exact h ⟨vs, hsub vs hvs, List.mem_map.mpr ⟨w, hw, hfst⟩⟩
    rw [overwrite_of_notMem (hnot fun _ => id),
      overwrite_of_notMem (hnot fun vs hvs => perm.mem_iff.mpr hvs)]

end Overwrite

/-- What actions read and write, given the contents they find. An action that fails
writes `none`. -/
structure Actions (α : Type u) (L : Type v) (V : Type w) where
  reads : α → (L → Option V) → List L
  writes : α → (L → Option V) → Option (List (L × V))
  determined : ∀ a σ τ, (∀ l ∈ reads a σ, τ l = σ l) →
    reads a τ = reads a σ ∧ writes a τ = writes a σ

/-- What an action read and wrote. -/
structure Footprint (L : Type v) (V : Type w) where
  reads : List (L × Option V)
  writes : List (L × V)

namespace Footprint

variable {f g : Footprint L V}

def Reads (f : Footprint L V) (l : L) : Prop := l ∈ f.reads.map Prod.fst

def Writes (f : Footprint L V) (l : L) : Prop := l ∈ f.writes.map Prod.fst

/-- One of the two writes a location that the other touches. -/
def Clash (f g : Footprint L V) : Prop :=
  ∃ l, f.Writes l ∧ (g.Reads l ∨ g.Writes l) ∨ g.Writes l ∧ f.Reads l

theorem Clash.symm (h : f.Clash g) : g.Clash f := by
  obtain ⟨l, ⟨hf, hg | hg⟩ | ⟨hg, hf⟩⟩ := h
  · exact ⟨l, .inr ⟨hf, hg⟩⟩
  · exact ⟨l, .inl ⟨hg, .inr hf⟩⟩
  · exact ⟨l, .inl ⟨hg, .inl hf⟩⟩

end Footprint

section Runs

variable [DecidableEq L] (A : Actions α L V)

/-- The action `a` leaves the footprint `f` on its way from `σ` to `τ`. -/
structure Fires (σ : L → Option V) (a : α) (f : Footprint L V) (τ : L → Option V) : Prop where
  reads : f.reads = (A.reads a σ).map fun l => (l, σ l)
  writes : A.writes a σ = some f.writes
  exist : ∀ w ∈ f.writes, (σ w.1).isSome
  result : τ = overwrite σ f.writes

/-- The actions of a list one after the other, each with its footprint. -/
inductive Runs : (L → Option V) → List (α × Footprint L V) → (L → Option V) → Prop
  | nil {σ : L → Option V} : Runs σ [] σ
  | cons {σ σ' τ : L → Option V} {a : α} {f : Footprint L V} {zs : List (α × Footprint L V)} :
      Fires A σ a f σ' → Runs σ' zs τ → Runs σ ((a, f) :: zs) τ

variable {A} {σ σ' τ : L → Option V} {a b : α} {f g : Footprint L V}
  {zs zs' before rest : List (α × Footprint L V)} {z : α × Footprint L V}

/-- An action finds the same where nothing that it reads has changed. -/
theorem Fires.congr (h : Fires A σ a f σ') (same : ∀ l, f.Reads l → τ l = σ l)
    (domain : ∀ l, (τ l).isSome = (σ l).isSome) : Fires A τ a f (overwrite τ f.writes) := by
  have hsame : ∀ l ∈ A.reads a σ, τ l = σ l := by
    intro l hl
    apply same
    rw [Footprint.Reads, h.reads, List.map_map]
    exact List.mem_map.mpr ⟨l, hl, rfl⟩
  obtain ⟨hreads, hwrites⟩ := A.determined a σ τ hsame
  refine ⟨?_, hwrites.trans h.writes, fun w hw => ?_, rfl⟩
  · rw [h.reads, hreads]
    exact List.map_congr_left fun l hl => by rw [hsame l hl]
  · rw [domain]
    exact h.exist w hw

/-- Two actions that do not clash can change places. -/
theorem Fires.swap (ha : Fires A σ a f σ') (hb : Fires A σ' b g τ) (apart : ¬ f.Clash g) :
    ∃ σ'', Fires A σ b g σ'' ∧ Fires A σ'' a f τ := by
  obtain rfl := ha.result
  obtain rfl := hb.result
  have hb' : Fires A σ b g (overwrite σ g.writes) := by
    refine hb.congr (fun l hl => (overwrite_of_notMem fun hw => ?_).symm) fun l => ?_
    · exact apart ⟨l, .inl ⟨hw, .inl hl⟩⟩
    · exact (isSome_overwrite ha.exist).symm
  have ha' := ha.congr (τ := overwrite σ g.writes)
    (fun l hl => overwrite_of_notMem fun hw => apart ⟨l, .inr ⟨hw, hl⟩⟩)
    fun l => isSome_overwrite hb'.exist
  refine ⟨_, hb', ?_⟩
  rwa [overwrite_comm fun l hl hl' => apart ⟨l, .inl ⟨hl, .inr hl'⟩⟩]

theorem Runs.eq_of_nil (h : Runs A σ [] τ) : τ = σ := by
  cases h
  rfl

theorem runs_append : Runs A σ (zs ++ zs') τ ↔ ∃ σ', Runs A σ zs σ' ∧ Runs A σ' zs' τ := by
  constructor
  · intro h
    induction zs generalizing σ with
    | nil => exact ⟨σ, .nil, h⟩
    | cons z zs ih =>
        cases h with
        | cons hz hrest =>
            obtain ⟨σ', hzs, hzs'⟩ := ih hrest
            exact ⟨σ', .cons hz hzs, hzs'⟩
  · rintro ⟨σ', hzs, hzs'⟩
    induction hzs with
    | nil => exact hzs'
    | cons hz _ ih => exact .cons hz (ih hzs')

/-- In a run every action fires. -/
theorem Runs.exists_fires (h : Runs A σ zs τ) : ∀ z ∈ zs, ∃ σ₁ σ₂, Fires A σ₁ z.1 z.2 σ₂ := by
  induction h with
  | nil => exact List.forall_mem_nil _
  | cons hz _ ih => exact List.forall_mem_cons.mpr ⟨⟨_, _, hz⟩, ih⟩

/-- An action moves before those that it does not clash with: one swap after the other,
from the last to the first. -/
theorem Runs.moveFront (h : Runs A σ (before ++ z :: rest) τ)
    (apart : ∀ y ∈ before, ¬ y.2.Clash z.2) : Runs A σ (z :: (before ++ rest)) τ := by
  induction before generalizing σ with
  | nil => exact h
  | cons y before ih =>
      obtain ⟨a, f⟩ := y
      obtain ⟨b, g⟩ := z
      obtain _ | ⟨hy, hrest⟩ := h
      obtain _ | ⟨hz, hrest⟩ := ih hrest fun y hy => apart y (List.mem_cons_of_mem _ hy)
      obtain ⟨σ'', hz', hy'⟩ := hy.swap hz (apart (a, f) List.mem_cons_self)
      exact .cons hz' (.cons hy' hrest)

/-- Actions that do not clash find at the start what they find in their turn, and all
their writes together lead to the same contents. -/
theorem Runs.atOnce (h : Runs A σ zs τ) (apart : zs.Pairwise fun y z => ¬ y.2.Clash z.2) :
    (∀ z ∈ zs, Fires A σ z.1 z.2 (overwrite σ z.2.writes)) ∧
      τ = overwrite σ (zs.flatMap fun z => z.2.writes) := by
  induction h with
  | nil => exact ⟨List.forall_mem_nil _, rfl⟩
  | @cons σ σ' τ a f zs hz _ ih =>
      obtain ⟨hfirst, hapart⟩ := List.pairwise_cons.mp apart
      obtain ⟨hfires, rfl⟩ := ih hapart
      obtain rfl := hz.result
      refine ⟨fun z hmem => ?_, ?_⟩
      · obtain rfl | hmem := List.mem_cons.mp hmem
        · exact hz
        · refine (hfires z hmem).congr (fun l hl => ?_) fun l => (isSome_overwrite hz.exist).symm
          refine (overwrite_of_notMem fun hw => ?_).symm
          exact hfirst z hmem ⟨l, .inl ⟨hw, .inl hl⟩⟩
      · rw [List.flatMap_cons, overwrite_append]

/-- Actions that find at the start what they need and do not clash can be done one after
the other. -/
theorem Runs.together (h : ∀ z ∈ zs, Fires A σ z.1 z.2 (overwrite σ z.2.writes))
    (apart : zs.Pairwise fun y z => ¬ y.2.Clash z.2) :
    Runs A σ zs (overwrite σ (zs.flatMap fun z => z.2.writes)) := by
  induction zs generalizing σ with
  | nil => exact .nil
  | cons z zs ih =>
      obtain ⟨hfirst, hapart⟩ := List.pairwise_cons.mp apart
      obtain ⟨hz, hzs⟩ := List.forall_mem_cons.mp h
      rw [List.flatMap_cons, overwrite_append]
      refine .cons hz (ih (fun y hy => ?_) hapart)
      refine (hzs y hy).congr (fun l hl => overwrite_of_notMem fun hw => ?_) fun l =>
        isSome_overwrite hz.exist
      exact hfirst y hy ⟨l, .inl ⟨hw, .inl hl⟩⟩

end Runs

section Reorders

variable {β : Type u} {clash : β → β → Prop} {l l' : List β}

/-- `l'` takes the elements of `l` one after the other, each past those that it does not
clash with. -/
inductive Reorders (clash : β → β → Prop) : List β → List β → Prop
  | nil : Reorders clash [] []
  | cons {before rest l' : List β} {x : β} : (∀ y ∈ before, ¬ clash y x) →
      Reorders clash (before ++ rest) l' → Reorders clash (before ++ x :: rest) (x :: l')

/-- A permutation that keeps the order of what clashes: the elements before the one that
comes first in the permutation come after it there. -/
theorem Reorders.of_perm (pos : β → ℕ) (symm : ∀ x y, clash x y → clash y x)
    (sorted : l.Pairwise fun x y => pos x < pos y) (perm : l'.Perm l)
    (keeps : l'.Pairwise fun x y => clash x y → pos x < pos y) : Reorders clash l l' := by
  induction l' generalizing l with
  | nil =>
      obtain rfl := perm.nil_eq
      exact .nil
  | cons x l' ih =>
      obtain ⟨before, rest, rfl⟩ := List.append_of_mem (perm.mem_iff.mp List.mem_cons_self)
      obtain ⟨hfirst, hkeeps⟩ := List.pairwise_cons.mp keeps
      have hperm : l'.Perm (before ++ rest) := (perm.trans List.perm_middle).cons_inv
      have hbefore := (List.pairwise_append.mp sorted).2.2
      refine .cons (fun y hy hclash => ?_) (ih (sorted.sublist ?_) hperm hkeeps)
      · have hlt := hbefore y hy x List.mem_cons_self
        have hgt := hfirst y (hperm.mem_iff.mpr (List.mem_append_left _ hy)) (symm y x hclash)
        omega
      · exact (List.Sublist.refl before).append (List.sublist_cons_self x rest)

end Reorders

/-- Reordering actions without moving one past another that it clashes with changes no
footprint and not the result. -/
theorem Runs.reorders [DecidableEq L] {A : Actions α L V} {σ τ : L → Option V}
    {zs zs' : List (α × Footprint L V)} (h : Runs A σ zs τ)
    (reorders : Reorders (fun y z => y.2.Clash z.2) zs zs') : Runs A σ zs' τ := by
  induction reorders generalizing σ with
  | nil => exact h
  | cons apart _ ih =>
      obtain _ | ⟨hz, hrest⟩ := h.moveFront apart
      exact .cons hz (ih hrest)

end Explore
