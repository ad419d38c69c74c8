import Mathlib.Data.List.Nodup
import Mathlib.Data.Fintype.Card
import Mathlib.Data.Fintype.EquivFin

/-!
# Open addressing with linear probing

A table is a list of slots, each free or holding a key. A key starts at its home
slot and moves one slot at a time, cyclically, past slots held by other keys.
The invariant says that every stored key sits where its own probe ends. It makes
stored keys unique, and insertion at the end of a probe keeps it. While there
are fewer keys than slots some slot is free, and then every probe ends.
-/

namespace Explore.LinearProbe

variable {κ : Type*}

/-- Slot `i` holds a key other than `key`. -/
def Blocked (t : List (Option κ)) (key : κ) (i : ℕ) : Prop :=
  ∃ k, t[i]? = some (some k) ∧ k ≠ key

/-- The probe for `key` from slot `home` arrives at slot `i`: it goes round at
most once, and all slots before `i` hold other keys. -/
def Reaches (t : List (Option κ)) (key : κ) (home i : ℕ) : Prop :=
  ∃ d < t.length, i = (home + d) % t.length ∧
    ∀ e < d, Blocked t key ((home + e) % t.length)

/-- Every stored key sits where its probe ends. -/
def WellFormed (home : κ → ℕ) (t : List (Option κ)) : Prop :=
  ∀ i k, t[i]? = some (some k) → Reaches t k (home k) i

theorem Blocked.not_free {t : List (Option κ)} {key : κ} {i : ℕ} (h : Blocked t key i) :
    t[i]? ≠ some none := by
  obtain ⟨k, hk, -⟩ := h
  rw [hk]
  simp

theorem Blocked.not_self {t : List (Option κ)} {key : κ} {i : ℕ} (h : Blocked t key i) :
    t[i]? ≠ some (some key) := by
  obtain ⟨k, hk, hne⟩ := h
  rw [hk]
  simpa using hne

theorem Reaches.lt_length {t : List (Option κ)} {key : κ} {home i : ℕ}
    (h : Reaches t key home i) : i < t.length := by
  obtain ⟨d, hd, rfl, -⟩ := h
  exact Nat.mod_lt _ (by omega)

/-- An empty table is well formed. -/
theorem wellFormed_replicate (home : κ → ℕ) (n : ℕ) :
    WellFormed home (List.replicate n none) := by
  intro i k h
  rw [List.getElem?_replicate] at h
  split at h <;> simp at h

section Invariant

variable {home : κ → ℕ} {t : List (Option κ)} {key : κ} {i j : ℕ}

/-- Two ends of the probe for one key are the same slot. -/
theorem Reaches.unique (hi : Reaches t key (home key) i) (hj : Reaches t key (home key) j)
    (endI : ¬ Blocked t key i) (endJ : ¬ Blocked t key j) : i = j := by
  obtain ⟨d, -, rfl, pathI⟩ := hi
  obtain ⟨d', -, rfl, pathJ⟩ := hj
  obtain hlt | rfl | hgt := Nat.lt_trichotomy d d'
  · exact absurd (pathJ d hlt) endI
  · rfl
  · exact absurd (pathI d' hgt) endJ

/-- A key is stored at most once. -/
theorem WellFormed.stored_unique (wf : WellFormed home t) (hi : t[i]? = some (some key))
    (hj : t[j]? = some (some key)) : i = j :=
  (wf i key hi).unique (wf j key hj) (fun b => b.not_self hi) (fun b => b.not_self hj)

/-- A key whose probe ends at a free slot is not stored. -/
theorem WellFormed.not_stored (wf : WellFormed home t) (hi : Reaches t key (home key) i)
    (free : t[i]? = some none) : t[j]? ≠ some (some key) := by
  intro hj
  have same : i = j :=
    hi.unique (wf j key hj) (fun b => b.not_free free) (fun b => b.not_self hj)
  rw [same, hj] at free
  simp at free

/-- Storing a key at the free slot where its probe ends keeps the invariant. -/
theorem WellFormed.set (wf : WellFormed home t) (hi : Reaches t key (home key) i)
    (free : t[i]? = some none) : WellFormed home (t.set i (some key)) := by
  have hlt := hi.lt_length
  -- a slot that blocks some key still blocks it, unless it is the slot being filled
  have blocked {k : κ} {s : ℕ} (h : Blocked t k s) : Blocked (t.set i (some key)) k s := by
    obtain ⟨k', hk', hne⟩ := h
    have his : i ≠ s := by
      rintro rfl
      rw [free] at hk'
      simp at hk'
    exact ⟨k', by rw [List.getElem?_set_ne his, hk'], hne⟩
  intro s k hs
  by_cases his : i = s
  · subst his
    have hk : key = k := by
      rw [List.getElem?_set_self hlt] at hs
      simpa using hs
    subst hk
    obtain ⟨d, hd, hslot, path⟩ := hi
    refine ⟨d, by simpa using hd, by simpa using hslot, fun e he => ?_⟩
    simpa using blocked (path e he)
  · rw [List.getElem?_set_ne his] at hs
    obtain ⟨d, hd, hslot, path⟩ := wf s k hs
    refine ⟨d, by simpa using hd, by simpa using hslot, fun e he => ?_⟩
    simpa using blocked (path e he)

/-- Fewer keys than slots leave a slot free. -/
theorem WellFormed.exists_free (wf : WellFormed home t) (keys : List κ)
    (stored : ∀ (i : ℕ) (k : κ), t[i]? = some (some k) → k ∈ keys) (few : keys.length < t.length) :
    ∃ i : ℕ, t[i]? = some none := by
  classical
  by_contra none_free
  have full (i : Fin t.length) : ∃ k, t[i.val]? = some (some k) := by
    have hi := List.getElem?_eq_getElem i.isLt
    cases hslot : t[i.val] with
    | none => exact absurd ⟨i.val, by rw [hi, hslot]⟩ none_free
    | some k => exact ⟨k, by rw [hi, hslot]⟩
  choose keyAt hkeyAt using full
  have injective : Function.Injective
      (fun i : Fin t.length => (⟨keyAt i, List.mem_toFinset.mpr (stored _ _ (hkeyAt i))⟩ :
        {k // k ∈ keys.toFinset})) := by
    intro i j same
    have hkey : keyAt i = keyAt j := congrArg Subtype.val same
    exact Fin.ext (wf.stored_unique (hkeyAt i) (hkey ▸ hkeyAt j))
  have hcard := Fintype.card_le_of_injective _ injective
  rw [Fintype.card_fin, Fintype.card_coe] at hcard
  have := List.toFinset_card_le keys
  omega

/-- Distinct stored keys leave a free slot only if they are fewer than the slots. -/
theorem length_stored_le (keys : List κ) (nodup : keys.Nodup)
    (stored : ∀ k ∈ keys, ∃ i : ℕ, t[i]? = some (some k)) :
    keys.length ≤ t.length ∧ ((∃ i : ℕ, t[i]? = some none) → keys.length < t.length) := by
  classical
  have at_slot (j : Fin keys.length) :
      ∃ i : Fin t.length, t[i.val]? = some (some (keys.get j)) := by
    obtain ⟨i, hi⟩ := stored _ (List.get_mem keys j)
    exact ⟨⟨i, (List.getElem?_eq_some_iff.mp hi).1⟩, hi⟩
  choose slotOf hslotOf using at_slot
  have injective : Function.Injective slotOf := by
    intro j j' same
    have hkey := (hslotOf j).symm.trans (same ▸ hslotOf j')
    exact (List.nodup_iff_injective_get.mp nodup) (by simpa using hkey)
  have hcard := Fintype.card_le_of_injective _ injective
  rw [Fintype.card_fin, Fintype.card_fin] at hcard
  refine ⟨hcard, fun ⟨i, hi⟩ => ?_⟩
  refine Nat.lt_of_le_of_ne hcard fun heq => ?_
  have surjective : Function.Surjective slotOf :=
    ((Fintype.bijective_iff_injective_and_card slotOf).mpr ⟨injective, by simp [heq]⟩).2
  obtain ⟨j, hj⟩ := surjective ⟨i, (List.getElem?_eq_some_iff.mp hi).1⟩
  have := hslotOf j
  rw [hj] at this
  simp only [hi, Option.some.injEq] at this
  cases this

/-- When some slot does not block a key, its probe ends. -/
theorem exists_reaches (hhome : home key < t.length) (open_ : ∃ j < t.length, ¬ Blocked t key j) :
    ∃ i, Reaches t key (home key) i ∧ ¬ Blocked t key i := by
  classical
  have hends : ∃ d, d < t.length ∧ ¬ Blocked t key ((home key + d) % t.length) := by
    obtain ⟨j, hj, hopen⟩ := open_
    refine ⟨(j + t.length - home key) % t.length, Nat.mod_lt _ (by omega), ?_⟩
    rw [Nat.add_mod_mod, show home key + (j + t.length - home key) = j + t.length by omega,
      Nat.add_mod_right, Nat.mod_eq_of_lt hj]
    exact hopen
  have hspec := Nat.find_spec hends
  refine ⟨_, ⟨Nat.find hends, hspec.1, rfl, fun e he => ?_⟩, hspec.2⟩
  by_contra hopen
  exact Nat.find_min hends he ⟨Nat.lt_trans he hspec.1, hopen⟩

end Invariant

section Search

variable [DecidableEq κ]

/-- The probe for `key` from slot `i`, for at most `rounds` rounds: the first
slot that is free or holds `key`. -/
def findSlot (t : List (Option κ)) (key : κ) (i : ℕ) : ℕ → Option ℕ
  | 0 => none
  | rounds + 1 =>
      match t[i]? with
      | none => none
      | some none => some i
      | some (some k) => if k = key then some i else findSlot t key ((i + 1) % t.length) rounds

variable {t : List (Option κ)} {key : κ}

theorem findSlot_blocked {i : ℕ} (rounds : ℕ) (h : Blocked t key i) :
    findSlot t key i (rounds + 1) = findSlot t key ((i + 1) % t.length) rounds := by
  obtain ⟨k, hk, hne⟩ := h
  rw [findSlot, hk]
  simp [hne]

theorem findSlot_open {i : ℕ} (rounds : ℕ) (hi : i < t.length) (h : ¬ Blocked t key i) :
    findSlot t key i (rounds + 1) = some i := by
  have hslot := List.getElem?_eq_getElem hi
  cases hk : t[i] with
  | none =>
      rw [findSlot, hslot, hk]
  | some k =>
      have hkey : k = key := by
        by_contra hne
        exact h ⟨k, by rw [hslot, hk], hne⟩
      rw [findSlot, hslot, hk]
      simp [hkey]

/-- The search finds the end of the probe within one round trip. -/
theorem findSlot_of_reaches {home i : ℕ} (hhome : home < t.length) (h : Reaches t key home i)
    (open_ : ¬ Blocked t key i) : findSlot t key home t.length = some i := by
  obtain ⟨d, hd, rfl, path⟩ := h
  -- after `d` blocked slots, with `rounds` rounds still to go
  have walk : ∀ d home rounds, home < t.length →
      (∀ e < d, Blocked t key ((home + e) % t.length)) →
      ¬ Blocked t key ((home + d) % t.length) →
      findSlot t key home (rounds + d + 1) = some ((home + d) % t.length) := by
    intro d
    induction d with
    | zero =>
        intro home rounds hhome _ hopen
        rw [Nat.add_zero, Nat.mod_eq_of_lt hhome] at hopen
        simpa only [Nat.add_zero, Nat.mod_eq_of_lt hhome] using findSlot_open rounds hhome hopen
    | succ d ih =>
        intro home rounds hhome path hopen
        have hfirst : Blocked t key home := by
          have := path 0 (by omega)
          rwa [Nat.add_zero, Nat.mod_eq_of_lt hhome] at this
        have hshift (e : ℕ) : ((home + 1) % t.length + e) % t.length =
            (home + (e + 1)) % t.length := by
          rw [Nat.mod_add_mod, Nat.add_assoc, Nat.add_comm 1]
        have hpath (e : ℕ) (he : e < d) :
            Blocked t key (((home + 1) % t.length + e) % t.length) := by
          rw [hshift]
          exact path (e + 1) (by omega)
        have hend : ¬ Blocked t key (((home + 1) % t.length + d) % t.length) := by
          rw [hshift]
          exact hopen
        rw [← Nat.add_assoc, findSlot_blocked _ hfirst,
          ih ((home + 1) % t.length) rounds (Nat.mod_lt _ (by omega)) hpath hend, hshift]
  have hrounds : t.length = (t.length - d - 1) + d + 1 := by omega
  rw [hrounds, walk d home (t.length - d - 1) hhome path open_, ← hrounds]

/-- More rounds do not change what the search finds. -/
theorem findSlot_mono {rounds i j : ℕ} (h : findSlot t key j rounds = some i) (extra : ℕ) :
    findSlot t key j (rounds + extra) = some i := by
  induction rounds generalizing j with
  | zero => simp [findSlot] at h
  | succ rounds ih =>
      rw [Nat.succ_add, findSlot]
      rw [findSlot] at h
      split at h
      · exact absurd h (by simp)
      · exact h
      · rename_i k hk
        by_cases same : k = key
        · rwa [if_pos same] at h ⊢
        · rw [if_neg same] at h ⊢
          exact ih h

/-- Any bound on the rounds is either too small or finds the end of the probe. -/
theorem findSlot_eq_none_or {home i : ℕ} (hhome : home < t.length) (h : Reaches t key home i)
    (open_ : ¬ Blocked t key i) (rounds : ℕ) :
    findSlot t key home rounds = none ∨ findSlot t key home rounds = some i := by
  cases hfind : findSlot t key home rounds with
  | none => exact Or.inl rfl
  | some j =>
      have hend := findSlot_mono (findSlot_of_reaches hhome h open_) rounds
      rw [Nat.add_comm, findSlot_mono hfind] at hend
      exact Or.inr hend

theorem findSlot_of_length_le {home i rounds : ℕ} (hhome : home < t.length)
    (h : Reaches t key home i) (open_ : ¬ Blocked t key i) (enough : t.length ≤ rounds) :
    findSlot t key home rounds = some i := by
  obtain ⟨extra, rfl⟩ := Nat.exists_eq_add_of_le enough
  exact findSlot_mono (findSlot_of_reaches hhome h open_) extra

/-- In a table full of other keys the search never ends. -/
theorem findSlot_of_full {j : ℕ} (hj : j < t.length) (full : ∀ i < t.length, Blocked t key i)
    (rounds : ℕ) : findSlot t key j rounds = none := by
  induction rounds generalizing j with
  | zero => rfl
  | succ rounds ih =>
      rw [findSlot_blocked rounds (full j hj)]
      exact ih (Nat.mod_lt _ (by omega))

end Search

end Explore.LinearProbe
