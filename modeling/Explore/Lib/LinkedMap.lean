import Mathlib.Data.List.Nodup
import Mathlib.Data.List.Basic

/-!
# Maps that keep the order of insertion

A map is the list of its entries. Putting a key that is there replaces its value in
place; a new key goes to the end. The entries of a map with keys `names` are listed in
the order in which these keys were first put, whatever was put later.
-/

namespace Explore.LinkedMap

section Keys

variable {κ β : Type*}

def keys (entries : List (κ × β)) : List κ := entries.map Prod.fst

@[simp] theorem keys_nil : keys ([] : List (κ × β)) = [] := rfl

@[simp] theorem keys_cons (entry : κ × β) (entries : List (κ × β)) :
    keys (entry :: entries) = entry.1 :: keys entries := rfl

@[simp] theorem keys_append (before after : List (κ × β)) :
    keys (before ++ after) = keys before ++ keys after := List.map_append

end Keys

variable {κ β : Type*} [DecidableEq κ] {entries before after : List (κ × β)} {key other : κ}
  {value old : β}

def put : List (κ × β) → κ → β → List (κ × β)
  | [], key, value => [(key, value)]
  | entry :: entries, key, value =>
      if entry.1 = key then (key, value) :: entries else entry :: put entries key value

theorem put_of_notMem (h : key ∉ keys entries) :
    put entries key value = entries ++ [(key, value)] := by
  induction entries with
  | nil => rfl
  | cons entry entries ih =>
      rw [keys_cons, List.mem_cons, not_or] at h
      rw [put, if_neg (Ne.symm h.1), ih h.2, List.cons_append]

/-- A key that is there keeps its place. -/
theorem put_append_cons (h : key ∉ keys before) :
    put (before ++ (key, old) :: after) key value = before ++ (key, value) :: after := by
  induction before with
  | nil => exact if_pos rfl
  | cons entry before ih =>
      rw [keys_cons, List.mem_cons, not_or] at h
      rw [List.cons_append, put, if_neg (Ne.symm h.1), ih h.2, List.cons_append]

theorem lookup_cons (entry : κ × β) (entries : List (κ × β)) (key : κ) :
    (entry :: entries).lookup key = if key = entry.1 then some entry.2 else entries.lookup key := by
  rw [List.lookup_cons]
  by_cases h : key = entry.1
  · rw [if_pos h, beq_iff_eq.mpr h]
  · rw [if_neg h, beq_false_of_ne h]

theorem lookup_put (entries : List (κ × β)) (key other : κ) (value : β) :
    (put entries key value).lookup other =
      if other = key then some value else entries.lookup other := by
  induction entries with
  | nil => exact lookup_cons (key, value) [] other
  | cons entry entries ih =>
      by_cases hentry : entry.1 = key
      · rw [put, if_pos hentry, lookup_cons, lookup_cons, hentry]
        by_cases h : other = key
        · rw [if_pos h, if_pos h]
        · rw [if_neg h, if_neg h, if_neg h]
      · rw [put, if_neg hentry, lookup_cons, lookup_cons, ih]
        by_cases h : other = entry.1
        · have hne : other ≠ key := h ▸ hentry
          rw [if_pos h, if_neg hne, if_pos h]
        · rw [if_neg h, if_neg h]

theorem mem_keys_iff : key ∈ keys entries ↔ ∃ value, entries.lookup key = some value := by
  induction entries with
  | nil => simp
  | cons entry entries ih =>
      rw [keys_cons, List.mem_cons, lookup_cons, ih]
      by_cases h : key = entry.1
      · simp [h]
      · simp [h]

/-- Each entry of a map is found by its key. -/
theorem lookup_of_mem (nodup : (keys entries).Nodup) (h : (key, value) ∈ entries) :
    entries.lookup key = some value := by
  induction entries with
  | nil => simp at h
  | cons entry entries ih =>
      rw [keys_cons, List.nodup_cons] at nodup
      rw [lookup_cons]
      rcases List.mem_cons.mp h with rfl | h
      · exact if_pos rfl
      · have hne : key ≠ entry.1 := by
          rintro rfl
          exact nodup.1 (List.mem_map.mpr ⟨_, h, rfl⟩)
        rw [if_neg hne, ih nodup.2 h]

/-- Looking up all keys gives the values in the order of the keys. -/
theorem mapM_lookup_keys {f : κ → Option β} (nodup : (keys entries).Nodup)
    (lookup : ∀ key ∈ keys entries, f key = entries.lookup key) :
    (keys entries).mapM f = some (entries.map Prod.snd) := by
  have hall : ∀ more : List (κ × β), more ⊆ entries →
      (keys more).mapM f = some (more.map Prod.snd) := by
    intro more
    induction more with
    | nil => exact fun _ => rfl
    | cons entry more ih =>
        intro hsub
        have hmem : entry ∈ entries := hsub List.mem_cons_self
        have hentry : f entry.1 = some entry.2 :=
          (lookup _ (List.mem_map_of_mem hmem)).trans (lookup_of_mem nodup hmem)
        have hmore := ih fun e he => hsub (List.mem_cons_of_mem entry he)
        rw [keys_cons, List.mapM_cons, hentry, hmore]
        rfl
  exact hall entries (List.Subset.refl entries)

/-- New keys in a row. -/
theorem foldl_put (entries added : List (κ × β)) (nodup : (keys (entries ++ added)).Nodup) :
    added.foldl (fun entries entry => put entries entry.1 entry.2) entries = entries ++ added := by
  induction added generalizing entries with
  | nil => simp
  | cons entry added ih =>
      have hnew : entry.1 ∉ keys entries := by
        intro hmem
        rw [keys_append, keys_cons] at nodup
        exact (List.nodup_append.mp nodup).2.2 _ hmem _ List.mem_cons_self rfl
      rw [List.foldl_cons, put_of_notMem hnew, ih _ (by simpa using nodup)]
      simp

end Explore.LinkedMap
