import Mathlib.Algebra.BigOperators.Group.List.Basic
import Mathlib.Data.List.Count
import Mathlib.Data.List.Nodup
import Mathlib.Tactic.Ring

/-!
# Mixed radix numbers

The digits of a number for a list of radices, the most significant first, and the list
of all digit lists in lexicographic order. The number at which a digit list occurs there
is the number that has these digits.
-/

namespace Explore.MixedRadix

/-- The digits of `idx`, which is less than the product of the radices. -/
def digits : List ℕ → ℕ → List ℕ
  | [], _ => []
  | _ :: ns, idx => idx / ns.prod :: digits ns (idx % ns.prod)

/-- The lists with one element of each table, in lexicographic order. -/
def cross {α : Type*} : List (List α) → List (List α)
  | [] => [[]]
  | table :: tables => table.flatMap fun a => (cross tables).map (a :: ·)

/-- All digit lists, in lexicographic order. -/
def combos (ns : List ℕ) : List (List ℕ) := cross (ns.map List.range)

variable {α β : Type*} {ns : List ℕ} {n idx : ℕ}

section FlatMap

/-- An element of a concatenation of lists of one length. -/
theorem getElem?_flatMap (xs : List α) {f : α → List β} {k i j : ℕ}
    (length : ∀ x ∈ xs, (f x).length = k) (hj : j < k) :
    (xs.flatMap f)[i * k + j]? = (xs[i]?).bind fun x => (f x)[j]? := by
  induction xs generalizing i with
  | nil => simp
  | cons x xs ih =>
      have hx : (f x).length = k := length x List.mem_cons_self
      rw [List.flatMap_cons]
      cases i with
      | zero =>
          rw [List.getElem?_append_left (by omega)]
          simp
      | succ i =>
          have hshift : (i + 1) * k + j - (f x).length = i * k + j := by
            rw [hx, Nat.succ_mul]
            omega
          rw [List.getElem?_append_right (by rw [hx, Nat.succ_mul]; omega), hshift,
            ih fun y hy => length y (List.mem_cons_of_mem x hy)]
          simp

theorem length_flatMap_const {f : α → List β} {k : ℕ} {xs : List α}
    (length : ∀ x ∈ xs, (f x).length = k) : (xs.flatMap f).length = xs.length * k := by
  induction xs with
  | nil => simp
  | cons x xs ih =>
      rw [List.flatMap_cons, List.length_append, length x List.mem_cons_self,
        ih fun y hy => length y (List.mem_cons_of_mem x hy), List.length_cons]
      ring

theorem countP_flatMap_const {f : α → List β} {p : β → Bool} {k : ℕ} {xs : List α}
    (count : ∀ x ∈ xs, (f x).countP p = k) : (xs.flatMap f).countP p = xs.length * k := by
  induction xs with
  | nil => simp
  | cons x xs ih =>
      rw [List.flatMap_cons, List.countP_append, count x List.mem_cons_self,
        ih fun y hy => count y (List.mem_cons_of_mem x hy), List.length_cons]
      ring

theorem sum_map_ite (xs : List ℕ) (d k : ℕ) :
    (xs.map fun a => if a = d then k else 0).sum = xs.count d * k := by
  induction xs with
  | nil => simp
  | cons x xs ih =>
      rw [List.map_cons, List.sum_cons, ih, List.count_cons]
      by_cases hx : x = d
      · simp [hx]
        ring
      · simp [hx]

theorem sum_map_ite_countP (xs : List α) (p : α → Bool) (k : ℕ) :
    (xs.map fun a => if p a then k else 0).sum = xs.countP p * k := by
  induction xs with
  | nil => simp
  | cons x xs ih =>
      rw [List.map_cons, List.sum_cons, ih, List.countP_cons]
      by_cases hx : p x = true
      · simp [hx]
        ring
      · simp [hx]

/-- Every element belongs to one value of a bounded function. -/
theorem sum_countP_eq {n : ℕ} (xs : List α) (f : α → ℕ) (lt : ∀ x ∈ xs, f x < n) :
    ((List.range n).map fun j => xs.countP fun x => f x = j).sum = xs.length := by
  induction xs with
  | nil => simp
  | cons x xs ih =>
      have hone : ((List.range n).map fun j => if f x = j then 1 else 0).sum = 1 := by
        have hcount := sum_map_ite (List.range n) (f x) 1
        rw [List.count_eq_one_of_mem List.nodup_range
          (List.mem_range.mpr (lt x List.mem_cons_self))] at hcount
        simpa only [eq_comm] using hcount
      have hsplit : (fun j => (x :: xs).countP fun x => f x = j) =
          fun j => (xs.countP fun x => f x = j) + if f x = j then 1 else 0 := by
        funext j
        rw [List.countP_cons]
        simp
      rw [hsplit, List.sum_map_add, ih fun y hy => lt y (List.mem_cons_of_mem x hy), hone]
      rfl

/-- Groups of `k` equal numbers. -/
theorem map_div_range (n : ℕ) {k : ℕ} (hk : 0 < k) :
    (List.range (n * k)).map (· / k) = (List.range n).flatMap fun i => List.replicate k i := by
  have hlength : ((List.range n).flatMap fun i => List.replicate k i).length = n * k := by
    rw [length_flatMap_const fun i _ => List.length_replicate, List.length_range]
  refine List.ext_getElem? fun i => ?_
  rcases Nat.lt_or_ge i (n * k) with hi | hi
  · have hsplit := getElem?_flatMap (List.range n) (f := fun i => List.replicate k i)
      (i := i / k) (fun _ _ => List.length_replicate) (Nat.mod_lt i hk)
    have hdiv : i / k < n := Nat.div_lt_of_lt_mul (by rwa [Nat.mul_comm])
    rw [Nat.div_add_mod', List.getElem?_range hdiv, Option.bind_some,
      List.getElem?_replicate_of_lt (Nat.mod_lt i hk)] at hsplit
    rw [hsplit, List.getElem?_map, List.getElem?_range hi]
    rfl
  · rw [List.getElem?_eq_none (by simpa using hi), List.getElem?_eq_none (by rwa [hlength])]

theorem count_flatMap_replicate {n c : ℕ} (f : ℕ → ℕ) (hc : c < n) :
    ((List.range n).flatMap fun i => List.replicate (f i) i).count c = f c := by
  have hsum : ((List.range n).map fun i => (List.replicate (f i) i).count c) =
      (List.range n).map fun i => if i = c then f c else 0 := by
    refine List.map_congr_left fun i _ => ?_
    rw [List.count_replicate]
    by_cases hi : i = c
    · simp [hi]
    · simp [hi]
  rw [List.count, List.countP_flatMap]
  change ((List.range n).map fun i => (List.replicate (f i) i).count c).sum = _
  rw [hsum, sum_map_ite, List.count_eq_one_of_mem List.nodup_range (List.mem_range.mpr hc),
    Nat.one_mul]

/-- A list in order lists each number as often as it counts it. -/
theorem eq_flatMap_replicate {n : ℕ} {xs : List ℕ} (sorted : xs.Pairwise (· ≤ ·))
    (lt : ∀ x ∈ xs, x < n) :
    xs = (List.range n).flatMap fun i => List.replicate (xs.count i) i := by
  have hsorted : ((List.range n).flatMap fun i => List.replicate (xs.count i) i).Pairwise
      (· ≤ ·) := by
    refine List.pairwise_flatMap.mpr ⟨fun i _ => ?_, ?_⟩
    · exact List.pairwise_replicate.mpr (Or.inr (Nat.le_refl i))
    · refine List.pairwise_lt_range.imp fun {a b} hab x hx y hy => ?_
      rw [(List.mem_replicate.mp hx).2, (List.mem_replicate.mp hy).2]
      exact hab.le
  refine List.Perm.eq_of_pairwise (fun a b _ _ => Nat.le_antisymm) sorted hsorted ?_
  refine List.perm_iff_count.mpr fun c => ?_
  rcases Nat.lt_or_ge c n with hc | hc
  · rw [count_flatMap_replicate xs.count hc]
  · rw [List.count_eq_zero.mpr fun h => (lt c h).not_ge hc, eq_comm, List.count_eq_zero]
    intro h
    obtain ⟨i, hi, hmem⟩ := List.mem_flatMap.mp h
    have hlt := List.mem_range.mp hi
    rw [(List.mem_replicate.mp hmem).2] at hc
    omega

/-- The part of a concatenation that belongs to one element that occurs once. -/
theorem filter_flatMap_pair [DecidableEq α] {xs : List α} {ys : List β} {x : α} (nodup : xs.Nodup)
    (hx : x ∈ xs) :
    (xs.flatMap fun a => ys.map (a, ·)).filter (fun p => p.1 = x) = ys.map (x, ·) := by
  have hother {zs : List α} (hzs : x ∉ zs) :
      (zs.flatMap fun a => ys.map (a, ·)).filter (fun p => p.1 = x) = [] := by
    refine List.filter_eq_nil_iff.mpr fun p hp => ?_
    obtain ⟨z, hz, hp⟩ := List.mem_flatMap.mp hp
    obtain ⟨y, -, rfl⟩ := List.mem_map.mp hp
    have hne : z ≠ x := fun heq => hzs (heq ▸ hz)
    simpa using hne
  have hsame : (ys.map (x, ·)).filter (fun p => p.1 = x) = ys.map (x, ·) :=
    List.filter_eq_self.mpr fun p hp => by
      obtain ⟨y, -, rfl⟩ := List.mem_map.mp hp
      simp
  obtain ⟨before, after, rfl⟩ := List.append_of_mem hx
  obtain ⟨-, hafter, hbefore⟩ := List.nodup_append.mp nodup
  have hnot_after : x ∉ after := (List.nodup_cons.mp hafter).1
  have hnot_before : x ∉ before := fun h => hbefore x h x List.mem_cons_self rfl
  rw [List.flatMap_append, List.flatMap_cons, List.filter_append, List.filter_append,
    hother hnot_before, hother hnot_after, hsame, List.append_nil, List.nil_append]

end FlatMap

section Cross

theorem length_cross (tables : List (List α)) :
    (cross tables).length = (tables.map List.length).prod := by
  induction tables with
  | nil => rfl
  | cons table tables ih =>
      rw [cross, length_flatMap_const fun a _ => List.length_map _, ih, List.map_cons,
        List.prod_cons]

@[simp] theorem length_combos (ns : List ℕ) : (combos ns).length = ns.prod := by
  rw [combos, length_cross, List.map_map]
  congr 1
  simp [Function.comp_def]

/-- The list at `idx` takes from each table the element that the digit of `idx` names. -/
theorem getElem?_cross (tables : List (List α)) (idx : ℕ)
    (hidx : idx < (tables.map List.length).prod) :
    (cross tables)[idx]? =
      (tables.zip (digits (tables.map List.length) idx)).mapM fun entry => entry.1[entry.2]? := by
  induction tables generalizing idx with
  | nil =>
      obtain rfl : idx = 0 := by simpa using hidx
      rfl
  | cons table tables ih =>
      rw [List.map_cons, List.prod_cons] at hidx
      have hpos : 0 < (tables.map List.length).prod := Nat.pos_of_lt_mul_left hidx
      have hrest := ih (idx % (tables.map List.length).prod) (Nat.mod_lt _ hpos)
      have hsplit := getElem?_flatMap table (f := fun a => (cross tables).map (a :: ·))
        (i := idx / (tables.map List.length).prod)
        (fun a _ => by rw [List.length_map, length_cross]) (Nat.mod_lt idx hpos)
      rw [Nat.div_add_mod'] at hsplit
      rw [cross, hsplit, List.map_cons, digits, List.zip_cons_cons, List.mapM_cons]
      cases htable : table[idx / (tables.map List.length).prod]? with
      | none => rfl
      | some a =>
          simp only [Option.bind_some, List.getElem?_map, hrest, Option.map_eq_bind,
            Option.bind_eq_bind, Option.pure_def]
          rfl

/-- One more table at the end. -/
theorem cross_concat (tables : List (List α)) (table : List α) :
    cross (tables ++ [table]) =
      (cross tables).flatMap fun row => table.map fun a => row ++ [a] := by
  induction tables with
  | nil => simp [cross, List.map_eq_flatMap]
  | cons first tables ih =>
      simp only [List.cons_append, cross, ih, List.flatMap_assoc, List.map_flatMap,
        List.flatMap_map, List.map_map]
      rfl

theorem length_of_mem_cross {tables : List (List α)} {row : List α} (h : row ∈ cross tables) :
    row.length = tables.length := by
  induction tables generalizing row with
  | nil =>
      obtain rfl : row = [] := by simpa [cross] using h
      rfl
  | cons table tables ih =>
      obtain ⟨a, -, h⟩ := List.mem_flatMap.mp h
      obtain ⟨row, hrow, rfl⟩ := List.mem_map.mp h
      simp [ih hrow]

theorem mem_cross {tables : List (List α)} {row : List α} :
    row ∈ cross tables ↔ List.Forall₂ (· ∈ ·) row tables := by
  induction tables generalizing row with
  | nil => simp [cross]
  | cons table tables ih =>
      simp only [cross, List.mem_flatMap, List.mem_map, ih]
      constructor
      · rintro ⟨a, ha, row, hrow, rfl⟩
        exact .cons ha hrow
      · rintro (_ | ⟨ha, hrow⟩)
        exact ⟨_, ha, _, hrow, rfl⟩

theorem cross_map (f : α → β) (tables : List (List α)) :
    cross (tables.map (List.map f)) = (cross tables).map (List.map f) := by
  induction tables with
  | nil => rfl
  | cons table tables ih =>
      simp only [List.map_cons, cross, ih, List.flatMap_map, List.map_flatMap, List.map_map]
      rfl

theorem getElem?_combos (hidx : idx < ns.prod) : (combos ns)[idx]? = some (digits ns idx) := by
  induction ns generalizing idx with
  | nil =>
      obtain rfl : idx = 0 := by simpa using hidx
      rfl
  | cons n ns ih =>
      rw [List.prod_cons] at hidx
      have hpos : 0 < ns.prod := Nat.pos_of_lt_mul_left hidx
      have hdigit : idx / ns.prod < n := Nat.div_lt_of_lt_mul (by rwa [Nat.mul_comm])
      have hsplit := getElem?_flatMap (List.range n)
        (f := fun a => (combos ns).map (a :: ·)) (i := idx / ns.prod)
        (fun a _ => by rw [List.length_map, length_combos]) (Nat.mod_lt idx hpos)
      rw [Nat.div_add_mod', List.getElem?_range hdigit] at hsplit
      change ((List.range n).flatMap fun a => (combos ns).map (a :: ·))[idx]? = _
      rw [hsplit, Option.bind_some, List.getElem?_map, ih (Nat.mod_lt idx hpos)]
      rfl

theorem combos_eq_map_digits (ns : List ℕ) : combos ns = (List.range ns.prod).map (digits ns) := by
  refine List.ext_getElem? fun i => ?_
  rcases Nat.lt_or_ge i ns.prod with hi | hi
  · rw [getElem?_combos hi, List.getElem?_map, List.getElem?_range hi]
    rfl
  · rw [List.getElem?_eq_none (by simpa using hi), List.getElem?_eq_none (by simpa using hi)]

/-- The digit lists in `combos` are those whose digits are less than the radices. -/
theorem mem_combos {ds : List ℕ} : ds ∈ combos ns ↔ List.Forall₂ (· < ·) ds ns := by
  induction ns generalizing ds with
  | nil => simp [combos, cross]
  | cons n ns ih =>
      change ds ∈ (List.range n).flatMap (fun a => (combos ns).map (a :: ·)) ↔ _
      simp only [List.mem_flatMap, List.mem_range, List.mem_map, ih]
      constructor
      · rintro ⟨d, hd, ds, hds, rfl⟩
        exact .cons hd hds
      · rintro (_ | ⟨hd, hds⟩)
        exact ⟨_, hd, _, hds, rfl⟩

theorem nodup_combos (ns : List ℕ) : (combos ns).Nodup := by
  induction ns with
  | nil => simp [combos, cross]
  | cons n ns ih =>
      change ((List.range n).flatMap fun a => (combos ns).map (a :: ·)).Nodup
      refine List.nodup_flatMap.mpr ⟨fun a _ => ih.map (List.cons_injective), ?_⟩
      refine List.nodup_range.imp fun {a b} hab => ?_
      intro ds ha hb
      obtain ⟨_, -, rfl⟩ := List.mem_map.mp ha
      obtain ⟨_, -, heq⟩ := List.mem_map.mp hb
      exact hab (List.cons.inj heq).1.symm

/-- The lexicographic order. -/
theorem pairwise_combos (ns : List ℕ) : (combos ns).Pairwise (· < ·) := by
  induction ns with
  | nil => simp [combos, cross]
  | cons n ns ih =>
      change ((List.range n).flatMap fun a => (combos ns).map (a :: ·)).Pairwise (· < ·)
      refine List.pairwise_flatMap.mpr ⟨fun a _ => ?_, ?_⟩
      · exact List.pairwise_map.mpr (ih.imp fun hlt => List.cons_lt_cons_iff.mpr (.inr ⟨rfl, hlt⟩))
      · refine List.pairwise_lt_range.imp fun {a b} hab ds hds es hes => ?_
        obtain ⟨ds, -, rfl⟩ := List.mem_map.mp hds
        obtain ⟨es, -, rfl⟩ := List.mem_map.mp hes
        exact List.cons_lt_cons_iff.mpr (.inl hab)

/-- Every value of a digit occurs equally often. -/
theorem countP_combos {level d : ℕ} (hn : ns[level]? = some n) (hd : d < n) :
    (combos ns).countP (fun ds => ds[level]? = some d) * n = ns.prod := by
  induction ns generalizing level with
  | nil => simp at hn
  | cons m ns ih =>
      change ((List.range m).flatMap fun a => (combos ns).map (a :: ·)).countP _ * n = _
      cases level with
      | zero =>
          obtain rfl : m = n := by simpa using hn
          have hhead (a : ℕ) : ((combos ns).map (a :: ·)).countP (fun ds => ds[0]? = some d) =
              if a = d then ns.prod else 0 := by
            rw [List.countP_map]
            by_cases had : a = d
            · simp [had, Function.comp_def]
            · simp [had, Function.comp_def]
          have hsum : ((List.range m).map fun a => if a = d then ns.prod else 0).sum = ns.prod := by
            rw [sum_map_ite, List.count_eq_one_of_mem List.nodup_range (List.mem_range.mpr hd),
              Nat.one_mul]
          rw [List.countP_flatMap, List.prod_cons, Nat.mul_comm m]
          congr 1
          rw [← hsum]
          congr 1
          exact List.map_congr_left fun a _ => hhead a
      | succ level =>
          have hcount : ∀ a ∈ List.range m, ((combos ns).map (a :: ·)).countP
              (fun ds => ds[level + 1]? = some d) =
              (combos ns).countP fun ds => ds[level]? = some d := by
            intro a _
            rw [List.countP_map]
            simp [Function.comp_def]
          rw [countP_flatMap_const hcount, List.length_range, List.prod_cons, Nat.mul_assoc,
            ih (by simpa using hn)]

end Cross

end Explore.MixedRadix
