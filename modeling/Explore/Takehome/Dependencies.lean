import Explore.Takehome.InstrGraph
import Mathlib.Logic.Relation

/-!
# The dependency passes order all conflicts

Each pass only looks at the nearest writer of a word. Still, two instructions that
share a word which one of them writes are ordered: between them lies a chain of
writers of that word, each of which unlocks the next.
-/

namespace Explore.Takehome

/-- `b` is one of the instructions that `a` unlocks. -/
def Unlocks (imetas : List InstrMeta) (a b : ℕ) : Prop :=
  ∃ x, imetas[a]? = some x ∧ b ∈ x.after

/-- There is a path of `after` edges from `a` to `b`. -/
def Reaches (imetas : List InstrMeta) : ℕ → ℕ → Prop := Relation.TransGen (Unlocks imetas)

section Pass

variable {idx i j k loc : ℕ} {lastWrite : ℕ → Option ℕ} {accesses : List Access} {a b : Access}

/-- An earlier writer that nothing in between replaces. -/
theorem mem_dependencyPass_of_lastWrite (idx : ℕ) (lastWrite : ℕ → Option ℕ)
    (hlast : lastWrite loc = some i)
    (hk : accesses[k]? = some b) (htouch : loc ∈ b.touched)
    (between : ∀ m < k, ∀ c, accesses[m]? = some c → loc ∉ c.written) :
    (i, idx + k) ∈ dependencyPass idx lastWrite accesses := by
  induction accesses generalizing idx k lastWrite with
  | nil => simp at hk
  | cons access accesses ih =>
      rw [dependencyPass, List.mem_append]
      cases k with
      | zero =>
          obtain rfl : access = b := by simpa using hk
          exact .inl (List.mem_filterMap.mpr ⟨loc, htouch, by rw [hlast]; rfl⟩)
      | succ k =>
          right
          have hskip : loc ∉ access.written := between 0 (Nat.succ_pos k) access rfl
          have hmem := ih (idx + 1)
            (fun loc => if loc ∈ access.written then some idx else lastWrite loc)
            (by rw [if_neg hskip, hlast]) (by simpa using hk)
            fun m hm c hc => between (m + 1) (Nat.succ_lt_succ hm) c (by simpa using hc)
          rwa [Nat.add_right_comm] at hmem

theorem mem_dependencyPass (idx : ℕ) (lastWrite : ℕ → Option ℕ)
    (hi : accesses[i]? = some a) (hwrite : loc ∈ a.written)
    (hj : accesses[j]? = some b) (htouch : loc ∈ b.touched) (hij : i < j)
    (between : ∀ m, i < m → m < j → ∀ c, accesses[m]? = some c → loc ∉ c.written) :
    (idx + i, idx + j) ∈ dependencyPass idx lastWrite accesses := by
  induction accesses generalizing idx i j lastWrite with
  | nil => simp at hi
  | cons access accesses ih =>
      rw [dependencyPass, List.mem_append]
      right
      obtain ⟨j, rfl⟩ : ∃ j', j = j' + 1 := ⟨j - 1, by omega⟩
      have hj' : accesses[j]? = some b := by simpa using hj
      cases i with
      | zero =>
          obtain rfl : access = a := by simpa using hi
          have hmem := mem_dependencyPass_of_lastWrite (idx + 1)
            (fun loc => if loc ∈ access.written then some idx else lastWrite loc)
            (if_pos hwrite) hj' htouch fun m hm c hc =>
              between (m + 1) (Nat.succ_pos m) (Nat.succ_lt_succ hm) c (by simpa using hc)
          rwa [Nat.add_right_comm] at hmem
      | succ i =>
          have hmem := ih (idx + 1)
            (fun loc => if loc ∈ access.written then some idx else lastWrite loc)
            (by simpa using hi) hj' (Nat.lt_of_succ_lt_succ hij)
            fun m him hmj c hc => between (m + 1) (Nat.succ_lt_succ him) (Nat.succ_lt_succ hmj) c
              (by simpa using hc)
          rwa [Nat.add_right_comm, Nat.add_right_comm idx 1 j] at hmem

/-- The edges of a pass go forward and stay inside the list. -/
theorem lt_of_mem_dependencyPass {edge : ℕ × ℕ}
    (hlast : ∀ loc i, lastWrite loc = some i → i < idx)
    (h : edge ∈ dependencyPass idx lastWrite accesses) :
    edge.1 < edge.2 ∧ edge.2 < idx + accesses.length := by
  induction accesses generalizing idx lastWrite with
  | nil => simp [dependencyPass] at h
  | cons access accesses ih =>
      rw [dependencyPass, List.mem_append] at h
      rw [List.length_cons]
      rcases h with h | h
      · obtain ⟨loc, -, hmap⟩ := List.mem_filterMap.mp h
        obtain ⟨i, hi, rfl⟩ := Option.map_eq_some_iff.mp hmap
        exact ⟨hlast loc i hi, by omega⟩
      · have hnext := ih (fun loc i hi => ?_) h
        · omega
        · split at hi
          · obtain rfl := Option.some.inj hi
            exact Nat.lt_succ_self _
          · exact Nat.lt_succ_of_lt (hlast loc i hi)

end Pass

section Dependencies

variable {i j loc : ℕ} {accesses : List Access} {a b : Access}

theorem lt_of_mem_dependencies {edge : ℕ × ℕ} (h : edge ∈ dependencies accesses) :
    edge.1 < edge.2 ∧ edge.2 < accesses.length := by
  rcases List.mem_append.mp h with h | h
  · simpa using lt_of_mem_dependencyPass (by simp) h
  · obtain ⟨rev, hrev, rfl⟩ := List.mem_map.mp h
    have hlt := lt_of_mem_dependencyPass (by simp) hrev
    rw [List.length_reverse] at hlt
    dsimp only
    omega

/-- The nearest earlier writer of a word unlocks an instruction that touches it. -/
theorem mem_dependencies_of_writer (hi : accesses[i]? = some a) (hwrite : loc ∈ a.written)
    (hj : accesses[j]? = some b) (htouch : loc ∈ b.touched) (hij : i < j)
    (between : ∀ m, i < m → m < j → ∀ c, accesses[m]? = some c → loc ∉ c.written) :
    (i, j) ∈ dependencies accesses := by
  refine List.mem_append_left _ ?_
  simpa using mem_dependencyPass 0 _ hi hwrite hj htouch hij between

/-- An instruction unlocks the nearest later writer of a word it touches. -/
theorem mem_dependencies_of_touch (hi : accesses[i]? = some a) (htouch : loc ∈ a.touched)
    (hj : accesses[j]? = some b) (hwrite : loc ∈ b.written) (hij : i < j)
    (between : ∀ m, i < m → m < j → ∀ c, accesses[m]? = some c → loc ∉ c.written) :
    (i, j) ∈ dependencies accesses := by
  have hlen : j < accesses.length := (List.getElem?_eq_some_iff.mp hj).1
  have hrev (m : ℕ) (hm : m < accesses.length) :
      accesses.reverse[accesses.length - 1 - m]? = accesses[m]? := by
    rw [List.getElem?_reverse (by omega)]
    congr 1
    omega
  refine List.mem_append_right _ (List.mem_map.mpr ⟨(accesses.length - 1 - j,
    accesses.length - 1 - i), ?_, by dsimp only; ext <;> dsimp only <;> omega⟩)
  have hmem := mem_dependencyPass 0 (fun _ => none)
    (by rw [hrev j hlen, hj]) hwrite
    (by rw [hrev i (by omega), hi]) htouch (by omega) fun m hjm hmi c hc => ?_
  · simpa using hmem
  · have hm := hrev (accesses.length - 1 - m) (by omega)
    rw [show accesses.length - 1 - (accesses.length - 1 - m) = m by omega, hc] at hm
    exact between _ (by omega) (by omega) c hm.symm

/-- Instructions that share a word which one of them writes are connected: induction
on their distance, through the nearest writer in between. -/
theorem transGen_dependencies (hi : accesses[i]? = some a) (hia : loc ∈ a.touched)
    (hj : accesses[j]? = some b) (hjb : loc ∈ b.touched) (hij : i < j)
    (hwrite : loc ∈ a.written ∨ loc ∈ b.written) (sub : ∀ c ∈ accesses, c.written ⊆ c.touched) :
    Relation.TransGen (fun x y => (x, y) ∈ dependencies accesses) i j := by
  induction hd : j - i using Nat.strong_induction_on generalizing i j a b with
  | _ d ih =>
      subst hd
      by_cases hbetween : ∃ m, i < m ∧ m < j ∧ ∃ c, accesses[m]? = some c ∧ loc ∈ c.written
      · obtain ⟨m, him, hmj, c, hc, hcw⟩ := hbetween
        have hct : loc ∈ c.touched := sub c (List.mem_of_getElem? hc) hcw
        exact (ih (m - i) (by omega) hi hia hc hct him (.inr hcw) rfl).trans
          (ih (j - m) (by omega) hc hct hj hjb hmj (.inl hcw) rfl)
      · have between : ∀ m, i < m → m < j → ∀ c, accesses[m]? = some c → loc ∉ c.written :=
          fun m him hmj c hc hcw => hbetween ⟨m, him, hmj, c, hc, hcw⟩
        rcases hwrite with hwrite | hwrite
        · exact .single (mem_dependencies_of_writer hi hwrite hj hjb hij between)
        · exact .single (mem_dependencies_of_touch hi hia hj hwrite hij between)

end Dependencies

section AfterOf

theorem mem_addSorted {x y : ℕ} {xs : List ℕ} : y ∈ addSorted x xs ↔ y = x ∨ y ∈ xs := by
  induction xs with
  | nil => simp [addSorted]
  | cons z zs ih =>
      rw [addSorted]
      split
      · simp
      · split
        · simp_all
        · simp only [List.mem_cons, ih]
          tauto

theorem pairwise_addSorted {x : ℕ} {xs : List ℕ} (h : xs.Pairwise (· < ·)) :
    (addSorted x xs).Pairwise (· < ·) := by
  induction xs with
  | nil => simp [addSorted]
  | cons z zs ih =>
      obtain ⟨hz, hzs⟩ := List.pairwise_cons.mp h
      rw [addSorted]
      split
      case isTrue hlt =>
        refine List.pairwise_cons.mpr ⟨fun y hy => ?_, h⟩
        rcases List.mem_cons.mp hy with rfl | hy
        · exact hlt
        · exact hlt.trans (hz y hy)
      case isFalse hle =>
        split
        · exact h
        · refine List.pairwise_cons.mpr ⟨fun y hy => ?_, ih hzs⟩
          rcases mem_addSorted.mp hy with rfl | hy
          · omega
          · exact hz y hy

theorem afterOf_spec (edges : List (ℕ × ℕ)) (idx : ℕ) (after : List ℕ)
    (sorted : after.Pairwise (· < ·)) :
    let result := (edges.filter fun edge => edge.1 = idx).foldl
      (fun after edge => addSorted edge.2 after) after
    result.Pairwise (· < ·) ∧ ∀ y, y ∈ result ↔ y ∈ after ∨ (idx, y) ∈ edges := by
  induction edges generalizing after with
  | nil => simpa using sorted
  | cons edge edges ih =>
      rw [List.filter_cons]
      split
      case isTrue h =>
        obtain rfl : edge.1 = idx := by simpa using h
        obtain ⟨hsorted, hmem⟩ := ih (addSorted edge.2 after) (pairwise_addSorted sorted)
        refine ⟨hsorted, fun y => (hmem y).trans ?_⟩
        rw [mem_addSorted, List.mem_cons, Prod.ext_iff]
        tauto
      case isFalse h =>
        obtain ⟨hsorted, hmem⟩ := ih after sorted
        refine ⟨hsorted, fun y => (hmem y).trans ?_⟩
        rw [List.mem_cons]
        constructor
        · rintro (hy | hy)
          · exact .inl hy
          · exact .inr (.inr hy)
        · rintro (hy | rfl | hy)
          · exact .inl hy
          · simp at h
          · exact .inr hy

theorem mem_afterOf {edges : List (ℕ × ℕ)} {idx y : ℕ} :
    y ∈ afterOf edges idx ↔ (idx, y) ∈ edges :=
  ((afterOf_spec edges idx [] .nil).2 y).trans (by simp)

end AfterOf

end Explore.Takehome
