import Mathlib.Tactic.Linarith
import Mathlib.Tactic.Positivity
import Explore.OneBrc.ShardQueue

/-!
# The ranges tile the file

A range owns the lines that start after its first byte and not after its end.
Adjacent ranges therefore own different lines, and together those of their union.
The chunks given to the shards cover the file up to the start of the common
pool, whatever their number.
-/

namespace Explore.OneBrc

section Owned

variable {lines : List Line} {M s m e c : ℕ}

/-- A filter splits along two disjoint conditions that cover it. -/
theorem filter_perm_append {α : Type*} {p q r : α → Bool} {l : List α}
    (cover : ∀ x ∈ l, p x = (q x || r x)) (disjoint : ∀ x ∈ l, ¬ (q x = true ∧ r x = true)) :
    (l.filter p).Perm (l.filter q ++ l.filter r) := by
  have hq : (l.filter p).filter q = l.filter q := by
    rw [List.filter_filter]
    apply List.filter_congr
    intro x hx
    rw [cover x hx]
    cases q x <;> simp
  have hr : (l.filter p).filter (fun x => !q x) = l.filter r := by
    rw [List.filter_filter]
    apply List.filter_congr
    intro x hx
    have := disjoint x hx
    rw [cover x hx]
    cases hqx : q x <;> cases hrx : r x <;> simp_all
  have h := List.filter_append_perm q (l.filter p)
  rw [hq, hr] at h
  exact h.symm

/-- Adjacent ranges split the lines of their union. -/
theorem owned_split (hm : 0 < m) (hsm : s ≤ m) (hme : m ≤ e) :
    (owned lines M s e).Perm (owned lines M s m ++ owned lines M m e) := by
  apply filter_perm_append
  · intro l _
    rw [← Bool.decide_or, decide_eq_decide]
    omega
  · intro l _
    simp only [decide_eq_true_eq]
    omega

/-- Nothing starts after the end of the file. -/
theorem owned_of_le (h : M ≤ s) (hs : 0 < s) : owned lines M s e = [] := by
  rw [owned, List.filter_eq_nil_iff]
  intro l _
  simp only [decide_eq_true_eq]
  omega

/-- What a range owns and what is left above it are what was there before. -/
theorem owned_pool_perm (lines : List Line) (hm : 0 < m) (hsm : s ≤ m) :
    (owned lines M s m ++ (if M ≤ m then [] else owned lines M m M)).Perm (owned lines M s M) := by
  by_cases hle : M ≤ m
  · have hclip : owned lines M s m = owned lines M s M := by
      apply List.filter_congr
      intro l _
      rw [decide_eq_decide]
      omega
    rw [if_pos hle, List.append_nil, hclip]
  · rw [if_neg hle]
    exact (owned_split hm hsm (by omega)).symm

/-- The lines of `n` consecutive chunks. -/
def chunkLines (lines : List Line) (M c start n : ℕ) : List ℕ :=
  (List.range n).flatMap fun k => owned lines M (start + k * c) (start + (k + 1) * c)

theorem chunkLines_succ (start n : ℕ) :
    chunkLines lines M c start (n + 1) =
      owned lines M start (start + c) ++ chunkLines lines M c (start + c) n := by
  have hshift (k : ℕ) : start + (k + 1) * c = start + c + k * c := by ring
  simp only [chunkLines, List.range_succ_eq_map, List.flatMap_cons, List.flatMap_map, hshift,
    Nat.zero_mul, Nat.add_zero, Nat.succ_eq_add_one]

theorem chunkLines_add (start n n' : ℕ) :
    chunkLines lines M c start (n + n') =
      chunkLines lines M c start n ++ chunkLines lines M c (start + n * c) n' := by
  induction n generalizing start with
  | zero => simp [chunkLines]
  | succ n ih =>
      have hnext : start + c + n * c = start + (n + 1) * c := by ring
      rw [Nat.add_right_comm, chunkLines_succ, chunkLines_succ, ih, hnext, List.append_assoc]

/-- At least one chunk owns what the range of all of them owns. -/
theorem chunkLines_perm (lines : List Line) (M : ℕ) (hc : 0 < c) (start n : ℕ) :
    (chunkLines lines M c start (n + 1)).Perm (owned lines M start (start + (n + 1) * c)) := by
  induction n generalizing start with
  | zero => simp [chunkLines]
  | succ n ih =>
      have hnext : start + c + (n + 1) * c = start + (n + 1 + 1) * c := by ring
      rw [chunkLines_succ]
      refine ((ih (start + c)).append_left _).trans ?_
      rw [hnext]
      exact (owned_split (by omega) (by omega) (by nlinarith)).symm

/-- A whole number of chunks and the rest of the pool own all lines below `M`. -/
theorem chunkLines_pool_perm (lines : List Line) (hc : 0 < c) (n : ℕ) (hn : n * c ≤ M) :
    (chunkLines lines M c 0 n ++ (if M ≤ n * c then [] else owned lines M (n * c) M)).Perm
      (owned lines M 0 M) := by
  cases n with
  | zero =>
      rw [Nat.zero_mul]
      split
      · have hM : M = 0 := by omega
        have hnone : owned lines M 0 M = [] := by
          rw [owned, List.filter_eq_nil_iff]
          intro l _
          simp only [decide_eq_true_eq]
          omega
        rw [hnone]
        simp [chunkLines]
      · simp [chunkLines]
  | succ n =>
      have hpos : 0 < (n + 1) * c := Nat.mul_pos (by omega) hc
      have hrest : (if M ≤ (n + 1) * c then [] else owned lines M ((n + 1) * c) M) =
          owned lines M ((n + 1) * c) M := by
        split
        · rename_i hle
          exact (owned_of_le hle hpos).symm
        · rfl
      have hchunks := chunkLines_perm lines M hc 0 n
      rw [Nat.zero_add] at hchunks
      rw [hrest]
      exact (hchunks.append_right _).trans (owned_split hpos (by omega) hn).symm

end Owned

section Boundary

variable (left right : List Line)

/-- All lines of the file: those below the boundary and those from it on. -/
theorem lineStarts_boundary :
    lineStarts (left ++ right) =
      owned (left ++ right) (fileBytes left).length 0 (fileBytes left).length ++
        startsFrom (fileBytes left).length right := by
  have howned : owned (left ++ right) (fileBytes left).length 0 (fileBytes left).length =
      startsFrom 0 left := by
    rw [owned, lineStarts, startsFrom_append, Nat.zero_add, List.filter_append]
    have h1 : (startsFrom 0 left).filter (fun l => decide ((0 = 0 ∨ 0 < l) ∧
        l ≤ (fileBytes left).length ∧ l < (fileBytes left).length)) = startsFrom 0 left := by
      rw [List.filter_eq_self]
      intro l hl
      have := lt_end_of_mem_startsFrom hl
      exact decide_eq_true ⟨Or.inl rfl, by omega, by omega⟩
    have h2 : (startsFrom (fileBytes left).length right).filter (fun l => decide ((0 = 0 ∨ 0 < l) ∧
        l ≤ (fileBytes left).length ∧ l < (fileBytes left).length)) = [] := by
      rw [List.filter_eq_nil_iff]
      intro l hl
      have := off_le_of_mem_startsFrom hl
      simp only [decide_eq_true_eq]
      omega
    rw [h1, h2, List.append_nil]
  rw [howned, lineStarts, startsFrom_append, Nat.zero_add]

/-- The range set for the tail owns the lines from the boundary on. -/
theorem owned_tail :
    owned (left ++ right) (fileBytes (left ++ right)).length ((fileBytes left).length - 1)
      (fileBytes (left ++ right)).length = startsFrom (fileBytes left).length right := by
  have hF : (fileBytes (left ++ right)).length =
      (fileBytes left).length + (fileBytes right).length := by
    rw [fileBytes_append, List.length_append]
  rw [owned, lineStarts, startsFrom_append, Nat.zero_add, List.filter_append]
  have h1 : (startsFrom 0 left).filter (fun l => decide (((fileBytes left).length - 1 = 0 ∨
      (fileBytes left).length - 1 < l) ∧ l ≤ (fileBytes (left ++ right)).length ∧
        l < (fileBytes (left ++ right)).length)) = [] := by
    rw [List.filter_eq_nil_iff]
    intro l hl
    have hlt := lt_end_of_mem_startsFrom hl
    have hlong : 6 ≤ (fileBytes left).length := by
      cases left with
      | nil => simp [startsFrom] at hl
      | cons line left =>
          have := line.length_bytes.1
          rw [fileBytes_cons, List.length_append]
          omega
    simp only [decide_eq_true_eq]
    omega
  have h2 : (startsFrom (fileBytes left).length right).filter (fun l =>
      decide (((fileBytes left).length - 1 = 0 ∨ (fileBytes left).length - 1 < l) ∧
        l ≤ (fileBytes (left ++ right)).length ∧ l < (fileBytes (left ++ right)).length)) =
      startsFrom (fileBytes left).length right := by
    rw [List.filter_eq_self]
    intro l hl
    have := off_le_of_mem_startsFrom hl
    have := lt_end_of_mem_startsFrom hl
    simp only [decide_eq_true_eq]
    omega
  rw [h1, h2, List.nil_append]

end Boundary

section Distribute

variable {c : ℕ} {threshold : ℕ → ℤ → ℤ}

theorem ceil_share (rem n : ℕ) :
    ((rem : ℤ) + ((n : ℤ) + 1) - 1).tdiv ((n : ℤ) + 1) = ((rem + n) / (n + 1) : ℕ) := by
  have h : (rem : ℤ) + ((n : ℤ) + 1) - 1 = (rem + n : ℕ) := by
    push_cast
    ring
  rw [h]
  rfl

theorem ceil_share_le (rem n : ℕ) : (rem + n) / (n + 1) ≤ rem := by
  apply Nat.le_of_lt_succ
  rw [Nat.div_lt_iff_lt_mul (by omega)]
  nlinarith

theorem length_distribute (i : ℕ) (start rem : ℤ) (n : ℕ) :
    (distribute c threshold i start rem n).length = n := by
  induction n generalizing i start rem with
  | zero => rfl
  | succ n ih => simp [distribute, ih]

/-- The shares are whole numbers of chunks that start at multiples of the chunk
size, and lie one after another. -/
theorem distribute_spec (lines : List Line) (M i start rem n : ℕ) :
    (∀ d ∈ distribute c threshold i start rem (n + 1), 0 ≤ d.nextBegin ∧ 0 ≤ d.remaining ∧
      d.nextBegin + d.remaining * c ≤ start + rem * c) ∧
    (distribute c threshold i start rem (n + 1)).flatMap (fun d =>
      chunkLines lines M c d.nextBegin.toNat d.remaining.toNat) =
        chunkLines lines M c start rem := by
  induction n generalizing i start rem with
  | zero =>
      simp [distribute]
  | succ n ih =>
      have hshare := ceil_share rem (n + 1)
      have hle := ceil_share_le rem (n + 1)
      generalize (rem + (n + 1)) / (n + 1 + 1) = share at hshare hle
      obtain ⟨rest, rfl⟩ := Nat.exists_eq_add_of_le hle
      obtain ⟨hall, hlines⟩ := ih (i + 1) (start + share * c) rest
      have hcast : ((start + share * c : ℕ) : ℤ) = start + share * c := by push_cast; ring
      have hrest : ((share + rest : ℕ) : ℤ) - share = rest := by push_cast; ring
      rw [distribute]
      simp only [hshare, hrest]
      rw [← hcast]
      refine ⟨fun d hd => ?_, ?_⟩
      · rw [List.mem_cons] at hd
        obtain rfl | hd := hd
        · refine ⟨by positivity, by positivity, ?_⟩
          push_cast
          nlinarith [mul_nonneg (Int.natCast_nonneg rest) (Int.natCast_nonneg c)]
        · obtain ⟨h1, h2, h3⟩ := hall d hd
          refine ⟨h1, h2, ?_⟩
          push_cast at h3 ⊢
          nlinarith
      · rw [List.flatMap_cons, hlines, chunkLines_add]
        rfl

end Distribute

end Explore.OneBrc
