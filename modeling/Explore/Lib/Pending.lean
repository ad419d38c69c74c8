import Mathlib.Data.List.Basic
import Mathlib.Data.List.Perm.Basic
import Mathlib.Logic.Relation

/-!
# Pending tasks that unlock each other

A task has an id and a list of ids that it unlocks when it is done. The tasks still
pending are a list in the order of a sequential execution. A task is blocked as long
as a pending task unlocks its id; a blocked task is a node, the one that its id names.
`Ordered` says that conflicting pending tasks are connected by unlocking, so a task
that is not blocked conflicts with no pending task before it, and two such tasks never
conflict. It is kept when a task that is not blocked is done, when it is replaced by
pieces, and when it is replaced by a row of tasks that each unlock a new node.
-/

namespace Explore.Pending

open Relation

variable {α : Type*} (id : α → ℕ) (after : α → List ℕ)

/-- Some pending task unlocks `k`. -/
def Blocked (pending : List α) (k : ℕ) : Prop := k ∈ pending.flatMap after

/-- Node `b` is one of those that node `a` unlocks. -/
def Unlocks (nodes : List α) (a b : ℕ) : Prop := ∃ x, nodes[a]? = some x ∧ b ∈ after x

/-- A path of unlocking from a task to a node. -/
def LeadsTo (nodes : List α) (x : α) (k : ℕ) : Prop :=
  ∃ j ∈ after x, ReflTransGen (Unlocks after nodes) j k

/-- The pending tasks are in an order that respects their conflicts. -/
structure Ordered (conflict : α → α → Prop) (nodes pending : List α) : Prop where
  id_node : ∀ k x, nodes[k]? = some x → id x = k
  id_lt : ∀ x ∈ pending, id x < nodes.length
  after_lt : ∀ x ∈ pending, ∀ k ∈ after x, k < nodes.length
  waiting : ∀ k x, nodes[k]? = some x → Blocked after pending k →
    pending.filter (fun y => id y = k) = [x]
  ordered : pending.Pairwise fun a b => conflict a b → LeadsTo after nodes a (id b)

variable {id after} {conflict : α → α → Prop} {nodes pending : List α} {x y : α} {k : ℕ}

theorem LeadsTo.mono {more : List α} (h : LeadsTo after nodes x k) :
    LeadsTo after (nodes ++ more) x k := by
  obtain ⟨j, hj, path⟩ := h
  refine ⟨j, hj, path.lift (fun a => a) fun a b ⟨y, hy, hb⟩ => ⟨y, ?_, hb⟩⟩
  rw [List.getElem?_append_left (List.getElem?_eq_some_iff.mp hy).1, hy]

theorem blocked_of_mem_after (hx : x ∈ pending) (hk : k ∈ after x) : Blocked after pending k :=
  List.mem_flatMap.mpr ⟨x, hx, hk⟩

/-- In a list whose ids are consecutive, each id occurs once. -/
theorem filter_id_eq {base i : ℕ} {s : α} {row : List α}
    (ids : ∀ (i : ℕ) (s : α), row[i]? = some s → id s = base + i) (hs : row[i]? = some s) :
    row.filter (fun t => id t = base + i) = [s] := by
  induction row generalizing base i with
  | nil => simp at hs
  | cons t row ih =>
      have ht : id t = base := ids 0 t rfl
      have htail : ∀ (i : ℕ) (s : α), row[i]? = some s → id s = base + 1 + i := fun i s hi => by
        rw [ids (i + 1) s (by simpa using hi)]
        omega
      cases i with
      | zero =>
          obtain rfl : t = s := by simpa using hs
          rw [List.filter_cons_of_pos (by simp [ht]), List.filter_eq_nil_iff.mpr]
          intro u hu
          obtain ⟨i, hi, rfl⟩ := List.getElem_of_mem hu
          have := htail i _ (List.getElem?_eq_getElem hi)
          simp only [decide_eq_true_eq]
          omega
      | succ i =>
          rw [List.filter_cons_of_neg (by simp [ht])]
          have hi := ih htail (by simpa using hs)
          rwa [show base + 1 + i = base + (i + 1) by omega] at hi

namespace Ordered

/-- A blocked node is pending. -/
theorem node_mem (h : Ordered id after conflict nodes pending) (hx : nodes[k]? = some x)
    (blocked : Blocked after pending k) : x ∈ pending := by
  have hmem : x ∈ pending.filter (fun y => id y = k) := by
    rw [h.waiting k x hx blocked]
    exact List.mem_singleton_self x
  exact (List.mem_filter.mp hmem).1

/-- Whatever a pending task leads to is blocked: induction along the path, on which
every node is itself blocked and so pending. -/
theorem blocked_of_leadsTo (h : Ordered id after conflict nodes pending) (hx : x ∈ pending)
    (leads : LeadsTo after nodes x k) : Blocked after pending k := by
  obtain ⟨j, hj, path⟩ := leads
  induction path with
  | refl => exact blocked_of_mem_after hx hj
  | tail _ unlocks ih =>
      obtain ⟨y, hy, hk⟩ := unlocks
      exact blocked_of_mem_after (h.node_mem hy ih) hk

/-- A task that is not blocked conflicts with no pending task before it. -/
theorem not_conflict_of_before {before rest : List α}
    (h : Ordered id after conflict nodes (before ++ x :: rest))
    (ready : ¬ Blocked after (before ++ x :: rest) (id x)) :
    ∀ a ∈ before, ¬ conflict a x := by
  intro a ha hconf
  have hleads := (List.pairwise_append.mp h.ordered).2.2 a ha x List.mem_cons_self hconf
  exact ready (h.blocked_of_leadsTo (List.mem_append_left _ ha) hleads)

/-- Tasks that are not blocked do not conflict, at any two places of the list. -/
theorem pairwise_ready (h : Ordered id after conflict nodes pending)
    {ready : List α} (sub : ready.Sublist pending)
    (unblocked : ∀ x ∈ ready, ¬ Blocked after pending (id x)) :
    ready.Pairwise fun a b => ¬ conflict a b := by
  refine (h.ordered.sublist sub).imp_of_mem fun {a b} ha hb hleads hconf => ?_
  exact unblocked b hb (h.blocked_of_leadsTo (sub.subset ha) (hleads hconf))

/-- A conflict with itself keeps a ready task from occurring twice. -/
theorem nodup_of_ready (h : Ordered id after conflict nodes pending)
    {ready : List α} (sub : ready.Sublist pending)
    (unblocked : ∀ x ∈ ready, ¬ Blocked after pending (id x))
    (self : ∀ x ∈ pending, conflict x x) : ready.Nodup := by
  refine (h.pairwise_ready sub unblocked).imp_of_mem fun {a b} ha hb hconf heq => ?_
  subst heq
  exact hconf (self a (sub.subset ha))

section Done

variable {before rest : List α}

/-- A task that is not blocked is done. -/
theorem done (h : Ordered id after conflict nodes (before ++ x :: rest))
    (ready : ¬ Blocked after (before ++ x :: rest) (id x)) :
    Ordered id after conflict nodes (before ++ rest) := by
  have sub : (before ++ rest).Sublist (before ++ x :: rest) :=
    (List.Sublist.refl before).append (List.sublist_cons_self x rest)
  refine ⟨h.id_node, fun y hy => h.id_lt y (sub.subset hy),
    fun y hy => h.after_lt y (sub.subset hy), fun k y hk blocked => ?_, h.ordered.sublist sub⟩
  have hblocked : Blocked after (before ++ x :: rest) k := by
    obtain ⟨z, hz, hkz⟩ := List.mem_flatMap.mp blocked
    exact blocked_of_mem_after (sub.subset hz) hkz
  have hne : id x ≠ k := fun heq => ready (heq ▸ hblocked)
  have hwait := h.waiting k y hk hblocked
  rw [List.filter_append, List.filter_cons_of_neg (by simpa using hne)] at hwait
  rw [List.filter_append, hwait]

/-- A task that is not blocked is replaced by pieces that unlock the same nodes. -/
theorem replace {pieces : List α} (h : Ordered id after conflict nodes (before ++ x :: rest))
    (ready : ¬ Blocked after (before ++ x :: rest) (id x)) (nonempty : pieces ≠ [])
    (same : ∀ p ∈ pieces, id p = id x ∧ after p = after x)
    (before_piece : ∀ p ∈ pieces, ∀ a ∈ before, conflict a p → conflict a x)
    (piece_rest : ∀ p ∈ pieces, ∀ b ∈ rest, conflict p b → conflict x b)
    (apart : pieces.Pairwise fun p q => ¬ conflict p q) :
    Ordered id after conflict nodes (before ++ pieces ++ rest) := by
  have blocked_iff (k : ℕ) :
      Blocked after (before ++ pieces ++ rest) k ↔ Blocked after (before ++ x :: rest) k := by
    obtain ⟨p, hp⟩ := List.exists_mem_of_ne_nil pieces nonempty
    simp only [Blocked, List.mem_flatMap, List.mem_append, List.mem_cons]
    constructor
    · rintro ⟨y, (hy | hy) | hy, hk⟩
      · exact ⟨y, .inl hy, hk⟩
      · exact ⟨x, .inr (.inl rfl), (same y hy).2 ▸ hk⟩
      · exact ⟨y, .inr (.inr hy), hk⟩
    · rintro ⟨y, hy | rfl | hy, hk⟩
      · exact ⟨y, .inl (.inl hy), hk⟩
      · exact ⟨p, .inl (.inr hp), (same p hp).2 ▸ hk⟩
      · exact ⟨y, .inr hy, hk⟩
  have hx : x ∈ before ++ x :: rest := by simp
  have hordered := List.pairwise_append.mp h.ordered
  have hcons := List.pairwise_cons.mp hordered.2.1
  refine ⟨h.id_node, fun y hy => ?_, fun y hy => ?_, fun k y hk blocked => ?_, ?_⟩
  · rcases List.mem_append.mp hy with hy | hy
    · rcases List.mem_append.mp hy with hy | hy
      · exact h.id_lt y (by simp [hy])
      · exact (same y hy).1 ▸ h.id_lt x hx
    · exact h.id_lt y (by simp [hy])
  · rcases List.mem_append.mp hy with hy | hy
    · rcases List.mem_append.mp hy with hy | hy
      · exact h.after_lt y (by simp [hy])
      · exact (same y hy).2 ▸ h.after_lt x hx
    · exact h.after_lt y (by simp [hy])
  · have hblocked := (blocked_iff k).mp blocked
    have hne : id x ≠ k := fun heq => ready (heq ▸ hblocked)
    have hpieces : pieces.filter (fun p => id p = k) = [] :=
      List.filter_eq_nil_iff.mpr fun p hp => by simpa [(same p hp).1] using hne
    have hwait := h.waiting k y hk hblocked
    rw [List.filter_append, List.filter_cons_of_neg (by simpa using hne)] at hwait
    rw [List.filter_append, List.filter_append, hpieces, List.append_nil, hwait]
  · refine List.pairwise_append.mpr ⟨List.pairwise_append.mpr ⟨hordered.1, ?_, ?_⟩, hcons.2, ?_⟩
    · exact apart.imp fun hnot hconf => absurd hconf hnot
    · intro a ha p hp hconf
      exact absurd (before_piece p hp a ha hconf) (h.not_conflict_of_before ready a ha)
    · intro a ha b hb hconf
      rcases List.mem_append.mp ha with ha | ha
      · exact hordered.2.2 a ha b (List.mem_cons_of_mem x hb) hconf
      · obtain ⟨j, hj, path⟩ := hcons.1 b hb (piece_rest a ha b hb hconf)
        exact ⟨j, (same a ha).2 ▸ hj, path⟩

/-- A task that is not blocked is replaced by a row of tasks, each of which unlocks a
new node of its own; the new nodes unlock what the task did. -/
theorem fork {firsts seconds : List α} (h : Ordered id after conflict nodes (before ++ x :: rest))
    (ready : ¬ Blocked after (before ++ x :: rest) (id x))
    (length : firsts.length = seconds.length)
    (first : ∀ (i : ℕ) (p : α), firsts[i]? = some p → id p = id x ∧ after p = [nodes.length + i])
    (second : ∀ (i : ℕ) (s : α), seconds[i]? = some s → id s = nodes.length + i ∧ after s = after x)
    (before_piece : ∀ p ∈ firsts ++ seconds, ∀ a ∈ before, conflict a p → conflict a x)
    (piece_rest : ∀ p ∈ firsts ++ seconds, ∀ b ∈ rest, conflict p b → conflict x b)
    (apart_firsts : firsts.Pairwise fun p q => ¬ conflict p q)
    (apart_seconds : seconds.Pairwise fun p q => ¬ conflict p q)
    (same_lane : ∀ (i j : ℕ) (p s : α), firsts[i]? = some p → seconds[j]? = some s →
      conflict p s → i = j) :
    Ordered id after conflict (nodes ++ seconds) (before ++ (firsts ++ seconds) ++ rest) := by
  have hx : x ∈ before ++ x :: rest := by simp
  have hordered := List.pairwise_append.mp h.ordered
  have hcons := List.pairwise_cons.mp hordered.2.1
  have hold : ∀ y, y ∈ before ∨ y ∈ rest → y ∈ before ++ x :: rest := by
    rintro y (hy | hy) <;> simp [hy]
  have second_mem : ∀ s ∈ seconds, nodes.length ≤ id s ∧ id s < nodes.length + seconds.length ∧
      after s = after x := by
    intro s hs
    obtain ⟨i, hi, rfl⟩ := List.getElem_of_mem hs
    obtain ⟨hid, hafter⟩ := second i _ (List.getElem?_eq_getElem hi)
    exact ⟨by omega, by omega, hafter⟩
  have first_mem : ∀ p ∈ firsts, ∃ i < seconds.length,
      firsts[i]? = some p ∧ id p = id x ∧ after p = [nodes.length + i] := by
    intro p hp
    obtain ⟨i, hi, rfl⟩ := List.getElem_of_mem hp
    exact ⟨i, length ▸ hi, List.getElem?_eq_getElem hi, first i _ (List.getElem?_eq_getElem hi)⟩
  -- The tasks among the old ids that are blocked now were blocked before.
  have blocked_old (k : ℕ) (hk : k < nodes.length)
      (blocked : Blocked after (before ++ (firsts ++ seconds) ++ rest) k) :
      Blocked after (before ++ x :: rest) k := by
    obtain ⟨y, hy, hky⟩ := List.mem_flatMap.mp blocked
    simp only [List.mem_append] at hy
    rcases hy with (hy | hy | hy) | hy
    · exact blocked_of_mem_after (hold y (.inl hy)) hky
    · obtain ⟨i, -, -, -, hafter⟩ := first_mem y hy
      rw [hafter, List.mem_singleton] at hky
      omega
    · exact blocked_of_mem_after hx ((second_mem y hy).2.2 ▸ hky)
    · exact blocked_of_mem_after (hold y (.inr hy)) hky
  refine ⟨fun k y hk => ?_, fun y hy => ?_, fun y hy k hk => ?_, fun k y hk blocked => ?_, ?_⟩
  · rcases Nat.lt_or_ge k nodes.length with hlt | hge
    · rw [List.getElem?_append_left hlt] at hk
      exact h.id_node k y hk
    · rw [List.getElem?_append_right hge] at hk
      rw [(second _ y hk).1]
      omega
  · rw [List.length_append]
    simp only [List.mem_append] at hy
    rcases hy with (hy | hy | hy) | hy
    · exact Nat.lt_add_right _ (h.id_lt y (hold y (.inl hy)))
    · obtain ⟨i, -, -, hid, -⟩ := first_mem y hy
      rw [hid]
      exact Nat.lt_add_right _ (h.id_lt x hx)
    · exact (second_mem y hy).2.1
    · exact Nat.lt_add_right _ (h.id_lt y (hold y (.inr hy)))
  · rw [List.length_append]
    simp only [List.mem_append] at hy
    rcases hy with (hy | hy | hy) | hy
    · exact Nat.lt_add_right _ (h.after_lt y (hold y (.inl hy)) k hk)
    · obtain ⟨i, hi, -, -, hafter⟩ := first_mem y hy
      rw [hafter, List.mem_singleton] at hk
      omega
    · exact Nat.lt_add_right _ (h.after_lt x hx k ((second_mem y hy).2.2 ▸ hk))
    · exact Nat.lt_add_right _ (h.after_lt y (hold y (.inr hy)) k hk)
  · simp only [List.filter_append]
    rcases Nat.lt_or_ge k nodes.length with hlt | hge
    · rw [List.getElem?_append_left hlt] at hk
      have hblocked := blocked_old k hlt blocked
      have hne : id x ≠ k := fun heq => ready (heq ▸ hblocked)
      have hfirsts : firsts.filter (fun p => id p = k) = [] := by
        refine List.filter_eq_nil_iff.mpr fun p hp => ?_
        obtain ⟨i, -, -, hid, -⟩ := first_mem p hp
        simpa [hid] using hne
      have hseconds : seconds.filter (fun p => id p = k) = [] := by
        refine List.filter_eq_nil_iff.mpr fun s hs => ?_
        have := (second_mem s hs).1
        simp only [decide_eq_true_eq]
        omega
      have hwait := h.waiting k y hk hblocked
      rw [List.filter_append, List.filter_cons_of_neg (by simpa using hne)] at hwait
      rw [hfirsts, hseconds, List.append_nil, List.append_nil, hwait]
    · rw [List.getElem?_append_right hge] at hk
      have hother (ys : List α) (hys : ∀ z ∈ ys, id z < nodes.length) :
          ys.filter (fun z => id z = k) = [] := by
        refine List.filter_eq_nil_iff.mpr fun z hz => ?_
        have := hys z hz
        simp only [decide_eq_true_eq]
        omega
      rw [hother before fun z hz => h.id_lt z (hold z (.inl hz)),
        hother rest fun z hz => h.id_lt z (hold z (.inr hz)),
        hother firsts fun z hz => by
          obtain ⟨i, -, -, hid, -⟩ := first_mem z hz
          exact hid ▸ h.id_lt x hx]
      have hk' : nodes.length + (k - nodes.length) = k := by omega
      have hfilter := filter_id_eq (fun i s hs => (second i s hs).1) hk
      rw [hk'] at hfilter
      simpa using hfilter
  · refine List.pairwise_append.mpr ⟨List.pairwise_append.mpr ⟨?_, List.pairwise_append.mpr
      ⟨apart_firsts.imp fun hnot hconf => absurd hconf hnot,
        apart_seconds.imp fun hnot hconf => absurd hconf hnot, ?_⟩, ?_⟩, ?_, ?_⟩
    · exact hordered.1.imp fun hleads hconf => (hleads hconf).mono
    · intro p hp s hs hconf
      obtain ⟨i, hi, hpi, -, hafter⟩ := first_mem p hp
      obtain ⟨j, hj, rfl⟩ := List.getElem_of_mem hs
      obtain rfl := same_lane i j p _ hpi (List.getElem?_eq_getElem hj) hconf
      refine ⟨nodes.length + i, by rw [hafter]; exact List.mem_singleton_self _, ?_⟩
      rw [(second i _ (List.getElem?_eq_getElem hj)).1]
    · intro a ha p hp hconf
      exact absurd (before_piece p hp a ha hconf) (h.not_conflict_of_before ready a ha)
    · exact hcons.2.imp fun hleads hconf => (hleads hconf).mono
    · intro a ha b hb hconf
      rcases List.mem_append.mp ha with ha | ha
      · exact (hordered.2.2 a ha b (List.mem_cons_of_mem x hb) hconf).mono
      · obtain ⟨j, hj, path⟩ := (hcons.1 b hb (piece_rest a ha b hb hconf)).mono
        rcases List.mem_append.mp ha with ha | ha
        · obtain ⟨i, hi, -, -, hafter⟩ := first_mem a ha
          refine ⟨nodes.length + i, by rw [hafter]; exact List.mem_singleton_self _, .head ?_ path⟩
          refine ⟨seconds[i], ?_, ?_⟩
          · rw [List.getElem?_append_right (by omega), Nat.add_sub_cancel_left,
              List.getElem?_eq_getElem hi]
          · rw [(second i _ (List.getElem?_eq_getElem hi)).2]
            exact hj
        · exact ⟨j, (second_mem a ha).2.2 ▸ hj, path⟩

end Done

end Ordered

end Explore.Pending
