import Explore.Galton.Points

/-!
# The points on the way fit the paint buffers

The painter allocates its buffers once, for `_maxOutstandingPoints` points. The queue never
holds more, whatever the numbers of new points and of slots in each frame: the slot numbers
of the queue decrease strictly, and they are at least 1 and at most the last slot.
-/

namespace Explore.Galton

/-- `_maxOutstandingPoints`. -/
def PointParams.maxOutstandingPoints (params : PointParams) : ℤ :=
  params.slotsPerLevel * params.levels + params.slotsIntoBucket + 1

namespace Points

/-- A call of `simulate` for each pair of new points and slots to advance. -/
def simulateAll (params : PointParams) (rand : ℕ → Bool) (ps : Points) (calls : List (ℕ × ℕ)) :
    Option Points :=
  calls.foldlM (fun ps call => ps.simulate params rand call.1 call.2) ps

/-- The slot numbers of all points during a call of `simulate`, after they have moved. -/
def movedSlots (ps : Points) (newPoints advanceBy : ℕ) : List ℤ :=
  (ps.points.map fun p => p.slotNumber + (advanceBy : ℤ)) ++
    (List.range newPoints).map fun i : ℕ => (advanceBy : ℤ) - i

/-- In any call of `simulate` the points that are done are the first ones. -/
def DonePrefix (params : PointParams) (rand : ℕ → Bool) (ps : Points) : Prop :=
  ∀ newPoints advanceBy, newPoints ≤ advanceBy → 1 ≤ advanceBy →
    ∃ ps' done, ps.simulate params rand newPoints advanceBy = some ps' ∧
      ps.movedSlots newPoints advanceBy = done ++ ps'.points.map Point.slotNumber ∧
      ∀ slot ∈ done, params.maxSlotNumber < slot

end Points

section Outstanding

variable {params : PointParams} {ps : Points} {slots : List ℤ} {bound : ℤ}

/-- Distinct numbers from 1 on are at most as many as the largest. -/
theorem length_le_of_decreasing (decreasing : slots.Pairwise fun a b => b < a)
    (hpos : ∀ slot ∈ slots, 1 ≤ slot) (hle : ∀ slot ∈ slots, slot ≤ bound) (hbound : 0 ≤ bound) :
    (slots.length : ℤ) ≤ bound := by
  induction slots generalizing bound with
  | nil => exact hbound
  | cons slot slots ih =>
      obtain ⟨hless, hrest⟩ := List.pairwise_cons.mp decreasing
      have hslot := hpos slot List.mem_cons_self
      have hlength := ih hrest (fun s hs => hpos s (List.mem_cons_of_mem _ hs))
        (fun s hs => Int.le_sub_one_of_lt (hless s hs)) (Int.sub_nonneg_of_le hslot)
      have hhead := hle slot List.mem_cons_self
      rw [List.length_cons]
      push_cast
      omega

/-- Of decreasing numbers, those above a bound come first. -/
theorem exists_filter_eq_append (decreasing : slots.Pairwise fun a b => b < a) :
    ∃ done, slots = done ++ slots.filter (· ≤ bound) ∧ ∀ slot ∈ done, bound < slot := by
  induction slots with
  | nil => exact ⟨[], rfl, List.forall_mem_nil _⟩
  | cons slot slots ih =>
      obtain ⟨hless, hrest⟩ := List.pairwise_cons.mp decreasing
      by_cases hslot : slot ≤ bound
      · have hall : ∀ s ∈ slot :: slots, decide (s ≤ bound) = true := by
          intro s hs
          rw [decide_eq_true_eq]
          obtain rfl | hs := List.mem_cons.mp hs
          · exact hslot
          · exact (hless s hs).le.trans hslot
        exact ⟨[], (List.filter_eq_self.mpr hall).symm, List.forall_mem_nil _⟩
      · obtain ⟨done, hdone, hlt⟩ := ih hrest
        refine ⟨slot :: done, ?_, List.forall_mem_cons.mpr ⟨lt_of_not_ge hslot, hlt⟩⟩
        rw [List.filter_cons_of_neg (by simpa using hslot), List.cons_append, ← hdone]

/-- Calls of `simulate` raise no exception and keep the invariant. -/
theorem Queue.simulateAll (rand : ℕ → Bool) (levels : 1 ≤ params.levels) {calls : List (ℕ × ℕ)}
    (fits : ∀ call ∈ calls, call.1 ≤ call.2) (queue : Queue params ps) :
    ∃ ps', ps.simulateAll params rand calls = some ps' ∧ Queue params ps' := by
  induction calls generalizing ps with
  | nil => exact ⟨ps, rfl, queue⟩
  | cons call calls ih =>
      obtain ⟨mid, hmid, hqueue, -⟩ := queue.simulate rand levels (fits call List.mem_cons_self)
      obtain ⟨ps', hrest, hqueue'⟩ := ih (fun c hc => fits c (List.mem_cons_of_mem _ hc)) hqueue
      refine ⟨ps', ?_, hqueue'⟩
      rw [Points.simulateAll, List.foldlM_cons, hmid]
      exact hrest

theorem Queue.length_le (levels : 1 ≤ params.levels) (queue : Queue params ps) :
    (ps.points.length : ℤ) ≤ params.maxOutstandingPoints := by
  have hmax := maxSlotNumber_eq params
  have hlength := @length_le_of_decreasing (ps.points.map Point.slotNumber) params.maxSlotNumber
    (List.pairwise_map.mpr queue.decreasing) (List.forall_mem_map.mpr queue.started)
    (List.forall_mem_map.mpr queue.unfinished) (by omega)
  rw [List.length_map] at hlength
  rw [PointParams.maxOutstandingPoints, slotsPerLevel_eq]
  omega

theorem Queue.movedSlots (queue : Queue params ps) {newPoints advanceBy : ℕ} :
    (ps.movedSlots newPoints advanceBy).Pairwise fun a b => b < a := by
  refine List.pairwise_append.mpr ⟨?_, ?_, fun a ha b hb => ?_⟩
  · exact List.pairwise_map.mpr (queue.decreasing.imp fun h => by omega)
  · exact List.pairwise_map.mpr (List.pairwise_lt_range.imp fun h => by omega)
  · obtain ⟨p, hp, rfl⟩ := List.mem_map.mp ha
    obtain ⟨i, -, rfl⟩ := List.mem_map.mp hb
    have := queue.started p hp
    omega

theorem Queue.donePrefix (rand : ℕ → Bool) (levels : 1 ≤ params.levels) (queue : Queue params ps) :
    ps.DonePrefix params rand := by
  intro newPoints advanceBy hnew _
  obtain ⟨ps', hsimulate, -, -, hslots⟩ := queue.simulate rand levels hnew
  obtain ⟨done, hdone, hlt⟩ := exists_filter_eq_append queue.movedSlots
  refine ⟨ps', done, hsimulate, ?_, hlt⟩
  rw [hslots]
  exact hdone

/-- After any calls of `simulate`, each with at most as many new points as slots to advance: no
exception is thrown, the slot numbers decrease strictly and are at least 1, the points on the way
fit the buffers, and the points that are done in the next call are the first ones. -/
theorem points_outstanding (params : PointParams) (levels : 1 ≤ params.levels) (rand : ℕ → Bool)
    (calls : List (ℕ × ℕ)) (fits : ∀ call ∈ calls, call.1 ≤ call.2 ∧ 1 ≤ call.2) :
    ∃ ps, (Points.new params).simulateAll params rand calls = some ps ∧
      (ps.points.Pairwise fun p q => q.slotNumber < p.slotNumber) ∧
      (∀ p ∈ ps.points, 1 ≤ p.slotNumber) ∧
      (ps.points.length : ℤ) ≤ params.maxOutstandingPoints ∧ ps.DonePrefix params rand := by
  obtain ⟨ps, hcalls, queue⟩ :=
    (Queue.new params).simulateAll rand levels fun call hcall => (fits call hcall).1
  exact ⟨ps, hcalls, queue.decreasing, queue.started, queue.length_le levels,
    queue.donePrefix rand levels⟩

/-- Two levels, with frames of different speeds. -/
theorem points_outstanding_two :
    ∃ ps, (Points.new ⟨3, 2, 15⟩).simulateAll ⟨3, 2, 15⟩ (fun _ => true) [(5, 5), (1, 100)] =
        some ps ∧ (ps.points.length : ℤ) ≤ PointParams.maxOutstandingPoints ⟨3, 2, 15⟩ := by
  obtain ⟨ps, hcalls, -, -, hlength, -⟩ :=
    points_outstanding ⟨3, 2, 15⟩ (by decide) (fun _ => true) [(5, 5), (1, 100)] (by decide)
  exact ⟨ps, hcalls, hlength⟩

end Outstanding

end Explore.Galton
