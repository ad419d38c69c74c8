import Explore.Galton.Points

/-!
# Points are conserved and the simulation completes

After `k` ticks at least `k` points have been let in, unless all have, and a point that
is still on the way has moved at least one slot in each tick since. So no point is left
after as many ticks as there are points and slots together.
-/

namespace Explore.Galton

variable {params : PointParams} {rand : ℕ → Bool} {totalPoints k : ℕ} {sim : SimState}

/-- What holds after `k` ticks. -/
structure Running (params : PointParams) (totalPoints k : ℕ) (sim : SimState) : Prop where
  params_eq : sim.params = params
  queue : Queue params sim.points
  conserved : sim.remainingPoints + sim.points.points.length + sim.points.landed.length =
    totalPoints
  inserted : sim.insertedPoints + sim.remainingPoints = totalPoints
  /-- Every tick lets a point in while there is one. -/
  remaining_le : sim.remainingPoints ≤ totalPoints - k
  /-- Every tick moves every point that is on the way. -/
  slot_ge : ∀ p ∈ sim.points.points, (k : ℤ) + 1 - totalPoints ≤ p.slotNumber
  completed : 0 < k →
    (sim.state = .completed ↔ sim.remainingPoints = 0 ∧ sim.points.points.length = 0)

theorem Running.new (params : PointParams) (totalPoints slotsPerFrame : ℕ) :
    Running params totalPoints 0 (.new params totalPoints slotsPerFrame) where
  params_eq := rfl
  queue := Queue.new params
  conserved := rfl
  inserted := Nat.zero_add _
  remaining_le := Nat.le_refl _
  slot_ge := by simp [SimState.new]
  completed := fun h => absurd h (Nat.lt_irrefl 0)

/-- A tick raises no exception and keeps the invariant. -/
theorem Running.tick (levels : 1 ≤ params.levels) (running : Running params totalPoints k sim)
    {slotsPerFrame : ℕ} (hspeed : 1 ≤ slotsPerFrame)
    (hstart : k = 0 → sim.state ≠ .completed) :
    ∃ sim', sim.tickWith rand slotsPerFrame = some sim' ∧
      Running params totalPoints (k + 1) sim' := by
  have hremaining := running.remaining_le
  have hconserved := running.conserved
  have hinserted := running.inserted
  rw [SimState.tickWith, SimState.simulateMovement]
  dsimp only
  by_cases hcompleted : sim.state = .completed
  · -- Nothing changes, and nothing is left that could.
    have hk : 0 < k := Nat.pos_of_ne_zero fun hk => hstart hk hcompleted
    obtain ⟨hzero, hempty⟩ := (running.completed hk).mp hcompleted
    rw [if_pos hcompleted]
    refine ⟨_, rfl, running.params_eq, running.queue, hconserved, hinserted, ?_, fun p hp => ?_,
      fun _ => running.completed hk⟩
    · dsimp only
      omega
    · rw [List.length_eq_zero_iff.mp hempty] at hp
      simp at hp
  · rw [if_neg hcompleted, running.params_eq]
    obtain ⟨ps', hsimulate, hqueue, hcount, hslots⟩ := running.queue.simulate rand levels
      (Nat.min_le_right sim.remainingPoints slotsPerFrame)
    simp only [hsimulate, Option.bind_eq_bind, Option.bind_some]
    refine ⟨_, rfl, rfl, hqueue, ?_, ?_, ?_, fun p hp => ?_, fun _ => ?_⟩
    · dsimp only
      omega
    · dsimp only
      omega
    · dsimp only
      omega
    · have hslot : p.slotNumber ∈ ps'.points.map Point.slotNumber := List.mem_map_of_mem hp
      rw [hslots] at hslot
      rcases List.mem_append.mp (List.mem_filter.mp hslot).1 with hslot | hslot
      · obtain ⟨q, hq, heq⟩ := List.mem_map.mp hslot
        have := running.slot_ge q hq
        push_cast
        omega
      · -- A new point: then some were left before this tick, so it is one of the first ticks.
        obtain ⟨i, hi, heq⟩ := List.mem_map.mp hslot
        have := List.mem_range.mp hi
        push_cast
        omega
    · dsimp only
      constructor
      · intro hstate
        by_contra hnot
        rw [if_neg fun hzero => hnot ⟨hzero.2, hzero.1⟩] at hstate
        exact hcompleted hstate
      · rintro ⟨hzero, hempty⟩
        exact if_pos ⟨hempty, hzero⟩

/-- Ticks raise no exception and keep the invariant. -/
theorem Running.ticks (levels : 1 ≤ params.levels) (running : Running params totalPoints k sim)
    {slotsPerFrames : List ℕ} (hspeed : ∀ s ∈ slotsPerFrames, 1 ≤ s)
    (hstart : k = 0 → sim.state ≠ .completed) :
    ∃ sim', sim.ticks rand slotsPerFrames = some sim' ∧
      Running params totalPoints (k + slotsPerFrames.length) sim' := by
  induction slotsPerFrames generalizing sim k with
  | nil => exact ⟨sim, rfl, running⟩
  | cons speed slotsPerFrames ih =>
      obtain ⟨mid, hmid, hrunning⟩ :=
        running.tick levels (hspeed speed List.mem_cons_self) hstart
      obtain ⟨sim', hrest, hrunning'⟩ := ih hrunning
        (fun s hs => hspeed s (List.mem_cons_of_mem _ hs)) fun hk => absurd hk (Nat.succ_ne_zero k)
      refine ⟨sim', ?_, ?_⟩
      · rw [SimState.ticks, List.foldlM_cons, hmid]
        exact hrest
      · rw [List.length_cons, show k + (slotsPerFrames.length + 1) =
          k + 1 + slotsPerFrames.length by omega]
        exact hrunning'

/-- After all points are in and the last one has passed all slots, none is on the way. -/
theorem Running.points_eq_nil (running : Running params totalPoints k sim)
    (hk : (totalPoints : ℤ) + params.maxSlotNumber ≤ k) : sim.points.points = [] := by
  by_contra hne
  obtain ⟨p, hp⟩ := List.exists_mem_of_ne_nil _ hne
  have hslot := running.slot_ge p hp
  have hmax := running.queue.unfinished p hp
  omega

/-- A simulation with any slots per frame, which may change between ticks, and any
outcomes of the draws. After every tick the points are conserved, each one in a bucket
has made all draws and is in the bucket of its successes, the state is `completed`
exactly when no point is left, and it is so after a number of ticks that is fixed by the
board. -/
theorem points_conserved (params : PointParams) (levels : 1 ≤ params.levels)
    (totalPoints slotsPerFrame : ℕ) (rand : ℕ → Bool) (slotsPerFrames : List ℕ)
    (speeds : ∀ s ∈ slotsPerFrames, 1 ≤ s) :
    ∃ sim, (SimState.new params totalPoints slotsPerFrame).ticks rand slotsPerFrames = some sim ∧
      sim.remainingPoints + sim.points.points.length + sim.points.buckets.sum = totalPoints ∧
      sim.insertedPoints = totalPoints - sim.remainingPoints ∧
      (∀ entry ∈ sim.points.landed, entry.1.draws.length = params.levels - 1 ∧
        entry.2 = entry.1.draws.count true ∧ entry.2 < sim.points.buckets.length) ∧
      (∀ b < params.levels, sim.points.buckets[b]? =
        some (sim.points.landed.countP fun entry => entry.2 = b)) ∧
      (slotsPerFrames ≠ [] →
        (sim.isCompleted ↔ sim.remainingPoints = 0 ∧ sim.points.points.length = 0)) ∧
      (totalPoints + params.slotsPerLevel * (params.levels - 1) + params.slotsIntoBucket + 1 ≤
        slotsPerFrames.length → sim.isCompleted) := by
  obtain ⟨sim, hticks, running⟩ := (Running.new params totalPoints slotsPerFrame).ticks
    levels speeds fun _ => by simp [SimState.new]
  rw [Nat.zero_add] at running
  have hlanded := running.queue.landed
  have hcompleted : slotsPerFrames ≠ [] →
      (sim.isCompleted ↔ sim.remainingPoints = 0 ∧ sim.points.points.length = 0) := by
    intro hne
    rw [SimState.isCompleted, decide_eq_true_iff]
    exact running.completed (List.length_pos_of_ne_nil hne)
  refine ⟨sim, hticks, ?_, ?_, fun entry hentry => ?_, hlanded.count, hcompleted, fun hk => ?_⟩
  · rw [hlanded.sum]
    exact running.conserved
  · have := running.inserted
    omega
  · obtain ⟨hdraws, hheads, hvalid⟩ := hlanded.draws entry hentry
    exact ⟨by omega, hheads, hlanded.length.symm ▸ hvalid⟩
  · have hmax : (0 : ℤ) ≤ params.slotsPerLevel * (params.levels - 1) := by
      rw [slotsPerLevel_eq]
      omega
    have hlength : totalPoints < slotsPerFrames.length := by omega
    refine (hcompleted fun hnil => by simp [hnil] at hlength).mpr ⟨?_, ?_⟩
    · have := running.remaining_le
      omega
    · rw [running.points_eq_nil (by rw [PointParams.maxSlotNumber]; omega)]
      rfl

/-- Two levels and three points at changing speeds. -/
theorem points_conserved_three :
    1 ≤ (PointParams.mk 3 2 15).levels ∧
      ∃ sim, (SimState.new ⟨3, 2, 15⟩ 3 5).ticks (fun k => k % 2 = 0) [2, 200, 1] = some sim ∧
        sim.remainingPoints + sim.points.points.length + sim.points.buckets.sum = 3 := by
  refine ⟨by decide, ?_⟩
  obtain ⟨sim, hticks, hconserved, -⟩ := points_conserved ⟨3, 2, 15⟩ (by decide) 3 5
    (fun k => k % 2 = 0) [2, 200, 1] (by decide)
  exact ⟨sim, hticks, hconserved⟩

end Explore.Galton
