import Explore.Galton.SimState
import Mathlib.Algebra.BigOperators.Group.List.Basic
import Mathlib.Tactic.Linarith

/-!
# One advance of all points

A point on the way has made as many draws as its slot number asks for, whatever jumps
brought it there. The slot numbers of the queue decrease, so the points that are done
after an advance are the first ones, and the loop that removes them while it runs over
the queue neither skips a point nor throws.
-/

namespace Explore.Galton

variable {params : PointParams} {rand : ℕ → Bool} {next : ℕ} {p : Point} {slots : ℤ}

theorem slotsPerLevel_eq (params : PointParams) : params.slotsPerLevel = 128 := by
  rw [PointParams.slotsPerLevel, controllerSlotsPerLevelBits]
  decide

theorem maxSlotNumber_eq (params : PointParams) :
    params.maxSlotNumber = 128 * ((params.levels : ℤ) - 1) + params.slotsIntoBucket := by
  rw [PointParams.maxSlotNumber, slotsPerLevel_eq]

section Trials

theorem getTrials_of_pos {slot : ℤ} (h : 0 < slot) :
    Point.getTrials params slot = min ((slot - 1) / 128 + 1) ((params.levels : ℤ) - 1) := by
  have hdiv : (slot - 1).tdiv 128 = (slot - 1) / 128 :=
    Int.tdiv_eq_ediv_of_nonneg (by omega)
  rw [Point.getTrials, if_neg (by omega), slotsPerLevel_eq, hdiv]
  dsimp only
  split <;> omega

theorem getTrials_of_nonpos {slot : ℤ} (h : slot ≤ 0) : Point.getTrials params slot = 0 :=
  if_pos h

theorem getTrials_bounds (levels : 1 ≤ params.levels) (slot : ℤ) :
    0 ≤ Point.getTrials params slot ∧ Point.getTrials params slot ≤ params.levels - 1 := by
  rcases le_or_gt slot 0 with h | h
  · rw [getTrials_of_nonpos h]
    omega
  · rw [getTrials_of_pos h]
    omega

theorem getTrials_mono (levels : 1 ≤ params.levels) {slot slot' : ℤ} (h : slot ≤ slot') :
    Point.getTrials params slot ≤ Point.getTrials params slot' := by
  rcases le_or_gt slot 0 with hslot | hslot
  · rw [getTrials_of_nonpos hslot]
    exact (getTrials_bounds levels slot').1
  · rw [getTrials_of_pos hslot, getTrials_of_pos (by omega)]
    omega

/-- Past the last level all draws are made. -/
theorem getTrials_of_near (levels : 1 ≤ params.levels) {slot : ℤ}
    (h : 128 * ((params.levels : ℤ) - 1) < slot) :
    Point.getTrials params slot = params.levels - 1 := by
  rw [getTrials_of_pos (by omega)]
  omega

end Trials

/-- A point on the way: it has made the draws that its slot number asks for. -/
structure Travels (params : PointParams) (p : Point) : Prop where
  complete : p.complete = false
  draws : (p.draws.length : ℤ) = Point.getTrials params p.slotNumber
  heads : p.numHeads = p.draws.count true
  level : p.level = p.draws.length ∨ p.level = params.levels ∧
    (p.draws.length : ℤ) = params.levels - 1

section Advance

theorem foldl_draw (outcomes : List Bool) (p : Point) :
    (outcomes.foldl Point.draw p).draws = p.draws ++ outcomes ∧
      (outcomes.foldl Point.draw p).numHeads = p.numHeads + outcomes.count true ∧
      (outcomes.foldl Point.draw p).slotNumber = p.slotNumber ∧
      (outcomes.foldl Point.draw p).complete = p.complete ∧
      (outcomes.foldl Point.draw p).level = p.level := by
  induction outcomes generalizing p with
  | nil => simp
  | cons success outcomes ih =>
      obtain ⟨hdraws, hheads, hslot, hcomplete, hlevel⟩ := ih (p.draw success)
      refine ⟨?_, ?_, hslot, hcomplete, hlevel⟩
      · rw [List.foldl_cons, hdraws, Point.draw, List.append_assoc]
        rfl
      · rw [List.foldl_cons, hheads, Point.draw, List.count_cons]
        cases success with
        | false => simp
        | true =>
            simp
            omega

/-- After the remaining trials a point that moved has the draws of its new slot. -/
theorem tryRemaining_spec (levels : 1 ≤ params.levels) (travels : Travels params p)
    (hslots : 0 ≤ slots) (q : Point) (hq : q = { p with slotNumber := p.slotNumber + slots }) :
    ((q.tryRemaining params rand next).1.slotNumber = p.slotNumber + slots) ∧
      Travels params (q.tryRemaining params rand next).1 := by
  have hmono := getTrials_mono levels (show p.slotNumber ≤ p.slotNumber + slots by omega)
  have hbound := (getTrials_bounds levels (p.slotNumber + slots)).2
  have hdraws := travels.draws
  have hlevel := travels.level
  subst hq
  rw [Point.tryRemaining]
  dsimp only
  by_cases hnew : Point.getTrials params (p.slotNumber + slots) > p.level
  · rw [if_pos hnew]
    obtain ⟨hfold, hheads, hslot, hcomplete, -⟩ := foldl_draw
      ((List.range' next (Point.getTrials params (p.slotNumber + slots) - p.level).toNat).map rand)
      { p with slotNumber := p.slotNumber + slots }
    refine ⟨hslot, hcomplete.trans travels.complete, ?_, ?_, .inl ?_⟩
    · dsimp only
      rw [hfold, hslot]
      simp only [List.length_append, List.length_map, List.length_range']
      push_cast
      omega
    · dsimp only
      rw [hheads, hfold, List.count_append, ← travels.heads]
    · dsimp only
      rw [hfold]
      simp only [List.length_append, List.length_map, List.length_range']
      push_cast
      omega
  · rw [if_neg hnew]
    refine ⟨rfl, travels.complete, ?_, travels.heads, hlevel⟩
    dsimp only
    omega

/-- `advance` on a point that moves forward: the point is done exactly when it is past
its last slot, and then it has made all draws. -/
theorem advance_spec (rand : ℕ → Bool) (next : ℕ) (levels : 1 ≤ params.levels)
    (travels : Travels params p)
    (hslots : 0 ≤ slots) (hpos : 0 < p.slotNumber + slots) :
    ∃ p' next', p'.slotNumber = p.slotNumber + slots ∧
      (params.maxSlotNumber < p'.slotNumber →
        p.advance params rand next slots = some (p', next', (p'.numHeads : ℤ)) ∧
        (p'.draws.length : ℤ) = params.levels - 1 ∧ p'.numHeads = p'.draws.count true) ∧
      (p'.slotNumber ≤ params.maxSlotNumber →
        p.advance params rand next slots = some (p', next', -1) ∧ Travels params p') := by
  obtain ⟨hslot, htravels⟩ :=
    tryRemaining_spec levels travels hslots _ rfl
  have hcomplete : ¬ p.complete = true := by
    rw [travels.complete]
    decide
  have hmax := maxSlotNumber_eq params
  simp only [Point.advance, if_neg hcomplete, if_neg (not_le.mpr hpos)]
  generalize Point.tryRemaining params rand next { p with slotNumber := p.slotNumber + slots } =
    result at hslot htravels ⊢
  obtain ⟨q, next'⟩ := result
  dsimp only at hslot htravels ⊢
  by_cases hdone : q.slotNumber > params.maxSlotNumber
  · rw [if_pos hdone]
    refine ⟨{ q with complete := true, nearBucket := false, level := params.levels }, next', hslot,
      fun _ => ⟨rfl, ?_, htravels.heads⟩, fun hle => absurd hdone (not_lt.mpr hle)⟩
    exact htravels.draws.trans (getTrials_of_near levels (by omega))
  · rw [if_neg hdone, slotsPerLevel_eq]
    by_cases hnear : q.slotNumber > 128 * ((params.levels : ℤ) - 1)
    · rw [if_pos hnear]
      refine ⟨{ q with
        nearBucket := true
        nearBucketSlot := q.slotNumber - 128 * ((params.levels : ℤ) - 1)
        level := params.levels }, next', hslot, fun hlt => absurd hlt hdone, fun _ => ⟨rfl,
        htravels.complete, htravels.draws, htravels.heads, .inr ⟨rfl, ?_⟩⟩⟩
      exact htravels.draws.trans (getTrials_of_near levels hnear)
    · rw [if_neg hnear]
      exact ⟨_, _, hslot, fun hlt => absurd hlt hdone, fun _ => ⟨rfl, htravels⟩⟩

end Advance

/-- The buckets count the points that landed, each in the bucket of its heads after all
draws. -/
structure Landed (params : PointParams) (ps : Points) : Prop where
  length : ps.buckets.length = params.levels
  sum : ps.buckets.sum = ps.landed.length
  count : ∀ b < params.levels,
    ps.buckets[b]? = some (ps.landed.countP fun entry => entry.2 = b)
  draws : ∀ entry ∈ ps.landed, (entry.1.draws.length : ℤ) = params.levels - 1 ∧
    entry.2 = entry.1.draws.count true ∧ entry.2 < params.levels

section Buckets

variable {ps : Points}

theorem sum_modify {xs : List ℕ} {i : ℕ} (h : i < xs.length) :
    (xs.modify i (· + 1)).sum = xs.sum + 1 := by
  induction xs generalizing i with
  | nil => simp at h
  | cons x xs ih =>
      cases i with
      | zero => simp [Nat.add_right_comm]
      | succ i =>
          rw [List.modify_succ_cons, List.sum_cons, List.sum_cons, ih (by simpa using h),
            Nat.add_assoc]

/-- A point that has made all draws lands in the bucket of its heads. -/
theorem Landed.increment (ps : Points) (landed : Landed params ps)
    (hdraws : (p.draws.length : ℤ) = params.levels - 1) (hheads : p.numHeads = p.draws.count true) :
    ∃ ps', ps.increment p (p.numHeads : ℤ) = some ps' ∧ Landed params ps' ∧
      ps'.landed.length = ps.landed.length + 1 := by
  have hcount : p.draws.count true ≤ p.draws.length := List.count_le_length
  have hvalid : p.numHeads < params.levels := by omega
  have hindex : p.numHeads < ps.buckets.length := landed.length ▸ hvalid
  rw [Points.increment, if_pos ⟨by omega, by omega⟩]
  refine ⟨_, rfl, ⟨?_, ?_, fun b hb => ?_, fun entry hentry => ?_⟩, by simp⟩
  · rw [List.length_modify]
    exact landed.length
  · simp [sum_modify hindex, landed.sum]
  · dsimp only
    rw [Int.toNat_natCast, List.getElem?_modify, landed.count b hb, List.countP_append]
    by_cases heq : p.numHeads = b
    · simp [heq]
    · simp [heq]
  · rcases List.mem_append.mp hentry with hentry | hentry
    · exact landed.draws entry hentry
    · obtain rfl := List.mem_singleton.mp hentry
      exact ⟨hdraws, hheads, hvalid⟩

end Buckets

section Simulate

variable {ps : Points} {front rest : List Point}

/-- The loop over the queue: the points that stay keep their order, and the others land. -/
theorem advanceAll_spec (front : List Point) (ps : Points) (levels : 1 ≤ params.levels)
    (hslots : 0 ≤ slots)
    (landed : Landed params ps) (travels : ∀ p ∈ rest, Travels params p)
    (forward : ∀ p ∈ rest, 0 < p.slotNumber + slots)
    (decreasing : rest.Pairwise fun p q => q.slotNumber < p.slotNumber)
    (hfront : front ≠ [] → ∀ p ∈ rest, p.slotNumber + slots ≤ params.maxSlotNumber) :
    ∃ ps' stay, Points.advanceAll params rand slots front rest ps = some ps' ∧
      ps'.points = front ++ stay ∧ Landed params ps' ∧ (∀ p ∈ stay, Travels params p) ∧
      stay.map Point.slotNumber = (rest.map fun p => p.slotNumber + slots).filter
        (· ≤ params.maxSlotNumber) ∧
      stay.length + ps'.landed.length = rest.length + ps.landed.length := by
  induction rest generalizing front ps with
  | nil => exact ⟨_, [], rfl, by simp, ⟨landed.length, landed.sum, landed.count, landed.draws⟩,
      by simp, rfl, rfl⟩
  | cons p rest ih =>
      obtain ⟨hless, hdecreasing⟩ := List.pairwise_cons.mp decreasing
      obtain ⟨p', next', hslot, hdone, hstay⟩ := advance_spec rand ps.next levels
        (travels p List.mem_cons_self) hslots (forward p List.mem_cons_self)
      have htravels : ∀ q ∈ rest, Travels params q :=
        fun q hq => travels q (List.mem_cons_of_mem p hq)
      have hforward : ∀ q ∈ rest, 0 < q.slotNumber + slots := fun q hq =>
        forward q (List.mem_cons_of_mem p hq)
      rw [Points.advanceAll, List.map_cons]
      by_cases hpast : params.maxSlotNumber < p'.slotNumber
      · -- The point is done. No point in front stayed, since they had larger slot numbers.
        obtain ⟨hadvance, hdraws, hheads⟩ := hdone hpast
        have hempty : front = [] := by
          by_contra hne
          have := hfront hne p List.mem_cons_self
          omega
        obtain ⟨ps₁, hincrement, hlanded, hlength⟩ := Landed.increment { ps with next := next' }
          ⟨landed.length, landed.sum, landed.count, landed.draws⟩ hdraws hheads
        obtain ⟨ps', stay, hloop, hpoints, hlanded', hstays, hmap, hcount⟩ :=
          ih _ _ hlanded htravels hforward hdecreasing fun hne => absurd hempty hne
        refine ⟨ps', stay, ?_, hpoints, hlanded', hstays, ?_, ?_⟩
        · simp only [hadvance, Option.bind_eq_bind, Option.bind_some]
          rw [if_pos (Int.natCast_nonneg _), if_neg (not_not.mpr hempty), hincrement]
          exact hloop
        · rw [List.filter_cons_of_neg (by simpa [← hslot] using hpast)]
          exact hmap
        · dsimp only at hlength
          rw [List.length_cons]
          omega
      · -- The point stays, and so does every point behind it.
        obtain ⟨hadvance, htravel⟩ := hstay (not_lt.mp hpast)
        obtain ⟨ps', stay, hloop, hpoints, hlanded', hstays, hmap, hcount⟩ :=
          ih (front ++ [p']) { ps with next := next' }
            ⟨landed.length, landed.sum, landed.count, landed.draws⟩ htravels hforward hdecreasing
            fun _ q hq => by
              have := hless q hq
              omega
        refine ⟨ps', p' :: stay, ?_, by simpa using hpoints, hlanded', ?_, ?_, ?_⟩
        · simp only [hadvance, Option.bind_eq_bind, Option.bind_some]
          rw [if_neg (by decide)]
          exact hloop
        · intro q hq
          rcases List.mem_cons.mp hq with rfl | hq
          · exact htravel
          · exact hstays q hq
        · rw [List.filter_cons_of_pos (by simpa [← hslot] using hpast), List.map_cons, hmap, hslot]
        · rw [List.length_cons, List.length_cons]
          dsimp only at hcount
          omega

/-- The points that a frame lets in. -/
theorem mapM_new (n : ℕ) :
    ∃ new, ((List.range n).mapM fun i : ℕ => Point.new (-(i : ℤ))) = some new ∧
      new.map Point.slotNumber = (List.range n).map (fun i : ℕ => -(i : ℤ)) ∧
      ∀ p ∈ new, Travels params p := by
  induction n with
  | zero => exact ⟨[], rfl, rfl, by simp⟩
  | succ n ih =>
      obtain ⟨new, hnew, hmap, htravels⟩ := ih
      have hlast : Point.new (-(n : ℤ)) = some ⟨-(n : ℤ), -1, 0, 0, false, 0, false, []⟩ :=
        if_neg (by omega)
      refine ⟨new ++ [⟨-(n : ℤ), -1, 0, 0, false, 0, false, []⟩], ?_, ?_, ?_⟩
      · rw [List.range_succ, List.mapM_append, hnew]
        simp [hlast]
      · rw [List.range_succ, List.map_append, List.map_append, hmap]
        rfl
      · intro p hp
        rcases List.mem_append.mp hp with hp | hp
        · exact htravels p hp
        · obtain rfl := List.mem_singleton.mp hp
          exact ⟨rfl, (getTrials_of_nonpos (by dsimp only; omega)).symm, rfl, .inl rfl⟩

/-- What holds of the queue between two calls of `simulate`. -/
structure Queue (params : PointParams) (ps : Points) : Prop where
  landed : Landed params ps
  travels : ∀ p ∈ ps.points, Travels params p
  started : ∀ p ∈ ps.points, 1 ≤ p.slotNumber
  unfinished : ∀ p ∈ ps.points, p.slotNumber ≤ params.maxSlotNumber
  decreasing : ps.points.Pairwise fun p q => q.slotNumber < p.slotNumber

/-- The points before the first frame. -/
def Points.new (params : PointParams) : Points := ⟨[], List.replicate params.levels 0, 0, []⟩

theorem Queue.new (params : PointParams) : Queue params (Points.new params) where
  landed :=
    { length := List.length_replicate
      sum := by simp [Points.new]
      count := fun b hb => by simp [Points.new, hb]
      draws := List.forall_mem_nil _ }
  travels := List.forall_mem_nil _
  started := List.forall_mem_nil _
  unfinished := List.forall_mem_nil _
  decreasing := .nil

/-- `simulate` with at most as many new points as slots to advance: no exception, every
point moves by the same number of slots, and those past the last slot land. -/
theorem Queue.simulate (rand : ℕ → Bool) (levels : 1 ≤ params.levels) (queue : Queue params ps)
    {newPoints advanceBy : ℕ} (hnew : newPoints ≤ advanceBy) :
    ∃ ps', ps.simulate params rand newPoints advanceBy = some ps' ∧ Queue params ps' ∧
      ps'.points.length + ps'.landed.length = ps.points.length + newPoints + ps.landed.length ∧
      ps'.points.map Point.slotNumber =
        ((ps.points.map fun p => p.slotNumber + (advanceBy : ℤ)) ++
          (List.range newPoints).map fun i : ℕ => (advanceBy : ℤ) - i).filter
            (· ≤ params.maxSlotNumber) := by
  obtain ⟨new, hmap, hslots, htravels⟩ := mapM_new newPoints
  have hlength : new.length = newPoints := by simpa using congrArg List.length hslots
  have hnewSlot : ∀ p ∈ new, ∃ i < newPoints, p.slotNumber = -(i : ℤ) := by
    intro p hp
    have hmem : p.slotNumber ∈ (List.range newPoints).map fun i : ℕ => -(i : ℤ) :=
      hslots ▸ List.mem_map_of_mem hp
    obtain ⟨i, hi, heq⟩ := List.mem_map.mp hmem
    exact ⟨i, List.mem_range.mp hi, heq.symm⟩
  have hdecreasing : (ps.points ++ new).Pairwise fun p q => q.slotNumber < p.slotNumber := by
    refine List.pairwise_append.mpr ⟨queue.decreasing, ?_, fun p hp q hq => ?_⟩
    · have hrange : (new.map Point.slotNumber).Pairwise fun a b => b < a := by
        rw [hslots]
        exact List.pairwise_map.mpr (List.pairwise_lt_range.imp fun h => by omega)
      exact List.pairwise_map.mp hrange
    · obtain ⟨i, -, hq⟩ := hnewSlot q hq
      have := queue.started p hp
      omega
  obtain ⟨ps', stay, hloop, hpoints, hlanded, hstays, hfilter, hcount⟩ :=
    advanceAll_spec [] _ levels (show 0 ≤ (advanceBy : ℤ) by omega)
      queue.landed (fun p hp => by
        rcases List.mem_append.mp hp with hp | hp
        · exact queue.travels p hp
        · exact htravels p hp) (fun p hp => by
        rcases List.mem_append.mp hp with hp | hp
        · have := queue.started p hp
          omega
        · obtain ⟨i, hi, hslot⟩ := hnewSlot p hp
          omega) hdecreasing fun hne => absurd rfl hne
  have hstay : ps'.points = stay := by simpa using hpoints
  have hadvanced : ((ps.points ++ new).map fun p => p.slotNumber + (advanceBy : ℤ)) =
      (ps.points.map fun p => p.slotNumber + (advanceBy : ℤ)) ++
        (List.range newPoints).map fun i : ℕ => (advanceBy : ℤ) - i := by
    have hshift : (new.map fun p => p.slotNumber + (advanceBy : ℤ)) =
        (new.map Point.slotNumber).map (· + (advanceBy : ℤ)) := by
      rw [List.map_map]
      rfl
    rw [List.map_append, hshift, hslots, List.map_map]
    congr 1
    refine List.map_congr_left fun i _ => ?_
    simp only [Function.comp_apply]
    omega
  have hmem : ∀ p ∈ ps'.points, 1 ≤ p.slotNumber ∧ p.slotNumber ≤ params.maxSlotNumber := by
    intro p hp
    have hslot : p.slotNumber ∈ stay.map Point.slotNumber :=
      List.mem_map_of_mem (hstay ▸ hp)
    rw [hfilter, hadvanced] at hslot
    obtain ⟨hslot, hmax⟩ := List.mem_filter.mp hslot
    refine ⟨?_, by simpa using hmax⟩
    rcases List.mem_append.mp hslot with hslot | hslot
    · obtain ⟨q, hq, heq⟩ := List.mem_map.mp hslot
      have := queue.started q hq
      omega
    · obtain ⟨i, hi, heq⟩ := List.mem_map.mp hslot
      have := List.mem_range.mp hi
      omega
  refine ⟨ps', ?_, ⟨hlanded, fun p hp => hstays p (hstay ▸ hp), fun p hp => (hmem p hp).1,
    fun p hp => (hmem p hp).2, ?_⟩, ?_, ?_⟩
  · rw [Points.simulate, if_neg (not_lt.mpr hnew)]
    simp only [hmap, Option.bind_eq_bind, Option.bind_some]
    exact hloop
  · have hslots' : (stay.map Point.slotNumber).Pairwise fun a b => b < a := by
      rw [hfilter]
      refine (List.pairwise_map.mpr ?_).filter _
      exact hdecreasing.imp fun h => by omega
    rw [hstay]
    exact List.pairwise_map.mp hslots'
  · rw [hstay]
    rw [List.length_append, hlength] at hcount
    exact hcount
  · rw [hstay, hfilter, hadvanced]

end Simulate

end Explore.Galton
