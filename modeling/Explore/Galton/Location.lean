import Explore.Galton.Outstanding
import Explore.Lib.Outcome
import Mathlib.Tactic.Ring

/-!
# Where a point is painted

`location` splits the slot number of a point into a level, which `advance` keeps, and a slot
of that level, which it takes from the low bits. `Points` derives the slots of a level from
`slotsPerLevelBits`, and so does `location`, but `PointParams` takes them from the constant
of the controller. Only the discrete part of a location is modelled: lengths and positions
on the screen are left out.
-/

namespace Explore.Galton

/-- `Points.slotsPerLevel`, by which the geometry divides the way from gate to gate. -/
def PointParams.geometrySlots (params : PointParams) : ℤ := 1 <<< params.slotsPerLevelBits

/-- Where a point is painted: on its way into a bucket, or in a slot on the way from a gate. -/
inductive Place where
  | bucket (numHeads : ℕ) (nearBucketSlot : ℤ)
  | segment (level : ℤ) (numHeads : ℕ) (direction : ℤ) (idx : ℤ)
  deriving DecidableEq, Repr

/-- The slot of the level that `location` computes. -/
def PointParams.slotIdx (params : PointParams) (slotNumber : ℤ) : ℤ :=
  ((slotNumber - 1).toNat &&& ((1 <<< params.slotsPerLevelBits) - 1) : ℕ) + 1

/-- `location`. A completed point is not painted. -/
def Point.location (params : PointParams) (p : Point) : Option (Option Place) :=
  if p.slotNumber ≤ 0 then none
  else if p.nearBucket then some (some (.bucket p.numHeads p.nearBucketSlot))
  else if p.complete then some none
  else if p.level > 0 then
    some (some (.segment p.level p.numHeads p.direction (params.slotIdx p.slotNumber)))
  else none

/-- The level and the slot of the level together give the slot number, up to the last gate, and
then the point is near its bucket. -/
structure Agrees (params : PointParams) (p : Point) : Prop where
  segment : p.slotNumber ≤ params.geometrySlots * (params.levels - 1) →
    ∃ idx, p.location params =
        some (some (.segment p.level p.numHeads p.direction idx)) ∧
      (p.level - 1) * params.geometrySlots + (idx - 1) = p.slotNumber - 1
  near : p.nearBucket = true ↔ params.geometrySlots * (params.levels - 1) < p.slotNumber

/-- Level and slot agree for every point on the way in every run. -/
def LevelsAgree (params : PointParams) : Prop :=
  ∀ (rand : ℕ → Bool) (calls : List (ℕ × ℕ)), (∀ call ∈ calls, call.1 ≤ call.2 ∧ 1 ≤ call.2) →
    ∀ ps, (Points.new params).simulateAll params rand calls = some ps →
      ∀ p ∈ ps.points, Agrees params p

/-- What `advance` keeps: the level of a point up to the last gate, and that it is near its bucket
from there on. -/
structure Placed (params : PointParams) (p : Point) : Prop where
  level : p.slotNumber ≤ 128 * ((params.levels : ℤ) - 1) →
    p.level = Point.getTrials params p.slotNumber
  near : p.nearBucket = true ↔ 128 * ((params.levels : ℤ) - 1) < p.slotNumber

section Advance

variable {params : PointParams} {rand : ℕ → Bool} {next next' : ℕ} {p p' : Point} {slots bucket : ℤ}
  {front rest : List Point} {ps ps' : Points}

theorem nearBucket_foldl_draw (outcomes : List Bool) (p : Point) :
    (outcomes.foldl Point.draw p).nearBucket = p.nearBucket := by
  induction outcomes generalizing p with
  | nil => rfl
  | cons success outcomes ih => exact ih (p.draw success)

/-- The remaining trials bring the level up to the slot number. -/
theorem tryRemaining_level (params : PointParams) (rand : ℕ → Bool) (next : ℕ) (q : Point) :
    (q.tryRemaining params rand next).1.slotNumber = q.slotNumber ∧
      (q.tryRemaining params rand next).1.nearBucket = q.nearBucket ∧
      (q.tryRemaining params rand next).1.level =
        max (Point.getTrials params q.slotNumber) q.level := by
  rw [Point.tryRemaining]
  dsimp only
  split
  · rename_i hnew
    obtain ⟨-, -, hslot, -, -⟩ := foldl_draw
      ((List.range' next (Point.getTrials params q.slotNumber - q.level).toNat).map rand) q
    exact ⟨hslot, nearBucket_foldl_draw _ q, (max_eq_left hnew.le).symm⟩
  · rename_i hold
    exact ⟨rfl, rfl, (max_eq_right (not_lt.mp hold)).symm⟩

/-- A point that stays on the way is placed again. -/
theorem Placed.advance (levels : 1 ≤ params.levels) (placed : Placed params p) (hslots : 0 ≤ slots)
    (h : p.advance params rand next slots = some (p', next', bucket)) (hbucket : bucket < 0) :
    Placed params p' := by
  obtain ⟨hslot, hnear, hlevel⟩ :=
    tryRemaining_level params rand next { p with slotNumber := p.slotNumber + slots }
  have hmono := getTrials_mono levels (show p.slotNumber ≤ p.slotNumber + slots by omega)
  rw [Point.advance, slotsPerLevel_eq] at h
  split at h
  · cases h
  · dsimp only at h
    split at h
    · cases h
    · generalize Point.tryRemaining params rand next
        { p with slotNumber := p.slotNumber + slots } = result at h hslot hnear hlevel
      obtain ⟨q, next₁⟩ := result
      dsimp only at h hslot hnear hlevel
      split at h
      · -- The point is done: the number of heads is not negative.
        obtain ⟨-, hrest⟩ := Prod.mk.inj (Option.some.inj h)
        obtain ⟨-, rfl⟩ := Prod.mk.inj hrest
        exact absurd hbucket (not_lt.mpr (Int.natCast_nonneg _))
      · obtain ⟨rfl, -⟩ := Prod.mk.inj (Option.some.inj h)
        split
        · rename_i hpast
          exact ⟨fun hle => absurd hpast (not_lt.mpr hle), fun _ => hpast, fun _ => rfl⟩
        · rename_i hpast
          have hlow : p.slotNumber ≤ 128 * ((params.levels : ℤ) - 1) := by omega
          refine ⟨fun _ => ?_, fun htrue => ?_, fun hlt => absurd hlt hpast⟩
          · rw [hlevel, placed.level hlow, hslot]
            exact max_eq_left hmono
          · have := placed.near.mp (hnear ▸ htrue)
            omega

/-- The points that the loop leaves are those in front and those that have moved. -/
theorem mem_advanceAll (h : Points.advanceAll params rand slots front rest ps = some ps') :
    ∀ p' ∈ ps'.points, p' ∈ front ∨ ∃ p ∈ rest, ∃ next next' bucket,
      p.advance params rand next slots = some (p', next', bucket) ∧ bucket < 0 := by
  induction rest generalizing front ps with
  | nil =>
      obtain rfl := Option.some.inj h
      exact fun p' hp' => Or.inl hp'
  | cons p rest ih =>
      obtain ⟨⟨q, next', bucket⟩, hadvance, h⟩ := Option.bind_eq_some_iff.mp h
      dsimp only at h
      have hrest {front : List Point} {ps : Points}
          (h : Points.advanceAll params rand slots front rest ps = some ps') :
          ∀ p' ∈ ps'.points, p' ∈ front ∨ ∃ q ∈ p :: rest, ∃ next next' bucket,
            q.advance params rand next slots = some (p', next', bucket) ∧ bucket < 0 := by
        intro p' hp'
        obtain hfront | ⟨q, hq, hmoved⟩ := ih h p' hp'
        · exact Or.inl hfront
        · exact Or.inr ⟨q, List.mem_cons_of_mem p hq, hmoved⟩
      split at h
      · split at h
        · cases h
        · obtain ⟨ps₁, -, h⟩ := Option.bind_eq_some_iff.mp h
          exact hrest h
      · rename_i hbucket
        intro p' hp'
        obtain hfront | hmoved := hrest h p' hp'
        · obtain hfront | hlast := List.mem_append.mp hfront
          · exact Or.inl hfront
          · obtain rfl := List.mem_singleton.mp hlast
            exact Or.inr ⟨p, List.mem_cons_self, _, _, _, hadvance, lt_of_not_ge hbucket⟩
        · exact Or.inr hmoved

theorem placed_new (levels : 1 ≤ params.levels) {i : ℕ} (h : Point.new (-(i : ℤ)) = some p) :
    Placed params p := by
  rw [Point.new, if_neg (by omega)] at h
  obtain rfl := Option.some.inj h
  refine ⟨fun _ => (getTrials_of_nonpos (by dsimp only; omega)).symm, nofun, fun hlt => ?_⟩
  dsimp only at hlt
  omega

/-- A call of `simulate` leaves points that are placed. -/
theorem placed_simulate (levels : 1 ≤ params.levels) (hplaced : ∀ p ∈ ps.points, Placed params p)
    {newPoints advanceBy : ℕ} (h : ps.simulate params rand newPoints advanceBy = some ps') :
    ∀ p ∈ ps'.points, Placed params p := by
  rw [Points.simulate] at h
  split at h
  · cases h
  · obtain ⟨new, hnew, h⟩ := Option.bind_eq_some_iff.mp h
    intro p' hp'
    obtain hfront | ⟨p, hp, next, next', bucket, hadvance, hbucket⟩ := mem_advanceAll h p' hp'
    · cases hfront
    · refine Placed.advance levels ?_ (Int.natCast_nonneg _) hadvance hbucket
      obtain hp | hp := List.mem_append.mp hp
      · exact hplaced p hp
      · obtain ⟨i, -, hi⟩ := exists_of_mem_mapM hnew hp
        exact placed_new levels hi

theorem placed_simulateAll (levels : 1 ≤ params.levels) {calls : List (ℕ × ℕ)}
    (hplaced : ∀ p ∈ ps.points, Placed params p)
    (h : ps.simulateAll params rand calls = some ps') : ∀ p ∈ ps'.points, Placed params p := by
  induction calls generalizing ps with
  | nil =>
      obtain rfl := Option.some.inj h
      exact hplaced
  | cons call calls ih =>
      rw [Points.simulateAll, List.foldlM_cons] at h
      obtain ⟨mid, hmid, hrest⟩ := Option.bind_eq_some_iff.mp h
      exact ih (placed_simulate levels hplaced hmid) hrest

end Advance

section Levels

variable {params : PointParams} {p : Point}

theorem geometrySlots_eq (params : PointParams) :
    params.geometrySlots = (2 ^ params.slotsPerLevelBits : ℕ) := by
  rw [PointParams.geometrySlots, Nat.one_shiftLeft]

theorem slotIdx_eq (params : PointParams) {slot : ℤ} (hpos : 1 ≤ slot) :
    params.slotIdx slot = (slot - 1) % (2 ^ params.slotsPerLevelBits : ℕ) + 1 := by
  obtain ⟨k, rfl⟩ : ∃ k : ℕ, slot = k + 1 := ⟨(slot - 1).toNat, by omega⟩
  rw [PointParams.slotIdx, Nat.one_shiftLeft, Nat.and_two_pow_sub_one_eq_mod]
  simp

/-- Up to the last gate a placed point is painted in the level that `advance` keeps. -/
theorem Placed.location (placed : Placed params p)
    (hpos : 1 ≤ p.slotNumber) (hcomplete : p.complete = false)
    (hle : p.slotNumber ≤ 128 * ((params.levels : ℤ) - 1)) :
    p.level = (p.slotNumber - 1) / 128 + 1 ∧
      p.location params = some (some
        (.segment p.level p.numHeads p.direction (params.slotIdx p.slotNumber))) := by
  have hnear : p.nearBucket = false := by
    cases h : p.nearBucket with
    | true => exact absurd (placed.near.mp h) (not_lt.mpr hle)
    | false => rfl
  have hlevel := placed.level hle
  rw [getTrials_of_pos (by omega), min_eq_left (by omega)] at hlevel
  refine ⟨hlevel, ?_⟩
  rw [Point.location, if_neg (by omega), hnear, hcomplete, if_neg Bool.false_ne_true,
    if_neg Bool.false_ne_true, if_pos (by omega)]

/-- The boards for which the law holds. -/
def SlotsFit (params : PointParams) : Prop :=
  params.slotsPerLevelBits = 7 ∨
    7 < params.slotsPerLevelBits ∧ params.levels = 2 ∧ params.slotsIntoBucket = 0

theorem Placed.agrees (placed : Placed params p)
    (hpos : 1 ≤ p.slotNumber) (hmax : p.slotNumber ≤ params.maxSlotNumber)
    (hcomplete : p.complete = false) (fit : SlotsFit params) : Agrees params p := by
  rw [maxSlotNumber_eq] at hmax
  obtain hbits | ⟨hbits, htwo, hzero⟩ := fit
  · have hslots : params.geometrySlots = 128 := by
      rw [geometrySlots_eq, hbits]
      norm_num
    refine ⟨fun hle => ?_, by rw [hslots]; exact placed.near⟩
    rw [hslots] at hle
    obtain ⟨hlevel, hlocation⟩ := placed.location hpos hcomplete hle
    refine ⟨_, hlocation, ?_⟩
    rw [slotIdx_eq params hpos, hbits, hslots]
    norm_num
    omega
  · -- The only level is shorter than the geometry takes it to be, and no point goes beyond it.
    have hslots : 256 ≤ params.geometrySlots := by
      rw [geometrySlots_eq]
      exact_mod_cast Nat.pow_le_pow_right Nat.two_pos hbits
    rw [htwo, hzero] at hmax
    have hle : p.slotNumber ≤ 128 * ((params.levels : ℤ) - 1) := by
      rw [htwo]
      omega
    obtain ⟨hlevel, hlocation⟩ := placed.location hpos hcomplete hle
    refine ⟨fun _ => ⟨_, hlocation, ?_⟩, ?_⟩
    · have hone : p.level = 1 := by omega
      rw [slotIdx_eq params hpos, ← geometrySlots_eq, hone,
        Int.emod_eq_of_lt (by omega) (by omega)]
      ring
    · rw [placed.near, htwo]
      omega

/-- A board with a point in a given slot. -/
theorem exists_point (levels : 1 ≤ params.levels) {slot : ℕ} (hpos : 1 ≤ slot)
    (hmax : (slot : ℤ) ≤ params.maxSlotNumber) :
    ∃ ps p, (Points.new params).simulateAll params (fun _ => true) [(1, slot)] = some ps ∧
      p ∈ ps.points ∧ p.slotNumber = slot ∧ p.complete = false ∧ Placed params p := by
  obtain ⟨ps, hsimulate, queue, -, hslots⟩ :=
    (Queue.new params).simulate (fun _ => true) levels hpos
  have hrun : (Points.new params).simulateAll params (fun _ => true) [(1, slot)] = some ps := by
    rw [Points.simulateAll, List.foldlM_cons, hsimulate]
    rfl
  have hslot : (slot : ℤ) ∈ ps.points.map Point.slotNumber := by
    rw [hslots]
    simpa [Points.new] using hmax
  obtain ⟨p, hp, heq⟩ := List.mem_map.mp hslot
  exact ⟨ps, p, hrun, hp, heq, (queue.travels p hp).complete,
    placed_simulateAll levels (List.forall_mem_nil _) hrun p hp⟩

/-- With fewer slots for each level than the controller has, the point in the slot after the last
gate of the geometry is not near its bucket. -/
theorem not_levelsAgree_of_lt (levels : 2 ≤ params.levels) (hbits : params.slotsPerLevelBits < 7) :
    ¬ LevelsAgree params := by
  intro h
  have hslots : 1 ≤ params.geometrySlots ∧ params.geometrySlots ≤ 64 := by
    rw [geometrySlots_eq]
    exact ⟨by exact_mod_cast Nat.one_le_two_pow, by
      exact_mod_cast Nat.pow_le_pow_right Nat.two_pos (Nat.le_of_lt_succ hbits)⟩
  have hlast : params.geometrySlots * ((params.levels : ℤ) - 1) + 1 ≤
      128 * ((params.levels : ℤ) - 1) := by
    have := mul_le_mul_of_nonneg_right hslots.2 (show (0 : ℤ) ≤ params.levels - 1 by omega)
    omega
  have hfirst : 0 ≤ params.geometrySlots * ((params.levels : ℤ) - 1) :=
    mul_nonneg (by omega) (by omega)
  have hmax := maxSlotNumber_eq params
  obtain ⟨slot, hslot⟩ := Int.eq_ofNat_of_zero_le
    (show 0 ≤ params.geometrySlots * ((params.levels : ℤ) - 1) + 1 by omega)
  obtain ⟨ps, p, hrun, hp, heq, hcomplete, placed⟩ :=
    @exists_point params (Nat.le_of_succ_le levels) slot (by omega) (by omega)
  have hnear := (h _ _ (by simp; omega) ps hrun p hp).near.mpr (by omega)
  have := placed.near.mp hnear
  omega

/-- With more slots the point in slot 129 is in the second level, or near its bucket, too early. -/
theorem not_levelsAgree_of_gt (levels : 2 ≤ params.levels) (hbits : 7 < params.slotsPerLevelBits)
    (hroom : 129 ≤ params.maxSlotNumber) : ¬ LevelsAgree params := by
  intro h
  have hslots : 256 ≤ params.geometrySlots := by
    rw [geometrySlots_eq]
    exact_mod_cast Nat.pow_le_pow_right Nat.two_pos hbits
  obtain ⟨ps, p, hrun, hp, heq, hcomplete, placed⟩ :=
    @exists_point params (Nat.le_of_succ_le levels) 129 (by decide) hroom
  have hagrees := h _ _ (by decide) ps hrun p hp
  have hfar : p.slotNumber < params.geometrySlots * ((params.levels : ℤ) - 1) := by
    have := mul_le_mul hslots (show (1 : ℤ) ≤ params.levels - 1 by omega) (by omega) (by omega)
    omega
  obtain hle | hgt := le_or_gt p.slotNumber (128 * ((params.levels : ℤ) - 1))
  · obtain ⟨idx, hidx, hlaw⟩ := hagrees.segment hfar.le
    obtain ⟨hlevel, hlocation⟩ := placed.location (by omega) hcomplete hle
    rw [hlocation] at hidx
    injection hidx with hidx
    injection hidx with hidx
    injection hidx with _ _ _ hidx
    rw [slotIdx_eq params (by omega), ← geometrySlots_eq] at hidx
    have hone : p.level = 2 := by omega
    have hnonneg := Int.emod_nonneg (p.slotNumber - 1) (show params.geometrySlots ≠ 0 by omega)
    rw [hone] at hlaw
    omega
  · exact absurd (hagrees.near.mp (placed.near.mpr hgt)) (not_lt.mpr hfar.le)

/-- For every board with at least two levels: level and slot agree in all runs if and only if the
board has the slots per level of the controller, or more of them, only two levels and no slots into
the bucket. -/
theorem levelsAgree_iff (levels : 2 ≤ params.levels) : LevelsAgree params ↔ SlotsFit params := by
  have hone : 1 ≤ params.levels := Nat.le_of_succ_le levels
  constructor
  · intro h
    obtain hlt | heq | hgt := Nat.lt_trichotomy params.slotsPerLevelBits 7
    · exact absurd h (not_levelsAgree_of_lt levels hlt)
    · exact Or.inl heq
    · by_contra hfit
      refine not_levelsAgree_of_gt levels hgt ?_ h
      rw [maxSlotNumber_eq]
      have hroom : ¬ (params.levels = 2 ∧ params.slotsIntoBucket = 0) :=
        fun hboth => hfit (Or.inr ⟨hgt, hboth⟩)
      omega
  · intro fit rand calls fits ps hrun p hp
    obtain ⟨ps', hrun', queue⟩ :=
      (Queue.new params).simulateAll rand hone fun call hcall => (fits call hcall).1
    obtain rfl := Option.some.inj (hrun.symm.trans hrun')
    exact (placed_simulateAll hone (List.forall_mem_nil _) hrun p hp).agrees
      (queue.started p hp) (queue.unfinished p hp) (queue.travels p hp).complete fit

theorem levelsAgree_controller : LevelsAgree ⟨7, 12, 128⟩ :=
  (levelsAgree_iff (by decide)).mpr (Or.inl rfl)

/-- The board of the unit tests. -/
theorem not_levelsAgree_tests : ¬ LevelsAgree ⟨3, 4, 15⟩ :=
  not_levelsAgree_of_lt (by decide) (by decide)

end Levels

end Explore.Galton
