import Mathlib.Data.Int.Init
import Mathlib.Data.List.Basic

/-!
# The Galton board

Points fall through the levels of a board and end in buckets. A tick moves every point
that is on the way by the same number of slots and lets new points in. The outcomes of
the random draws are a parameter: `rand k` is the outcome of the `k`-th draw of the
simulation, whether `rand.nextDouble() < probSuccess`. The numbers of the source stay
far below its integers' limit, so they are not bounded here; timing, geometry and the
events that only the user interface reads are left out. An exception is `none`.
-/

namespace Explore.Galton

/-- `SimStateController.slotsPerLevelBits`. -/
def controllerSlotsPerLevelBits : ℕ := 7

structure PointParams where
  slotsPerLevelBits : ℕ
  levels : ℕ
  slotsIntoBucket : ℕ
  deriving DecidableEq, Repr

/-- The slots of a level as `Point` counts them. -/
def PointParams.slotsPerLevel (_ : PointParams) : ℤ := 1 <<< controllerSlotsPerLevelBits

/-- `maxSlotNumber` of `advance`. -/
def PointParams.maxSlotNumber (params : PointParams) : ℤ :=
  params.slotsPerLevel * (params.levels - 1) + params.slotsIntoBucket

/-- A point. `draws` is the history of its draws. -/
structure Point where
  slotNumber : ℤ
  direction : ℤ
  numHeads : ℕ
  level : ℤ
  nearBucket : Bool
  nearBucketSlot : ℤ
  complete : Bool
  draws : List Bool
  deriving DecidableEq, Repr

namespace Point

/-- The constructor, which does not take positive slot numbers. -/
def new (slotNumber : ℤ) : Option Point :=
  if slotNumber > 0 then none else some ⟨slotNumber, -1, 0, 0, false, 0, false, []⟩

/-- `_getTrials`. -/
def getTrials (params : PointParams) (slot : ℤ) : ℤ :=
  if slot ≤ 0 then 0
  else
    let trials := (slot - 1).tdiv params.slotsPerLevel + 1
    if trials > params.levels - 1 then params.levels - 1 else trials

/-- One draw. -/
def draw (p : Point) (success : Bool) : Point :=
  { p with
    direction := if success then 1 else 0
    numHeads := p.numHeads + if success then 1 else 0
    draws := p.draws ++ [success] }

/-- The remaining trials of `advance`, from draw `next` on. -/
def tryRemaining (params : PointParams) (rand : ℕ → Bool) (next : ℕ) (p : Point) : Point × ℕ :=
  let newLevel := getTrials params p.slotNumber
  if newLevel > p.level then
    let rem := (newLevel - p.level).toNat
    ({ ((List.range' next rem).map rand).foldl draw p with level := newLevel }, next + rem)
  else (p, next)

/-- `advance`: the point, the next draw, and the number of heads or -1. -/
def advance (params : PointParams) (rand : ℕ → Bool) (next : ℕ) (p : Point) (slots : ℤ) :
    Option (Point × ℕ × ℤ) :=
  if p.complete then none
  else
    let p := { p with slotNumber := p.slotNumber + slots }
    if p.slotNumber ≤ 0 then none
    else
      let (p, next) := p.tryRemaining params rand next
      if p.slotNumber > params.maxSlotNumber then
        some ({ p with complete := true, nearBucket := false, level := params.levels }, next,
          p.numHeads)
      else
        let near := params.slotsPerLevel * (params.levels - 1)
        let p := if p.slotNumber > near then
            { p with
              nearBucket := true
              nearBucketSlot := p.slotNumber - near
              level := params.levels }
          else p
        some (p, next, -1)

end Point

/-- The points on the way, the counts of the buckets, and the next draw. `landed` is the
history of the points that reached a bucket, each with its bucket. -/
structure Points where
  points : List Point
  buckets : List ℕ
  next : ℕ
  landed : List (Point × ℕ)
  deriving DecidableEq, Repr

namespace Points

/-- `increment` of a bucket. -/
def increment (ps : Points) (p : Point) (bucket : ℤ) : Option Points :=
  if 0 ≤ bucket ∧ bucket < ps.buckets.length then
    some { ps with
      buckets := ps.buckets.modify bucket.toNat (· + 1)
      landed := ps.landed ++ [(p, bucket.toNat)] }
  else none

/-- The loop of `simulate` over the queue: the points in front have been advanced and
stay. A point that is done must be the first. -/
def advanceAll (params : PointParams) (rand : ℕ → Bool) (advanceBy : ℤ) (front : List Point) :
    List Point → Points → Option Points
  | [], ps => some { ps with points := front }
  | p :: rest, ps => do
      let (p, next, bucket) ← p.advance params rand ps.next advanceBy
      let ps := { ps with next := next }
      if bucket ≥ 0 then
        if front ≠ [] then none
        else advanceAll params rand advanceBy front rest (← ps.increment p bucket)
      else advanceAll params rand advanceBy (front ++ [p]) rest ps

/-- `simulate`: the number of points that are not done is the length of `points`. -/
def simulate (params : PointParams) (rand : ℕ → Bool) (ps : Points) (newPoints advanceBy : ℕ) :
    Option Points := do
  if newPoints > advanceBy then none
  let new ← (List.range newPoints).mapM fun i : ℕ => Point.new (-(i : ℤ))
  advanceAll params rand advanceBy [] (ps.points ++ new) ps

end Points

inductive SimControlState where
  | running
  | paused
  | completed
  deriving DecidableEq, Repr

structure SimState where
  params : PointParams
  totalPoints : ℕ
  slotsPerFrame : ℕ
  points : Points
  remainingPoints : ℕ
  insertedPoints : ℕ
  simulatedFrames : ℕ
  state : SimControlState

namespace SimState

/-- `_init`. -/
def new (params : PointParams) (totalPoints slotsPerFrame : ℕ) : SimState where
  params := params
  totalPoints := totalPoints
  slotsPerFrame := slotsPerFrame
  points := ⟨[], List.replicate params.levels 0, 0, []⟩
  remainingPoints := totalPoints
  insertedPoints := 0
  simulatedFrames := 0
  state := .running

def isCompleted (sim : SimState) : Bool := sim.state = .completed

/-- `_simulateMovement`. -/
def simulateMovement (rand : ℕ → Bool) (sim : SimState) : Option SimState :=
  if sim.state = .completed then some sim
  else do
    let currentPointsInFrame := min sim.remainingPoints sim.slotsPerFrame
    let remainingPoints := sim.remainingPoints - currentPointsInFrame
    let points ← sim.points.simulate sim.params rand currentPointsInFrame sim.slotsPerFrame
    return { sim with
      points := points
      remainingPoints := remainingPoints
      insertedPoints := sim.insertedPoints + currentPointsInFrame
      simulatedFrames := sim.simulatedFrames + 1
      state := if points.points.length = 0 ∧ remainingPoints = 0 then .completed else sim.state }

/-- A tick after the slots per frame were set. -/
def tickWith (rand : ℕ → Bool) (sim : SimState) (slotsPerFrame : ℕ) : Option SimState :=
  simulateMovement rand { sim with slotsPerFrame := slotsPerFrame }

/-- A tick for each number of slots per frame. -/
def ticks (rand : ℕ → Bool) (sim : SimState) (slotsPerFrames : List ℕ) : Option SimState :=
  slotsPerFrames.foldlM (tickWith rand) sim

end SimState

end Explore.Galton
