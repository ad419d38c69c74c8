import Explore.Galton.EventBus
import Explore.Galton.Points

/-!
# The simulation controller

`SimStateController` replaces its simulation whenever a parameter changes, except that a
change of speed only matters to a simulation that is not completed. A simulation is driven
by a `TickNotifier`, which calls its listeners as long as its ticker is active. The state of
the simulation, the ticker and the set of listeners are set one by one by every operation;
the invariant is that there is one listener, the current simulation, and that the ticker is
active as long as it is running.

A simulation is an object, with a number for its identity; `sims` holds all that were ever
made. The listener `_onTick` of a simulation is its number. The outcomes of the draws of a
simulation are a parameter, so the bias has no value. Of the bus only the subscriptions of
the controller are modelled. An exception is `none`.
-/

namespace Explore.Galton

/-- `ManualTickNotifier`. -/
structure TickNotifier where
  listeners : ListenerSet ℕ
  isActive : Bool

namespace TickNotifier

def new : TickNotifier := ⟨.empty, false⟩

def addListener (notifier : TickNotifier) (listener : ℕ) : TickNotifier :=
  { notifier with listeners := notifier.listeners.add listener }

def removeListener (notifier : TickNotifier) (listener : ℕ) : TickNotifier :=
  { notifier with listeners := notifier.listeners.remove listener }

def start (notifier : TickNotifier) : TickNotifier :=
  if ¬ notifier.isActive then { notifier with isActive := true } else notifier

def pause (notifier : TickNotifier) : TickNotifier :=
  if notifier.isActive then { notifier with isActive := false } else notifier

@[simp] theorem start_isActive (notifier : TickNotifier) : notifier.start.isActive = true := by
  rw [start]
  split
  · rfl
  · rename_i h
    exact not_not.mp h

@[simp] theorem start_listeners (notifier : TickNotifier) :
    notifier.start.listeners = notifier.listeners := by
  rw [start]
  split <;> rfl

@[simp] theorem pause_isActive (notifier : TickNotifier) : notifier.pause.isActive = false := by
  rw [pause]
  split
  · rfl
  · rename_i h
    exact Bool.eq_false_iff.mpr h

@[simp] theorem pause_listeners (notifier : TickNotifier) :
    notifier.pause.listeners = notifier.listeners := by
  rw [pause]
  split <;> rfl

end TickNotifier

/-- The parameters, each with the id of its update events. -/
inductive ParamId where
  | speed
  | levels
  | count
  | bias
  deriving DecidableEq, Repr

/-- The listeners of the controller: `_paramUpdated` without and with a fresh simulation. -/
inductive ParamListener where
  | speedUpdated
  | paramUpdated
  deriving DecidableEq, Repr

/-- The values of the parameters. The speed counts as the slots per frame that it comes to,
`(slotsPerLevel * val / fps).toInt()`. -/
structure SimParams where
  levels : ℕ
  count : ℕ
  speedSlots : ℤ
  levels_pos : 1 ≤ levels

structure SimStateController where
  simParams : SimParams
  tickNotifier : TickNotifier
  eventBus : EventBus ParamId ParamListener
  subs : List (EventSubscription ParamId ParamListener)
  sims : List SimState
  simState : Option ℕ

namespace SimStateController

def slotsIntoBucket : ℕ := 1 <<< controllerSlotsPerLevelBits

/-- `_slotsPerFrame`. -/
def slotsPerFrame (c : SimStateController) : ℕ := (max 1 c.simParams.speedSlots).toNat

def currentSimState (c : SimStateController) : Option SimState := do c.sims[← c.simState]?

/-- A simulation changes. -/
def setSim (c : SimStateController) (id : ℕ) (sim : SimState) : SimStateController :=
  { c with sims := c.sims.set id sim }

/-- `_removeCurrent`, with `dispose` of the simulation. -/
def removeCurrent (c : SimStateController) : SimStateController :=
  match c.simState with
  | none => c
  | some id =>
      { c with tickNotifier := c.tickNotifier.pause.removeListener id, simState := none }

/-- `_startNew`, with `_init` of the simulation. -/
def startNew (c : SimStateController) : SimStateController :=
  let id := c.sims.length
  { c with
    sims := c.sims ++ [SimState.new
      ⟨controllerSlotsPerLevelBits, c.simParams.levels, slotsIntoBucket⟩ c.simParams.count
      c.slotsPerFrame]
    tickNotifier := (c.tickNotifier.addListener id).start
    simState := some id }

def startFreshSimulation (c : SimStateController) : SimStateController :=
  c.removeCurrent.startNew

/-- `_paramUpdated`. -/
def paramUpdated (c : SimStateController) (createFreshSim : Bool) : Option SimStateController :=
  if createFreshSim then some c.startFreshSimulation
  else do
    let id ← c.simState
    let sim ← c.sims[id]?
    if ¬ sim.isCompleted then return c.setSim id { sim with slotsPerFrame := c.slotsPerFrame }
    else return c.startFreshSimulation

/-- Call a listener of the controller. -/
def call (c : SimStateController) : ParamListener → Option SimStateController
  | .speedUpdated => c.paramUpdated false
  | .paramUpdated => c.paramUpdated true

/-- A parameter has a new value, and its event is sent. -/
def update (c : SimStateController) (id : ParamId) (simParams : SimParams) :
    Option SimStateController :=
  (c.eventBus.sendEvent id).foldlM call { c with simParams := simParams }

/-- `pause` of the current simulation. -/
def pause (c : SimStateController) : Option SimStateController := do
  let id ← c.simState
  let sim ← c.sims[id]?
  if sim.state ≠ .running then none
  return { c.setSim id { sim with state := .paused } with tickNotifier := c.tickNotifier.pause }

/-- `resume` of the current simulation. -/
def resume (c : SimStateController) : Option SimStateController := do
  let id ← c.simState
  let sim ← c.sims[id]?
  if sim.state = .completed then none
  return { c.setSim id { sim with state := .running } with tickNotifier := c.tickNotifier.start }

/-- `_onTick` of a simulation. -/
def onTick (rand : ℕ → ℕ → Bool) (c : SimStateController) (id : ℕ) :
    Option SimStateController := do
  let sim ← (← c.sims[id]?).simulateMovement (rand id)
  let c := c.setSim id sim
  return if sim.isCompleted then { c with tickNotifier := c.tickNotifier.pause } else c

/-- A tick, which an active ticker delivers to all listeners. -/
def tick (rand : ℕ → ℕ → Bool) (c : SimStateController) : Option SimStateController :=
  if c.tickNotifier.isActive then c.tickNotifier.listeners.elems.foldlM (onTick rand) c else none

def subscribe (c : SimStateController) (id : ParamId) (listener : ParamListener) :
    SimStateController :=
  let (bus, sub) := c.eventBus.subscribe (fun _ => true) id listener
  { c with eventBus := bus, subs := c.subs ++ sub.toList }

/-- The constructor. -/
def new (simParams : SimParams) : SimStateController :=
  (((((SimStateController.mk simParams .new .create [] [] none).subscribe
    .speed .speedUpdated).subscribe .levels .paramUpdated).subscribe
    .count .paramUpdated).subscribe .bias .paramUpdated).startFreshSimulation

def dispose (c : SimStateController) : Option SimStateController := do
  let c := c.removeCurrent
  let bus ← c.subs.foldlM EventBus.cancel c.eventBus
  return { c with eventBus := bus, subs := [] }

end SimStateController

/-- An operation on the controller or its current simulation, before `dispose`. -/
inductive SimOp where
  | setSpeed (speedSlots : ℤ)
  | setLevels (levels : ℕ) (pos : 1 ≤ levels)
  | setCount (count : ℕ)
  | setBias
  | startFreshSimulation
  | pause
  | resume
  | tick

namespace SimStateController

/-- What the checks of an operation ask for. A tick comes only from an active ticker. -/
def Allowed (c : SimStateController) : SimOp → Prop
  | .pause => ∃ sim, c.currentSimState = some sim ∧ sim.state = .running
  | .resume => ∃ sim, c.currentSimState = some sim ∧ sim.state ≠ .completed
  | .tick => c.tickNotifier.isActive = true
  | _ => True

def step (rand : ℕ → ℕ → Bool) (c : SimStateController) : SimOp → Option SimStateController
  | .setSpeed speedSlots => c.update .speed { c.simParams with speedSlots := speedSlots }
  | .setLevels levels pos =>
      c.update .levels { c.simParams with levels := levels, levels_pos := pos }
  | .setCount count => c.update .count { c.simParams with count := count }
  | .setBias => c.update .bias c.simParams
  | .startFreshSimulation => some c.startFreshSimulation
  | .pause => c.pause
  | .resume => c.resume
  | .tick => c.tick rand

/-- A run of allowed operations. -/
inductive Runs (rand : ℕ → ℕ → Bool) :
    SimStateController → List SimOp → SimStateController → Prop
  | nil (c : SimStateController) : Runs rand c [] c
  | cons {c c' c'' : SimStateController} {op : SimOp} {ops : List SimOp} :
      c.Allowed op → c.step rand op = some c' → Runs rand c' ops c'' → Runs rand c (op :: ops) c''

/-- One listener is registered, the current simulation, and the ticker is active as long as it is
running. -/
structure Lifecycle (c : SimStateController) : Prop where
  listener : ∃ id, c.simState = some id ∧ c.tickNotifier.listeners.elems = [id]
  active : ∃ sim, c.currentSimState = some sim ∧
    (c.tickNotifier.isActive = true ↔ sim.state = .running)

/-- The completed simulations stay as they are. -/
def KeepsCompleted (c c' : SimStateController) : Prop :=
  ∀ (id : ℕ) (sim : SimState), c.sims[id]? = some sim → sim.isCompleted = true →
    c'.sims[id]? = some sim

/-- Nothing is registered any more. -/
structure Disposed (c : SimStateController) : Prop where
  listeners : c.tickNotifier.listeners.elems = []
  inactive : c.tickNotifier.isActive = false
  subs : c.subs = []
  bus : ∀ id, c.eventBus.typeToSubscribers id = none

/-- The subscriptions that the constructor makes. -/
def subscriptions : List (EventSubscription ParamId ParamListener) :=
  [⟨.speedUpdated, .speed⟩, ⟨.paramUpdated, .levels⟩, ⟨.paramUpdated, .count⟩,
    ⟨.paramUpdated, .bias⟩]

/-- The bus with these subscriptions. -/
structure Subscribed (c : SimStateController) : Prop where
  subs : c.subs = subscriptions
  bus : c.eventBus.typeToSubscribers = fun
    | .speed => some ⟨[.speedUpdated], List.nodup_singleton _⟩
    | .levels | .count | .bias => some ⟨[.paramUpdated], List.nodup_singleton _⟩

/-- The simulation `sim` is the current one, with its listener, ticker and queue as they
should be. -/
structure Driven (c : SimStateController) (id : ℕ) (sim : SimState) : Prop where
  simState : c.simState = some id
  sims : c.sims[id]? = some sim
  listeners : c.tickNotifier.listeners.elems = [id]
  active : c.tickNotifier.isActive = true ↔ sim.state = .running
  levels : 1 ≤ sim.params.levels
  queue : Queue sim.params sim.points

section Steps

variable {rand : ℕ → ℕ → Bool} {c c' : SimStateController} {id : ℕ} {sim sim' : SimState}

theorem Driven.currentSimState (driven : Driven c id sim) : c.currentSimState = some sim := by
  rw [SimStateController.currentSimState, driven.simState]
  exact driven.sims

theorem Driven.lifecycle (driven : Driven c id sim) : Lifecycle c :=
  ⟨⟨id, driven.simState, driven.listeners⟩, ⟨sim, driven.currentSimState, driven.active⟩⟩

/-- A new simulation is the only listener if there was none. -/
theorem startNew_driven (h : c.tickNotifier.listeners.elems = []) :
    ∃ sim, Driven c.startNew c.sims.length sim := by
  refine ⟨_, ⟨rfl, List.getElem?_concat_length, ?_, ?_, c.simParams.levels_pos, Queue.new _⟩⟩
  · rw [startNew, TickNotifier.start_listeners, TickNotifier.addListener, ListenerSet.add]
    simp [h]
  · simp [startNew, SimState.new]

theorem removeCurrent_listeners (driven : Driven c id sim) :
    c.removeCurrent.tickNotifier.listeners.elems = [] ∧
      c.removeCurrent.tickNotifier.isActive = false := by
  rw [removeCurrent, driven.simState]
  simp [TickNotifier.removeListener, ListenerSet.remove, driven.listeners]

theorem removeCurrent_sims (c : SimStateController) : c.removeCurrent.sims = c.sims := by
  rw [removeCurrent]
  cases c.simState <;> rfl

theorem removeCurrent_bus (c : SimStateController) :
    c.removeCurrent.eventBus = c.eventBus ∧ c.removeCurrent.subs = c.subs := by
  rw [removeCurrent]
  cases c.simState <;> exact ⟨rfl, rfl⟩

theorem startFreshSimulation_spec (driven : Driven c id sim) (subscribed : Subscribed c) :
    (∃ id sim, Driven c.startFreshSimulation id sim) ∧ Subscribed c.startFreshSimulation ∧
      KeepsCompleted c c.startFreshSimulation := by
  obtain ⟨hbus, hsubs⟩ := removeCurrent_bus c
  refine ⟨⟨_, startNew_driven (removeCurrent_listeners driven).1⟩, ⟨?_, ?_⟩, ?_⟩
  · exact hsubs.trans subscribed.subs
  · exact (congrArg EventBus.typeToSubscribers hbus).trans subscribed.bus
  · intro i old hold _
    rw [startFreshSimulation, startNew, removeCurrent_sims]
    exact List.getElem?_append_left (List.getElem?_eq_some_iff.mp hold).1 ▸ hold

/-- A simulation that is not completed changes. -/
theorem Driven.setSim (driven : Driven c id sim) (sim' : SimState) (hsim : sim.state ≠ .completed)
    {notifier : TickNotifier} (hlisteners : notifier.listeners = c.tickNotifier.listeners)
    (hactive : notifier.isActive = true ↔ sim'.state = .running)
    (hparams : sim'.params = sim.params)
    (queue : Queue sim.params sim'.points) :
    Driven { c.setSim id sim' with tickNotifier := notifier } id sim' ∧
      KeepsCompleted c { c.setSim id sim' with tickNotifier := notifier } := by
  refine ⟨⟨driven.simState, ?_, ?_, hactive, ?_, ?_⟩, ?_⟩
  · exact List.getElem?_set_self (List.getElem?_eq_some_iff.mp driven.sims).1
  · exact (congrArg ListenerSet.elems hlisteners).trans driven.listeners
  · exact hparams ▸ driven.levels
  · exact hparams ▸ queue
  · intro i old hold hcompleted
    have hne : id ≠ i := by
      rintro rfl
      obtain rfl := Option.some.inj (driven.sims.symm.trans hold)
      exact hsim (of_decide_eq_true hcompleted)
    exact (List.getElem?_set_ne hne).trans hold

/-- A tick of a simulation that is running. -/
theorem simulateMovement_spec (levels : 1 ≤ sim.params.levels) (queue : Queue sim.params sim.points)
    (hsim : sim.state = .running) (draws : ℕ → Bool) :
    ∃ sim', sim.simulateMovement draws = some sim' ∧ sim'.params = sim.params ∧
      Queue sim.params sim'.points ∧ (sim'.state = .completed ∨ sim'.state = .running) := by
  obtain ⟨points, hsimulate, hqueue, -⟩ :=
    queue.simulate draws levels (Nat.min_le_right sim.remainingPoints sim.slotsPerFrame)
  rw [SimState.simulateMovement, if_neg (by rw [hsim]; nofun)]
  simp only [hsimulate, Option.bind_eq_bind, Option.bind_some]
  refine ⟨_, rfl, rfl, hqueue, ?_⟩
  dsimp only
  split
  · exact Or.inl rfl
  · exact Or.inr hsim

/-- What an allowed operation does: it throws nothing and keeps the invariant. -/
def Advances (c c' : SimStateController) : Prop :=
  (∃ id sim, Driven c' id sim) ∧ Subscribed c' ∧ KeepsCompleted c c'

theorem sendEvent_of_subscribed (subscribed : Subscribed c) (param : ParamId) :
    c.eventBus.sendEvent param = [if param = .speed then .speedUpdated else .paramUpdated] := by
  rw [EventBus.sendEvent, subscribed.bus]
  cases param <;> rfl

/-- The speed changes the current simulation, unless it is completed. -/
theorem paramUpdated_spec (driven : Driven c id sim) (subscribed : Subscribed c) :
    ∃ c', c.paramUpdated false = some c' ∧ Advances c c' := by
  rw [paramUpdated, if_neg Bool.false_ne_true]
  simp only [driven.simState, driven.sims, Option.bind_eq_bind, Option.bind_some, Option.pure_def]
  cases hcompleted : sim.isCompleted with
  | true =>
      rw [if_neg (not_not.mpr rfl)]
      exact ⟨_, rfl, startFreshSimulation_spec driven subscribed⟩
  | false =>
      obtain ⟨hdriven, hkeeps⟩ := driven.setSim { sim with slotsPerFrame := c.slotsPerFrame }
        (of_decide_eq_false hcompleted) rfl driven.active rfl driven.queue
      rw [if_pos Bool.false_ne_true]
      exact ⟨_, rfl, ⟨id, _, hdriven⟩, ⟨subscribed.subs, subscribed.bus⟩, hkeeps⟩

/-- A parameter gets a new value: any other than the speed starts a fresh simulation. -/
theorem update_spec (driven : Driven c id sim) (subscribed : Subscribed c) (param : ParamId)
    (simParams : SimParams) : ∃ c', c.update param simParams = some c' ∧ Advances c c' := by
  have hdriven : Driven { c with simParams := simParams } id sim :=
    ⟨driven.simState, driven.sims, driven.listeners, driven.active, driven.levels, driven.queue⟩
  have hsubscribed : Subscribed { c with simParams := simParams } :=
    ⟨subscribed.subs, subscribed.bus⟩
  rw [update, sendEvent_of_subscribed subscribed, List.foldlM_cons]
  simp only [List.foldlM_nil, bind_pure]
  by_cases hparam : param = .speed
  · rw [if_pos hparam]
    exact paramUpdated_spec hdriven hsubscribed
  · rw [if_neg hparam]
    have hfresh := startFreshSimulation_spec hdriven hsubscribed
    exact ⟨_, rfl, hfresh⟩

theorem pause_spec (driven : Driven c id sim) (subscribed : Subscribed c)
    (hsim : sim.state = .running) : ∃ c', c.pause = some c' ∧ Advances c c' := by
  obtain ⟨hdriven, hkeeps⟩ := driven.setSim { sim with state := .paused } (by rw [hsim]; nofun)
    c.tickNotifier.pause_listeners
    (by rw [TickNotifier.pause_isActive]; exact ⟨nofun, nofun⟩) rfl driven.queue
  refine ⟨_, ?_, ⟨id, _, hdriven⟩, ⟨subscribed.subs, subscribed.bus⟩, hkeeps⟩
  rw [pause, driven.simState]
  simp [driven.sims, hsim]

theorem resume_spec (driven : Driven c id sim) (subscribed : Subscribed c)
    (hsim : sim.state ≠ .completed) : ∃ c', c.resume = some c' ∧ Advances c c' := by
  obtain ⟨hdriven, hkeeps⟩ := driven.setSim { sim with state := .running } hsim
    c.tickNotifier.start_listeners
    (by rw [TickNotifier.start_isActive]; exact ⟨fun _ => rfl, fun _ => rfl⟩) rfl driven.queue
  refine ⟨_, ?_, ⟨id, _, hdriven⟩, ⟨subscribed.subs, subscribed.bus⟩, hkeeps⟩
  rw [resume, driven.simState]
  simp [driven.sims, hsim]

/-- A tick drives the current simulation only, and the ticker stops when it completes. -/
theorem tick_spec (driven : Driven c id sim) (subscribed : Subscribed c)
    (hactive : c.tickNotifier.isActive = true) :
    ∃ c', c.tick rand = some c' ∧ Advances c c' := by
  have hrunning := driven.active.mp hactive
  obtain ⟨sim', hsim', hparams, hqueue, hstate⟩ :=
    simulateMovement_spec driven.levels driven.queue hrunning (rand id)
  rw [tick, if_pos hactive, driven.listeners, List.foldlM_cons, onTick, driven.sims]
  simp only [hsim', Option.bind_eq_bind, Option.bind_some, List.foldlM_nil, Option.pure_def]
  have hold : sim.state ≠ .completed := by
    rw [hrunning]
    nofun
  obtain hcompleted | hrunning' := hstate
  · obtain ⟨hdriven, hkeeps⟩ := driven.setSim sim' hold c.tickNotifier.pause_listeners
      (by rw [TickNotifier.pause_isActive, hcompleted]; exact ⟨nofun, nofun⟩) hparams hqueue
    have his : sim'.isCompleted = true := decide_eq_true hcompleted
    rw [if_pos his]
    exact ⟨_, rfl, ⟨id, _, hdriven⟩, ⟨subscribed.subs, subscribed.bus⟩, hkeeps⟩
  · obtain ⟨hdriven, hkeeps⟩ := driven.setSim sim' hold rfl
      (iff_of_true hactive hrunning') hparams hqueue
    have his : sim'.isCompleted = false := decide_eq_false (by rw [hrunning']; nofun)
    rw [his, if_neg Bool.false_ne_true]
    exact ⟨_, rfl, ⟨id, _, hdriven⟩, ⟨subscribed.subs, subscribed.bus⟩, hkeeps⟩

/-- An allowed operation throws nothing and keeps the invariant. -/
theorem step_spec (driven : Driven c id sim) (subscribed : Subscribed c) {op : SimOp}
    (allowed : c.Allowed op) : ∃ c', c.step rand op = some c' ∧ Advances c c' := by
  cases op with
  | setSpeed | setLevels | setCount | setBias => exact update_spec driven subscribed _ _
  | startFreshSimulation => exact ⟨_, rfl, startFreshSimulation_spec driven subscribed⟩
  | pause =>
      obtain ⟨sim₁, hcurrent, hsim⟩ := allowed
      obtain rfl := Option.some.inj (driven.currentSimState.symm.trans hcurrent)
      exact pause_spec driven subscribed hsim
  | resume =>
      obtain ⟨sim₁, hcurrent, hsim⟩ := allowed
      obtain rfl := Option.some.inj (driven.currentSimState.symm.trans hcurrent)
      exact resume_spec driven subscribed hsim
  | tick => exact tick_spec driven subscribed allowed

end Steps

section Runs

variable {rand : ℕ → ℕ → Bool} {c c' : SimStateController} {ops more : List SimOp} {id : ℕ}
  {sim : SimState}

theorem new_spec (simParams : SimParams) :
    (∃ id sim, Driven (new simParams) id sim) ∧ Subscribed (new simParams) :=
  ⟨⟨_, startNew_driven rfl⟩, rfl, funext fun param => by cases param <;> rfl⟩

theorem KeepsCompleted.trans {c'' : SimStateController} (h : KeepsCompleted c c')
    (h' : KeepsCompleted c' c'') : KeepsCompleted c c'' :=
  fun id sim hsim hcompleted => h' id sim (h id sim hsim hcompleted) hcompleted

/-- A run keeps the invariant. -/
theorem Runs.advances (runs : Runs rand c ops c') (driven : Driven c id sim)
    (subscribed : Subscribed c) : Advances c c' := by
  induction runs generalizing id sim with
  | nil c => exact ⟨⟨id, sim, driven⟩, subscribed, fun _ _ hsim _ => hsim⟩
  | cons allowed hstep _ ih =>
      obtain ⟨mid, hmid, ⟨id', sim', driven'⟩, subscribed', hkeeps⟩ :=
        step_spec driven subscribed allowed
      obtain rfl := Option.some.inj (hstep.symm.trans hmid)
      obtain ⟨hdriven, hsubscribed, hkeeps'⟩ := ih driven' subscribed'
      exact ⟨hdriven, hsubscribed, hkeeps.trans hkeeps'⟩

/-- `dispose` cancels every subscription and removes the last listener. -/
theorem dispose_spec (driven : Driven c id sim) (subscribed : Subscribed c) :
    ∃ c', c.dispose = some c' ∧ Disposed c' ∧ c'.sims = c.sims := by
  obtain ⟨hlisteners, hactive⟩ := removeCurrent_listeners driven
  obtain ⟨hbus, hsubs⟩ := removeCurrent_bus c
  obtain ⟨bus, hcancel, hempty⟩ : ∃ bus, subscriptions.foldlM EventBus.cancel c.eventBus =
      some bus ∧ ∀ param, bus.typeToSubscribers param = none := by
    rw [show c.eventBus = ⟨_⟩ from congrArg EventBus.mk subscribed.bus]
    exact ⟨_, rfl, fun param => by cases param <;> rfl⟩
  refine ⟨{ c.removeCurrent with eventBus := bus, subs := [] }, ?_,
    ⟨hlisteners, hactive, rfl, hempty⟩, removeCurrent_sims c⟩
  rw [dispose]
  dsimp only
  rw [hsubs, hbus, subscribed.subs, hcancel]
  rfl

/-- After any run of allowed operations from the constructor: one tick listener is registered, that
of the current simulation, and the ticker is active exactly while it is running; every operation
that is allowed throws nothing; a simulation that is completed keeps its counts in whatever run
follows; and after `dispose` neither a listener nor a subscription is left. -/
theorem lifecycle_of_runs (simParams : SimParams) (runs : Runs rand (new simParams) ops c) :
    Lifecycle c ∧ (∀ op, c.Allowed op → (c.step rand op).isSome) ∧
      (∀ more c', Runs rand c more c' → KeepsCompleted c c') ∧
      ∃ c', c.dispose = some c' ∧ Disposed c' ∧ c'.sims = c.sims := by
  obtain ⟨⟨id, sim, driven⟩, subscribed⟩ := new_spec simParams
  obtain ⟨⟨id, sim, driven⟩, subscribed, -⟩ := runs.advances driven subscribed
  refine ⟨driven.lifecycle, fun op allowed => ?_, fun more c' hmore => ?_,
    dispose_spec driven subscribed⟩
  · obtain ⟨c', hstep, -⟩ := step_spec driven subscribed allowed
    exact Option.isSome_of_eq_some hstep
  · exact (hmore.advances driven subscribed).2.2

/-- Twelve levels, paused and with another speed. -/
theorem lifecycle_paused :
    ∃ c, Runs (fun _ _ => true) (new ⟨12, 1, 11, by decide⟩) [.pause, .setSpeed 20, .resume] c ∧
      Lifecycle c := by
  have runs : Runs (fun _ _ => true) (new ⟨12, 1, 11, by decide⟩)
      [.pause, .setSpeed 20, .resume] _ :=
    .cons ⟨_, rfl, rfl⟩ rfl (.cons trivial rfl (.cons ⟨_, rfl, nofun⟩ rfl (.nil _)))
  exact ⟨_, runs, (lifecycle_of_runs _ runs).1⟩

end Runs

end SimStateController

end Explore.Galton
