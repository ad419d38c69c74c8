import Mathlib.Data.List.Induction
import Mathlib.Data.List.Nodup

/-!
# The event bus

The bus keeps a set of listeners for each event id, and a subscription is a listener with
an id: two subscriptions of one listener to one id are the same entry of the set. So the
bus knows which subscriptions are left as long as no listener is subscribed again to an
id that it is still subscribed to, and no longer.

A client calls the bus and keeps the subscriptions that it gets. The calls that a
listener makes while it is called are left out. The numbers of event ids are unique, so
an id is any type with equality here, and so is a listener.
-/

namespace Explore.Galton

/-- A `Set` of listeners, in the order in which they were added. -/
structure ListenerSet (L : Type) where
  elems : List L
  nodup : elems.Nodup

namespace ListenerSet

variable {L : Type} [DecidableEq L] {listeners : ListenerSet L} {listener x : L}

def empty : ListenerSet L := ⟨[], .nil⟩

def isEmpty (listeners : ListenerSet L) : Bool := listeners.elems.isEmpty

def add (listeners : ListenerSet L) (listener : L) : ListenerSet L :=
  if h : listener ∈ listeners.elems then listeners
  else ⟨listeners.elems ++ [listener], by simpa using List.Nodup.concat h listeners.nodup⟩

def remove (listeners : ListenerSet L) (listener : L) : ListenerSet L :=
  ⟨listeners.elems.erase listener, listeners.nodup.erase listener⟩

@[simp] theorem mem_add :
    x ∈ (listeners.add listener).elems ↔ x ∈ listeners.elems ∨ x = listener := by
  rw [add]
  split
  · rename_i h
    exact ⟨Or.inl, fun hx => hx.elim id fun heq => heq ▸ h⟩
  · simp

@[simp] theorem mem_remove :
    x ∈ (listeners.remove listener).elems ↔ x ≠ listener ∧ x ∈ listeners.elems :=
  listeners.nodup.mem_erase_iff

end ListenerSet

/-- `_EventSubscription` on its bus. -/
structure EventSubscription (E L : Type) where
  listener : L
  eventId : E
  deriving DecidableEq

structure EventBus (E L : Type) where
  typeToSubscribers : E → Option (ListenerSet L)

namespace EventBus

variable {E L : Type} [DecidableEq E] [DecidableEq L]

def create : EventBus E L := ⟨fun _ => none⟩

/-- The listeners that `sendEvent` calls, in order. -/
def sendEvent (bus : EventBus E L) (eventId : E) : List L :=
  match bus.typeToSubscribers eventId with
  | some listeners => listeners.elems
  | none => []

def setEntry (bus : EventBus E L) (eventId : E) (entry : Option (ListenerSet L)) : EventBus E L :=
  ⟨fun other => if other = eventId then entry else bus.typeToSubscribers other⟩

/-- `subscribe`. Only a listener that takes every event can be cast to `EventListener`. For any
other one `subscribe` throws, after it has made the entry. -/
def subscribe (takesAll : L → Bool) (bus : EventBus E L) (eventId : E) (listener : L) :
    EventBus E L × Option (EventSubscription E L) :=
  let listeners := (bus.typeToSubscribers eventId).getD .empty
  if takesAll listener then
    (bus.setEntry eventId (some (listeners.add listener)), some ⟨listener, eventId⟩)
  else (bus.setEntry eventId (some listeners), none)

/-- `cancel`, which throws when the listener is not there. -/
def cancel (bus : EventBus E L) (sub : EventSubscription E L) : Option (EventBus E L) :=
  match bus.typeToSubscribers sub.eventId with
  | none => none
  | some listeners =>
      if sub.listener ∈ listeners.elems then
        let left := listeners.remove sub.listener
        some (bus.setEntry sub.eventId (if left.isEmpty then none else some left))
      else none

section Lemmas

variable {takesAll : L → Bool} {bus bus' : EventBus E L} {eventId other : E} {listener x : L}
  {sub : EventSubscription E L}

omit [DecidableEq L] in
theorem sendEvent_setEntry (entry : Option (ListenerSet L)) :
    (bus.setEntry eventId entry).sendEvent other =
      if other = eventId then (entry.map ListenerSet.elems).getD [] else bus.sendEvent other := by
  by_cases h : other = eventId
  · cases entry <;> simp [setEntry, sendEvent, h]
  · simp [setEntry, sendEvent, h]

omit [DecidableEq E] [DecidableEq L] in
theorem sendEvent_eq (bus : EventBus E L) (eventId : E) :
    bus.sendEvent eventId = ((bus.typeToSubscribers eventId).getD .empty).elems := by
  rw [sendEvent]
  cases bus.typeToSubscribers eventId <;> rfl

theorem subscribe_of_takes (htakes : takesAll listener = true) :
    bus.subscribe takesAll eventId listener =
      (bus.setEntry eventId
        (some (((bus.typeToSubscribers eventId).getD .empty).add listener)),
        some ⟨listener, eventId⟩) := by
  rw [subscribe, htakes, if_pos rfl]

theorem subscribe_of_not (htakes : takesAll listener = false) :
    bus.subscribe takesAll eventId listener =
      (bus.setEntry eventId (some ((bus.typeToSubscribers eventId).getD .empty)), none) := by
  rw [subscribe, htakes, if_neg Bool.false_ne_true]

/-- Whom a subscription adds to the calls. -/
theorem mem_sendEvent_subscribe (htakes : takesAll listener = true) :
    x ∈ (bus.subscribe takesAll eventId listener).1.sendEvent other ↔
      x ∈ bus.sendEvent other ∨ other = eventId ∧ x = listener := by
  rw [subscribe_of_takes htakes, sendEvent_setEntry]
  by_cases h : other = eventId
  · simp [h, sendEvent_eq]
  · simp [h]

/-- A `subscribe` that throws adds nobody. -/
theorem sendEvent_subscribe_of_not (htakes : takesAll listener = false) :
    (bus.subscribe takesAll eventId listener).1.sendEvent other = bus.sendEvent other := by
  rw [subscribe_of_not htakes, sendEvent_setEntry]
  by_cases h : other = eventId
  · simp [h, sendEvent_eq]
  · simp [h]

theorem cancel_isSome : (bus.cancel sub).isSome ↔ sub.listener ∈ bus.sendEvent sub.eventId := by
  rw [cancel, sendEvent]
  cases bus.typeToSubscribers sub.eventId <;> simp

/-- Whom a `cancel` takes from the calls. -/
theorem mem_sendEvent_cancel (h : bus.cancel sub = some bus') :
    x ∈ bus'.sendEvent other ↔
      x ∈ bus.sendEvent other ∧ ¬ (other = sub.eventId ∧ x = sub.listener) := by
  rw [cancel] at h
  split at h
  · cases h
  · rename_i listeners hlisteners
    split at h
    · obtain rfl := Option.some.inj h
      rw [sendEvent_setEntry]
      by_cases heq : other = sub.eventId
      · have hleft : x ∈ (((if (listeners.remove sub.listener).isEmpty then none
            else some (listeners.remove sub.listener)).map ListenerSet.elems).getD [] : List L) ↔
            x ∈ (listeners.remove sub.listener).elems := by
          split
          · rename_i hempty
            rw [List.isEmpty_iff.mp hempty]
            rfl
          · rfl
        rw [if_pos heq, hleft, ListenerSet.mem_remove, heq, sendEvent, hlisteners]
        simp [and_comm]
      · simp [heq]
    · cases h

end Lemmas

end EventBus

/-- A call of a client. A subscription that it got has a number. -/
inductive Call (E L : Type) where
  | subscribe (eventId : E) (listener : L)
  | cancel (number : ℕ)
  | sendEvent (eventId : E)
  deriving DecidableEq

def Call.isSubscribe {E L : Type} : Call E L → Bool
  | .subscribe .. => true
  | .cancel _ | .sendEvent _ => false

/-- A client: its bus, and the subscriptions it got, each with whether it has not been
cancelled. -/
structure Client (E L : Type) where
  bus : EventBus E L
  subs : List (EventSubscription E L × Bool)

namespace Client

variable {E L : Type}

/-- The subscription is there and has not been cancelled. -/
def Live (client : Client E L) (number : ℕ) (sub : EventSubscription E L) : Prop :=
  client.subs[number]? = some (sub, true)

/-- No listener has two subscriptions to an event id that have not been cancelled. -/
def NoOverlap (client : Client E L) : Prop :=
  ∀ i j sub, client.Live i sub → client.Live j sub → i = j

section Live

variable {client : Client E L} {bus : EventBus E L} {sub x : EventSubscription E L} {number i : ℕ}

/-- The subscriptions after one is added. -/
theorem live_append : Live ⟨bus, client.subs ++ [(sub, true)]⟩ i x ↔
    client.Live i x ∨ i = client.subs.length ∧ x = sub := by
  simp only [Live]
  obtain hlt | rfl | hgt := Nat.lt_trichotomy i client.subs.length
  · simp [List.getElem?_append_left hlt, Nat.ne_of_lt hlt]
  · simp [eq_comm]
  · rw [List.getElem?_eq_none (by simp; omega), List.getElem?_eq_none (Nat.le_of_lt hgt)]
    simp [Nat.ne_of_gt hgt]

/-- The subscriptions after one is cancelled. -/
theorem live_set (hlive : client.Live number sub) :
    Live ⟨bus, client.subs.set number (sub, false)⟩ i x ↔ i ≠ number ∧ client.Live i x := by
  simp only [Live]
  by_cases h : number = i
  · subst h
    simp [(List.getElem?_eq_some_iff.mp hlive).1]
  · simp [List.getElem?_set_ne h, Ne.symm h]

end Live

variable [DecidableEq E] [DecidableEq L]

def create : Client E L := ⟨.create, []⟩

/-- A call. A subscription is cancelled at most once, whether or not `cancel` throws. -/
def step (takesAll : L → Bool) (client : Client E L) : Call E L → Option (Client E L)
  | .subscribe eventId listener =>
      let (bus, sub) := client.bus.subscribe takesAll eventId listener
      some ⟨bus, client.subs ++ (sub.toList.map (·, true))⟩
  | .cancel number =>
      match client.subs[number]? with
      | some (sub, true) =>
          some ⟨(client.bus.cancel sub).getD client.bus, client.subs.set number (sub, false)⟩
      | _ => none
  | .sendEvent _ => some client

/-- What is expected of a call: `cancel` does not throw, and `sendEvent` calls the listeners that
have a subscription left. -/
def Right (client : Client E L) : Call E L → Prop
  | .subscribe .. => True
  | .cancel number => ∀ sub, client.Live number sub → (client.bus.cancel sub).isSome
  | .sendEvent eventId => ∀ listener, listener ∈ client.bus.sendEvent eventId ↔
      ∃ number, client.Live number ⟨listener, eventId⟩

def run (takesAll : L → Bool) (calls : List (Call E L)) : Option (Client E L) :=
  calls.foldlM (step takesAll) create

/-- Subscriptions are independent in a sequence of calls: every call does what is expected. -/
def Independent (takesAll : L → Bool) (calls : List (Call E L)) : Prop :=
  ∀ before call after, calls = before ++ call :: after →
    ∀ client, run takesAll before = some client → client.Right call

/-- No listener is subscribed to an event id while an earlier subscription of it to that id has
not been cancelled. -/
def NeverOverlaps (takesAll : L → Bool) (calls : List (Call E L)) : Prop :=
  ∀ before after, calls = before ++ after →
    ∀ client, run takesAll before = some client → client.NoOverlap

/-- The bus calls exactly the listeners that have a subscription left. -/
structure Tracked (client : Client E L) : Prop where
  calls : ∀ eventId listener, listener ∈ client.bus.sendEvent eventId ↔
    ∃ number, client.Live number ⟨listener, eventId⟩
  noOverlap : client.NoOverlap

section Steps

variable {takesAll : L → Bool} {client client' : Client E L} {call : Call E L}
  {calls : List (Call E L)} {number : ℕ}

omit [DecidableEq E] [DecidableEq L] in
theorem Tracked.create : Tracked (create : Client E L) :=
  ⟨by simp [Client.create, EventBus.create, EventBus.sendEvent, Live],
    fun i j sub h => by simp [Client.create, Live] at h⟩

theorem Tracked.right (tracked : Tracked client) (call : Call E L) : client.Right call := by
  cases call with
  | subscribe => exact trivial
  | cancel number =>
      intro sub hlive
      exact EventBus.cancel_isSome.mpr ((tracked.calls _ _).mpr ⟨number, hlive⟩)
  | sendEvent eventId => exact tracked.calls eventId

theorem step_subscribe {eventId : E} {listener : L}
    (h : client.step takesAll (.subscribe eventId listener) = some client') :
    client' = ⟨(client.bus.subscribe takesAll eventId listener).1, client.subs ++
      ((client.bus.subscribe takesAll eventId listener).2.toList.map (·, true))⟩ :=
  (Option.some.inj h).symm

theorem step_cancel (h : client.step takesAll (.cancel number) = some client') :
    ∃ sub, client.Live number sub ∧
      client' = ⟨(client.bus.cancel sub).getD client.bus, client.subs.set number (sub, false)⟩ := by
  simp only [step] at h
  split at h
  · rename_i sub hsub
    exact ⟨sub, hsub, (Option.some.inj h).symm⟩
  · cases h

/-- Only a subscription can be a second one. -/
theorem NoOverlap.step (noOverlap : client.NoOverlap)
    (h : client.step takesAll call = some client') (hcall : call.isSubscribe = false) :
    client'.NoOverlap := by
  cases call with
  | subscribe => cases hcall
  | cancel number =>
      obtain ⟨sub, hlive, rfl⟩ := step_cancel h
      intro i j x hi hj
      exact noOverlap i j x ((live_set hlive).mp hi).2 ((live_set hlive).mp hj).2
  | sendEvent =>
      obtain rfl := Option.some.inj h
      exact noOverlap

/-- A call keeps the invariant, unless it subscribes a listener again. -/
theorem Tracked.step (tracked : Tracked client) (h : client.step takesAll call = some client')
    (hnew : call.isSubscribe = true → client'.NoOverlap) : Tracked client' := by
  cases call with
  | subscribe eventId listener =>
      refine ⟨fun other x => ?_, hnew rfl⟩
      rw [step_subscribe h]
      cases htakes : takesAll listener with
      | true =>
          rw [EventBus.mem_sendEvent_subscribe htakes, tracked.calls,
            EventBus.subscribe_of_takes htakes]
          simp [live_append, exists_or, and_comm]
      | false =>
          rw [EventBus.sendEvent_subscribe_of_not htakes, tracked.calls,
            EventBus.subscribe_of_not htakes]
          simp [Live]
  | cancel number =>
      obtain ⟨sub, hlive, rfl⟩ := step_cancel h
      obtain ⟨bus, hbus⟩ := Option.isSome_iff_exists.mp (tracked.right (.cancel number) sub hlive)
      refine ⟨fun other x => ?_, tracked.noOverlap.step h rfl⟩
      rw [hbus, Option.getD_some, EventBus.mem_sendEvent_cancel hbus, tracked.calls]
      simp only [live_set hlive]
      constructor
      · rintro ⟨⟨i, hi⟩, hne⟩
        refine ⟨i, ?_, hi⟩
        rintro rfl
        obtain rfl := congrArg Prod.fst (Option.some.inj (hlive.symm.trans hi))
        exact hne ⟨rfl, rfl⟩
      · rintro ⟨i, hne, hi⟩
        refine ⟨⟨i, hi⟩, ?_⟩
        rintro ⟨rfl, rfl⟩
        exact hne (tracked.noOverlap i number sub hi hlive)
  | sendEvent =>
      obtain rfl := Option.some.inj h
      exact tracked

end Steps

section Runs

variable {takesAll : L → Bool} {client : Client E L} {call : Call E L} {calls : List (Call E L)}

theorem run_append_singleton (calls : List (Call E L)) (call : Call E L) :
    run takesAll (calls ++ [call]) = (run takesAll calls).bind (·.step takesAll call) := by
  rw [run, List.foldlM_append]
  refine congrArg (Option.bind _) (funext fun client => ?_)
  rw [List.foldlM_cons]
  cases client.step takesAll call <;> rfl

theorem NeverOverlaps.of_append {more : List (Call E L)}
    (h : NeverOverlaps takesAll (calls ++ more)) : NeverOverlaps takesAll calls :=
  fun before after hcalls => h before (after ++ more) (by rw [hcalls, List.append_assoc])

theorem NeverOverlaps.append_singleton (h : NeverOverlaps takesAll calls)
    (hcall : call.isSubscribe = false) : NeverOverlaps takesAll (calls ++ [call]) := by
  intro before after hcalls client hrun
  obtain rfl | ⟨after, last, rfl⟩ := after.eq_nil_or_concat'
  · obtain rfl : calls ++ [call] = before := by simpa using hcalls
    rw [run_append_singleton] at hrun
    obtain ⟨mid, hmid, hstep⟩ := Option.bind_eq_some_iff.mp hrun
    exact (h calls [] (List.append_nil calls).symm mid hmid).step hstep hcall
  · rw [← List.append_assoc] at hcalls
    exact h before after (List.append_inj_left' hcalls rfl) client hrun

/-- The invariant holds in every state of a run without a second subscription. -/
theorem Tracked.run (h : NeverOverlaps takesAll calls)
    (hrun : Client.run takesAll calls = some client) : Tracked client := by
  induction calls using List.reverseRecOn generalizing client with
  | nil =>
      obtain rfl := Option.some.inj hrun
      exact Tracked.create
  | append_singleton calls call ih =>
      have hclient := h (calls ++ [call]) [] (List.append_nil _).symm client hrun
      rw [run_append_singleton] at hrun
      obtain ⟨mid, hmid, hstep⟩ := Option.bind_eq_some_iff.mp hrun
      exact (ih h.of_append hmid).step hstep fun _ => hclient

theorem NeverOverlaps.independent (h : NeverOverlaps takesAll calls) :
    Independent takesAll calls := by
  rintro before call after rfl client hrun
  exact (Tracked.run h.of_append hrun).right call

/-- After a second subscription, cancelling one of the two silences the other. -/
theorem noOverlap_of_independent {before : List (Call E L)}
    (hrun : run takesAll before = some client)
    (h : ∀ more : List (Call E L), (∀ call ∈ more, call.isSubscribe = false) →
      Independent takesAll (before ++ more)) : client.NoOverlap := by
  intro i j sub hi hj
  by_contra hne
  have hindependent := h [.cancel i, .sendEvent sub.eventId] (by simp [Call.isSubscribe])
  have hcancel := hindependent before (.cancel i) [.sendEvent sub.eventId] rfl client hrun sub hi
  obtain ⟨bus, hbus⟩ := Option.isSome_iff_exists.mp hcancel
  have hstep : client.step takesAll (.cancel i) =
      some ⟨bus, client.subs.set i (sub, false)⟩ := by
    have hsub : client.subs[i]? = some (sub, true) := hi
    simp only [step, hsub, hbus, Option.getD_some]
  have hsend := hindependent (before ++ [.cancel i]) (.sendEvent sub.eventId) [] (by simp) _
    (by rw [run_append_singleton, hrun, Option.bind_some, hstep]) sub.listener
  have hcalled := hsend.mpr ⟨j, (live_set hi).mpr ⟨Ne.symm hne, hj⟩⟩
  exact ((EventBus.mem_sendEvent_cancel hbus).mp hcalled).2 ⟨rfl, rfl⟩

/-- In a sequence of calls no listener is subscribed to an id again while an earlier subscription
is left, if and only if subscriptions are independent in it and also when, after any of its calls,
only cancels and events follow. -/
theorem independent_iff :
    (∀ before after, calls = before ++ after → ∀ more : List (Call E L),
      (∀ call ∈ more, call.isSubscribe = false) → Independent takesAll (before ++ more)) ↔
    NeverOverlaps takesAll calls := by
  constructor
  · intro h before after hcalls client hrun
    exact noOverlap_of_independent hrun (h before after hcalls)
  · rintro h before after rfl more hmore
    refine NeverOverlaps.independent ?_
    induction more using List.reverseRecOn with
    | nil => simpa using h.of_append
    | append_singleton more call ih =>
        rw [← List.append_assoc]
        exact (ih fun c hc => hmore c (List.mem_append_left _ hc)).append_singleton
          (hmore call (by simp))

/-- Two subscriptions of one listener to one id, of which the first is cancelled. -/
def cancelFirst : List (Call ℕ ℕ) :=
  [.subscribe 0 0, .subscribe 0 0, .cancel 0, .sendEvent 0, .cancel 1]

/-- The event calls nobody, and the second `cancel` throws. -/
theorem not_independent_cancelFirst :
    (run (fun _ => true) cancelFirst).isSome ∧ ¬ Independent (fun _ => true) cancelFirst ∧
      ∃ client sub, run (fun _ => true) (cancelFirst.take 4) = some client ∧
        client.Live 1 sub ∧ client.bus.cancel sub = none := by
  refine ⟨rfl, fun h => ?_, _, ⟨0, 0⟩, rfl, rfl, rfl⟩
  have hsend := h [.subscribe 0 0, .subscribe 0 0, .cancel 0] (.sendEvent 0) [.cancel 1] rfl _ rfl 0
  have hcalled := hsend.mpr ⟨1, rfl⟩
  cases hcalled

end Runs

end Client

end Explore.Galton
