import Explore.SpscQueue.Fifo
import Mathlib.Data.List.Induction

/-!
# Mixing the plain and the cached operations

`push` and `pop` move the real cursors and leave the cached ones alone, so a cached cursor may
be far behind. A comparison with the cached consumer cursor still errs on the safe side until
the difference wraps. A comparison with the cached producer cursor asks only whether it differs
from the consumer's, and after `pop` has moved the consumer past it, it does differ: `pop2`
then reads from an empty queue.

Here the invariant says nothing of the cached cursors. It is kept by every step but the two
comparisons, and by these as long as a comparison does not succeed on an empty or a full
queue. Which calls see to that is said by a run that remembers what the cached cursors were
loaded from: `pop2` may not test an empty queue when pushes were completed, and popped, since
the load.
-/

namespace Explore.SpscQueue

open WrappingCounter

/-- What is expected of a state. A thread is about to read a slot only if a record is in the
queue, and about to write one only if there is room; the records returned are the first ones
passed; and no write goes to the slot of a record that is not read yet. -/
structure Sound (s : System) : Prop where
  hasData : ∀ consumer, s.consumer = .pop2Read consumer → s.popped.length < s.completedPushes
  hasSpace : ∀ record producer, s.producer = .push2Write record producer →
    s.completedPushes < s.popped.length + capacity
  fifo : s.popped <+: s.pushed
  not_overwritten : ∀ record producer,
    s.producer = .push2Write record producer ∨ s.producer = .pushWrite record producer →
      ∀ k, s.reads ≤ k → k < s.writes → mapIndex (BitVec.ofNat 64 k) ≠ mapIndex producer

/-- What the comparison with a cached cursor needs, before a step of a thread: on an empty queue
the cached producer cursor has not fallen behind the consumer's, and on a full one the cached
consumer cursor does not show room. -/
def CacheFresh (s : System) : Action → Prop
  | .consumer => ∀ consumer, s.consumer = .hasDataCached consumer →
      s.ring.nextProducerRecord = consumer → s.ring.cachedProducerRecord = consumer
  | .producer => ∀ record producer, s.producer = .hasSpaceCached record producer →
      (producer - s.ring.nextConsumerRecord).toNat = capacity →
        capacity ≤ (producer - s.ring.cachedConsumerRecord).toNat
  | _ => True

/-- The pushes that were completed when `has_data` last loaded the producer's cursor, and the
records that were popped when `has_space` last loaded the consumer's. -/
structure Seen where
  pushes : ℕ
  pops : ℕ

def Seen.after (seen : Seen) (s : System) : Action → Seen
  | .consumer =>
      match s.consumer with
      | .hasDataLoad _ => { seen with pushes := s.completedPushes }
      | _ => seen
  | .producer =>
      match s.producer with
      | .hasSpaceLoad _ _ => { seen with pops := s.popped.length }
      | _ => seen
  | _ => seen

/-- A run from the start, with what was seen. -/
def watch (data : Fin capacity → Record) (actions : List Action) : Option (System × Seen) :=
  actions.foldlM (fun x action => (x.1.step action).map (·, x.2.after x.1 action))
    (System.new data, ⟨0, 0⟩)

/-- When `pop2` tests its cache on an empty queue, no push has been completed since the load, or
a multiple of `2^64`; when `push2` tests its cache on a full queue, the pushes beyond what was
popped at the load are `capacity` or more modulo `2^64`. -/
def Current (s : System) (seen : Seen) : Action → Prop
  | .consumer => ∀ consumer, s.consumer = .hasDataCached consumer →
      s.popped.length = s.completedPushes → 2 ^ 64 ∣ s.completedPushes - seen.pushes
  | .producer => ∀ record producer, s.producer = .hasSpaceCached record producer →
      s.completedPushes = s.popped.length + capacity →
        capacity ≤ (s.completedPushes - seen.pops) % 2 ^ 64
  | _ => True

/-- Whatever step comes next in a run, what was seen is current enough for it. -/
def AlwaysCurrent (data : Fin capacity → Record) (actions : List Action) : Prop :=
  ∀ before action after, actions = before ++ action :: after →
    ∀ s seen, watch data before = some (s, seen) → Current s seen action

/-- Every state of a run is as expected. -/
def AlwaysSound (data : Fin capacity → Record) (actions : List Action) : Prop :=
  ∀ before after, actions = before ++ after →
    ∀ s, (System.new data).run before = some s → Sound s

/-- What the producer knows at each point, when it has published `p` records and `c` have been
released. -/
def ProducerKnows (writes : ℕ) (pushed : List Record) (p c : ℕ) : ProducerPc → Prop
  | .idle => writes = p ∧ pushed.length = p
  | .push2Load record | .pushSize record =>
      writes = p ∧ pushed.length = p + 1 ∧ pushed[p]? = some record
  | .hasSpaceCached record producer | .hasSpaceLoad record producer
  | .pushSizeConsumer record producer =>
      writes = p ∧ pushed.length = p + 1 ∧ pushed[p]? = some record ∧
        producer = BitVec.ofNat 64 p
  | .pushIndex record =>
      writes = p ∧ pushed.length = p + 1 ∧ pushed[p]? = some record ∧ p < c + capacity
  | .push2Write record producer | .pushWrite record producer =>
      writes = p ∧ pushed.length = p + 1 ∧ pushed[p]? = some record ∧
        producer = BitVec.ofNat 64 p ∧ p < c + capacity
  | .push2Store producer =>
      writes = p + 1 ∧ pushed.length = p + 1 ∧ producer = BitVec.ofNat 64 p
  | .pushIncrement => writes = p + 1 ∧ pushed.length = p + 1

/-- What the consumer knows at each point, when it has released `c` records and `p` are
published. -/
def ConsumerKnows (reads : ℕ) (pushed : List Record) (c p : ℕ) : ConsumerPc → Prop
  | .idle | .pop2Load | .popSize => reads = c
  | .hasDataCached consumer | .hasDataLoad consumer => reads = c ∧ consumer = BitVec.ofNat 64 c
  | .popSizeConsumer producer =>
      reads = c ∧ ∃ loaded, c ≤ loaded ∧ loaded ≤ p ∧ producer = BitVec.ofNat 64 loaded
  | .popIndex => reads = c ∧ c < p
  | .pop2Read consumer | .popRead consumer =>
      reads = c ∧ consumer = BitVec.ofNat 64 c ∧ c < p
  | .pop2Store record consumer =>
      reads = c + 1 ∧ consumer = BitVec.ofNat 64 c ∧ c < p ∧ pushed[c]? = some record
  | .popIncrement record => reads = c + 1 ∧ c < p ∧ pushed[c]? = some record

/-- The invariant, with the number of published and of released records. -/
structure Counts (s : System) (p c : ℕ) : Prop where
  nextProducerRecord : s.ring.nextProducerRecord = BitVec.ofNat 64 p
  nextConsumerRecord : s.ring.nextConsumerRecord = BitVec.ofNat 64 c
  consumer_le : c ≤ p
  room : s.writes ≤ c + capacity
  popped : s.popped = s.pushed.take c
  unread : ∀ k, s.reads ≤ k → k < s.writes →
    s.pushed[k]? = some (s.ring.data (mapIndex (BitVec.ofNat 64 k)))
  producer : ProducerKnows s.writes s.pushed p c s.producer
  consumer : ConsumerKnows s.reads s.pushed c p s.consumer

variable {s s' : System} {p c : ℕ}

section Knows

variable {writes reads : ℕ} {pushed : List Record} {pc : ProducerPc} {cc : ConsumerPc}

theorem ProducerKnows.bounds (h : ProducerKnows writes pushed p c pc) :
    p ≤ writes ∧ writes ≤ pushed.length ∧ pushed.length ≤ p + 1 := by
  cases pc <;> simp only [ProducerKnows] at h <;> omega

theorem ConsumerKnows.bounds (h : ConsumerKnows reads pushed c p cc) :
    c ≤ reads ∧ reads ≤ c + 1 := by
  cases cc <;> simp only [ConsumerKnows] at h <;> omega

/-- More released records are more room. -/
theorem ProducerKnows.released (h : ProducerKnows writes pushed p c pc) :
    ProducerKnows writes pushed p (c + 1) pc := by
  cases pc <;> simp only [ProducerKnows] at h ⊢ <;> grind

/-- A later record changes nothing for the consumer. -/
theorem ConsumerKnows.append (h : ConsumerKnows reads pushed c p cc) (record : Record) :
    ConsumerKnows reads (pushed ++ [record]) c p cc := by
  have hget {value : Record} (hvalue : pushed[c]? = some value) :
      (pushed ++ [record])[c]? = some value := by
    rw [List.getElem?_append_left (List.getElem?_eq_some_iff.mp hvalue).1, hvalue]
  cases cc with
  | pop2Store value consumer =>
      obtain ⟨hreads, hconsumer, hlt, hvalue⟩ := h
      exact ⟨hreads, hconsumer, hlt, hget hvalue⟩
  | popIncrement value =>
      obtain ⟨hreads, hlt, hvalue⟩ := h
      exact ⟨hreads, hlt, hget hvalue⟩
  | _ => exact h

/-- Nor does one more published record. -/
theorem ConsumerKnows.published (h : ConsumerKnows reads pushed c p cc) :
    ConsumerKnows reads pushed c (p + 1) cc := by
  cases cc <;> simp only [ConsumerKnows] at h ⊢ <;> grind

end Knows

namespace Counts

theorem new (data : Fin capacity → Record) : Counts (System.new data) 0 0 where
  nextProducerRecord := rfl
  nextConsumerRecord := rfl
  consumer_le := Nat.le_refl 0
  room := Nat.zero_le _
  popped := rfl
  unread := fun k _ hk => absurd hk (Nat.not_lt_zero k)
  producer := ⟨rfl, rfl⟩
  consumer := rfl

/-- The number of outstanding records fits the ring. -/
theorem producer_le (counts : Counts s p c) : p ≤ c + capacity :=
  counts.producer.bounds.1.trans counts.room

/-- The difference of the real cursors is the number of outstanding records. -/
theorem toNat_sub (counts : Counts s p c) :
    (BitVec.ofNat 64 p - BitVec.ofNat 64 c).toNat = p - c := by
  have hle := counts.producer_le
  have hlt := capacity_lt
  exact WrappingCounter.toNat_sub counts.consumer_le (by omega)

/-- A call of `push` or `push2` begins. -/
theorem begin_push (counts : Counts s p c) (record : Record) (idle : s.producer = .idle)
    {pc : ProducerPc} (hpc : pc = .push2Load record ∨ pc = .pushSize record) :
    Counts { s with producer := pc, pushed := s.pushed ++ [record] } p c := by
  have hproducer := counts.producer
  rw [idle] at hproducer
  obtain ⟨hwrites, hlength⟩ := hproducer
  have hle := counts.consumer_le
  refine { counts with
    popped := ?_, unread := fun k hr (hw : k < s.writes) => ?_, producer := ?_,
    consumer := counts.consumer.append record }
  · rw [List.take_append_of_le_length (by omega)]
    exact counts.popped
  · rw [List.getElem?_append_left (by omega)]
    exact counts.unread k hr hw
  · have hknows : s.writes = p ∧ (s.pushed ++ [record]).length = p + 1 ∧
        (s.pushed ++ [record])[p]? = some record := by
      refine ⟨hwrites, by simp [hlength], ?_⟩
      rw [← hlength]
      exact List.getElem?_concat_length
    obtain rfl | rfl := hpc <;> exact hknows

/-- The producer writes its record into a slot whose record has been read. -/
theorem write (counts : Counts s p c) {record : Record} {producer : Cursor}
    (hwrites : s.writes = p) (hlength : s.pushed.length = p + 1)
    (hrecord : s.pushed[p]? = some record) (hcursor : producer = BitVec.ofNat 64 p)
    (hspace : p < c + capacity) {pc : ProducerPc}
    (hpc : pc = .push2Store producer ∨ pc = .pushIncrement) :
    Counts { s with
      ring.data := Function.update s.ring.data (mapIndex producer) record
      producer := pc
      writes := s.writes + 1 } p c := by
  have hreads := counts.consumer.bounds.1
  refine { counts with room := ?_, unread := fun k hr hw => ?_, producer := ?_ }
  · dsimp only
    omega
  · dsimp only at hr hw ⊢
    by_cases hk : k = p
    · rw [hk, hcursor, Function.update_self, hrecord]
    · have hne : mapIndex (BitVec.ofNat 64 k) ≠ mapIndex producer := by
        rw [hcursor]
        exact mapIndex_ne (by omega) (by omega)
      rw [Function.update_of_ne hne]
      exact counts.unread k hr (by omega)
  · obtain rfl | rfl := hpc
    · exact ⟨congrArg (· + 1) hwrites, hlength, hcursor⟩
    · exact ⟨congrArg (· + 1) hwrites, hlength⟩

/-- The producer publishes its record. -/
theorem publish (counts : Counts s p c) (hwrites : s.writes = p + 1)
    (hlength : s.pushed.length = p + 1) :
    Counts { s with ring.nextProducerRecord := BitVec.ofNat 64 (p + 1), producer := .idle }
      (p + 1) c :=
  { counts with
    nextProducerRecord := rfl
    consumer_le := counts.consumer_le.trans (Nat.le_succ p)
    producer := ⟨hwrites, hlength⟩
    consumer := counts.consumer.published }

/-- A step of the producer. -/
theorem producerStep (counts : Counts s p c) (fresh : CacheFresh s .producer)
    (h : s.producerStep = some s') : ∃ p' c', Counts s' p' c' := by
  have hpc := counts.producer
  have hdiff := counts.toNat_sub
  have hle := counts.producer_le
  unfold System.producerStep at h
  cases hproducer : s.producer with
  | idle => simp [hproducer] at h
  | push2Load record | pushSize record =>
      rw [hproducer] at hpc
      simp only [hproducer, Option.some.injEq] at h
      subst h
      obtain ⟨hwrites, hlength, hrecord⟩ := hpc
      exact ⟨p, c, { counts with
        producer := ⟨hwrites, hlength, hrecord, counts.nextProducerRecord⟩ }⟩
  | hasSpaceCached record producer =>
      rw [hproducer] at hpc
      simp only [hproducer, Option.some.injEq] at h
      subst h
      obtain ⟨hwrites, hlength, hrecord, hcursor⟩ := hpc
      refine ⟨p, c, { counts with producer := ?_ }⟩
      by_cases hspace : (producer - s.ring.cachedConsumerRecord).toNat < capacity
      · rw [if_pos hspace]
        refine ⟨hwrites, hlength, hrecord, hcursor, Nat.lt_of_le_of_ne hle fun hfull => ?_⟩
        refine absurd hspace (Nat.not_lt.mpr (fresh record producer hproducer ?_))
        rw [hcursor, counts.nextConsumerRecord, hdiff]
        omega
      · rw [if_neg hspace]
        exact ⟨hwrites, hlength, hrecord, hcursor⟩
  | hasSpaceLoad record producer =>
      rw [hproducer] at hpc
      simp only [hproducer, Option.some.injEq] at h
      subst h
      obtain ⟨hwrites, hlength, hrecord, hcursor⟩ := hpc
      refine ⟨p, c, { counts with producer := ?_ }⟩
      rw [hcursor, counts.nextConsumerRecord, hdiff]
      by_cases hspace : p - c < capacity
      · rw [if_pos hspace]
        exact ⟨hwrites, hlength, hrecord, rfl, by omega⟩
      · rw [if_neg hspace]
        exact ⟨hwrites, hlength, hrecord, rfl⟩
  | pushSizeConsumer record producer =>
      rw [hproducer] at hpc
      simp only [hproducer, Option.some.injEq] at h
      subst h
      obtain ⟨hwrites, hlength, hrecord, hcursor⟩ := hpc
      refine ⟨p, c, { counts with producer := ?_ }⟩
      rw [hcursor, counts.nextConsumerRecord, hdiff]
      by_cases hfull : p - c = capacity
      · rw [if_pos hfull]
        exact ⟨hwrites, hlength, hrecord⟩
      · rw [if_neg hfull]
        exact ⟨hwrites, hlength, hrecord, by omega⟩
  | pushIndex record =>
      rw [hproducer] at hpc
      simp only [hproducer, Option.some.injEq] at h
      subst h
      obtain ⟨hwrites, hlength, hrecord, hspace⟩ := hpc
      exact ⟨p, c, { counts with
        producer := ⟨hwrites, hlength, hrecord, counts.nextProducerRecord, hspace⟩ }⟩
  | push2Write record producer =>
      rw [hproducer] at hpc
      simp only [hproducer, Option.some.injEq] at h
      subst h
      obtain ⟨hwrites, hlength, hrecord, hcursor, hspace⟩ := hpc
      exact ⟨p, c, counts.write hwrites hlength hrecord hcursor hspace (Or.inl rfl)⟩
  | pushWrite record producer =>
      rw [hproducer] at hpc
      simp only [hproducer, Option.some.injEq] at h
      subst h
      obtain ⟨hwrites, hlength, hrecord, hcursor, hspace⟩ := hpc
      exact ⟨p, c, counts.write hwrites hlength hrecord hcursor hspace (Or.inr rfl)⟩
  | push2Store producer =>
      rw [hproducer] at hpc
      simp only [hproducer, Option.some.injEq] at h
      subst h
      obtain ⟨hwrites, hlength, hcursor⟩ := hpc
      rw [hcursor, ofNat_succ]
      exact ⟨p + 1, c, counts.publish hwrites hlength⟩
  | pushIncrement =>
      rw [hproducer] at hpc
      simp only [hproducer, Option.some.injEq] at h
      subst h
      obtain ⟨hwrites, hlength⟩ := hpc
      rw [counts.nextProducerRecord, ofNat_succ]
      exact ⟨p + 1, c, counts.publish hwrites hlength⟩

/-- The consumer reads the record of a slot that has been written. -/
theorem read (counts : Counts s p c) {consumer : Cursor} (hreads : s.reads = c)
    (hcursor : consumer = BitVec.ofNat 64 c) (hdata : c < p) {cc : ConsumerPc}
    (hcc : cc = .pop2Store (s.ring.data (mapIndex consumer)) consumer ∨
      cc = .popIncrement (s.ring.data (mapIndex consumer))) :
    Counts { s with consumer := cc, reads := s.reads + 1 } p c := by
  have hwrites := counts.producer.bounds.1
  have hrecord := counts.unread c (by omega) (by omega)
  rw [← hcursor] at hrecord
  refine { counts with unread := fun k hr hw => ?_, consumer := ?_ }
  · exact counts.unread k (by dsimp only at hr; omega) hw
  · obtain rfl | rfl := hcc
    · exact ⟨congrArg (· + 1) hreads, hcursor, hdata, hrecord⟩
    · exact ⟨congrArg (· + 1) hreads, hdata, hrecord⟩

/-- The consumer releases its record. -/
theorem release (counts : Counts s p c) {record : Record} (hreads : s.reads = c + 1)
    (hdata : c < p) (hrecord : s.pushed[c]? = some record) :
    Counts { s with
      ring.nextConsumerRecord := BitVec.ofNat 64 (c + 1)
      consumer := .idle
      popped := s.popped ++ [record] } p (c + 1) :=
  { counts with
    nextConsumerRecord := rfl
    consumer_le := hdata
    room := counts.room.trans (by omega)
    popped := by
      dsimp only
      rw [counts.popped, List.take_add_one, hrecord]
      rfl
    producer := counts.producer.released
    consumer := hreads }

/-- A step of the consumer. -/
theorem consumerStep (counts : Counts s p c) (fresh : CacheFresh s .consumer)
    (h : s.consumerStep = some s') : ∃ p' c', Counts s' p' c' := by
  have hpc := counts.consumer
  unfold System.consumerStep at h
  cases hconsumer : s.consumer with
  | idle => simp [hconsumer] at h
  | pop2Load =>
      rw [hconsumer] at hpc
      simp only [hconsumer, Option.some.injEq] at h
      subst h
      exact ⟨p, c, { counts with consumer := ⟨hpc, counts.nextConsumerRecord⟩ }⟩
  | hasDataCached consumer =>
      rw [hconsumer] at hpc
      simp only [hconsumer, Option.some.injEq] at h
      subst h
      obtain ⟨hreads, hcursor⟩ := hpc
      refine ⟨p, c, { counts with consumer := ?_ }⟩
      by_cases hdata : s.ring.cachedProducerRecord - consumer ≠ 0
      · rw [if_pos hdata]
        refine ⟨hreads, hcursor, Nat.lt_of_le_of_ne counts.consumer_le fun hempty => hdata ?_⟩
        have hproducer : s.ring.nextProducerRecord = consumer := by
          rw [counts.nextProducerRecord, hcursor, hempty]
        rw [fresh consumer hconsumer hproducer]
        exact BitVec.sub_self _
      · rw [if_neg hdata]
        exact ⟨hreads, hcursor⟩
  | hasDataLoad consumer =>
      rw [hconsumer] at hpc
      simp only [hconsumer, Option.some.injEq] at h
      subst h
      obtain ⟨hreads, hcursor⟩ := hpc
      refine ⟨p, c, { counts with consumer := ?_ }⟩
      by_cases hdata : s.ring.nextProducerRecord - consumer ≠ 0
      · rw [if_pos hdata]
        refine ⟨hreads, hcursor, Nat.lt_of_le_of_ne counts.consumer_le fun hempty => hdata ?_⟩
        rw [counts.nextProducerRecord, hcursor, hempty]
        exact BitVec.sub_self _
      · rw [if_neg hdata]
        exact ⟨hreads, hcursor⟩
  | popSize =>
      rw [hconsumer] at hpc
      simp only [hconsumer, Option.some.injEq] at h
      subst h
      exact ⟨p, c, { counts with
        consumer := ⟨hpc, p, counts.consumer_le, Nat.le_refl p, counts.nextProducerRecord⟩ }⟩
  | popSizeConsumer producer =>
      rw [hconsumer] at hpc
      simp only [hconsumer, Option.some.injEq] at h
      subst h
      obtain ⟨hreads, loaded, hle, hloaded, hcursor⟩ := hpc
      refine ⟨p, c, { counts with consumer := ?_ }⟩
      by_cases hempty : producer - s.ring.nextConsumerRecord = 0
      · rw [if_pos hempty]
        exact hreads
      · rw [if_neg hempty]
        refine ⟨hreads, Nat.lt_of_lt_of_le (Nat.lt_of_le_of_ne hle fun heq => hempty ?_) hloaded⟩
        rw [hcursor, counts.nextConsumerRecord, heq]
        exact BitVec.sub_self _
  | popIndex =>
      rw [hconsumer] at hpc
      simp only [hconsumer, Option.some.injEq] at h
      subst h
      obtain ⟨hreads, hdata⟩ := hpc
      exact ⟨p, c, { counts with consumer := ⟨hreads, counts.nextConsumerRecord, hdata⟩ }⟩
  | pop2Read consumer =>
      rw [hconsumer] at hpc
      simp only [hconsumer, Option.some.injEq] at h
      subst h
      obtain ⟨hreads, hcursor, hdata⟩ := hpc
      exact ⟨p, c, counts.read hreads hcursor hdata (Or.inl rfl)⟩
  | popRead consumer =>
      rw [hconsumer] at hpc
      simp only [hconsumer, Option.some.injEq] at h
      subst h
      obtain ⟨hreads, hcursor, hdata⟩ := hpc
      exact ⟨p, c, counts.read hreads hcursor hdata (Or.inr rfl)⟩
  | pop2Store record consumer =>
      rw [hconsumer] at hpc
      simp only [hconsumer, Option.some.injEq] at h
      subst h
      obtain ⟨hreads, hcursor, hdata, hrecord⟩ := hpc
      rw [hcursor, ofNat_succ]
      exact ⟨p, c + 1, counts.release hreads hdata hrecord⟩
  | popIncrement record =>
      rw [hconsumer] at hpc
      simp only [hconsumer, Option.some.injEq] at h
      subst h
      obtain ⟨hreads, hdata, hrecord⟩ := hpc
      rw [counts.nextConsumerRecord, ofNat_succ]
      exact ⟨p, c + 1, counts.release hreads hdata hrecord⟩

theorem step {action : Action} (counts : Counts s p c) (fresh : CacheFresh s action)
    (h : s.step action = some s') : ∃ p' c', Counts s' p' c' := by
  cases action with
  | push record =>
      simp only [System.step] at h
      split at h
      case isTrue idle =>
        obtain rfl := Option.some.inj h
        exact ⟨p, c, counts.begin_push record idle (Or.inr rfl)⟩
      case isFalse => cases h
  | push2 record =>
      simp only [System.step] at h
      split at h
      case isTrue idle =>
        obtain rfl := Option.some.inj h
        exact ⟨p, c, counts.begin_push record idle (Or.inl rfl)⟩
      case isFalse => cases h
  | producer => exact counts.producerStep fresh h
  | pop | pop2 =>
      simp only [System.step] at h
      split at h
      case isTrue idle =>
        obtain rfl := Option.some.inj h
        have hconsumer := counts.consumer
        rw [idle] at hconsumer
        exact ⟨p, c, { counts with consumer := hconsumer }⟩
      case isFalse => cases h
  | consumer => exact counts.consumerStep fresh h

theorem completedPushes_eq (counts : Counts s p c) : s.completedPushes = p := by
  have hpc := counts.producer
  unfold System.completedPushes
  cases hproducer : s.producer <;> rw [hproducer] at hpc <;> simp only [ProducerKnows] at hpc <;>
    simp <;> omega

theorem length_popped (counts : Counts s p c) : s.popped.length = c := by
  have hbounds := counts.producer.bounds
  have hle := counts.consumer_le
  rw [counts.popped, List.length_take]
  omega

theorem sound (counts : Counts s p c) : Sound s := by
  have hpushes := counts.completedPushes_eq
  have hpops := counts.length_popped
  refine ⟨fun consumer hconsumer => ?_, fun record producer hproducer => ?_, ?_,
    fun record producer hproducer k hr hw => ?_⟩
  · have hpc := counts.consumer
    rw [hconsumer] at hpc
    rw [hpushes, hpops]
    exact hpc.2.2
  · have hpc := counts.producer
    rw [hproducer] at hpc
    rw [hpushes, hpops]
    exact hpc.2.2.2.2
  · rw [counts.popped]
    exact List.take_prefix _ _
  · have hpc := counts.producer
    have hreads := counts.consumer.bounds.1
    obtain ⟨hwrites, hcursor, hspace⟩ :
        s.writes = p ∧ producer = BitVec.ofNat 64 p ∧ p < c + capacity := by
      obtain hproducer | hproducer := hproducer <;> rw [hproducer] at hpc <;>
        exact ⟨hpc.1, hpc.2.2.2.1, hpc.2.2.2.2⟩
    rw [hcursor]
    exact mapIndex_ne (by omega) (by omega)

/-- If the next state is as expected, the caches are fresh enough: a comparison that succeeds on an
empty or full queue is seen in the next state. -/
theorem cacheFresh {action : Action} (counts : Counts s p c)
    (h : ∀ s', s.step action = some s' → Sound s') : CacheFresh s action := by
  have hpushes := counts.completedPushes_eq
  have hpops := counts.length_popped
  have hdiff := counts.toNat_sub
  have hle := counts.consumer_le
  cases action with
  | consumer =>
      intro consumer hconsumer hempty
      by_contra hne
      have hsub : s.ring.cachedProducerRecord - consumer ≠ 0 := by
        intro hzero
        refine hne ?_
        rw [← BitVec.sub_add_cancel s.ring.cachedProducerRecord consumer, hzero]
        exact BitVec.zero_add consumer
      have hsound := (h { s with consumer := .pop2Read consumer }
        (by simp only [System.step, System.consumerStep, hconsumer, if_pos hsub])).hasData
        consumer rfl
      have hpc := counts.consumer
      rw [hconsumer] at hpc
      have hequal : BitVec.ofNat 64 p = BitVec.ofNat 64 c := by
        rw [← counts.nextProducerRecord, hempty, hpc.2]
      rw [hequal, BitVec.sub_self] at hdiff
      have hlt : s.popped.length < s.completedPushes := hsound
      have hzero : 0 = p - c := hdiff
      omega
  | producer =>
      intro record producer hproducer hfull
      by_contra hlt
      have hspace : (producer - s.ring.cachedConsumerRecord).toNat < capacity := Nat.not_le.mp hlt
      have hsound := (h { s with producer := .push2Write record producer }
        (by simp only [System.step, System.producerStep, hproducer, if_pos hspace])).hasSpace
        record producer rfl
      have hpc := counts.producer
      rw [hproducer] at hpc
      obtain ⟨-, hlength, -, hcursor⟩ := hpc
      rw [hcursor, counts.nextConsumerRecord, hdiff] at hfull
      have hpending : s.pushed.length - 1 < s.popped.length + capacity := hsound
      omega
  | push | push2 | pop | pop2 => exact trivial

end Counts

section Watched

variable {seen : Seen} {action : Action}

/-- The cached cursors show what was seen. -/
structure Cached (s : System) (seen : Seen) : Prop where
  cachedProducer : s.ring.cachedProducerRecord = BitVec.ofNat 64 seen.pushes
  cachedConsumer : s.ring.cachedConsumerRecord = BitVec.ofNat 64 seen.pops
  pushes_le : seen.pushes ≤ s.completedPushes
  pops_le : seen.pops ≤ s.popped.length

/-- The step of a load sees the real cursor, and the others leave the cached one alone. -/
theorem Cached.step (cached : Cached s seen) (counts : Counts s p c)
    (h : s.step action = some s') : Cached s' (seen.after s action) := by
  obtain ⟨hproducer, hconsumer, hpushes, hpops⟩ := cached
  have hnext := counts.nextProducerRecord
  have hnext' := counts.nextConsumerRecord
  rw [← counts.completedPushes_eq] at hnext
  rw [← counts.length_popped] at hnext'
  cases action with
  | push record | push2 record =>
      simp only [System.step] at h
      split at h
      case isTrue idle =>
        obtain rfl := Option.some.inj h
        refine ⟨hproducer, hconsumer, ?_, hpops⟩
        rw [System.completedPushes, if_pos idle] at hpushes
        simpa [System.completedPushes, Seen.after] using hpushes
      case isFalse => cases h
  | pop | pop2 =>
      simp only [System.step] at h
      split at h
      case isTrue idle =>
        obtain rfl := Option.some.inj h
        exact ⟨hproducer, hconsumer, hpushes, hpops⟩
      case isFalse => cases h
  | producer =>
      simp only [System.step, System.producerStep] at h
      cases hpc : s.producer <;> simp only [hpc, Option.some.injEq, reduceCtorEq] at h <;>
        subst h <;> simp only [Seen.after, hpc] <;>
        refine ⟨by assumption, by assumption, ?_, by first | assumption | exact Nat.le_refl _⟩ <;>
        simp only [System.completedPushes, hpc] at hpushes ⊢ <;> grind
  | consumer =>
      simp only [System.step, System.consumerStep] at h
      cases hpc : s.consumer <;> simp only [hpc, Option.some.injEq, reduceCtorEq] at h <;>
        subst h <;> simp only [Seen.after, hpc] <;>
        refine ⟨by assumption, by assumption, by first | assumption | exact Nat.le_refl _, ?_⟩ <;>
        simp <;> omega

/-- Fresh caches are those that show a current number. -/
theorem Cached.fresh_iff (cached : Cached s seen) (counts : Counts s p c) :
    CacheFresh s action ↔ Current s seen action := by
  obtain ⟨hproducer, hconsumer, hpushes, hpops⟩ := cached
  have hp := counts.completedPushes_eq
  have hc := counts.length_popped
  have hle := counts.consumer_le
  have hcap := counts.producer_le
  have hlt := capacity_lt
  cases action with
  | consumer =>
      refine forall_congr' fun consumer => forall_congr' fun hpc => ?_
      have hcursor := counts.consumer
      rw [hpc] at hcursor
      rw [counts.nextProducerRecord, hproducer, hcursor.2, hp, hc]
      have hempty : BitVec.ofNat 64 p = BitVec.ofNat 64 c ↔ c = p := by
        rw [eq_comm, ofNat_eq_iff hle]
        refine ⟨fun hdvd => ?_, fun heq => by rw [heq, Nat.sub_self]; exact Nat.dvd_zero _⟩
        have := Nat.eq_zero_of_dvd_of_lt hdvd (by omega)
        omega
      rw [hempty]
      refine forall_congr' fun heq => ?_
      rw [heq, ofNat_eq_iff (hp ▸ hpushes)]
  | producer =>
      refine forall_congr' fun record => forall_congr' fun producer => forall_congr' fun hpc => ?_
      have hcursor := counts.producer
      rw [hpc] at hcursor
      rw [hcursor.2.2.2, counts.nextConsumerRecord, counts.toNat_sub, hconsumer,
        ofNat_sub (by omega), BitVec.toNat_ofNat, hp, hc]
      exact ⟨fun h heq => h (by omega), fun h heq => h (by omega)⟩
  | push | push2 | pop | pop2 => exact Iff.rfl

end Watched

section Runs

variable {data : Fin capacity → Record} {actions more : List Action} {action : Action}
  {seen : Seen}

theorem run_append_singleton (s : System) (actions : List Action) (action : Action) :
    s.run (actions ++ [action]) = (s.run actions).bind (·.step action) := by
  rw [System.run, List.foldlM_append]
  refine congrArg (Option.bind _) (funext fun s => ?_)
  rw [List.foldlM_cons]
  cases s.step action <;> rfl

theorem watch_append_singleton (data : Fin capacity → Record) (actions : List Action)
    (action : Action) : watch data (actions ++ [action]) =
      (watch data actions).bind fun x => (x.1.step action).map (·, x.2.after x.1 action) := by
  rw [watch, List.foldlM_append]
  refine congrArg (Option.bind _) (funext fun x => ?_)
  rw [List.foldlM_cons]
  cases x.1.step action <;> rfl

/-- Watching does not change the run. -/
theorem map_watch (data : Fin capacity → Record) (actions : List Action) :
    (watch data actions).map Prod.fst = (System.new data).run actions := by
  induction actions using List.reverseRecOn with
  | nil => rfl
  | append_singleton actions action ih =>
      rw [watch_append_singleton, run_append_singleton, ← ih]
      cases watch data actions with
      | none => rfl
      | some x => cases hstep : x.1.step action <;> simp [hstep]

theorem run_of_watch (h : watch data actions = some (s, seen)) :
    (System.new data).run actions = some s := by
  rw [← map_watch, h]
  rfl

theorem AlwaysCurrent.of_append (h : AlwaysCurrent data (actions ++ more)) :
    AlwaysCurrent data actions :=
  fun before action after hactions => h before action (after ++ more) (by simp [hactions])

theorem AlwaysSound.of_append (h : AlwaysSound data (actions ++ more)) : AlwaysSound data actions :=
  fun before after hactions => h before (after ++ more) (by simp [hactions])

/-- While every step finds the caches fresh, the invariant holds, and the caches show what was
seen. -/
theorem counts_of_fresh (hwatch : watch data actions = some (s, seen))
    (fresh : ∀ before action after, actions = before ++ action :: after → ∀ mid seen p c,
      watch data before = some (mid, seen) → Counts mid p c → Cached mid seen →
        CacheFresh mid action) :
    ∃ p c, Counts s p c ∧ Cached s seen := by
  induction actions using List.reverseRecOn generalizing s seen with
  | nil =>
      obtain ⟨rfl, rfl⟩ := Prod.mk.inj (Option.some.inj hwatch)
      exact ⟨0, 0, Counts.new data, ⟨rfl, rfl, Nat.le_refl _, Nat.le_refl _⟩⟩
  | append_singleton actions action ih =>
      rw [watch_append_singleton] at hwatch
      obtain ⟨⟨mid, seen₁⟩, hmid, hstep⟩ := Option.bind_eq_some_iff.mp hwatch
      obtain ⟨s', hs', hpair⟩ := Option.map_eq_some_iff.mp hstep
      obtain ⟨rfl, rfl⟩ := Prod.mk.inj hpair
      obtain ⟨p, c, counts, cached⟩ := ih hmid fun before action' after hactions =>
        fresh before action' (after ++ [action]) (by simp [hactions])
      obtain ⟨p', c', counts'⟩ := counts.step
        (fresh actions action [] rfl mid seen₁ p c hmid counts cached) hs'
      exact ⟨p', c', counts', cached.step counts hs'⟩

theorem counts_of_current (h : AlwaysCurrent data actions)
    (hwatch : watch data actions = some (s, seen)) : ∃ p c, Counts s p c ∧ Cached s seen :=
  counts_of_fresh hwatch fun before action after hactions mid seen _ _ hmid counts cached =>
    (cached.fresh_iff counts).mpr (h before action after hactions mid seen hmid)

/-- If the states of a run are as expected, a step that comes next finds the caches fresh. -/
theorem cacheFresh_of_sound {before after : List Action} (h : AlwaysSound data actions)
    (hactions : actions = before ++ action :: after) (hwatch : watch data before = some (s, seen))
    (counts : Counts s p c) : CacheFresh s action := by
  refine counts.cacheFresh fun s' hs' => h (before ++ [action]) after (by simp [hactions]) s' ?_
  rw [run_append_singleton, run_of_watch hwatch, Option.bind_some, hs']

theorem counts_of_sound (h : AlwaysSound data actions)
    (hwatch : watch data actions = some (s, seen)) : ∃ p c, Counts s p c ∧ Cached s seen :=
  counts_of_fresh hwatch fun _ _ _ hactions _ _ _ _ hmid counts _ =>
    cacheFresh_of_sound h hactions hmid counts

/-- For every run of any mixture of `push`, `push2`, `pop` and `pop2` and any interleaving: all
states are as expected if and only if whenever `pop2` tests its cache on an empty queue no push
has been completed since the cache was loaded, and whenever `push2` tests its cache on a full
queue the pushes since do not look like room. -/
theorem alwaysSound_iff (data : Fin capacity → Record) (actions : List Action) :
    AlwaysSound data actions ↔ AlwaysCurrent data actions := by
  constructor
  · intro h before action after hactions s seen hwatch
    obtain ⟨p, c, counts, cached⟩ := counts_of_sound (hactions ▸ h).of_append hwatch
    exact (cached.fresh_iff counts).mp (cacheFresh_of_sound h hactions hwatch counts)
  · rintro h before after rfl s hrun
    rw [← map_watch] at hrun
    obtain ⟨⟨_, seen⟩, hwatch, rfl⟩ := Option.map_eq_some_iff.mp hrun
    obtain ⟨p, c, counts, -⟩ := counts_of_current h.of_append hwatch
    exact counts.sound

end Runs

section Calls

variable {data : Fin capacity → Record} {actions before : List Action} {action : Action}
  {seen : Seen}

/-- A consumer that has only called `pop2` is not past the pushes that it has seen. -/
def Ahead (popped pushes : ℕ) : ConsumerPc → Prop
  | .idle | .pop2Load | .hasDataCached _ | .hasDataLoad _ => popped ≤ pushes
  | .pop2Read _ | .pop2Store _ _ => popped < pushes
  | .popSize | .popSizeConsumer _ | .popIndex | .popRead _ | .popIncrement _ => False

/-- The consumer is not inside of `pop2`. -/
def NotInPop2 : ConsumerPc → Prop
  | .pop2Load | .hasDataCached _ | .hasDataLoad _ | .pop2Read _ | .pop2Store _ _ => False
  | _ => True

/-- How a consumer that does not call `pop2` after `pop` stands, after some actions. -/
def Pop2First (before : List Action) (s : System) (seen : Seen) : Prop :=
  .pop ∉ before ∧ Ahead s.popped.length seen.pushes s.consumer ∨
    .pop ∈ before ∧ NotInPop2 s.consumer

theorem Ahead.le {popped pushes : ℕ} {cc : ConsumerPc} (h : Ahead popped pushes cc) :
    popped ≤ pushes := by
  cases cc <;> simp only [Ahead] at h <;> omega

/-- A step of the consumer. -/
theorem Ahead.consumerStep (h : Ahead s.popped.length seen.pushes s.consumer)
    (counts : Counts s p c) (cached : Cached s seen) (hstep : s.consumerStep = some s') :
    Ahead s'.popped.length (seen.after s .consumer).pushes s'.consumer := by
  have hpushes := counts.completedPushes_eq
  have hpops := counts.length_popped
  have hle := counts.consumer_le
  have hpc := counts.consumer
  unfold System.consumerStep at hstep
  cases hconsumer : s.consumer with
  | idle => simp [hconsumer] at hstep
  | pop2Load =>
      simp only [hconsumer, Option.some.injEq] at hstep
      subst hstep
      simpa [Seen.after, hconsumer, Ahead] using h.le
  | hasDataCached consumer =>
      rw [hconsumer] at hpc
      simp only [hconsumer, Option.some.injEq] at hstep
      subst hstep
      have hseen : seen.after s .consumer = seen := by simp [Seen.after, hconsumer]
      rw [hseen]
      by_cases hdata : s.ring.cachedProducerRecord - consumer ≠ 0
      · rw [if_pos hdata]
        refine Nat.lt_of_le_of_ne h.le fun heq => hdata ?_
        have hsame : seen.pushes = c := heq.symm.trans hpops
        rw [cached.cachedProducer, hpc.2, hsame]
        exact BitVec.sub_self _
      · rw [if_neg hdata]
        exact h.le
  | hasDataLoad consumer =>
      rw [hconsumer] at hpc
      simp only [hconsumer, Option.some.injEq] at hstep
      subst hstep
      have hseen : (seen.after s .consumer).pushes = p := by simp [Seen.after, hconsumer, hpushes]
      rw [hseen]
      by_cases hdata : s.ring.nextProducerRecord - consumer ≠ 0
      · rw [if_pos hdata]
        refine Nat.lt_of_le_of_ne (hpops.trans_le hle) fun heq => hdata ?_
        rw [counts.nextProducerRecord, hpc.2, ← hpops, heq]
        exact BitVec.sub_self _
      · rw [if_neg hdata]
        exact hpops.trans_le hle
  | pop2Read consumer =>
      rw [hconsumer] at h
      simp only [hconsumer, Option.some.injEq] at hstep
      subst hstep
      simpa [Seen.after, hconsumer, Ahead] using h
  | pop2Store record consumer =>
      rw [hconsumer] at h
      simp only [hconsumer, Option.some.injEq] at hstep
      subst hstep
      have hlt : s.popped.length < seen.pushes := h
      simp only [Seen.after, hconsumer, Ahead, List.length_append, List.length_singleton]
      omega
  | popSize | popSizeConsumer | popIndex | popRead | popIncrement =>
      rw [hconsumer] at h
      exact h.elim

theorem NotInPop2.consumerStep (h : NotInPop2 s.consumer) (hstep : s.consumerStep = some s') :
    NotInPop2 s'.consumer := by
  unfold System.consumerStep at hstep
  cases hconsumer : s.consumer <;>
    simp only [hconsumer, Option.some.injEq, reduceCtorEq] at hstep <;>
    rw [hconsumer] at h <;> first | exact h.elim | skip
  case popSizeConsumer producer =>
    subst hstep
    dsimp only
    split <;> trivial
  all_goals
    subst hstep
    trivial

theorem Pop2First.step (h : Pop2First before s seen) (counts : Counts s p c)
    (cached : Cached s seen) (first : action = .pop2 → .pop ∉ before)
    (hstep : s.step action = some s') :
    Pop2First (before ++ [action]) s' (seen.after s action) := by
  have hother (hne : action ≠ .pop) : .pop ∈ before ++ [action] ↔ .pop ∈ before := by
    simp [hne.symm]
  cases action with
  | push record | push2 record =>
      simp only [System.step] at hstep
      split at hstep
      case isTrue idle =>
        obtain rfl := Option.some.inj hstep
        rw [Pop2First, hother (by simp)]
        exact h
      case isFalse => cases hstep
  | producer =>
      rw [Pop2First, hother (by simp)]
      have hsame : s'.consumer = s.consumer ∧ s'.popped = s.popped ∧
          (seen.after s .producer).pushes = seen.pushes := by
        simp only [System.step, System.producerStep] at hstep
        cases hpc : s.producer <;> simp only [hpc, Option.some.injEq, reduceCtorEq] at hstep <;>
          subst hstep <;> simp [Seen.after, hpc]
      rw [hsame.1, hsame.2.1, hsame.2.2]
      exact h
  | pop =>
      simp only [System.step] at hstep
      split at hstep
      case isTrue idle =>
        obtain rfl := Option.some.inj hstep
        exact Or.inr ⟨by simp, trivial⟩
      case isFalse => cases hstep
  | pop2 =>
      simp only [System.step] at hstep
      split at hstep
      case isTrue idle =>
        obtain rfl := Option.some.inj hstep
        rw [Pop2First, hother (by simp)]
        obtain ⟨hnone, hahead⟩ | ⟨hpop, -⟩ := h
        · exact Or.inl ⟨hnone, hahead.le⟩
        · exact absurd hpop (first rfl)
      case isFalse => cases hstep
  | consumer =>
      rw [Pop2First, hother (by simp)]
      obtain ⟨hnone, hahead⟩ | ⟨hpop, hnot⟩ := h
      · exact Or.inl ⟨hnone, hahead.consumerStep counts cached hstep⟩
      · exact Or.inr ⟨hpop, hnot.consumerStep hstep⟩

/-- Such a consumer tests an empty queue only when it has seen all pushes. -/
theorem Pop2First.current (h : Pop2First before s seen) (counts : Counts s p c)
    (cached : Cached s seen) (few : s.pushed.length < 2 ^ 64) : Current s seen action := by
  have hpushes := counts.completedPushes_eq
  have hbounds := counts.producer.bounds
  have hseen := cached.pushes_le
  have hpops := cached.pops_le
  cases action with
  | consumer =>
      intro consumer hconsumer hempty
      rw [Pop2First, hconsumer] at h
      obtain ⟨-, hahead⟩ | ⟨-, hnot⟩ := h
      · have hle : s.popped.length ≤ seen.pushes := hahead
        rw [show s.completedPushes - seen.pushes = 0 by omega]
        exact Nat.dvd_zero _
      · exact hnot.elim
  | producer =>
      intro record producer _ hfull
      rw [Nat.mod_eq_of_lt (by omega)]
      omega
  | push | push2 | pop | pop2 => exact trivial

def Action.isPush : Action → Bool
  | .push _ | .push2 _ => true
  | _ => false

theorem length_pushed (h : (System.new data).run actions = some s) :
    s.pushed.length = actions.countP Action.isPush := by
  induction actions using List.reverseRecOn generalizing s with
  | nil =>
      obtain rfl := Option.some.inj h
      rfl
  | append_singleton actions action ih =>
      rw [run_append_singleton] at h
      obtain ⟨mid, hmid, hstep⟩ := Option.bind_eq_some_iff.mp h
      rw [List.countP_append, ← ih hmid]
      cases action with
      | push record | push2 record | pop | pop2 =>
          simp only [System.step] at hstep
          split at hstep
          · obtain rfl := Option.some.inj hstep
            simp [Action.isPush]
          · cases hstep
      | producer =>
          simp only [System.step, System.producerStep] at hstep
          cases hpc : mid.producer <;> simp only [hpc, Option.some.injEq, reduceCtorEq] at hstep <;>
            subst hstep <;> simp [Action.isPush]
      | consumer =>
          simp only [System.step, System.consumerStep] at hstep
          cases hpc : mid.consumer <;> simp only [hpc, Option.some.injEq, reduceCtorEq] at hstep <;>
            subst hstep <;> simp [Action.isPush]

/-- In every run in which `pop2` is not called after `pop`, and fewer than `2^64` records are
pushed, all states are as expected. -/
theorem alwaysSound_of_pop2_first
    (first : actions.Pairwise fun a b => a = .pop → b ≠ .pop2)
    (few : actions.countP Action.isPush < 2 ^ 64) : AlwaysSound data actions := by
  -- By induction on the prefix that was run, with the invariants of the queue and of the calls.
  have hinv : ∀ before after, actions = before ++ after → ∀ s seen,
      watch data before = some (s, seen) →
        ∃ p c, Counts s p c ∧ Cached s seen ∧ Pop2First before s seen := by
    intro before
    induction before using List.reverseRecOn with
    | nil =>
        rintro after - s seen hwatch
        obtain ⟨rfl, rfl⟩ := Prod.mk.inj (Option.some.inj hwatch)
        exact ⟨0, 0, Counts.new data, ⟨rfl, rfl, Nat.le_refl _, Nat.le_refl _⟩,
          Or.inl ⟨List.not_mem_nil, Nat.le_refl _⟩⟩
    | append_singleton before action ih =>
        intro after hactions s seen hwatch
        rw [watch_append_singleton] at hwatch
        obtain ⟨⟨mid, seen₁⟩, hmid, hstep⟩ := Option.bind_eq_some_iff.mp hwatch
        obtain ⟨s', hs', hpair⟩ := Option.map_eq_some_iff.mp hstep
        obtain ⟨rfl, rfl⟩ := Prod.mk.inj hpair
        have hsplit : actions = before ++ action :: after := by simp [hactions]
        obtain ⟨p, c, counts, cached, hpop2⟩ := ih _ hsplit mid seen₁ hmid
        have hpushed : mid.pushed.length < 2 ^ 64 := by
          rw [length_pushed (run_of_watch hmid)]
          rw [hsplit, List.countP_append] at few
          omega
        obtain ⟨p', c', counts'⟩ := counts.step
          ((cached.fresh_iff counts).mpr (hpop2.current counts cached hpushed)) hs'
        rw [hsplit, List.pairwise_append] at first
        exact ⟨p', c', counts', cached.step counts hs', hpop2.step counts cached
          (fun hcall hpop => first.2.2 .pop hpop action List.mem_cons_self rfl hcall) hs'⟩
  intro before after hactions s hrun
  rw [← map_watch] at hrun
  obtain ⟨⟨_, seen⟩, hwatch, rfl⟩ := Option.map_eq_some_iff.mp hrun
  obtain ⟨p, c, counts, -⟩ := hinv before after hactions _ seen hwatch
  exact counts.sound

/-- All four operations: `pop2` takes what `push` and `push2` brought, `pop` the record after
them. -/
def mixed : List Action :=
  [.push 7] ++ List.replicate 5 .producer ++ [.pop2] ++ List.replicate 5 .consumer ++
    [.push2 8] ++ List.replicate 4 .producer ++ [.pop2] ++ List.replicate 5 .consumer ++
    [.push 9] ++ List.replicate 5 .producer ++ [.pop] ++ List.replicate 5 .consumer

example : ((System.new fun _ => 0).run mixed).map System.popped = some [7, 8, 9] := by decide

theorem alwaysSound_mixed : AlwaysSound (fun _ => 0) mixed :=
  alwaysSound_of_pop2_first (by decide) (by decide)

end Calls

section Examples

/-- A record is pushed and popped, and then `pop2` is called on the empty queue. -/
def popThenPop2 : List Action :=
  [.push 7] ++ List.replicate 5 .producer ++ [.pop] ++ List.replicate 5 .consumer ++
    [.pop2] ++ List.replicate 4 .consumer

/-- The second call returns a record that was never pushed. -/
theorem not_alwaysSound_popThenPop2 :
    ∃ s, (System.new fun _ => 0).run popThenPop2 = some s ∧ s.pushed = [7] ∧ s.popped = [7, 0] ∧
      ¬ AlwaysSound (fun _ => 0) popThenPop2 := by
  obtain ⟨s, hrun, hpushed, hpopped⟩ : ∃ s, (System.new fun _ => 0).run popThenPop2 = some s ∧
      s.pushed = [7] ∧ s.popped = [7, 0] := ⟨_, rfl, by decide, by decide⟩
  refine ⟨s, hrun, hpushed, hpopped, fun h => ?_⟩
  have hprefix := (h popThenPop2 [] (List.append_nil _).symm s hrun).fifo
  rw [hpushed, hpopped] at hprefix
  exact absurd hprefix.length_le (by decide)

end Examples

end Explore.SpscQueue
