import Explore.Lib.WrappingCounter
import Explore.SpscQueue.RingBuffer
import Mathlib.Data.List.Basic

/-!
# The queue is first in, first out

One producer that calls `push2` and one consumer that calls `pop2`, interleaved in any
way. The invariant relates the four cursors to natural numbers that never wrap: the
consumer's is at most the cached producer's, which is at most the producer's, and the
producer stays within `capacity` of the cached consumer's. Each thread changes only its
own cursor and its own cache, so one step of a thread keeps what the other one knows.
-/

namespace Explore.SpscQueue

open WrappingCounter

theorem capacity_dvd : capacity ∣ 2 ^ 64 := Nat.pow_dvd_pow 2 (by decide)

theorem capacity_lt : capacity < 2 ^ 64 := Nat.pow_lt_pow_right (by decide) (by decide)

theorem mapIndex_val (k : ℕ) : (mapIndex (BitVec.ofNat 64 k)).val = k % capacity :=
  toNat_mod capacity_dvd k

/-- The cursors of two records that are outstanding together have different slots. -/
theorem mapIndex_ne {j k : ℕ} (hlt : j < k) (hnear : k < j + capacity) :
    mapIndex (BitVec.ofNat 64 j) ≠ mapIndex (BitVec.ofNat 64 k) := by
  intro heq
  have hmod : k % capacity = j % capacity := by
    rw [← mapIndex_val, ← mapIndex_val, heq]
  have := eq_of_mod_eq hlt.le hnear hmod
  omega

/-- What the producer knows at each point of `push2`, when it has published `p` records
and its cached consumer cursor stands for `cached`. -/
def ProducerAt (writes : ℕ) (pushed : List Record) (p cached : ℕ) : ProducerPc → Prop
  | .idle => writes = p ∧ pushed.length = p
  | .push2Load record => writes = p ∧ pushed.length = p + 1 ∧ pushed[p]? = some record
  | .hasSpaceCached record producer | .hasSpaceLoad record producer =>
      writes = p ∧ pushed.length = p + 1 ∧ pushed[p]? = some record ∧
        producer = BitVec.ofNat 64 p
  | .push2Write record producer =>
      writes = p ∧ pushed.length = p + 1 ∧ pushed[p]? = some record ∧
        producer = BitVec.ofNat 64 p ∧ p < cached + capacity
  | .push2Store producer =>
      writes = p + 1 ∧ pushed.length = p + 1 ∧ producer = BitVec.ofNat 64 p
  | _ => False

/-- What the consumer knows at each point of `pop2`, when it has released `c` records
and its cached producer cursor stands for `cached`. -/
def ConsumerAt (reads : ℕ) (pushed : List Record) (c cached : ℕ) : ConsumerPc → Prop
  | .idle | .pop2Load => reads = c
  | .hasDataCached consumer | .hasDataLoad consumer => reads = c ∧ consumer = BitVec.ofNat 64 c
  | .pop2Read consumer => reads = c ∧ consumer = BitVec.ofNat 64 c ∧ c < cached
  | .pop2Store record consumer =>
      reads = c + 1 ∧ consumer = BitVec.ofNat 64 c ∧ c < cached ∧ pushed[c]? = some record
  | _ => False

/-- The cursors as numbers that do not wrap: of the producer, of the consumer, and the
cached ones. -/
structure Cursors where
  producer : ℕ
  consumer : ℕ
  cachedProducer : ℕ
  cachedConsumer : ℕ

structure Inv (s : System) (n : Cursors) : Prop where
  nextProducerRecord : s.ring.nextProducerRecord = BitVec.ofNat 64 n.producer
  nextConsumerRecord : s.ring.nextConsumerRecord = BitVec.ofNat 64 n.consumer
  cachedProducerRecord : s.ring.cachedProducerRecord = BitVec.ofNat 64 n.cachedProducer
  cachedConsumerRecord : s.ring.cachedConsumerRecord = BitVec.ofNat 64 n.cachedConsumer
  consumer_le : n.consumer ≤ n.cachedProducer
  cachedProducer_le : n.cachedProducer ≤ n.producer
  cachedConsumer_le : n.cachedConsumer ≤ n.consumer
  room : s.writes ≤ n.cachedConsumer + capacity
  popped : s.popped = s.pushed.take n.consumer
  unread : ∀ k, s.reads ≤ k → k < s.writes →
    s.pushed[k]? = some (s.ring.data (mapIndex (BitVec.ofNat 64 k)))
  producer : ProducerAt s.writes s.pushed n.producer n.cachedConsumer s.producer
  consumer : ConsumerAt s.reads s.pushed n.consumer n.cachedProducer s.consumer

variable {s s' : System} {n : Cursors}

theorem ProducerAt.bounds {writes p cached : ℕ} {pushed : List Record} {pc : ProducerPc}
    (h : ProducerAt writes pushed p cached pc) :
    p ≤ writes ∧ writes ≤ pushed.length ∧ pushed.length ≤ p + 1 := by
  cases pc <;> simp only [ProducerAt] at h <;> omega

theorem ConsumerAt.bounds {reads c cached : ℕ} {pushed : List Record} {pc : ConsumerPc}
    (h : ConsumerAt reads pushed c cached pc) : c ≤ reads ∧ reads ≤ c + 1 := by
  cases pc <;> simp only [ConsumerAt] at h <;> omega

/-- A later record changes nothing for the consumer. -/
theorem ConsumerAt.append {reads c cached : ℕ} {pushed : List Record} {pc : ConsumerPc}
    (h : ConsumerAt reads pushed c cached pc) (record : Record) :
    ConsumerAt reads (pushed ++ [record]) c cached pc := by
  cases pc with
  | pop2Store value consumer =>
      obtain ⟨hreads, hconsumer, hcached, hvalue⟩ := h
      have hlt := (List.getElem?_eq_some_iff.mp hvalue).1
      exact ⟨hreads, hconsumer, hcached, by rw [List.getElem?_append_left hlt, hvalue]⟩
  | _ => exact h

theorem Inv.new (data : Fin capacity → Record) : Inv (System.new data) ⟨0, 0, 0, 0⟩ where
  nextProducerRecord := rfl
  nextConsumerRecord := rfl
  cachedProducerRecord := rfl
  cachedConsumerRecord := rfl
  consumer_le := Nat.le_refl 0
  cachedProducer_le := Nat.le_refl 0
  cachedConsumer_le := Nat.le_refl 0
  room := Nat.zero_le _
  popped := rfl
  unread := fun k _ hk => absurd hk (Nat.not_lt_zero k)
  producer := ⟨rfl, rfl⟩
  consumer := rfl

namespace Inv

/-- The number of outstanding records fits the ring. -/
theorem producer_le (inv : Inv s n) : n.producer ≤ n.consumer + capacity := by
  have hwrites := inv.producer.bounds.1
  have hroom := inv.room
  have hcached := inv.cachedConsumer_le
  omega

/-- A call of `push2` begins. -/
theorem push2 (inv : Inv s n) (record : Record) (idle : s.producer = .idle) :
    Inv { s with producer := .push2Load record, pushed := s.pushed ++ [record] } n := by
  have hproducer := inv.producer
  rw [idle] at hproducer
  obtain ⟨hwrites, hlength⟩ := hproducer
  have hle : n.consumer ≤ s.pushed.length := by
    have := inv.consumer_le
    have := inv.cachedProducer_le
    omega
  refine { inv with
    popped := ?_, unread := fun k hr (hw : k < s.writes) => ?_, producer := ?_, consumer := ?_ }
  · rw [List.take_append_of_le_length hle]
    exact inv.popped
  · rw [List.getElem?_append_left (by omega)]
    exact inv.unread k hr hw
  · refine ⟨hwrites, by simp [hlength], ?_⟩
    rw [← hlength]
    exact List.getElem?_concat_length
  · exact inv.consumer.append record

/-- A step of the producer keeps the invariant. Only its own cursor and the cached
consumer cursor may change. -/
theorem producerStep (inv : Inv s n) (h : s.producerStep = some s') : ∃ n', Inv s' n' := by
  have hpc := inv.producer
  unfold System.producerStep at h
  cases hproducer : s.producer with
  | idle => simp [hproducer] at h
  | push2Load record =>
      rw [hproducer] at hpc
      simp only [hproducer, Option.some.injEq] at h
      subst h
      obtain ⟨hwrites, hlength, hrecord⟩ := hpc
      exact ⟨n, { inv with producer := ⟨hwrites, hlength, hrecord, inv.nextProducerRecord⟩ }⟩
  | hasSpaceCached record producer =>
      rw [hproducer] at hpc
      simp only [hproducer, Option.some.injEq] at h
      subst h
      obtain ⟨hwrites, hlength, hrecord, hcursor⟩ := hpc
      have hroom := inv.room
      have hcached := inv.cachedConsumer_le
      have hle := inv.consumer_le.trans inv.cachedProducer_le
      have hdiff : (producer - s.ring.cachedConsumerRecord).toNat =
          n.producer - n.cachedConsumer := by
        rw [hcursor, inv.cachedConsumerRecord]
        exact toNat_sub (by omega) (by have := capacity_lt; omega)
      refine ⟨n, { inv with producer := ?_ }⟩
      rw [hdiff]
      by_cases hspace : n.producer - n.cachedConsumer < capacity
      · rw [if_pos hspace]
        exact ⟨hwrites, hlength, hrecord, hcursor, by omega⟩
      · rw [if_neg hspace]
        exact ⟨hwrites, hlength, hrecord, hcursor⟩
  | hasSpaceLoad record producer =>
      rw [hproducer] at hpc
      simp only [hproducer, Option.some.injEq] at h
      subst h
      obtain ⟨hwrites, hlength, hrecord, hcursor⟩ := hpc
      have hroom := inv.room
      have hcached := inv.cachedConsumer_le
      have hle := inv.consumer_le.trans inv.cachedProducer_le
      have hdiff : (producer - s.ring.nextConsumerRecord).toNat = n.producer - n.consumer := by
        rw [hcursor, inv.nextConsumerRecord]
        exact toNat_sub (by omega) (by have := capacity_lt; omega)
      -- The cached consumer cursor becomes the real one.
      refine ⟨{ n with cachedConsumer := n.consumer }, { inv with
        cachedConsumerRecord := inv.nextConsumerRecord
        cachedConsumer_le := Nat.le_refl _
        room := hroom.trans (Nat.add_le_add_right hcached _)
        producer := ?_ }⟩
      rw [hdiff]
      by_cases hspace : n.producer - n.consumer < capacity
      · rw [if_pos hspace]
        exact ⟨hwrites, hlength, hrecord, hcursor, by dsimp only; omega⟩
      · rw [if_neg hspace]
        exact ⟨hwrites, hlength, hrecord, hcursor⟩
  | push2Write record producer =>
      rw [hproducer] at hpc
      simp only [hproducer, Option.some.injEq] at h
      subst h
      obtain ⟨hwrites, hlength, hrecord, hcursor, hspace⟩ := hpc
      have hreads := inv.consumer.bounds.1
      have hcached := inv.cachedConsumer_le
      refine ⟨n, { inv with room := ?_, unread := fun k hr hw => ?_, producer := ?_ }⟩
      · dsimp only
        omega
      · dsimp only at hr hw ⊢
        by_cases hk : k = n.producer
        · rw [hk, hcursor, Function.update_self, hrecord]
        · have hne : mapIndex (BitVec.ofNat 64 k) ≠ mapIndex producer := by
            rw [hcursor]
            exact mapIndex_ne (by omega) (by omega)
          rw [Function.update_of_ne hne]
          exact inv.unread k hr (by omega)
      · exact ⟨congrArg (· + 1) hwrites, hlength, hcursor⟩
  | push2Store producer =>
      rw [hproducer] at hpc
      simp only [hproducer, Option.some.injEq] at h
      subst h
      obtain ⟨hwrites, hlength, hcursor⟩ := hpc
      refine ⟨{ n with producer := n.producer + 1 }, { inv with
        nextProducerRecord := ?_
        cachedProducer_le := inv.cachedProducer_le.trans (Nat.le_succ _)
        producer := ⟨hwrites, hlength⟩ }⟩
      rw [hcursor, ofNat_succ]
  | pushSize record | pushIndex record | pushIncrement | pushSizeConsumer record producer
  | pushWrite record producer =>
      rw [hproducer] at hpc
      exact hpc.elim

/-- A step of the consumer keeps the invariant. Only its own cursor and the cached
producer cursor may change. -/
theorem consumerStep (inv : Inv s n) (h : s.consumerStep = some s') : ∃ n', Inv s' n' := by
  have hpc := inv.consumer
  unfold System.consumerStep at h
  cases hconsumer : s.consumer with
  | idle => simp [hconsumer] at h
  | pop2Load =>
      rw [hconsumer] at hpc
      simp only [hconsumer, Option.some.injEq] at h
      subst h
      exact ⟨n, { inv with consumer := ⟨hpc, inv.nextConsumerRecord⟩ }⟩
  | hasDataCached consumer =>
      rw [hconsumer] at hpc
      simp only [hconsumer, Option.some.injEq] at h
      subst h
      obtain ⟨hreads, hcursor⟩ := hpc
      refine ⟨n, { inv with consumer := ?_ }⟩
      by_cases hdata : s.ring.cachedProducerRecord - consumer ≠ 0
      · rw [if_pos hdata]
        have hne : n.consumer ≠ n.cachedProducer := by
          intro heq
          refine hdata ?_
          rw [inv.cachedProducerRecord, hcursor, heq]
          exact BitVec.sub_self _
        exact ⟨hreads, hcursor, Nat.lt_of_le_of_ne inv.consumer_le hne⟩
      · rw [if_neg hdata]
        exact ⟨hreads, hcursor⟩
  | hasDataLoad consumer =>
      rw [hconsumer] at hpc
      simp only [hconsumer, Option.some.injEq] at h
      subst h
      obtain ⟨hreads, hcursor⟩ := hpc
      have hle := inv.consumer_le.trans inv.cachedProducer_le
      -- The cached producer cursor becomes the real one.
      refine ⟨{ n with cachedProducer := n.producer }, { inv with
        cachedProducerRecord := inv.nextProducerRecord
        consumer_le := hle
        cachedProducer_le := Nat.le_refl _
        consumer := ?_ }⟩
      by_cases hdata : s.ring.nextProducerRecord - consumer ≠ 0
      · rw [if_pos hdata]
        have hne : n.consumer ≠ n.producer := by
          intro heq
          refine hdata ?_
          rw [inv.nextProducerRecord, hcursor, heq]
          exact BitVec.sub_self _
        exact ⟨hreads, hcursor, Nat.lt_of_le_of_ne hle hne⟩
      · rw [if_neg hdata]
        exact ⟨hreads, hcursor⟩
  | pop2Read consumer =>
      rw [hconsumer] at hpc
      simp only [hconsumer, Option.some.injEq] at h
      subst h
      obtain ⟨hreads, hcursor, hdata⟩ := hpc
      have hwrites := inv.producer.bounds.1
      have hcached := inv.cachedProducer_le
      have hrecord := inv.unread n.consumer (by omega) (by omega)
      refine ⟨n, { inv with unread := fun k hr hw => ?_, consumer := ?_ }⟩
      · exact inv.unread k (by dsimp only at hr; omega) hw
      · refine ⟨congrArg (· + 1) hreads, hcursor, hdata, ?_⟩
        rw [hcursor]
        exact hrecord
  | pop2Store record consumer =>
      rw [hconsumer] at hpc
      simp only [hconsumer, Option.some.injEq] at h
      subst h
      obtain ⟨hreads, hcursor, hdata, hrecord⟩ := hpc
      refine ⟨{ n with consumer := n.consumer + 1 }, { inv with
        nextConsumerRecord := ?_
        consumer_le := hdata
        cachedConsumer_le := inv.cachedConsumer_le.trans (Nat.le_succ _)
        popped := ?_
        consumer := hreads }⟩
      · rw [hcursor, ofNat_succ]
      · dsimp only
        rw [inv.popped, List.take_add_one, hrecord]
        rfl
  | popSize | popIndex | popSizeConsumer producer | popRead consumer | popIncrement record =>
      rw [hconsumer] at hpc
      exact hpc.elim

end Inv

/-- The calls of a producer that only uses `push2` and a consumer that only uses `pop2`,
and the steps inside them. -/
def Action.IsPush2Pop2 : Action → Prop
  | .push _ | .pop => False
  | _ => True

instance : DecidablePred Action.IsPush2Pop2
  | .push _ | .pop => isFalse id
  | .push2 _ | .producer | .pop2 | .consumer => isTrue trivial

theorem Inv.step {action : Action} (inv : Inv s n) (only : action.IsPush2Pop2)
    (h : s.step action = some s') : ∃ n', Inv s' n' := by
  cases action with
  | push record => exact only.elim
  | push2 record =>
      simp only [System.step] at h
      split at h
      case isTrue idle =>
        obtain rfl := Option.some.inj h
        exact ⟨n, inv.push2 record idle⟩
      case isFalse => simp at h
  | producer => exact inv.producerStep h
  | pop => exact only.elim
  | pop2 =>
      simp only [System.step] at h
      split at h
      case isTrue idle =>
        obtain rfl := Option.some.inj h
        have hconsumer := inv.consumer
        rw [idle] at hconsumer
        exact ⟨n, { inv with consumer := hconsumer }⟩
      case isFalse => simp at h
  | consumer => exact inv.consumerStep h

theorem Inv.run {actions : List Action} (inv : Inv s n) (only : ∀ a ∈ actions, a.IsPush2Pop2)
    (h : s.run actions = some s') : ∃ n', Inv s' n' := by
  induction actions generalizing s n with
  | nil =>
      obtain rfl := Option.some.inj h
      exact ⟨n, inv⟩
  | cons action actions ih =>
      rw [System.run, List.foldlM_cons] at h
      obtain ⟨mid, hstep, hrest⟩ := Option.bind_eq_some_iff.mp h
      obtain ⟨n', inv'⟩ := inv.step (only action List.mem_cons_self) hstep
      exact ih inv' (fun a ha => only a (List.mem_cons_of_mem _ ha)) hrest

/-- The calls of `push2` that have returned. -/
def System.completedPushes (s : System) : ℕ :=
  if s.producer = .idle then s.pushed.length else s.pushed.length - 1

/-- What holds of the queue in every state. Cursors are compared as the numbers of calls
that they count, with the counters themselves as these numbers modulo `2^64`. -/
structure QueueSafe (s : System) : Prop where
  /-- The `k`-th value returned is the `k`-th value passed. -/
  fifo : s.popped <+: s.pushed
  /-- The real cursors count the calls that have returned. -/
  producer : s.ring.nextProducerRecord = BitVec.ofNat 64 s.completedPushes
  consumer : s.ring.nextConsumerRecord = BitVec.ofNat 64 s.popped.length
  consumer_le_producer : s.popped.length ≤ s.completedPushes
  producer_le : s.completedPushes ≤ s.popped.length + capacity
  outstanding_le :
    (s.ring.nextProducerRecord - s.ring.nextConsumerRecord).toNat ≤ capacity
  /-- The cached producer cursor is between the real cursors. -/
  cachedProducer : ∃ cached, s.ring.cachedProducerRecord = BitVec.ofNat 64 cached ∧
    s.popped.length ≤ cached ∧ cached ≤ s.completedPushes
  /-- The cached consumer cursor is behind the real one, and at most `capacity` behind the
  producer. -/
  cachedConsumer : ∃ cached, s.ring.cachedConsumerRecord = BitVec.ofNat 64 cached ∧
    cached ≤ s.popped.length ∧ s.completedPushes ≤ cached + capacity
  /-- A slot holds its record from the write until the read. -/
  unread : ∀ k, s.reads ≤ k → k < s.writes →
    s.pushed[k]? = some (s.ring.data (mapIndex (BitVec.ofNat 64 k)))
  /-- A write never goes to the slot of a record that is not read yet. -/
  not_overwritten : ∀ record producer, s.producer = .push2Write record producer →
    ∀ k, s.reads ≤ k → k < s.writes → mapIndex (BitVec.ofNat 64 k) ≠ mapIndex producer

theorem Inv.completedPushes_eq (inv : Inv s n) : s.completedPushes = n.producer := by
  have hpc := inv.producer
  have hbounds := hpc.bounds
  unfold System.completedPushes
  cases hproducer : s.producer <;> rw [hproducer] at hpc <;> simp only [ProducerAt] at hpc <;>
    simp <;> omega

theorem Inv.length_popped (inv : Inv s n) : s.popped.length = n.consumer := by
  have hbounds := inv.producer.bounds
  have hle := inv.consumer_le.trans inv.cachedProducer_le
  rw [inv.popped, List.length_take]
  omega

theorem Inv.safe (inv : Inv s n) : QueueSafe s := by
  have hpushes := inv.completedPushes_eq
  have hpops := inv.length_popped
  have hle := inv.consumer_le.trans inv.cachedProducer_le
  have hroom := inv.producer_le
  refine ⟨?_, ?_, ?_, ?_, ?_, ?_, ⟨n.cachedProducer, inv.cachedProducerRecord, ?_, ?_⟩,
    ⟨n.cachedConsumer, inv.cachedConsumerRecord, ?_, ?_⟩, inv.unread, ?_⟩
  · rw [inv.popped]
    exact List.take_prefix _ _
  · rw [hpushes]
    exact inv.nextProducerRecord
  · rw [hpops]
    exact inv.nextConsumerRecord
  · omega
  · omega
  · rw [inv.nextProducerRecord, inv.nextConsumerRecord,
      toNat_sub hle (by have := capacity_lt; omega)]
    omega
  · exact hpops ▸ inv.consumer_le
  · exact hpushes ▸ inv.cachedProducer_le
  · exact hpops ▸ inv.cachedConsumer_le
  · rw [hpushes]
    exact inv.producer.bounds.1.trans inv.room
  · intro record producer hproducer k hr hw
    have hpc := inv.producer
    rw [hproducer] at hpc
    obtain ⟨hwrites, -, -, hcursor, hspace⟩ := hpc
    have hreads := inv.consumer.bounds.1
    have hcached := inv.cachedConsumer_le
    rw [hcursor]
    exact mapIndex_ne (by omega) (by omega)

/-- Every state that a run of `push2` and `pop2` reaches is safe, for runs of any length
and every interleaving of the two threads. -/
theorem push2_pop2_safe {data : Fin capacity → Record} {actions : List Action} {s : System}
    (only : ∀ a ∈ actions, a.IsPush2Pop2) (run : (System.new data).run actions = some s) :
    QueueSafe s := by
  obtain ⟨n, inv⟩ := (Inv.new data).run only run
  exact inv.safe

/-- Two records, the steps of the threads in turn: `pop2` waits for the first one, and the second
one is written while the first one is read. -/
def twoRecords : List Action :=
  [.push2 7, .pop2, .producer, .consumer, .producer, .consumer, .producer, .consumer, .producer,
    .push2 8, .consumer, .producer, .consumer, .producer, .consumer, .producer, .consumer,
    .pop2, .producer] ++ List.replicate 5 .consumer

theorem push2_pop2_safe_two :
    ∃ s, (System.new fun _ => 0).run twoRecords = some s ∧ s.popped = [7, 8] ∧ QueueSafe s := by
  have hmap : ((System.new fun _ => 0).run twoRecords).map System.popped = some [7, 8] := by
    decide +kernel
  obtain ⟨s, hrun, hpopped⟩ := Option.map_eq_some_iff.mp hmap
  exact ⟨s, hrun, hpopped, push2_pop2_safe (by decide) hrun⟩

end Explore.SpscQueue
