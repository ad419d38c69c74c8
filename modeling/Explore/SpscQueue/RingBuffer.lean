import Mathlib.Algebra.Group.Nat.Defs
import Mathlib.Logic.Function.Basic

/-!
# The ring buffer

`ring_buffer` is a queue between one producer thread and one consumer thread. The model
is a step relation: each atomic load, atomic store and access to `data` is one step, and
an `Action` says which thread makes its next step. The cached cursors are read and
written by one thread only, so a comparison with one of them is a step of its own, and
refreshing it happens in the step of the load. `std::size_t` has 64 bits, and counters
wrap. `sleep` changes nothing that another step reads, so a loop that sleeps only
goes back to its test.
-/

namespace Explore.SpscQueue

/-- A value in the queue, an `int64_t`. -/
abbrev Record := BitVec 64

/-- A cursor, a `std::size_t`. -/
abbrev Cursor := BitVec 64

def capacity : ℕ := 2 ^ 20

theorem capacity_pos : 0 < capacity := Nat.two_pow_pos 20

structure RingBuffer where
  nextProducerRecord : Cursor
  nextConsumerRecord : Cursor
  cachedConsumerRecord : Cursor
  cachedProducerRecord : Cursor
  data : Fin capacity → Record

/-- The constructor. The array is not initialized. -/
def RingBuffer.new (data : Fin capacity → Record) : RingBuffer := ⟨0, 0, 0, 0, data⟩

def mapIndex (index : Cursor) : Fin capacity :=
  ⟨index.toNat % capacity, Nat.mod_lt _ capacity_pos⟩

/-- Where the producer is, with its local variables. -/
inductive ProducerPc where
  | idle
  /-- `push2` loads `next_producer_record`. -/
  | push2Load (record : Record)
  /-- `has_space` compares with the cached cursor. -/
  | hasSpaceCached (record : Record) (producer : Cursor)
  /-- `has_space` loads `next_consumer_record`. -/
  | hasSpaceLoad (record : Record) (producer : Cursor)
  | push2Write (record : Record) (producer : Cursor)
  | push2Store (producer : Cursor)
  /-- `size`, called by `push`, loads `next_producer_record`. -/
  | pushSize (record : Record)
  /-- `size`, called by `push`, loads `next_consumer_record`. -/
  | pushSizeConsumer (record : Record) (producer : Cursor)
  | pushIndex (record : Record)
  | pushWrite (record : Record) (producer : Cursor)
  | pushIncrement
  deriving DecidableEq

/-- Where the consumer is, with its local variables. -/
inductive ConsumerPc where
  | idle
  /-- `pop2` loads `next_consumer_record`. -/
  | pop2Load
  /-- `has_data` compares with the cached cursor. -/
  | hasDataCached (consumer : Cursor)
  /-- `has_data` loads `next_producer_record`. -/
  | hasDataLoad (consumer : Cursor)
  | pop2Read (consumer : Cursor)
  | pop2Store (record : Record) (consumer : Cursor)
  /-- `size`, called by `pop`, loads `next_producer_record`. -/
  | popSize
  /-- `size`, called by `pop`, loads `next_consumer_record`. -/
  | popSizeConsumer (producer : Cursor)
  | popIndex
  | popRead (consumer : Cursor)
  | popIncrement (record : Record)
  deriving DecidableEq

/-- The queue and its two threads, with the history of the run: the records passed to
`push` and `push2`, those returned by `pop` and `pop2`, and how many elements of `data`
have been written and read. -/
structure System where
  ring : RingBuffer
  producer : ProducerPc
  consumer : ConsumerPc
  pushed : List Record
  popped : List Record
  writes : ℕ
  reads : ℕ

def System.new (data : Fin capacity → Record) : System := ⟨.new data, .idle, .idle, [], [], 0, 0⟩

/-- A thread that is between two calls makes the next one, or a thread in a call makes
its next step. -/
inductive Action where
  | push (record : Record)
  | push2 (record : Record)
  | producer
  | pop
  | pop2
  | consumer
  deriving DecidableEq

namespace System

/-- The next step of the producer inside a call. -/
def producerStep (s : System) : Option System :=
  match s.producer with
  | .idle => none
  | .push2Load record =>
      some { s with producer := .hasSpaceCached record s.ring.nextProducerRecord }
  | .hasSpaceCached record producer =>
      some { s with
        producer :=
          if (producer - s.ring.cachedConsumerRecord).toNat < capacity then
            .push2Write record producer
          else .hasSpaceLoad record producer }
  | .hasSpaceLoad record producer =>
      let consumer := s.ring.nextConsumerRecord
      some { s with
        ring.cachedConsumerRecord := consumer
        producer :=
          if (producer - consumer).toNat < capacity then .push2Write record producer
          else .hasSpaceCached record producer }
  | .push2Write record producer =>
      some { s with
        ring.data := Function.update s.ring.data (mapIndex producer) record
        producer := .push2Store producer
        writes := s.writes + 1 }
  | .push2Store producer =>
      some { s with ring.nextProducerRecord := producer + 1, producer := .idle }
  | .pushSize record =>
      some { s with producer := .pushSizeConsumer record s.ring.nextProducerRecord }
  | .pushSizeConsumer record producer =>
      some { s with
        producer :=
          if (producer - s.ring.nextConsumerRecord).toNat = capacity then .pushSize record
          else .pushIndex record }
  | .pushIndex record =>
      some { s with producer := .pushWrite record s.ring.nextProducerRecord }
  | .pushWrite record producer =>
      some { s with
        ring.data := Function.update s.ring.data (mapIndex producer) record
        producer := .pushIncrement
        writes := s.writes + 1 }
  | .pushIncrement =>
      some { s with
        ring.nextProducerRecord := s.ring.nextProducerRecord + 1
        producer := .idle }

/-- The next step of the consumer inside a call. -/
def consumerStep (s : System) : Option System :=
  match s.consumer with
  | .idle => none
  | .pop2Load => some { s with consumer := .hasDataCached s.ring.nextConsumerRecord }
  | .hasDataCached consumer =>
      some { s with
        consumer :=
          if s.ring.cachedProducerRecord - consumer ≠ 0 then .pop2Read consumer
          else .hasDataLoad consumer }
  | .hasDataLoad consumer =>
      let producer := s.ring.nextProducerRecord
      some { s with
        ring.cachedProducerRecord := producer
        consumer :=
          if producer - consumer ≠ 0 then .pop2Read consumer else .hasDataCached consumer }
  | .pop2Read consumer =>
      some { s with
        consumer := .pop2Store (s.ring.data (mapIndex consumer)) consumer
        reads := s.reads + 1 }
  | .pop2Store record consumer =>
      some { s with
        ring.nextConsumerRecord := consumer + 1
        consumer := .idle
        popped := s.popped ++ [record] }
  | .popSize => some { s with consumer := .popSizeConsumer s.ring.nextProducerRecord }
  | .popSizeConsumer producer =>
      some { s with
        consumer := if producer - s.ring.nextConsumerRecord = 0 then .popSize else .popIndex }
  | .popIndex => some { s with consumer := .popRead s.ring.nextConsumerRecord }
  | .popRead consumer =>
      some { s with
        consumer := .popIncrement (s.ring.data (mapIndex consumer))
        reads := s.reads + 1 }
  | .popIncrement record =>
      some { s with
        ring.nextConsumerRecord := s.ring.nextConsumerRecord + 1
        consumer := .idle
        popped := s.popped ++ [record] }

def step (s : System) : Action → Option System
  | .push record =>
      if s.producer = .idle then
        some { s with producer := .pushSize record, pushed := s.pushed ++ [record] }
      else none
  | .push2 record =>
      if s.producer = .idle then
        some { s with producer := .push2Load record, pushed := s.pushed ++ [record] }
      else none
  | .producer => s.producerStep
  | .pop => if s.consumer = .idle then some { s with consumer := .popSize } else none
  | .pop2 => if s.consumer = .idle then some { s with consumer := .pop2Load } else none
  | .consumer => s.consumerStep

/-- An interleaving of the steps of the two threads. -/
def run (s : System) (actions : List Action) : Option System := actions.foldlM step s

end System

end Explore.SpscQueue
