import Hammer.HandoffSlots
import Mathlib.Data.Fin.Basic
import Mathlib.Logic.Function.Basic

/-! # Handoff queues between workers

The ring of `hammer-runtime/src/handoff.rs` with any number of producers and one consumer, as the
steps each of them takes on shared memory: a producer loads tail and head, reserves slots by a
compare-exchange, writes word after word, publishes the first index, counts and frees what found no
room and raises the pending bit; the consumer tests a slot, copies it, clears it and advances the
head at the end. Positions and counters, `u64` in the source, are natural numbers here: they do not
wrap before 2^64 buffers. The grouping of a frame by worker in `buffer_enqueue_to_thread_inline` comes
before these steps and is not modelled.
-/

namespace Handoff

/-- A buffer index, with its aux value on a queue that has them. -/
abbrev Entry := ℕ × Option ℕ

def DEFAULT_BUFFER_FRAME_CAPACITY : ℕ := 256

structure HandoffQueue where
  dequeueVectorLimit : ℕ
  size : ℕ
  withAux : Bool
  tail : ℕ
  nDropped : ℕ
  head : ℕ
  nVectors : ℕ
  data : ℕ → ℕ → ℕ

def HandoffQueue.new (size dequeueVectorLimit : ℕ) (withAux : Bool) : HandoffQueue :=
  ⟨dequeueVectorLimit, size, withAux, 0, 0, 0, 0, fun _ _ => 0⟩

/-- The queue of one worker in `handoff_alloc_queues`; a size that is not allowed panics. -/
def handoffAllocQueues (queueSize dequeueVectorLimit : ℕ) (withAux : Bool) :
    Option HandoffQueue :=
  let queueSize := if queueSize = 0 then 4096 else queueSize
  let limit := if dequeueVectorLimit = 0 then 2 * DEFAULT_BUFFER_FRAME_CAPACITY
    else dequeueVectorLimit
  if HANDOFF_SLOT_INDICES ≤ queueSize ∧ queueSize = 2 ^ queueSize.log2 then
    some (.new (queueSize / HANDOFF_SLOT_INDICES) limit withAux)
  else none

def HandoffQueue.slotOf (q : HandoffQueue) (position : ℕ) : ℕ := position &&& (q.size - 1)

def slotWords (data : ℕ → ℕ → ℕ) (slot : ℕ) : List ℕ :=
  (List.range HANDOFF_SLOT_INDICES).map (data slot)

def requested (batch : List Entry) : ℕ :=
  (batch.length + (HANDOFF_SLOT_INDICES - 1)) / HANDOFF_SLOT_INDICES

/-- A call of `handoff_enqueue_one_thread` that has its slots, perhaps none. -/
structure Call where
  batch : List Entry
  start : ℕ
  slots : ℕ
  deriving DecidableEq

namespace Call

def accepted (c : Call) : ℕ :=
  if c.slots = requested c.batch then c.batch.length else c.slots * HANDOFF_SLOT_INDICES

def taken (c : Call) : List Entry := c.batch.take c.accepted

def dropped (c : Call) : List Entry := c.batch.drop c.accepted

def writes (size : ℕ) (withAux : Bool) (c : Call) : List Write :=
  (if withAux then auxWrites size c.slots c.start (c.taken.map fun x => x.2.getD 0) else []) ++
    indexWrites (size - 1) c.slots c.start (c.taken.map Prod.fst)

end Call

inductive Producer where
  | idle
  | loadTail (batch : List Entry)
  | loadHead (batch : List Entry) (tail : ℕ)
  | reserve (batch : List Entry) (tail head : ℕ)
  | write (call : Call) (writes : List Write)
  | drop (call : Call)
  | free (call : Call)
  | notify
  deriving DecidableEq

inductive Consumer where
  | idle
  | test (head count : ℕ) (frame : Option (List Entry))
  | copy (head count : ℕ) (frame : Option (List Entry))
  | clear (head count written : ℕ) (frame : Option (List Entry))
  | advance (head count : ℕ) (frame : Option (List Entry))
  | rearm (count : ℕ) (frame : Option (List Entry))
  | flush (frame : Option (List Entry))
  deriving DecidableEq

/-- The queue of a worker with its users; the batches handed over, the calls that were decided, the
frames given to the destination node and the buffers that were freed are recorded. -/
structure State (n : ℕ) where
  queue : HandoffQueue
  producers : Fin n → Producer
  consumer : Consumer
  pending : Bool
  offered : List (List Entry)
  decided : List Call
  frames : List (List Entry)
  freed : List ℕ

variable {n : ℕ}

def State.new (n : ℕ) (queue : HandoffQueue) : State n :=
  ⟨queue, fun _ => .idle, .idle, false, [], [], [], []⟩

namespace State

def setProducer (s : State n) (i : Fin n) (p : Producer) : State n :=
  { s with producers := Function.update s.producers i p }

def setData (s : State n) (data : ℕ → ℕ → ℕ) : State n :=
  { s with queue := { s.queue with data := data } }

/-- The room found by a producer decides its call. -/
def tryReserve (s : State n) (i : Fin n) (batch : List Entry) (tail head : ℕ) (spurious : Bool) :
    State n :=
  if tail < head then s.setProducer i (.loadTail batch)
  else
    let slots := min (requested batch) (s.queue.size - (tail - head))
    let call : Call := ⟨batch, tail, slots⟩
    if slots = 0 then
      { s with decided := s.decided ++ [call] }.setProducer i (.drop call)
    else if spurious || s.queue.tail != tail then s.setProducer i (.loadTail batch)
    else
      { s with
        queue := { s.queue with tail := tail + slots }
        decided := s.decided ++ [call] }.setProducer i
          (.write call (call.writes s.queue.size s.queue.withAux))

def produce (s : State n) (i : Fin n) (spurious : Bool) : State n :=
  match s.producers i with
  | .idle => s
  | .loadTail batch => s.setProducer i (.loadHead batch s.queue.tail)
  | .loadHead batch tail => s.setProducer i (.reserve batch tail s.queue.head)
  | .reserve batch tail head => s.tryReserve i batch tail head spurious
  | .write call (x :: writes) =>
    (s.setData (applyWrite s.queue.data x)).setProducer i (.write call writes)
  | .write call [] =>
    -- the first index is published last
    let first := (call.taken.map Prod.fst).headD HANDOFF_INVALID_INDEX
    (s.setData (applyWrite s.queue.data ⟨s.queue.slotOf call.start, 0, first⟩)).setProducer i
      (.drop call)
  | .drop call =>
    { s with queue := { s.queue with
        nDropped := s.queue.nDropped + call.dropped.length } }.setProducer i (.free call)
  | .free call =>
    { s with freed := s.freed ++ call.dropped.map Prod.fst }.setProducer i
      (if call.accepted ≠ 0 then .notify else .idle)
  | .notify => { s with pending := true }.setProducer i .idle

/-- A frame without room for a slot goes to the node first. -/
def makeRoom (s : State n) (frame : Option (List Entry)) : List (List Entry) × List Entry :=
  match frame with
  | none => (s.frames, [])
  | some f =>
    if DEFAULT_BUFFER_FRAME_CAPACITY - f.length < HANDOFF_SLOT_INDICES then (s.frames ++ [f], [])
    else (s.frames, f)

/-- The indices of a slot with their aux values. -/
def copySlot (arch : Arch) (q : HandoffQueue) (head : ℕ) : List Entry :=
  let written := arch.copyIndicesFromSlot (slotWords q.data (q.slotOf head))
  if q.withAux then
    written.zip ((slotWords q.data (q.size + q.slotOf head)).map some)
  else written.map fun index => (index, none)

/-- One step of `handoff_queue_dequeue_inline`. -/
def consume (arch : Arch) (s : State n) : State n :=
  match s.consumer with
  | .idle => s
  | .test head count frame =>
    if count < s.queue.dequeueVectorLimit ∧
        s.queue.data (s.queue.slotOf head) 0 ≠ HANDOFF_INVALID_INDEX then
      { s with consumer := .copy head count frame }
    else { s with consumer := .advance head count frame }
  | .copy head count frame =>
    let room := s.makeRoom frame
    let entries := copySlot arch s.queue head
    let f := room.2 ++ entries
    if f.length = DEFAULT_BUFFER_FRAME_CAPACITY then
      { s with frames := room.1 ++ [f], consumer := .clear head count entries.length none }
    else { s with frames := room.1, consumer := .clear head count entries.length (some f) }
  | .clear head count written frame =>
    { s.setData (applyWrite s.queue.data ⟨s.queue.slotOf head, 0, HANDOFF_INVALID_INDEX⟩) with
      consumer := .test (head + 1) (count + written) frame }
  | .advance head count frame =>
    let queue := if count ≠ 0 then
        { s.queue with nVectors := s.queue.nVectors + count, head := head }
      else s.queue
    { s with queue := queue, consumer := .rearm count frame }
  | .rearm count frame =>
    { s with
      pending := s.pending || (count != 0 && decide (s.queue.dequeueVectorLimit ≤ count))
      consumer := .flush frame }
  | .flush frame => { s with frames := s.frames ++ frame.toList, consumer := .idle }

/-- `handoff_queues_dequeue` takes the pending bit and begins with this queue. -/
def dequeue (s : State n) : State n :=
  { s with pending := false, consumer := .test s.queue.head 0 none }

/-- The reserved slots that are published, from the head on. -/
def pendingSlots (q : HandoffQueue) : ℕ :=
  ((List.range (q.tail - q.head)).takeWhile fun k =>
    q.data (q.slotOf (q.head + k)) 0 != HANDOFF_INVALID_INDEX).length

/-- One turn of the loop of `handoff_queue_copy_pending_slots`. -/
def copyPendingSlot (q next : HandoffQueue) (data : ℕ → ℕ → ℕ) (offset : ℕ) : ℕ → ℕ → ℕ :=
  let oldSlot := q.slotOf (q.head + offset)
  let nextSlot := next.slotOf (q.head + offset)
  let data := Function.update data nextSlot (q.data oldSlot)
  if q.withAux then Function.update data (next.size + nextSlot) (q.data (q.size + oldSlot))
  else data

def copyPendingSlots (q : HandoffQueue) (size pending : ℕ) : HandoffQueue :=
  let next : HandoffQueue :=
    { HandoffQueue.new size q.dequeueVectorLimit q.withAux with
      head := q.head
      tail := q.head + pending
      nDropped := q.nDropped
      nVectors := q.nVectors }
  { next with data := (List.range pending).foldl (copyPendingSlot q next) next.data }

/-- `handoff_queue_resize`: a size that is not allowed or too small changes nothing. -/
def resize (s : State n) (queueSize : ℕ) : State n :=
  if queueSize < HANDOFF_SLOT_INDICES ∨ queueSize ≠ 2 ^ queueSize.log2 then s
  else
    let size := queueSize / HANDOFF_SLOT_INDICES
    let pending := pendingSlots s.queue
    if size < pending then s
    else { s with queue := copyPendingSlots s.queue size pending }

end State

inductive Event (n : ℕ) where
  | enqueue (i : Fin n) (batch : List Entry)
  | produce (i : Fin n) (spurious : Bool)
  | dequeue
  | consume
  | resize (queueSize : ℕ)

/-- A producer hands over buffers of the queue's kind; a resize finds all users stopped. -/
def Enabled (s : State n) : Event n → Prop
  | .enqueue i batch => s.producers i = .idle ∧ batch ≠ [] ∧
      ∀ x ∈ batch, x.1 ≠ HANDOFF_INVALID_INDEX ∧ x.2.isSome = s.queue.withAux
  | .produce _ _ => True
  | .dequeue => s.consumer = .idle
  | .consume => True
  | .resize _ => (∀ i, s.producers i = .idle) ∧ s.consumer = .idle

def next (arch : Arch) (s : State n) : Event n → State n
  | .enqueue i batch =>
    { s with offered := s.offered ++ [batch] }.setProducer i (.loadTail batch)
  | .produce i spurious => s.produce i spurious
  | .dequeue => s.dequeue
  | .consume => s.consume arch
  | .resize queueSize => s.resize queueSize

inductive Execution (arch : Arch) : State n → State n → Prop
  | refl (s : State n) : Execution arch s s
  | tail {s t : State n} {e : Event n} (before : Execution arch s t) (enabled : Enabled t e) :
      Execution arch s (next arch t e)

end Handoff
