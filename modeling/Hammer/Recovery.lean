import Hammer.OrderedMap
import Hammer.Pool
import Hammer.TcpSeq

/-! # The sender's loss recovery

`transport/tcp/src/recovery.rs`. Outstanding ranges are samples in a pool, chained in sending
order through their indices and found by sequence number in an ordered map. Instants and
durations are natural numbers. The congestion controller is a parameter.
-/

namespace Recovery

open TcpSeq

abbrev Instant := ℕ
abbrev Duration := ℕ

def TCP_DUPACK_THRESHOLD : ℕ := 3
def satAdd (limit a b : ℕ) : ℕ := Min.min (a + b) limit
def U32_MAX : ℕ := 2 ^ 32 - 1
def U64_MAX : ℕ := 2 ^ 64 - 1

structure TcpSentSample where
  packetNumber : ℕ
  sequence : TcpSeq
  endSequence : TcpSeq
  bytes : ℕ
  payloadLen : ℕ
  retransmitted : Bool
  lost : Bool
  txLost : Bool
  delivered : ℕ
  deliveredTime : Option Instant
  firstTxTime : Instant
  appLimited : Bool
  txInFlight : ℕ
  txLostBytes : ℕ
  rackDeadline : Option Instant
  sentAt : Instant
  prev : Option ℕ
  next : Option ℕ
  deriving DecidableEq, Repr

def TcpSentSample.covers (s : TcpSentSample) (sequence : TcpSeq) : Bool :=
  le s.sequence sequence && gt s.endSequence sequence

def TcpSentSample.overlaps (s : TcpSentSample) (start endSeq : TcpSeq) : Bool :=
  gt s.endSequence start && lt s.sequence endSeq

def proportionalPayloadLen (bytes payloadLen portionBytes : ℕ) : ℕ :=
  if bytes = 0 ∨ payloadLen = 0 ∨ portionBytes = 0 then 0
  else Min.min (payloadLen * portionBytes / bytes) payloadLen

def TcpSentSample.split (s : TcpSentSample) (at' : TcpSeq) :
    Option (TcpSentSample × TcpSentSample) :=
  if le at' s.sequence || ge at' s.endSequence then none
  else
    let leftBytes := distanceTo s.sequence at'
    let leftPayloadLen := proportionalPayloadLen s.bytes s.payloadLen leftBytes
    some ({ s with endSequence := at', bytes := leftBytes, payloadLen := leftPayloadLen },
      { s with
        sequence := at'
        bytes := s.bytes - leftBytes
        payloadLen := s.payloadLen - leftPayloadLen })

structure TcpRecoveryAck where
  acknowledgment : TcpSeq
  now : Instant
  appLimited : Bool
  ecnCeCount : ℕ
  reorderingWindow : Duration
  duplicateAck : Bool

structure TcpSackBlock where
  leftEdge : TcpSeq
  rightEdge : TcpSeq
  deriving DecidableEq

structure TcpScoreboardHole where
  endSeq : TcpSeq
  lost : Bool
  deriving DecidableEq

structure TcpScoreboard where
  holes : List (TcpSeq × TcpScoreboardHole)
  highSacked : TcpSeq
  highRxt : TcpSeq
  lostBytes : ℕ
  reorder : ℕ
  deriving DecidableEq

def TcpScoreboard.new : TcpScoreboard := ⟨[], 0, 0, 0, TCP_DUPACK_THRESHOLD⟩

/-- The fields of the state that describe the outstanding samples. -/
structure Flight where
  sentSamples : Pool TcpSentSample
  sampleLookup : List (TcpSeq × ℕ)
  sampleHead : Option ℕ
  sampleTail : Option ℕ
  bytesInFlight : ℕ
  rackDeadline : Option Instant

structure TcpRecoveryState where
  flight : Flight
  delivered : ℕ
  deliveredTime : Option Instant
  firstTxTime : Option Instant
  lost : ℕ
  ackFloor : TcpSeq
  scoreboard : TcpScoreboard
  rackReferenceSentAt : Option Instant
  rackReferenceEnd : TcpSeq
  rackRtt : Option Duration
  rackReordered : Bool
  rackEnabled : Bool
  sndNxt : TcpSeq
  tlpTimerArmed : Bool
  tlpProbeEnd : Option TcpSeq
  tlpProbeRetransmitted : Bool
  tlpRttFresh : Bool
  recoveryActive : Bool
  noSackFirstPending : Bool
  recoveryWindow : ℕ
  recoveryPrevWindow : ℕ
  recoveryDelivered : ℕ
  recoveryPrevDelivered : ℕ
  recoveryRetransmitted : ℕ
  recoveryNewData : ℕ
  recoveryEndSequence : TcpSeq

def TcpRecoveryState.new : TcpRecoveryState :=
  ⟨⟨.empty, [], none, none, 0, none⟩, 0, none, none, 0, 0, .new, none, 0, none, false, false, 0,
    false, none, false, false, false, false, 0, 0, 0, 0, 0, 0, 0⟩

structure AckedPacket where
  packetNumber : ℕ
  bytes : ℕ
  sentAt : Instant
  delivered : ℕ
  priorDelivered : ℕ
  interval : Duration
  txInFlight : ℕ
  txLost : ℕ
  lost : ℕ
  retransmitted : Bool
  appLimited : Bool
  ecnCeCount : ℕ

structure RttSample where
  latest : Duration
  min : Duration

structure LostPacket where
  packetNumber : ℕ
  bytes : ℕ
  bytesInFlight : ℕ
  txInFlight : ℕ
  txLost : ℕ
  lost : ℕ
  sentAt : Instant

class CongestionController (C : Type) where
  maxDatagramSize : C → ℕ
  congestionWindow : C → ℕ
  delivered : C → ℕ
  onAck : C → Instant → AckedPacket → RttSample → ℕ → C
  onEndAcks : C → Instant → ℕ → Bool → ℕ → C
  onLoss : C → Instant → LostPacket → Bool → C
  onRecovery : C → C
  onRecovered : C → C
  onUndoRecovery : C → C
  onTailLossProbeAck : C → Instant → ℕ → ℕ → C

namespace Flight

def sentSample (f : Flight) (index : ℕ) : Option TcpSentSample := f.sentSamples.get index

/-- An assignment through `sent_sample_mut`. -/
def updateSample (f : Flight) (index : ℕ) (g : TcpSentSample → TcpSentSample) : Flight :=
  { f with sentSamples := f.sentSamples.modify index g }

/-- The indices that a `while let Some(index) = cursor` loop along `next` visits. A chain through
the pool is no longer than the pool. -/
def chain (pool : Pool TcpSentSample) : ℕ → Option ℕ → List ℕ
  | 0, _ => []
  | _, none => []
  | n + 1, some index =>
    match pool.get index with
    | none => []
    | some sample => index :: chain pool n sample.next

def chainFrom (f : Flight) (cursor : Option ℕ) : List ℕ :=
  chain f.sentSamples f.sentSamples.slots.length cursor

/-- The samples such a loop reads, from the head. -/
def samples (f : Flight) : List TcpSentSample := (f.chainFrom f.sampleHead).filterMap f.sentSample

def rackNoteDeadline (f : Flight) (deadline : Instant) : Flight :=
  { f with
    rackDeadline := some (match f.rackDeadline with
      | none => deadline
      | some current => Min.min current deadline) }

def rackRescanEarliest (f : Flight) : Flight :=
  { f with
    rackDeadline := f.samples.foldl (fun earliest sample =>
      match sample.rackDeadline with
      | none => earliest
      | some deadline =>
        if !sample.txLost && earliest.all (deadline < ·) then some deadline else earliest) none }

def rackInvalidateCleared (f : Flight) (cleared : Option Instant) : Flight :=
  if cleared.isNone || f.rackDeadline != cleared then f else f.rackRescanEarliest

def sampleAtOrAfter (f : Flight) (sequence : TcpSeq) (includeCovering : Bool) : Option ℕ :=
  match OrderedMap.get TcpSeq.cmp sequence f.sampleLookup with
  | some index => some index
  | none =>
    let successor := (OrderedMap.successor TcpSeq.cmp sequence f.sampleLookup).map Prod.snd
    if !includeCovering then successor
    else
      match OrderedMap.predecessor TcpSeq.cmp sequence f.sampleLookup with
      | some (_, index) =>
        if (f.sentSample index).any (·.covers sequence) then some index else successor
      | none => successor

def nextSample (f : Flight) (sequence : TcpSeq) : Option ℕ :=
  (OrderedMap.successor TcpSeq.cmp sequence f.sampleLookup).map Prod.snd

/-- Writes the `next` of the sample at `node`, or `sample_head` if there is none. -/
def setNext (f : Flight) (node value : Option ℕ) : Flight :=
  match node with
  | some index => f.updateSample index fun sample => { sample with next := value }
  | none => { f with sampleHead := value }

def setPrev (f : Flight) (node value : Option ℕ) : Flight :=
  match node with
  | some index => f.updateSample index fun sample => { sample with prev := value }
  | none => { f with sampleTail := value }

def missing (f : Flight) (node : Option ℕ) : Bool :=
  node.any fun index => (f.sentSample index).isNone

def takeSent (f : Flight) (index : ℕ) : Option (Flight × TcpSentSample) :=
  match f.sentSample index with
  | none => none
  | some sample =>
    if OrderedMap.get TcpSeq.cmp sample.sequence f.sampleLookup ≠ some index then none
    else if f.missing sample.prev || f.missing sample.next then none
    else
      let f := { f with sampleLookup := OrderedMap.erase TcpSeq.cmp sample.sequence f.sampleLookup }
      let f := f.setNext sample.prev sample.next
      let f := f.setPrev sample.next sample.prev
      match f.sentSamples.remove index with
      | none => none
      | some (pool, taken) =>
        let f := { f with
          sentSamples := pool
          bytesInFlight := f.bytesInFlight - taken.bytes }
        some (f.rackInvalidateCleared sample.rackDeadline, taken)

/-- The sample at `index` gives up its part below `suffix.sequence`. -/
def trimTo (f : Flight) (index : ℕ) (sample suffix : TcpSentSample) : Flight :=
  let f := { f with sampleLookup := OrderedMap.erase TcpSeq.cmp sample.sequence f.sampleLookup }
  let f := f.updateSample index fun current =>
    { current with
      sequence := suffix.sequence
      bytes := suffix.bytes
      payloadLen := suffix.payloadLen
      rackDeadline := sample.rackDeadline }
  { f with sampleLookup := OrderedMap.insert TcpSeq.cmp suffix.sequence index f.sampleLookup }

def insertSampleBefore (f : Flight) (nextIndex : ℕ) (sample : TcpSentSample) :
    Flight × Option ℕ :=
  match f.sentSample nextIndex with
  | none => (f, none)
  | some next =>
    if OrderedMap.containsKey TcpSeq.cmp sample.sequence f.sampleLookup then (f, none)
    else if f.missing next.prev then (f, none)
    else
      let inserted := f.sentSamples.insert { sample with prev := next.prev, next := some nextIndex }
      let f := { f with
        sentSamples := inserted.1
        sampleLookup := OrderedMap.insert TcpSeq.cmp sample.sequence inserted.2 f.sampleLookup }
      let f := f.setNext next.prev (some inserted.2)
      (f.setPrev (some nextIndex) (some inserted.2), some inserted.2)

/-- The flag is false where the source returns `None`. -/
def splitSample (f : Flight) (index : ℕ) (splitStart : TcpSeq) : Flight × Bool :=
  match f.sentSample index with
  | none => (f, false)
  | some sample =>
    match sample.split splitStart with
    | none => (f, false)
    | some (pre, suffix) =>
      if OrderedMap.get TcpSeq.cmp sample.sequence f.sampleLookup ≠ some index then (f, false)
      else
        match (f.trimTo index sample suffix).insertSampleBefore index pre with
        | (f, none) => (f, false)
        | (f, some prefixIndex) =>
          match sample.rackDeadline with
          | some deadline =>
            if sample.txLost then (f, true)
            else
              ((f.updateSample prefixIndex fun s =>
                { s with rackDeadline := some deadline }).rackNoteDeadline deadline, true)
          | none => (f, true)

def takeSamplePrefix (f : Flight) (index : ℕ) (splitEnd : TcpSeq) :
    Option (Flight × TcpSentSample) :=
  match f.sentSample index with
  | none => none
  | some sample =>
    match sample.split splitEnd with
    | none => none
    | some (pre, suffix) =>
      if OrderedMap.get TcpSeq.cmp sample.sequence f.sampleLookup ≠ some index then none
      else
        let f := f.trimTo index sample suffix
        let f := { f with bytesInFlight := f.bytesInFlight - pre.bytes }
        some (f.rackInvalidateCleared sample.rackDeadline, pre)

/-- The sum that `refresh_lost_bytes` stores. -/
def lostBytes (f : Flight) : ℕ :=
  f.samples.foldl (fun n sample => if sample.lost then satAdd U32_MAX n sample.bytes else n) 0

def markLost (sample : TcpSentSample) : TcpSentSample :=
  { sample with lost := true, txLost := true }

/-- The loop of `mark_samples_in_range_lost`. -/
def markLoop (rangeStart rangeEnd : TcpSeq) : List ℕ → Flight → Flight
  | [], f => f
  | index :: rest, f =>
    match f.sentSample index with
    | none => f
    | some sample =>
      if ge sample.sequence rangeEnd then f
      else if gt sample.endSequence rangeStart && lt sample.sequence rangeEnd then
        markLoop rangeStart rangeEnd rest (f.updateSample index markLost)
      else markLoop rangeStart rangeEnd rest f

def markSamplesInRangeLost (f : Flight) (rangeStart rangeEnd : TcpSeq) : Flight :=
  if le rangeEnd rangeStart then f
  else markLoop rangeStart rangeEnd (f.chainFrom (f.sampleAtOrAfter rangeStart true)) f

end Flight

end Recovery
