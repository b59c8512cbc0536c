import Hammer.Recovery

/-! # The operations of the recovery state

The congestion controller is threaded through the operations that call it.
-/
namespace Recovery

open TcpSeq Flight

variable {C : Type} [CongestionController C]

def satMul (limit a b : ℕ) : ℕ := Min.min (a * b) limit

def refreshLostBytes (s : TcpRecoveryState) : TcpRecoveryState :=
  { s with scoreboard := { s.scoreboard with lostBytes := s.flight.lostBytes } }

def rescan (s : TcpRecoveryState) : TcpRecoveryState :=
  { s with flight := s.flight.rackRescanEarliest }

/-- A connection that was idle starts its delivery times anew. -/
def restartTimes (s : TcpRecoveryState) (bytesInFlight : ℕ) (sentAt : Instant) :
    TcpRecoveryState :=
  if bytesInFlight = 0 then
    { s with deliveredTime := some sentAt, firstTxTime := some sentAt } else s

theorem restartTimes_eq (s : TcpRecoveryState) (bytesInFlight : ℕ) (sentAt : Instant) :
    ∃ d t, restartTimes s bytesInFlight sentAt = { s with deliveredTime := d, firstTxTime := t } := by
  unfold restartTimes
  split
  · exact ⟨_, _, rfl⟩
  · exact ⟨_, _, rfl⟩

/-- The sample of a range, not linked to the one before it. -/
def newSample (s : TcpRecoveryState) (packetNumber : ℕ) (sequence endSequence : TcpSeq)
    (bytes payloadLen bytesInFlight : ℕ) (sentAt : Instant) (appLimited : Bool) : TcpSentSample :=
  let s := restartTimes s bytesInFlight sentAt
  { packetNumber := packetNumber
    sequence := sequence
    endSequence := endSequence
    bytes := bytes
    payloadLen := payloadLen
    retransmitted := false
    lost := false
    txLost := false
    delivered := s.delivered
    deliveredTime := s.deliveredTime
    firstTxTime := s.firstTxTime.getD sentAt
    appLimited := appLimited
    txInFlight := satAdd U64_MAX bytesInFlight bytes
    txLostBytes := s.lost
    rackDeadline := none
    sentAt := sentAt
    prev := none
    next := none }

def appendSample (s : TcpRecoveryState) (x : TcpSentSample) : TcpRecoveryState :=
  let inserted := s.flight.sentSamples.insert x
  let flight := { s.flight with
    sentSamples := inserted.1
    sampleLookup := OrderedMap.insert TcpSeq.cmp x.sequence inserted.2 s.flight.sampleLookup }
  let flight := flight.setNext x.prev (some inserted.2)
  { s with
    flight := { flight with
      sampleTail := some inserted.2
      bytesInFlight := satAdd U32_MAX flight.bytesInFlight x.bytes }
    sndNxt := x.endSequence
    tlpTimerArmed := s.tlpRttFresh && s.tlpProbeEnd.isNone }

def recordSent (s : TcpRecoveryState) (packetNumber : ℕ) (sequence endSequence : TcpSeq)
    (bytes payloadLen bytesInFlight : ℕ) (sentAt : Instant) (appLimited : Bool) :
    TcpRecoveryState :=
  if bytes = 0 then s
  else
    appendSample (restartTimes s bytesInFlight sentAt)
      { newSample s packetNumber sequence endSequence bytes payloadLen bytesInFlight sentAt
          appLimited with prev := s.flight.sampleTail }

theorem recordSent_frame {s : TcpRecoveryState} {packetNumber : ℕ} {sequence endSequence : TcpSeq}
    {bytes payloadLen bytesInFlight : ℕ} {sentAt : Instant} {appLimited : Bool} :
    (recordSent s packetNumber sequence endSequence bytes payloadLen bytesInFlight sentAt
      appLimited).scoreboard = s.scoreboard ∧
    (recordSent s packetNumber sequence endSequence bytes payloadLen bytesInFlight sentAt
      appLimited).recoveryActive = s.recoveryActive := by
  obtain ⟨d, t, h⟩ := restartTimes_eq s bytesInFlight sentAt
  rw [recordSent, h]
  split
  · exact ⟨rfl, rfl⟩
  · exact ⟨rfl, rfl⟩

def dsackBlock (blocks : List TcpSackBlock) (acknowledgment : TcpSeq) : Option TcpSackBlock :=
  match blocks with
  | [] => none
  | first :: rest =>
    if ge first.leftEdge first.rightEdge then none
    else if gt first.leftEdge acknowledgment then
      match rest with
      | [] => none
      | second :: _ =>
        if lt second.rightEdge first.rightEdge || gt second.leftEdge first.leftEdge then none
        else some first
    else if gt first.rightEdge acknowledgment then none
    else some first

def rangeCovered (right : TcpSeq) : List TcpSentSample → TcpSeq → Bool
  | [], _ => false
  | sample :: rest, cursor =>
    if le sample.endSequence cursor then rangeCovered right rest cursor
    else if gt sample.sequence cursor then false
    else if !sample.retransmitted then false
    else
      let cursor := TcpSeq.max cursor sample.endSequence
      if ge cursor right then true else rangeCovered right rest cursor

def retransmittedRangeCovered (s : TcpRecoveryState) (left right : TcpSeq) : Bool :=
  rangeCovered right s.flight.samples left

def sackedBytes (s : TcpRecoveryState) : ℕ :=
  let missing := s.scoreboard.holes.foldl
    (fun n hole => satAdd U32_MAX n (distanceTo hole.1 hole.2.endSeq)) 0
  distanceTo s.ackFloor s.scoreboard.highSacked - missing

/-- The samples that RACK may declare lost. -/
def isRackCandidate (s : TcpRecoveryState) (highestSackedRight : TcpSeq)
    (referenceSentAt : Instant) (sample : TcpSentSample) : Bool :=
  le sample.endSequence highestSackedRight &&
    (decide (sample.sentAt < referenceSentAt) ||
      (sample.sentAt == referenceSentAt && lt sample.endSequence s.rackReferenceEnd)) &&
    !sample.txLost && sample.rackDeadline.isNone

def markRackLoop (highestSackedRight : TcpSeq) (referenceSentAt : Instant) (delay : Duration)
    (now : Instant) : List ℕ → TcpRecoveryState → TcpRecoveryState
  | [], s => s
  | index :: rest, s =>
    match s.flight.sentSample index with
    | none => s
    | some sample =>
      if isRackCandidate s highestSackedRight referenceSentAt sample then
        let deadline := sample.sentAt + delay
        let flight := (s.flight.updateSample index fun current =>
          { current with rackDeadline := some deadline }).rackNoteDeadline (Max.max deadline now)
        markRackLoop highestSackedRight referenceSentAt delay now rest { s with flight := flight }
      else markRackLoop highestSackedRight referenceSentAt delay now rest s

def markRackCandidates (s : TcpRecoveryState) (highestSackedRight : TcpSeq) (now : Instant)
    (reorderingWindow : Duration) (maxDatagramSize : ℕ) : TcpRecoveryState :=
  match s.rackReferenceSentAt, s.rackRtt with
  | some referenceSentAt, some rtt =>
    let reorderingWindow :=
      if !s.rackReordered && (s.recoveryActive ||
        decide (satMul U32_MAX s.scoreboard.reorder maxDatagramSize ≤ sackedBytes s)) then 0
      else reorderingWindow
    markRackLoop highestSackedRight referenceSentAt (rtt + reorderingWindow) now
      (s.flight.chainFrom s.flight.sampleHead) s
  | _, _ => s

def lostPacket (s : TcpRecoveryState) (sample : TcpSentSample) : LostPacket where
  packetNumber := sample.packetNumber
  bytes := sample.bytes
  bytesInFlight := s.flight.bytesInFlight
  txInFlight := sample.txInFlight
  txLost := sample.txLostBytes
  lost := satAdd U64_MAX s.lost sample.bytes
  sentAt := sample.sentAt

/-- The variables of the loop in `on_rack_timeout`. -/
structure RackScan (C : Type) where
  state : TcpRecoveryState
  congestion : C
  recoveryStarted : Bool
  lostAny : Bool

def rackTimeoutLoop (now : Instant) : List ℕ → RackScan C → RackScan C
  | [], r => r
  | index :: rest, r =>
    match r.state.flight.sentSample index with
    | none => r
    | some sample =>
      if sample.txLost || sample.rackDeadline.all (now < ·) then rackTimeoutLoop now rest r
      else
        let congestion := CongestionController.onLoss r.congestion now
          (lostPacket r.state sample) false
        let flight := r.state.flight.updateSample index fun current =>
          markLost { current with rackDeadline := none }
        rackTimeoutLoop now rest
          { state := { r.state with
              flight := flight
              lost := satAdd U64_MAX r.state.lost sample.bytes }
            congestion := congestion
            recoveryStarted := r.recoveryStarted || !r.state.recoveryActive
            lostAny := true }

/-- `high_rxt` on entry to recovery. -/
def firstHole (s : TcpRecoveryState) : TcpSeq :=
  match s.scoreboard.holes.head? with
  | some hole => TcpSeq.max hole.1 s.ackFloor
  | none => s.ackFloor

/-- The assignments both timeouts make on entry to recovery. -/
def enterRecovery (s : TcpRecoveryState) (prevWindow window : ℕ) (sndNxt : TcpSeq) :
    TcpRecoveryState :=
  { s with
    recoveryActive := true
    scoreboard := { s.scoreboard with highRxt := firstHole s }
    recoveryPrevWindow := Max.max prevWindow 1
    recoveryWindow := window
    recoveryDelivered := 0
    recoveryPrevDelivered := 0
    recoveryRetransmitted := 0
    recoveryNewData := 0
    recoveryEndSequence := sndNxt }

def clearTlp (s : TcpRecoveryState) : TcpRecoveryState :=
  { s with tlpProbeEnd := none, tlpProbeRetransmitted := false }

/-- The state RACK goes on with after the scan. -/
def afterScan (r : RackScan C) (prevWindow : ℕ) (sndNxt : TcpSeq) : TcpRecoveryState × C :=
  if r.recoveryStarted then
    let congestion := CongestionController.onRecovery r.congestion
    ({ enterRecovery r.state prevWindow (CongestionController.congestionWindow congestion)
        sndNxt with noSackFirstPending := true }, congestion)
  else if r.state.recoveryActive then
    ({ r.state with
      recoveryWindow := Min.min r.state.recoveryWindow
        (CongestionController.congestionWindow r.congestion) }, r.congestion)
  else (r.state, r.congestion)

def onRackTimeout (s : TcpRecoveryState) (congestion : C) (now : Instant) (sndNxt : TcpSeq) :
    TcpRecoveryState × C :=
  let r := rackTimeoutLoop now (s.flight.chainFrom s.flight.sampleHead)
    ⟨s, congestion, false, false⟩
  let entered := afterScan r (CongestionController.congestionWindow congestion) sndNxt
  let s := rescan (refreshLostBytes entered.1)
  (if r.lostAny then { clearTlp s with tlpTimerArmed := false } else s, entered.2)

/-- The fields that leaving recovery resets. -/
def leaveRecovery (s : TcpRecoveryState) : TcpRecoveryState :=
  { s with
    recoveryActive := false
    recoveryWindow := 0
    recoveryPrevWindow := 0
    recoveryDelivered := 0
    recoveryPrevDelivered := 0
    recoveryRetransmitted := 0
    recoveryNewData := 0
    recoveryEndSequence := 0
    noSackFirstPending := false }

def maybeFinishRecovery (s : TcpRecoveryState) (congestion : C) (acknowledgment : TcpSeq) :
    TcpRecoveryState × C :=
  if s.recoveryActive && ge acknowledgment s.recoveryEndSequence then
    (leaveRecovery s, CongestionController.onRecovered congestion)
  else (s, congestion)

/-- The local variables of the loops that deliver samples. -/
structure AckBatch where
  largestAcked : ℕ
  anyAcked : Bool
  ackedBytes : ℕ
  latestRtt : Option Duration
  rateSample : Option TcpSentSample

def AckBatch.empty : AckBatch := ⟨0, false, 0, none, none⟩

def sentAfter (a b : TcpSentSample) : Bool :=
  decide (b.sentAt < a.sentAt) || (a.sentAt == b.sentAt && gt a.endSequence b.endSequence)

def countDelivered (s : TcpRecoveryState) (ack : TcpRecoveryAck) (segment : TcpSentSample) :
    TcpRecoveryState :=
  let s := if s.recoveryActive then
    { s with recoveryDelivered := satAdd U32_MAX s.recoveryDelivered segment.bytes } else s
  { s with
    delivered := satAdd U64_MAX s.delivered segment.bytes
    deliveredTime := some ack.now }

/-- What RACK notes of a delivery with a valid round trip. -/
def noteDelivered (s : TcpRecoveryState) (ack : TcpRecoveryAck) (segment : TcpSentSample) :
    TcpRecoveryState :=
  let s := { s with
    rackReordered := s.rackReordered || lt segment.endSequence s.scoreboard.highSacked
    rackRtt := some (ack.now - segment.sentAt) }
  if s.rackReferenceSentAt.all fun sentAt => decide (sentAt < segment.sentAt) ||
      (segment.sentAt == sentAt && gt segment.endSequence s.rackReferenceEnd) then
    { s with
      rackReferenceSentAt := some segment.sentAt
      rackReferenceEnd := segment.endSequence }
  else s

def deliverSample (s : TcpRecoveryState) (ack : TcpRecoveryAck) (segment : TcpSentSample) :
    TcpRecoveryState :=
  let s := countDelivered s ack segment
  if !segment.retransmitted && ack.now - segment.sentAt != 0 then noteDelivered s ack segment
  else s

/-- `deliver_sample` and the batch around it. -/
def deliver (ack : TcpRecoveryAck) (segment : TcpSentSample)
    (x : TcpRecoveryState × AckBatch) : TcpRecoveryState × AckBatch :=
  let rtt := if segment.retransmitted then none else some (ack.now - segment.sentAt)
  (deliverSample x.1 ack segment,
    { largestAcked := Max.max x.2.largestAcked segment.packetNumber
      anyAcked := true
      ackedBytes := satAdd U32_MAX x.2.ackedBytes segment.bytes
      latestRtt := rtt <|> x.2.latestRtt
      rateSample := if x.2.rateSample.all (sentAfter segment) then some segment
        else x.2.rateSample })

/-- The cumulative part of both acknowledgments. -/
def ackLoop (ack : TcpRecoveryAck) :
    List ℕ → TcpRecoveryState × AckBatch → TcpRecoveryState × AckBatch
  | [], x => x
  | index :: rest, x =>
    match x.1.flight.sentSample index with
    | none => x
    | some sample =>
      if le ack.acknowledgment sample.sequence then x
      else if ge ack.acknowledgment sample.endSequence then
        match x.1.flight.takeSent index with
        | none => x
        | some (flight, segment) =>
          ackLoop ack rest (deliver ack segment ({ x.1 with flight := flight }, x.2))
      else
        match x.1.flight.takeSamplePrefix index ack.acknowledgment with
        | none => x
        | some (flight, segment) => deliver ack segment ({ x.1 with flight := flight }, x.2)

def deliverAckBatch (s : TcpRecoveryState) (congestion : C) (ack : TcpRecoveryAck)
    (batch : AckBatch) : C :=
  match batch.rateSample with
  | none => congestion
  | some segment =>
    let priorTime := segment.deliveredTime.getD segment.firstTxTime
    let interval := Max.max (ack.now - priorTime) (segment.sentAt - segment.firstTxTime)
    CongestionController.onAck congestion ack.now
      { packetNumber := segment.packetNumber
        bytes := batch.ackedBytes
        sentAt := segment.sentAt
        delivered := s.delivered - segment.delivered
        priorDelivered := segment.delivered
        interval := interval
        txInFlight := segment.txInFlight
        txLost := segment.txLostBytes
        lost := s.lost - segment.txLostBytes
        retransmitted := segment.retransmitted
        appLimited := segment.appLimited
        ecnCeCount := ack.ecnCeCount }
      ⟨batch.latestRtt.getD 0, batch.latestRtt.getD 0⟩ s.flight.bytesInFlight

def notifyDuplicateAck (s : TcpRecoveryState) (congestion : C) (ack : TcpRecoveryAck) : C :=
  CongestionController.onAck congestion ack.now
    { packetNumber := 0
      bytes := 0
      sentAt := ack.now
      delivered := 0
      priorDelivered := CongestionController.delivered congestion
      interval := 0
      txInFlight := s.flight.bytesInFlight
      txLost := 0
      lost := s.lost
      retransmitted := true
      appLimited := ack.appLimited
      ecnCeCount := ack.ecnCeCount } ⟨0, 0⟩ s.flight.bytesInFlight

/-- The calls for a batch that is not empty. -/
def endAcks (s : TcpRecoveryState) (congestion : C) (ack : TcpRecoveryAck) (batch : AckBatch) : C :=
  let appLimited := batch.rateSample.any (·.appLimited)
  CongestionController.onEndAcks (deliverAckBatch s congestion ack batch) ack.now
    s.flight.bytesInFlight (appLimited || ack.appLimited) batch.largestAcked

def processAck (s : TcpRecoveryState) (congestion : C) (ack : TcpRecoveryAck) :
    TcpRecoveryState × C × AckBatch :=
  let x := ackLoop ack (s.flight.chainFrom s.flight.sampleHead) (s, .empty)
  (x.1, if x.2.anyAcked then endAcks x.1 congestion ack x.2 else congestion, x.2)

def atFloor (s : TcpRecoveryState) (acknowledgment : TcpSeq) : TcpRecoveryState :=
  { s with ackFloor := acknowledgment }

def ackPhase (s : TcpRecoveryState) (ack : TcpRecoveryAck) : TcpRecoveryState × AckBatch :=
  ackLoop ack (s.flight.chainFrom s.flight.sampleHead) (atFloor s ack.acknowledgment, .empty)

def batchControl (x : TcpRecoveryState × AckBatch) (congestion : C) (ack : TcpRecoveryAck) : C :=
  if x.2.anyAcked then endAcks x.1 congestion ack x.2
  else if ack.duplicateAck then notifyDuplicateAck x.1 congestion ack
  else congestion

/-- The variables of the descending walk in `update_scoreboard_loss`. -/
structure LossScan where
  flight : Flight
  holes : List (TcpSeq × TcpScoreboardHole)
  sackedAhead : ℕ
  blocksAhead : ℕ
  higherStart : Option TcpSeq

def lossStep (reorderLimit byteThreshold : ℕ) (hole : TcpSeq × TcpScoreboardHole)
    (r : LossScan) : LossScan :=
  let shouldMarkLost :=
    decide (reorderLimit ≤ r.blocksAhead) || decide (byteThreshold < r.sackedAhead)
  let flight :=
    if shouldMarkLost then r.flight.markSamplesInRangeLost hole.1 hole.2.endSeq else r.flight
  { flight := flight
    holes := (hole.1, { hole.2 with lost := shouldMarkLost }) :: r.holes
    sackedAhead := match r.higherStart with
      | some high => satAdd U32_MAX r.sackedAhead (distanceTo hole.2.endSeq high)
      | none => r.sackedAhead
    blocksAhead := match r.higherStart with
      | some _ => satAdd U32_MAX r.blocksAhead 1
      | none => r.blocksAhead
    higherStart := some hole.1 }

/-- The holes are visited from the last to the first. -/
def updateScoreboardLoss (s : TcpRecoveryState) (maxDatagramSize : ℕ) : TcpRecoveryState :=
  let reorderLimit := Max.max s.scoreboard.reorder TCP_DUPACK_THRESHOLD
  let byteThreshold := satMul U32_MAX (reorderLimit - 1) (Max.max maxDatagramSize 1)
  let trailing := match s.scoreboard.holes.getLast? with
    | some hole => distanceTo hole.2.endSeq s.scoreboard.highSacked
    | none => 0
  let r := s.scoreboard.holes.foldr (lossStep reorderLimit byteThreshold)
    ⟨s.flight, [], trailing, if trailing = 0 then 0 else 1, none⟩
  refreshLostBytes { s with
    flight := r.flight
    scoreboard := { s.scoreboard with holes := r.holes } }

def scoreLoss (s : TcpRecoveryState) (maxDatagramSize : ℕ) : TcpRecoveryState :=
  rescan (if s.rackEnabled then refreshLostBytes s
    else updateScoreboardLoss s (Max.max maxDatagramSize 1))

def insertHole (holes : List (TcpSeq × TcpScoreboardHole)) (hole : TcpSeq × TcpSeq) :
    List (TcpSeq × TcpScoreboardHole) :=
  OrderedMap.insert TcpSeq.cmp hole.1 ⟨hole.2, false⟩ holes

def finishHole (pending : Option (TcpSeq × TcpSeq)) (holes : List (TcpSeq × TcpScoreboardHole)) :
    List (TcpSeq × TcpScoreboardHole) :=
  match pending with
  | some hole => insertHole holes hole
  | none => holes

/-- The walk of `rebuild_scoreboard`. -/
def holeLoop (acknowledgment highSacked : TcpSeq) : List TcpSentSample → Option (TcpSeq × TcpSeq) →
    List (TcpSeq × TcpScoreboardHole) → List (TcpSeq × TcpScoreboardHole)
  | [], pending, holes => finishHole pending holes
  | sample :: rest, pending, holes =>
    if le sample.endSequence acknowledgment then
      holeLoop acknowledgment highSacked rest pending holes
    else if ge sample.sequence highSacked then finishHole pending holes
    else
      let start := TcpSeq.max sample.sequence acknowledgment
      let stop := TcpSeq.min sample.endSequence highSacked
      if ge start stop then holeLoop acknowledgment highSacked rest pending holes
      else
        match pending with
        | some hole =>
          if le start hole.2 then
            holeLoop acknowledgment highSacked rest (some (hole.1, TcpSeq.max hole.2 stop)) holes
          else
            holeLoop acknowledgment highSacked rest (some (start, stop)) (insertHole holes hole)
        | none => holeLoop acknowledgment highSacked rest (some (start, stop)) holes

def rebuildScoreboard (s : TcpRecoveryState) (acknowledgment highSacked : TcpSeq)
    (maxDatagramSize : ℕ) : TcpRecoveryState :=
  let highRxt := s.scoreboard.highRxt
  let highSacked := TcpSeq.max highSacked acknowledgment
  let s := { s with scoreboard := { TcpScoreboard.new with
    highSacked := highSacked
    highRxt := if s.recoveryActive then TcpSeq.max highRxt acknowledgment else acknowledgment } }
  if s.flight.sampleHead.isNone || le highSacked acknowledgment then rescan (refreshLostBytes s)
  else
    let holes := holeLoop acknowledgment highSacked s.flight.samples none []
    scoreLoss { s with scoreboard := { s.scoreboard with holes := holes } } maxDatagramSize

/-- Each round but the last removes a hole. -/
def trimHoles (acknowledgment : TcpSeq) :
    List (TcpSeq × TcpScoreboardHole) → List (TcpSeq × TcpScoreboardHole)
  | [] => []
  | (start, hole) :: rest =>
    if le hole.endSeq acknowledgment then trimHoles acknowledgment rest
    else if lt start acknowledgment then OrderedMap.insert TcpSeq.cmp acknowledgment hole rest
    else (start, hole) :: rest

def advanceScoreboardForAck (s : TcpRecoveryState) (acknowledgment : TcpSeq)
    (maxDatagramSize : ℕ) : TcpRecoveryState :=
  let highSacked := TcpSeq.max s.scoreboard.highSacked acknowledgment
  let s := { s with scoreboard := { s.scoreboard with
    highSacked := highSacked
    highRxt := TcpSeq.max s.scoreboard.highRxt acknowledgment } }
  if s.flight.sampleHead.isNone || le highSacked acknowledgment then
    rescan (refreshLostBytes { s with scoreboard := { s.scoreboard with holes := [] } })
  else
    scoreLoss { s with scoreboard :=
      { s.scoreboard with holes := trimHoles acknowledgment s.scoreboard.holes } } maxDatagramSize

/-- The RACK part of both acknowledgments. -/
def rackDetect (x : TcpRecoveryState × C) (ack : TcpRecoveryAck) (highestSackedRight : TcpSeq) :
    TcpRecoveryState × C :=
  onRackTimeout (markRackCandidates x.1 highestSackedRight ack.now ack.reorderingWindow
    (CongestionController.maxDatagramSize x.2)) x.2 ack.now x.1.sndNxt

def queueRecoveryHead (s : TcpRecoveryState) : TcpRecoveryState :=
  match s.flight.sampleHead with
  | none => s
  | some head =>
    match s.flight.sentSample head with
    | none => s
    | some sample =>
      if sample.rackDeadline.isSome || sample.txLost then s
      else
        rescan (refreshLostBytes { s with
          flight := s.flight.updateSample head fun current =>
            markLost { current with rackDeadline := none } })

/-- The end of both acknowledgments. -/
def settleTlp (s : TcpRecoveryState) (acknowledgment : TcpSeq) (latestRtt : Option Duration)
    (drop : Bool) : TcpRecoveryState :=
  let s := if latestRtt.isSome then { s with tlpRttFresh := true } else s
  let cleared := s.tlpProbeEnd.any fun probeEnd =>
    gt acknowledgment probeEnd || (ge acknowledgment probeEnd && !s.tlpProbeRetransmitted)
  let s := if cleared then clearTlp s else s
  let s := if drop then clearTlp s else s
  { s with
    tlpTimerArmed := s.flight.bytesInFlight != 0 && s.tlpRttFresh && s.tlpProbeEnd.isNone }

def probeAcked (s : TcpRecoveryState) (p : TcpSeq → Bool) : Bool :=
  s.tlpProbeRetransmitted && s.tlpProbeEnd.any p

def probeControl (s : TcpRecoveryState) (congestion : C) (ack : TcpRecoveryAck) (acked : Bool) :
    C :=
  if acked then
    CongestionController.onTailLossProbeAck congestion ack.now s.flight.bytesInFlight
      (CongestionController.maxDatagramSize congestion)
  else congestion

/-- `on_ack` after its first phase. -/
def ackTail (x : TcpRecoveryState × AckBatch) (congestion : C) (ack : TcpRecoveryAck)
    (drop : Bool) : TcpRecoveryState × C × Option Duration :=
  let s := advanceScoreboardForAck x.1 ack.acknowledgment
    (CongestionController.maxDatagramSize congestion)
  let y := maybeFinishRecovery s congestion ack.acknowledgment
  let y := if y.1.rackEnabled && gt y.1.scoreboard.highSacked ack.acknowledgment then
    rackDetect y ack y.1.scoreboard.highSacked else y
  let s := if y.1.recoveryActive && x.2.anyAcked then
      { queueRecoveryHead y.1 with noSackFirstPending := true }
    else y.1
  (settleTlp s ack.acknowledgment x.2.latestRtt drop, y.2, x.2.latestRtt)

def onAck (s : TcpRecoveryState) (congestion : C) (ack : TcpRecoveryAck) :
    TcpRecoveryState × C × Option Duration :=
  let congestion := probeControl s congestion ack (probeAcked s (gt ack.acknowledgment ·))
  let tlpDuplicate := probeAcked s (ack.acknowledgment == ·) && ack.duplicateAck
  let p := processAck (atFloor s ack.acknowledgment) congestion ack
  let congestion :=
    if !p.2.2.anyAcked && ack.duplicateAck then notifyDuplicateAck p.1 p.2.1 ack else p.2.1
  ackTail (p.1, p.2.2) congestion ack tlpDuplicate

/-- One sample of a SACK block. -/
def sackSample (ack : TcpRecoveryAck) (block : TcpSackBlock) (index : ℕ) (sample : TcpSentSample)
    (x : TcpRecoveryState × AckBatch) : TcpRecoveryState × AckBatch :=
  if !sample.overlaps block.leftEdge block.rightEdge then x
  else
    let ackStart := TcpSeq.max sample.sequence block.leftEdge
    let ackEnd := TcpSeq.min sample.endSequence block.rightEdge
    let r := if gt ackStart sample.sequence then x.1.flight.splitSample index ackStart
      else (x.1.flight, true)
    let s := { x.1 with flight := r.1 }
    if !r.2 then (s, x.2)
    else
      match s.flight.sampleAtOrAfter ackStart false with
      | none => (s, x.2)
      | some currentIndex =>
        match s.flight.sentSample currentIndex with
        | none => (s, x.2)
        | some current =>
          let taken := if lt ackEnd current.endSequence then
              s.flight.takeSamplePrefix currentIndex ackEnd
            else s.flight.takeSent currentIndex
          match taken with
          | none => (s, x.2)
          | some (flight, segment) => deliver ack segment ({ s with flight := flight }, x.2)

/-- The samples of a block in the order of the map: each round goes to a higher one, and there
are no more rounds than there are samples when the block begins. -/
def sackBlockLoop (ack : TcpRecoveryAck) (block : TcpSackBlock) :
    ℕ → Option ℕ → TcpRecoveryState × AckBatch → TcpRecoveryState × AckBatch
  | 0, _, x => x
  | _, none, x => x
  | fuel + 1, some index, x =>
    match x.1.flight.sentSample index with
    | none => x
    | some sample =>
      if lt block.rightEdge sample.sequence then x
      else
        sackBlockLoop ack block fuel (x.1.flight.nextSample sample.sequence)
          (sackSample ack block index sample x)

def sackBlockValid (s : TcpRecoveryState) (ack : TcpRecoveryAck) (block : TcpSackBlock) : Bool :=
  !(ge block.leftEdge block.rightEdge || le block.leftEdge ack.acknowledgment ||
    ge block.leftEdge s.sndNxt || gt block.rightEdge s.sndNxt)

/-- The ordinary blocks, with the highest right edge so far. -/
def sackLoop (ack : TcpRecoveryAck) :
    List TcpSackBlock → TcpSeq → TcpRecoveryState × AckBatch →
    TcpSeq × TcpRecoveryState × AckBatch
  | [], highest, x => (highest, x)
  | block :: rest, highest, x =>
    if sackBlockValid x.1 ack block then
      sackLoop ack rest (TcpSeq.max highest block.rightEdge)
        (sackBlockLoop ack block x.1.flight.sampleLookup.length
          (x.1.flight.sampleAtOrAfter block.leftEdge true) x)
    else sackLoop ack rest highest x

def ordinaryBlocks (blocks : List TcpSackBlock) (acknowledgment : TcpSeq) : List TcpSackBlock :=
  if (dsackBlock blocks acknowledgment).isSome then blocks.tail else blocks

/-- The part of `on_sack_blocks` that delivers samples. -/
def sackPhase (s : TcpRecoveryState) (ack : TcpRecoveryAck) (blocks : List TcpSackBlock) :
    TcpSeq × TcpRecoveryState × AckBatch :=
  sackLoop ack (ordinaryBlocks blocks ack.acknowledgment)
    (TcpSeq.max (ackPhase s ack).1.scoreboard.highSacked ack.acknowledgment) (ackPhase s ack)

/-- The undo of `on_sack_blocks`. -/
def undo (s : TcpRecoveryState) (congestion : C) (spurious : Bool) : TcpRecoveryState × C :=
  if spurious then
    (if s.recoveryActive then leaveRecovery s else s,
      CongestionController.onUndoRecovery congestion)
  else (s, congestion)

/-- `on_sack_blocks` after its delivery phase. -/
def sackTail (r : TcpSeq × TcpRecoveryState × AckBatch) (congestion : C) (ack : TcpRecoveryAck)
    (spurious drop : Bool) : TcpRecoveryState × C × Option Duration :=
  let s := rebuildScoreboard r.2.1 ack.acknowledgment r.1
    (CongestionController.maxDatagramSize congestion)
  let x := undo s congestion spurious
  let x := maybeFinishRecovery x.1 x.2 ack.acknowledgment
  let x := if x.1.rackEnabled && r.1 != ack.acknowledgment then rackDetect x ack r.1 else x
  (settleTlp x.1 ack.acknowledgment r.2.2.latestRtt drop, x.2, r.2.2.latestRtt)

def probeDsacked (s : TcpRecoveryState) (size : ℕ) (dsack : Option TcpSackBlock) : Bool :=
  probeAcked s fun probeEnd => dsack.any fun block =>
    block.rightEdge == probeEnd && decide (distanceTo block.leftEdge block.rightEdge ≤ size)

def dsackCovered (s : TcpRecoveryState) (dsack : Option TcpSackBlock) : Bool :=
  dsack.any fun block => retransmittedRangeCovered s block.leftEdge block.rightEdge

def onSackBlocks (s : TcpRecoveryState) (congestion : C) (ack : TcpRecoveryAck)
    (blocks : List TcpSackBlock) : TcpRecoveryState × C × Option Duration :=
  let dsack := dsackBlock blocks ack.acknowledgment
  let tlpDsack := probeDsacked s (CongestionController.maxDatagramSize congestion) dsack
  let congestion := probeControl s congestion ack
    (probeAcked s (gt ack.acknowledgment ·) && !tlpDsack)
  let tlpDuplicate := probeAcked s (ack.acknowledgment == ·) && ack.duplicateAck && blocks.isEmpty
  let r := sackPhase s ack blocks
  sackTail r (batchControl r.2 congestion ack) ack (!tlpDsack && dsackCovered s dsack)
    (tlpDsack || tlpDuplicate)

def onRetransmitSent (s : TcpRecoveryState) (bytes : ℕ) : TcpRecoveryState :=
  if !s.recoveryActive || bytes == 0 then s
  else { s with recoveryRetransmitted := satAdd U32_MAX s.recoveryRetransmitted bytes }

def onNewDataSent (s : TcpRecoveryState) (bytes : ℕ) : TcpRecoveryState :=
  if !s.recoveryActive || bytes == 0 then s
  else { s with recoveryNewData := satAdd U32_MAX s.recoveryNewData bytes }

def onRecoveryBurstSent (s : TcpRecoveryState) : TcpRecoveryState :=
  { s with recoveryPrevDelivered := s.recoveryDelivered, noSackFirstPending := false }

def advanceHighRxt (s : TcpRecoveryState) (endSeq : TcpSeq) : TcpRecoveryState :=
  { s with scoreboard := { s.scoreboard with
    highRxt := if s.rackEnabled then endSeq else TcpSeq.max s.scoreboard.highRxt endSeq } }

def retransmitCandidate (s : TcpRecoveryState) : Option TcpSentSample :=
  s.flight.samples.find? (·.txLost)

def oldestUnacked (s : TcpRecoveryState) : Option TcpSentSample :=
  s.flight.sampleHead.bind s.flight.sentSample

def tailLossProbeCandidate (s : TcpRecoveryState) : Option TcpSentSample :=
  s.flight.sampleTail.bind s.flight.sentSample

def sampleCovering (s : TcpRecoveryState) (sequence : TcpSeq) : Option TcpSentSample :=
  s.flight.samples.find? (·.covers sequence)

/-- `none` is the panic: no sample has that sequence number. -/
def commitRetransmit (s : TcpRecoveryState) (sequence : TcpSeq) (sentAt : Instant) :
    Option TcpRecoveryState :=
  match (s.flight.chainFrom s.flight.sampleHead).find? fun index =>
      (s.flight.sentSample index).any (·.sequence == sequence) with
  | none => none
  | some index =>
    (s.flight.sentSample index).map fun sample =>
      let flight := s.flight.updateSample index fun current =>
        { current with
          retransmitted := true
          txLost := false
          rackDeadline := none
          sentAt := sentAt }
      let s := { s with flight := flight.rackInvalidateCleared sample.rackDeadline }
      refreshLostBytes (advanceHighRxt s sample.endSequence)

def tlpLoop (start retransmitEnd : TcpSeq) : List ℕ → Flight → Flight
  | [], f => f
  | index :: rest, f =>
    match f.sentSample index with
    | none => f
    | some sample =>
      if sample.overlaps start retransmitEnd then
        tlpLoop start retransmitEnd rest (f.updateSample index fun current =>
          { current with retransmitted := true, rackDeadline := none })
      else tlpLoop start retransmitEnd rest f

def recordTlpProbe (s : TcpRecoveryState) (probeEnd : TcpSeq)
    (retransmitted : Option (TcpSeq × TcpSeq)) : TcpRecoveryState :=
  let s := match retransmitted with
    | some (start, retransmitEnd) =>
      rescan { s with
        flight := tlpLoop start retransmitEnd (s.flight.chainFrom s.flight.sampleHead) s.flight }
    | none => s
  { s with
    tlpProbeEnd := some probeEnd
    tlpProbeRetransmitted := retransmitted.isSome
    tlpRttFresh := false
    tlpTimerArmed := false }

def disarmTlp (s : TcpRecoveryState) : TcpRecoveryState := { s with tlpTimerArmed := false }

def loseHead (s : TcpRecoveryState) (head : ℕ) (sample : TcpSentSample) : TcpRecoveryState :=
  let s := if !sample.txLost then { s with lost := satAdd U64_MAX s.lost sample.bytes } else s
  refreshLostBytes { s with flight := s.flight.updateSample head markLost }

def timedOut (s : TcpRecoveryState) (congestion : C) (prevWindow : ℕ) (sndNxt : TcpSeq) :
    TcpRecoveryState × C :=
  if !s.recoveryActive then
    let congestion := CongestionController.onRecovery congestion
    (enterRecovery s prevWindow (CongestionController.congestionWindow congestion) sndNxt,
      congestion)
  else
    ({ s with
      recoveryWindow := Min.min s.recoveryWindow (CongestionController.congestionWindow congestion)
      recoveryEndSequence := if gt sndNxt s.recoveryEndSequence then sndNxt
        else s.recoveryEndSequence }, congestion)

def onRetransmissionTimeout (s : TcpRecoveryState) (congestion : C) (now : Instant)
    (sndNxt : TcpSeq) : TcpRecoveryState × C × Option TcpSentSample :=
  match s.flight.sampleHead with
  | none => (s, congestion, none)
  | some head =>
    match s.flight.sentSample head with
    | none => (s, congestion, none)
    | some sample =>
      let x := timedOut (loseHead s head sample)
        (CongestionController.onLoss congestion now (lostPacket s sample) true)
        (CongestionController.congestionWindow congestion) sndNxt
      ({ clearTlp x.1 with noSackFirstPending := true, tlpTimerArmed := false }, x.2, some sample)

def hasUnackedData (s : TcpRecoveryState) : Bool := s.flight.bytesInFlight != 0

def rackTimeout (s : TcpRecoveryState) (now : Instant) : Option Duration :=
  s.flight.rackDeadline.map (· - now)

/-- Whether `tlp_timeout` gives a time. -/
def tlpDue (s : TcpRecoveryState) : Bool :=
  s.tlpTimerArmed && s.tlpRttFresh && s.tlpProbeEnd.isNone && hasUnackedData s &&
    s.flight.rackDeadline.isNone && !s.recoveryActive

def recoverySendSpace (s : TcpRecoveryState) (bytesInFlight maxDatagramSize : ℕ) : Option ℕ :=
  if !s.recoveryActive then none
  else
    let maxDatagramSize := Max.max maxDatagramSize 1
    let prrOut := satAdd U32_MAX s.recoveryRetransmitted s.recoveryNewData
    let space :=
      if bytesInFlight > s.recoveryWindow then
        Min.min (s.recoveryDelivered * s.recoveryWindow / Max.max s.recoveryPrevWindow 1)
          U32_MAX - prrOut
      else
        let limit := satAdd U32_MAX (Max.max (s.recoveryDelivered - prrOut)
          (s.recoveryDelivered - s.recoveryPrevDelivered)) maxDatagramSize
        Min.min (s.recoveryWindow - bytesInFlight) limit
    some (if prrOut = 0 then Max.max space maxDatagramSize else space)

end Recovery
