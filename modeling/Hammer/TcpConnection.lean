import Hammer.RecoveryState
import Hammer.SackState
import Hammer.TcpProtocol

/-! # A connection

`transport/tcp/src/connection.rs` and `timers.rs`. The congestion controller is a parameter. A timer
is running or not; every interval fits the wheel, which the configuration checks.
-/

namespace Tcp

open TcpSeq Recovery SackState

/-- The part of the congestion controller that only the connection calls. -/
class CongestionSender (C : Type) extends CongestionController C where
  onPacketSent : C → ℕ → ℕ → ℕ → Instant → C
  onMtuUpdate : C → ℕ → C
  nextSendDelay : C → ℕ → Option Duration
  minRtt : C → Option Duration

inductive TcpTimerKind where
  | retransmit
  | rack
  | tlp
  | delayedAck
  | persist
  | keepAlive
  | waitClose
  | pacing
  deriving DecidableEq, Repr

structure TcpTimerState where
  armed : TcpTimerKind → Bool
  pending : TcpTimerKind → Bool

namespace TcpTimerState

def default : TcpTimerState := ⟨fun _ => false, fun _ => false⟩

def arm (t : TcpTimerState) (kind : TcpTimerKind) : TcpTimerState :=
  { t with armed := Function.update t.armed kind true }

def set (t : TcpTimerState) (kind : TcpTimerKind) : TcpTimerState :=
  if t.armed kind then t else t.arm kind

def update (t : TcpTimerState) (kind : TcpTimerKind) : TcpTimerState := t.arm kind

def reset (t : TcpTimerState) (kind : TcpTimerKind) : TcpTimerState :=
  ⟨Function.update t.armed kind false, Function.update t.pending kind false⟩

/-- `update` with an interval, `reset` without one. -/
def updateOrReset (t : TcpTimerState) (kind : TcpTimerKind) (running : Bool) : TcpTimerState :=
  if running then t.update kind else t.reset kind

def setOrReset (t : TcpTimerState) (kind : TcpTimerKind) (running : Bool) : TcpTimerState :=
  if running then t.set kind else t.reset kind

end TcpTimerState

/-- The active policy. The intervals it gives the timers are left out. -/
structure TcpPolicy where
  mss : ℕ
  receiveWindow : ℕ
  keepaliveProbeLimit : ℕ
  retransmitInitial : Duration
  retransmitMin : Duration
  retransmitMax : Duration
  pawsIdle : Duration
  pmtuEnabled : Bool

structure TcpRetransmitTimeoutState where
  srtt : Option Duration
  rttvar : Option Duration
  rto : Duration
  min : Duration
  max : Duration
  skipNextSample : Bool

namespace TcpRetransmitTimeoutState

def new (policy : TcpPolicy) : TcpRetransmitTimeoutState :=
  ⟨none, none, policy.retransmitInitial, policy.retransmitMin, policy.retransmitMax, false⟩

def clampTimeout (s : TcpRetransmitTimeoutState) (timeout : Duration) : Duration :=
  if timeout < s.min then s.min else if timeout > s.max then s.max else timeout

def observeAckSample (s : TcpRetransmitTimeoutState) (rtt : Duration) :
    TcpRetransmitTimeoutState :=
  if s.skipNextSample then { s with skipNextSample := false }
  else
    let (srtt, rttvar) := match s.srtt, s.rttvar with
      | some srtt, some rttvar =>
        ((srtt * 7 + rtt) / 8, (rttvar * 3 + (Max.max srtt rtt - Min.min srtt rtt)) / 4)
      | _, _ => (rtt, rtt / 2)
    { s with
      srtt := some srtt
      rttvar := some rttvar
      rto := s.clampTimeout (srtt + rttvar * 4) }

def onRetransmissionTimeout (s : TcpRetransmitTimeoutState) : TcpRetransmitTimeoutState :=
  { s with rto := s.clampTimeout (s.rto * 2), skipNextSample := true }

end TcpRetransmitTimeoutState

structure TcpTimestampState where
  recentRemote : Option TcpSeq
  recentRemoteAt : Option Instant

structure TcpConnection (C : Type) where
  state : TcpState
  timers : TcpTimerState
  iss : TcpSeq
  irs : TcpSeq
  sndUna : TcpSeq
  sndNxt : TcpSeq
  sndWnd : ℕ
  rcvNxt : TcpSeq
  rcvWnd : ℕ
  negotiatedOptions : TcpNegotiatedOptions
  txIntentSequence : Option TcpSeq
  txIntentPayloadLen : ℕ
  fastOpenSynPayloadLen : ℕ
  bytesInFlightCached : ℕ
  sendMss : ℕ
  burstAcked : ℕ
  deqPending : Bool
  receivedDupacks : ℕ
  limitedTransmit : TcpSeq
  sendAckPending : Bool
  retransmitPending : Bool
  pendingDupacks : ℕ
  finPending : Bool
  finSent : Bool
  finReceived : Bool
  persistAttempts : ℕ
  probesSent : ℕ
  probeLimit : ℕ
  retransmitTimeout : TcpRetransmitTimeoutState
  timestamps : TcpTimestampState
  nextPacketNumber : ℕ
  congestion : C
  recovery : TcpRecoveryState
  sack : TcpSackState
  pawsIdle : Duration
  pmtuEnabled : Bool

def TCP_MAX_WINDOW_SCALE : ℕ := 14
def DEFAULT_TCP_OUTPUT_PAYLOAD_LEN : ℕ := 1440

def tcpWindowScale (windowScale : Option ℕ) : ℕ :=
  Min.min (windowScale.getD 0) TCP_MAX_WINDOW_SCALE

def scaledWindowFromAdvertised (advertisedWindow windowScale : ℕ) : ℕ :=
  satMul U32_MAX advertisedWindow (2 ^ tcpWindowScale (some windowScale))

def advertisedWindowFromReceive (receiveWindow windowScale : ℕ) : ℕ :=
  Min.min (receiveWindow / 2 ^ tcpWindowScale (some windowScale)) 65535

def normalizeTcpCapabilities (c : TcpCapabilities) : TcpCapabilities :=
  { c with
    maxSegmentSize := c.maxSegmentSize.filter (· ≠ 0)
    windowScale := c.windowScale.map (Min.min · (UInt8.ofNat TCP_MAX_WINDOW_SCALE)) }

def tcpNegotiateOptions (l remote : TcpCapabilities) : TcpNegotiatedOptions where
  sendMaxSegmentSize := remote.maxSegmentSize.map UInt16.toNat
  sendWindowScale := if l.windowScale.isSome then remote.windowScale.map UInt8.toNat else none
  receiveWindowScale := if remote.windowScale.isSome then l.windowScale.map UInt8.toNat else none
  sack := l.sack && remote.sack
  timestamps := l.timestamps && remote.timestamps

def tcpEffectiveOutputPayloadLen (peerMaxSegmentSize : Option ℕ) : ℕ :=
  match peerMaxSegmentSize with
  | some size => if size ≠ 0 then Min.min size DEFAULT_TCP_OUTPUT_PAYLOAD_LEN
    else DEFAULT_TCP_OUTPUT_PAYLOAD_LEN
  | none => DEFAULT_TCP_OUTPUT_PAYLOAD_LEN

namespace TcpConnection

variable {C : Type}

def new (policy : TcpPolicy) (congestion : C) : TcpConnection C where
  state := .closed
  timers := .default
  iss := 0
  irs := 0
  sndUna := 0
  sndNxt := 0
  sndWnd := policy.receiveWindow
  rcvNxt := 0
  rcvWnd := policy.receiveWindow
  negotiatedOptions := .default
  txIntentSequence := none
  txIntentPayloadLen := 0
  fastOpenSynPayloadLen := 0
  bytesInFlightCached := 0
  sendMss := Max.max policy.mss 1
  burstAcked := 0
  deqPending := false
  receivedDupacks := 0
  limitedTransmit := 0
  sendAckPending := false
  retransmitPending := false
  pendingDupacks := 0
  finPending := false
  finSent := false
  finReceived := false
  persistAttempts := 0
  probesSent := 0
  probeLimit := policy.keepaliveProbeLimit
  retransmitTimeout := .new policy
  timestamps := ⟨none, none⟩
  nextPacketNumber := 1
  congestion := congestion
  recovery := .new
  sack := .default
  pawsIdle := policy.pawsIdle
  pmtuEnabled := policy.pmtuEnabled

def effectiveSendWindow (c : TcpConnection C) (advertisedWindow : ℕ) : ℕ :=
  scaledWindowFromAdvertised advertisedWindow (tcpWindowScale c.negotiatedOptions.sendWindowScale)

def outputReceiveWindow (c : TcpConnection C) (flags : TcpSegmentFlags) : ℕ :=
  if flags.syn then 4096
  else
    advertisedWindowFromReceive c.rcvWnd (tcpWindowScale c.negotiatedOptions.receiveWindowScale)

def outputPayloadLen (c : TcpConnection C) : ℕ :=
  tcpEffectiveOutputPayloadLen c.negotiatedOptions.sendMaxSegmentSize

def setRcvWnd (c : TcpConnection C) (available : ℕ) : TcpConnection C :=
  { c with rcvWnd := Min.min available U32_MAX }

def acceptsAck (c : TcpConnection C) (acknowledgment : TcpSeq) : Bool :=
  ge acknowledgment c.sndUna && le acknowledgment c.sndNxt

def applyAck (c : TcpConnection C) (acknowledgment : TcpSeq) (advertisedWindow : BitVec 16) :
    TcpConnection C :=
  if !c.acceptsAck acknowledgment then c
  else
    let sndWnd := c.effectiveSendWindow advertisedWindow.toNat
    { c with
      sndUna := acknowledgment
      sndWnd := sndWnd
      persistAttempts := if sndWnd > 0 then 0 else c.persistAttempts }

def txPayloadSequence (c : TcpConnection C) : TcpSeq :=
  match c.txIntentSequence with
  | some sequence => sequence
  | none => if c.state = .synSent then c.iss else c.sndNxt

def clearTxIntent (c : TcpConnection C) : TcpConnection C :=
  { c with txIntentSequence := none, txIntentPayloadLen := 0 }

def outputSequence (c : TcpConnection C) (flags : TcpSegmentFlags) : TcpSeq :=
  if flags.syn && c.iss != 0 then c.iss
  else if c.sndNxt ≠ 0 then c.sndNxt
  else if c.sndUna ≠ 0 then c.sndUna
  else if c.iss ≠ 0 then advance c.iss 1
  else 1

def outputAcknowledgment (c : TcpConnection C) (flags : TcpSegmentFlags) : TcpSeq :=
  if !flags.ack then 0
  else if c.rcvNxt ≠ 0 then c.rcvNxt
  else if c.irs ≠ 0 then advance c.irs 1
  else 1

def controlSegment (c : TcpConnection C) (flags : TcpSegmentFlags)
    (resetSequence : Option TcpSeq) : TcpSegment where
  sequence := resetSequence.getD (c.outputSequence flags)
  acknowledgment := c.outputAcknowledgment flags
  advertisedWindow := c.outputReceiveWindow flags
  flags := flags
  payloadLen := 0

/-- False if the segment fails the timestamp check. -/
def observeInboundTimestamp (c : TcpConnection C) (flags : TcpSegmentFlags)
    (timestamp : Option TcpSeq) (sequence : TcpSeq) (payloadLen : ℕ) (now : Instant) :
    TcpConnection C × Bool :=
  if flags.rst then (c, true)
  else if !c.negotiatedOptions.timestamps then (c, true)
  else
    match timestamp with
    | none => (c, false)
    | some tsval =>
      let older := c.timestamps.recentRemote.any (gt · tsval)
      let pawsExpired := c.timestamps.recentRemoteAt.any (c.pawsIdle < now - ·)
      if older && !pawsExpired then (c, false)
      else
        let segmentEnd := advance sequence (payloadLen + flags.syn.toNat + flags.fin.toNat)
        if older || flags.syn || (ge c.rcvNxt sequence && ge segmentEnd c.rcvNxt) then
          ({ c with timestamps := ⟨some tsval, some now⟩ }, true)
        else (c, true)

def observeActivity (c : TcpConnection C) : TcpConnection C :=
  { c with
    probesSent := 0
    timers := if c.state = .established then c.timers.update .keepAlive else c.timers }

def resetAllTimers (c : TcpConnection C) : TcpConnection C :=
  { c with timers := ⟨fun _ => false, fun _ => false⟩ }

def applyPeerHandshakeCapabilities [CongestionSender C] (c : TcpConnection C)
    (localCapabilities capabilities : TcpCapabilities) : TcpConnection C :=
  let negotiated := tcpNegotiateOptions (normalizeTcpCapabilities localCapabilities)
    (normalizeTcpCapabilities capabilities)
  { c with
    negotiatedOptions := negotiated
    recovery := { c.recovery with rackEnabled := negotiated.sack }
    congestion := match negotiated.sendMaxSegmentSize.filter (· ≠ 0) with
      | some maxSegmentSize => CongestionSender.onMtuUpdate c.congestion maxSegmentSize
      | none => c.congestion }

def connectState (c : TcpConnection C) (initialSequence : TcpSeq) : TcpConnection C :=
  { c with
    iss := initialSequence
    sndUna := initialSequence
    sndNxt := advance initialSequence 1
    fastOpenSynPayloadLen := 0
    state := .synSent }

def receiveSyn [CongestionSender C] (c : TcpConnection C) (flags : TcpSegmentFlags)
    (sequence : TcpSeq)
    (advertisedWindow : BitVec 16) (capabilities : TcpCapabilities) (timestamp : Option TcpSeq)
    (acceptedPayloadLen : ℕ) (localCapabilities : TcpCapabilities) (now : Instant) :
    TcpConnection C × Option TcpSegment :=
  if !flags.syn || flags.ack || flags.rst then (c, none)
  else
    let c := c.applyPeerHandshakeCapabilities localCapabilities capabilities
    let c := (c.observeInboundTimestamp flags timestamp sequence acceptedPayloadLen now).1
    let iss := if c.iss = 0 then 1 else c.iss
    let c :=
      { c with
        iss := iss
        state := .synRcvd
        irs := sequence
        sndUna := iss
        sndNxt := advance iss 1
        sndWnd := c.effectiveSendWindow advertisedWindow.toNat
        rcvNxt := advance sequence (1 + acceptedPayloadLen) }
    (c, some (c.controlSegment .SYN_ACK none))

/-- The part of `receive_open_reply` that follows the acknowledgment and reset checks. -/
def acceptOpenReply [CongestionSender C] (c : TcpConnection C) (p : TcpPacket)
    (localCapabilities : TcpCapabilities)
    (now : Instant) : TcpConnection C × Option TcpSegment :=
  let c := c.applyPeerHandshakeCapabilities localCapabilities p.capabilities
  let (c, timely) := c.observeInboundTimestamp p.flags p.timestamp p.sequence p.payloadLen now
  if !timely then (c, none)
  else
    let c :=
      { c with
        irs := p.sequence
        sndWnd := c.effectiveSendWindow p.advertisedWindow.toNat
        rcvNxt := advance p.sequence 1 }
    match p.acknowledgment with
    | some acknowledgment =>
      if !c.acceptsAck acknowledgment then (c, none)
      else
        let c :=
          { c with
            sndUna := acknowledgment
            state := .established
            timers := c.timers.reset .retransmit }
        let c := c.observeActivity
        (c, some (c.controlSegment .ACK none))
    | none =>
      let c := { c with state := .synRcvd }
      (c, some (c.controlSegment .SYN_ACK none))

inductive TcpConnectionError where
  | invalidState
  | payloadLengthOverflow
  deriving DecidableEq

def receiveOpenReply [CongestionSender C] (c : TcpConnection C) (p : TcpPacket)
    (localCapabilities : TcpCapabilities) (now : Instant) :
    Except TcpConnectionError (TcpConnection C × Option TcpSegment) :=
  if c.state ≠ .synSent then .error .invalidState
  else
    let outside := p.acknowledgment.filter fun acknowledgment =>
      le acknowledgment c.iss || gt acknowledgment c.sndNxt
    match outside with
    | some acknowledgment =>
      if p.flags.rst then .ok (c, none)
      else .ok (c, some (c.controlSegment .RST (some acknowledgment)))
    | none =>
      if p.flags.rst then
        if p.acknowledgment.any c.acceptsAck then
          .ok ({ c with state := .closed, timers := c.timers.reset .retransmit }, none)
        else .ok (c, none)
      else if !p.flags.syn then .ok (c, none)
      else .ok (c.acceptOpenReply p localCapabilities now)

def receiveFinalAck (c : TcpConnection C) (p : TcpPacket) (now : Instant) :
    Except TcpConnectionError (TcpConnection C × Option TcpSegment) :=
  if c.state ≠ .synRcvd then .error .invalidState
  else
    let (c, timely) := c.observeInboundTimestamp p.flags p.timestamp p.sequence p.payloadLen now
    if !timely then .ok (c, none)
    else if p.flags.rst then
      .ok ({ c with state := .closed, timers := c.timers.reset .retransmit }, none)
    else
      match p.acknowledgment with
      | none => .ok (c, none)
      | some acknowledgment =>
        if !c.acceptsAck acknowledgment then
          .ok (c, some (c.controlSegment .RST (some acknowledgment)))
        else
          let c := c.applyAck acknowledgment p.advertisedWindow
          let c := { c with state := .established, timers := c.timers.reset .retransmit }
          .ok (c.observeActivity, none)

/-- Durations are counted in nanoseconds. -/
def MILLISECOND : Duration := 1000000

def recoveryAck [CongestionSender C] (c : TcpConnection C) (acknowledgment : TcpSeq)
    (duplicateAck : Bool)
    (now : Instant) : TcpRecoveryAck where
  acknowledgment := acknowledgment
  now := now
  appLimited := false
  ecnCeCount := 0
  reorderingWindow :=
    Max.max ((((CongestionSender.minRtt c.congestion).or c.retransmitTimeout.srtt).getD
      c.retransmitTimeout.rto) / 4) MILLISECOND
  duplicateAck := duplicateAck

/-- What the local timestamps read off the echo comes with the packet. -/
def timestampRttSample (c : TcpConnection C) (p : TcpPacket) : Option Duration :=
  if c.negotiatedOptions.timestamps && p.timestamp.isSome then p.timestampRtt else none

def observeAckProgress [CongestionSender C] (c : TcpConnection C) (p : TcpPacket)
    (acknowledgment : TcpSeq)
    (now : Instant) : TcpConnection C :=
  if !c.acceptsAck acknowledgment then c
  else
    let advanced := gt acknowledgment c.sndUna
    let duplicateAck :=
      acknowledgment == c.sndUna && p.payloadLen == 0 && hasUnackedData c.recovery
    let ack := c.recoveryAck acknowledgment duplicateAck now
    let (recovery, congestion, latestRtt) :=
      if c.negotiatedOptions.sack then onSackBlocks c.recovery c.congestion ack p.sackBlocks
      else if advanced || c.recovery.tlpProbeEnd.isSome then
        onAck c.recovery c.congestion ack
      else (c.recovery, c.congestion, none)
    let latestRtt :=
      if advanced then latestRtt.or (c.timestampRttSample p) else none
    { c with
      recovery := recovery
      congestion := congestion
      retransmitTimeout := match latestRtt with
        | some rtt => c.retransmitTimeout.observeAckSample rtt
        | none => c.retransmitTimeout
      bytesInFlightCached := recovery.flight.bytesInFlight }

def pacingInterval [CongestionSender C] (c : TcpConnection C) : Option Duration :=
  CongestionSender.nextSendDelay c.congestion c.outputPayloadLen

def syncRecoveryTimers [CongestionSender C] (c : TcpConnection C) (now : Instant)
    (recoveryTimingChanged : Bool) :
    TcpConnection C :=
  if c.sndWnd == 0 && hasUnackedData c.recovery then
    { c with timers := (((c.timers.set .persist).reset .rack).reset .tlp).reset .pacing }
  else
    let timers := c.timers.reset .persist
    let timers :=
      if recoveryTimingChanged then
        (timers.updateOrReset .rack (rackTimeout c.recovery now).isSome).updateOrReset .tlp
          (tlpDue c.recovery)
      else timers
    { c with timers := timers.setOrReset .pacing c.pacingInterval.isSome }

def receiveAckWithTimers [CongestionSender C] (c : TcpConnection C) (p : TcpPacket)
    (acknowledgment : TcpSeq)
    (now : Instant) : TcpConnection C :=
  let ackAccepted := c.acceptsAck acknowledgment
  let before := c
  let c := c.observeAckProgress p acknowledgment now
  let c := c.applyAck acknowledgment p.advertisedWindow
  let c :=
    if ackAccepted && c.sndUna != before.sndUna then { c with receivedDupacks := 0 }
    else if ackAccepted && p.payloadLen == 0 && c.sndWnd == before.sndWnd &&
        hasUnackedData c.recovery then
      { c with receivedDupacks := satAdd U32_MAX c.receivedDupacks 1 }
    else c
  let recoveryProgress := ackAccepted &&
    (c.sndUna != before.sndUna ||
      c.recovery.flight.bytesInFlight != before.recovery.flight.bytesInFlight ||
      rackTimeout c.recovery now != rackTimeout before.recovery now)
  let recoveryTimingChanged := recoveryProgress ||
    (ackAccepted && (before.sndWnd == 0) != (c.sndWnd == 0))
  let c := c.observeActivity
  let c := { c with timers := c.timers.reset .delayedAck }
  c.syncRecoveryTimers now recoveryTimingChanged

/-- Bytes of the TX FIFO that the acknowledgment covers: neither the SYN nor the FIN. -/
def takeAckedTxLen (c : TcpConnection C) (previousSndUna : TcpSeq) : TcpConnection C × ℕ :=
  let acked := distanceTo previousSndUna c.sndUna
  if acked = 0 then (c, 0)
  else
    let synControl := (previousSndUna == c.iss && c.sndUna != previousSndUna).toNat
    let finControl := (c.finSent && lt previousSndUna c.sndNxt && c.sndUna == c.sndNxt).toNat
    let payloadAcked := acked - (synControl + finControl)
    ({ c with
      fastOpenSynPayloadLen :=
        c.fastOpenSynPayloadLen - Min.min payloadAcked c.fastOpenSynPayloadLen },
      payloadAcked)

def recordAckedBytes (c : TcpConnection C) (bytes : ℕ) : TcpConnection C :=
  { c with deqPending := true, burstAcked := c.burstAcked + bytes }

def takeBurstAcked (c : TcpConnection C) : TcpConnection C × ℕ :=
  ({ c with deqPending := false, burstAcked := 0 }, c.burstAcked)

def retransmitTimerAfterAck (c : TcpConnection C) : TcpConnection C :=
  if c.sndUna == c.sndNxt || (!c.finSent && !hasUnackedData c.recovery) then
    { c with timers := c.timers.reset .retransmit }
  else { c with timers := c.timers.update .retransmit }

def receiveAckOf [CongestionSender C] (c : TcpConnection C) (p : TcpPacket) (now : Instant) :
    TcpConnection C :=
  match p.acknowledgment with
  | some acknowledgment => c.receiveAckWithTimers p acknowledgment now
  | none => c

/-- The part of `receive_close_side` that depends on the state. -/
def closeSideByState (c : TcpConnection C) (p : TcpPacket) (now : Instant) :
    Except TcpConnectionError (TcpConnection C × Option TcpSegment) :=
  let finAcked := p.acknowledgment.any fun acknowledgment =>
    c.acceptsAck acknowledgment && acknowledgment == c.sndNxt
  match c.state with
  | .synRcvd => c.receiveFinalAck p now
  | .finWait1 =>
    if finAcked && c.finSent then
      if c.finReceived then .ok ({ c with state := .closed }, none)
      else .ok ({ c with state := .finWait2, timers := c.timers.update .waitClose }, none)
    else .ok (c, none)
  | .closing =>
    if finAcked then
      .ok ({ c with state := .timeWait, timers := c.timers.update .waitClose }, none)
    else .ok (c, none)
  | .lastAck =>
    if finAcked && c.finSent then .ok ({ c with state := .closed }, none)
    else .ok (c, none)
  | .timeWait =>
    if p.flags.fin then
      let c := { c with timers := c.timers.update .waitClose }
      .ok (c, some (c.controlSegment .ACK none))
    else .ok (c, none)
  | _ => .ok (c, none)

def receiveCloseSide [CongestionSender C] (c : TcpConnection C) (p : TcpPacket)
    (now : Instant) : Except TcpConnectionError (TcpConnection C × Option TcpSegment) :=
  let (c, timely) := c.observeInboundTimestamp p.flags p.timestamp p.sequence p.payloadLen now
  if !timely then .ok (c, none)
  else
    let c := c.observeActivity
    if p.flags.rst then .ok ({ c.resetAllTimers with state := .closed }, none)
    else (c.receiveAckOf p now).closeSideByState p now

def receiveEstablishedWithTimers [CongestionSender C] (c : TcpConnection C) (p : TcpPacket)
    (now : Instant) :
    Except TcpConnectionError (TcpConnection C × Option TcpSegment) :=
  if c.state ≠ .established then .error .invalidState
  else if p.flags.rst then c.receiveCloseSide p now
  else
    let (c, timely) := c.observeInboundTimestamp p.flags p.timestamp p.sequence p.payloadLen now
    if !timely then .ok (c, none)
    else
      match p.acknowledgment with
      | some acknowledgment => .ok (c.receiveAckWithTimers p acknowledgment now, none)
      | none => .ok (c.observeActivity, none)

def consumeFin (c : TcpConnection C) (state : TcpState) : TcpConnection C :=
  { c with
    rcvNxt := advance c.rcvNxt 1
    finReceived := true
    state := state
    timers := c.timers.update .waitClose }

def processFinAfterPayload (c : TcpConnection C) (p : TcpPacket) :
    TcpConnection C × Option TcpSegment :=
  if !p.flags.fin || advance p.sequence p.payloadLen != c.rcvNxt then (c, none)
  else
    let consumed := match c.state with
      | .established => some (c.consumeFin .closeWait)
      | .finWait1 =>
        if c.finPending then some (c.consumeFin .finWait1)
        else if c.finSent && c.sndUna == c.sndNxt then some (c.consumeFin .timeWait)
        else some (c.consumeFin .closing)
      | .finWait2 => some (c.consumeFin .timeWait)
      | _ => none
    match consumed with
    | some c => (c, some (c.controlSegment .ACK none))
    | none => (c, none)

/-- The part of the payload that is old and the distance of the rest from `rcvNxt`. -/
def acceptAt (rcvNxt sequence : TcpSeq) (payloadLen : ℕ) : Option (ℕ × ℕ) :=
  if payloadLen = 0 then none
  else if le (advance sequence payloadLen) rcvNxt then none
  else if lt sequence rcvNxt then some (distanceTo sequence rcvNxt, 0)
  else some (0, distanceTo rcvNxt sequence)

def acceptPayloadFrom (c : TcpConnection C) (sequence : TcpSeq) (payloadLen : ℕ) :
    Option (ℕ × ℕ) := acceptAt c.rcvNxt sequence payloadLen

def acceptPayload (c : TcpConnection C) (p : TcpPacket) : Option (ℕ × ℕ) :=
  c.acceptPayloadFrom p.sequence p.payloadLen

inductive RxDelivery where
  | notAccepted
  | inOrder (accepted promoted : ℕ)
  | outOfOrder (accepted : ℕ) (newest : Option (ℕ × ℕ))
  deriving DecidableEq

/-- Duplicate SACK blocks, which `set_duplicate` keeps, are left out. -/
def receivePayload (c : TcpConnection C) (delivery : RxDelivery) : TcpConnection C :=
  let sack := c.negotiatedOptions.sack
  match delivery with
  | .notAccepted => { c with sack := updateRange c.sack sack c.rcvNxt c.rcvNxt c.rcvNxt }
  | .inOrder accepted promoted =>
    let rcvNxt := advance c.rcvNxt (satAdd U32_MAX accepted promoted)
    { c with rcvNxt := rcvNxt, sack := updateRange c.sack sack rcvNxt rcvNxt rcvNxt }
  | .outOfOrder _ newest =>
    match newest with
    | some (start, length) =>
      let left := advance c.rcvNxt start
      { c with sack := updateRange c.sack sack c.rcvNxt left (advance left length) }
    | none => c

def sendFin (c : TcpConnection C) : TcpConnection C × Option TcpSegment :=
  ({ c with sndNxt := advance c.sndNxt 1, finSent := true, finPending := false },
    some (c.controlSegment .FIN_ACK none))

def onSessionClose (c : TcpConnection C) (txQueued : Bool) :
    TcpConnection C × Option TcpSegment :=
  match c.state with
  | .synRcvd =>
    sendFin { c with state := .finWait1, timers := c.timers.update .waitClose }
  | .established =>
    let c := { c with
      state := .finWait1
      finPending := txQueued
      timers := ((c.timers.reset .keepAlive).reset .pacing).update .waitClose }
    if txQueued then (c, none) else c.sendFin
  | .closeWait =>
    let c := { c with
      finPending := txQueued
      timers := (c.timers.reset .keepAlive).reset .pacing }
    if txQueued then (c, none)
    else sendFin { c with state := .lastAck, timers := c.timers.update .waitClose }
  | .finWait1 => ({ c with timers := c.timers.update .waitClose }, none)
  | _ => (c, none)

def reset (c : TcpConnection C) : TcpConnection C × Option TcpSegment :=
  ({ c.resetAllTimers with state := .closed },
    if c.state = .synSent then none else some (c.controlSegment .RST_ACK none))

/-- The FIN that `handle_postponed_dequeues` sends when the TX FIFO is empty. -/
def sendPendingFin (c : TcpConnection C) : TcpConnection C × Option TcpSegment :=
  let (c, segment) := c.sendFin
  let c :=
    if c.state = .closeWait then
      { c with state := .lastAck, timers := c.timers.update .waitClose }
    else c
  ({ c with timers := c.timers.update .retransmit }, segment)

def dataCapable (c : TcpConnection C) : Bool :=
  c.state = .established || c.state = .closeWait || (c.state = .finWait1 && c.finPending)

def txSegment (c : TcpConnection C) (payloadLen : ℕ) : Except TcpConnectionError TcpSegment :=
  if c.state = .synSent then
    .ok ⟨c.txPayloadSequence, c.rcvNxt, c.outputReceiveWindow .SYN, .SYN, payloadLen⟩
  else if !c.dataCapable then .error .invalidState
  else .ok ⟨c.txPayloadSequence, c.rcvNxt, c.outputReceiveWindow .ACK, .ACK, payloadLen⟩

/-- The first transmission of the bytes from `sequence` to `endSequence`. -/
def recordNewData [CongestionSender C] (c : TcpConnection C) (sequence endSequence : TcpSeq)
    (payloadLen bytes : ℕ)
    (now : Instant) (appLimited : Bool) : TcpConnection C :=
  let recovery := recordSent c.recovery c.nextPacketNumber sequence endSequence payloadLen
    payloadLen c.bytesInFlightCached now appLimited
  { c with
    nextPacketNumber := satAdd U64_MAX c.nextPacketNumber 1
    recovery := recovery
    bytesInFlightCached := recovery.flight.bytesInFlight
    congestion := CongestionSender.onPacketSent c.congestion c.nextPacketNumber bytes
      c.bytesInFlightCached now
    sndNxt := endSequence }

def commitPayloadTx [CongestionSender C] (c : TcpConnection C) (payloadLen : ℕ) (now : Instant)
    (appLimited : Bool) :
    Except TcpConnectionError (TcpConnection C) :=
  if c.state = .synSent then
    if c.txIntentSequence.isSome then .ok c.clearTxIntent
    else if payloadLen > U32_MAX then .error .payloadLengthOverflow
    else
      .ok { c.recordNewData c.iss (advance c.iss (satAdd U32_MAX payloadLen 1)) payloadLen
          (satAdd U32_MAX payloadLen 1) now false with fastOpenSynPayloadLen := payloadLen }
  else if !c.dataCapable then .error .invalidState
  else
    let intent := c.txIntentSequence
    let c := if intent.isSome then c.clearTxIntent else c
    if intent.any (· != c.sndNxt) then .ok c
    else if payloadLen > U32_MAX then .error .payloadLengthOverflow
    else
      let c := c.recordNewData c.sndNxt (advance c.sndNxt payloadLen) payloadLen payloadLen now
        appLimited
      .ok { c with recovery := onNewDataSent c.recovery payloadLen, probesSent := 0 }

def syncPayloadTxTimers [CongestionSender C] (c : TcpConnection C)
    (now : Instant) : TcpConnection C :=
  if c.state ≠ .established then { c with timers := c.timers.set .retransmit }
  else
    let timers := c.timers.set .retransmit
    let timers := timers.updateOrReset .rack (rackTimeout c.recovery now).isSome
    let timers := timers.updateOrReset .tlp (tlpDue c.recovery)
    let timers := timers.setOrReset .persist (c.sndWnd == 0 && hasUnackedData c.recovery)
    let timers := timers.updateOrReset .pacing c.pacingInterval.isSome
    { c with timers := timers.update .keepAlive }

/-- The bytes that limited transmit still lets out, and its moved mark. -/
def limitedTransmitSpace (c : TcpConnection C) : TcpConnection C × ℕ :=
  let packets := if c.negotiatedOptions.sack then c.recovery.scoreboard.reorder - 1 else 2
  let limit := satMul U32_MAX packets c.sendMss
  let c :=
    if lt c.limitedTransmit (c.sndNxt - BitVec.ofNat 32 limit) || gt c.limitedTransmit c.sndNxt then
      { c with limitedTransmit := c.sndNxt }
    else c
  (c, limit - distanceTo c.limitedTransmit c.sndNxt)

def sendSpace [CongestionSender C] (c : TcpConnection C) : TcpConnection C × ℕ :=
  if c.recovery.recoveryActive || c.state = .closed then (c, 0)
  else
    let outstanding := distanceTo c.sndUna c.sndNxt
    let cwnd := CongestionController.congestionWindow c.congestion
    let (c, available) :=
      if c.receivedDupacks ≠ 0 || sackedBytes c.recovery ≠ 0 then c.limitedTransmitSpace
      else (c, cwnd - outstanding)
    if c.sndWnd < c.sendMss then (c, if c.sndWnd ≤ available then c.sndWnd else 0)
    else if available < c.sendMss then (c, if available < cwnd then 0 else available)
    else (c, available - available % c.sendMss)

def appLimitedForSend [CongestionSender C] (c : TcpConnection C) (availableBytes : ℕ) : Bool :=
  availableBytes < c.sendMss &&
    distanceTo c.sndUna c.sndNxt < CongestionController.congestionWindow c.congestion &&
    !c.recovery.recoveryActive

def IPV4_TCP_BASE_HEADER_BYTES : ℕ := 40

def applyPathMtu [CongestionSender C] (c : TcpConnection C) (pathMtu : ℕ) : TcpConnection C :=
  if !c.pmtuEnabled then c
  else
    let mss := Max.max (pathMtu - IPV4_TCP_BASE_HEADER_BYTES) 1
    let current := (c.negotiatedOptions.sendMaxSegmentSize.filter (· ≠ 0)).getD 65535
    if mss ≥ current then c
    else
      let c := { c with
        negotiatedOptions := { c.negotiatedOptions with sendMaxSegmentSize := some mss }
        congestion := CongestionSender.onMtuUpdate c.congestion mss }
      if hasUnackedData c.recovery then
        { c with
          txIntentSequence := some c.sndUna
          txIntentPayloadLen := Max.max (Min.min mss (distanceTo c.sndUna c.sndNxt)) 1 }
      else c

inductive TcpTimerAction where
  | rtoRetransmit
  | rackRetransmit
  | tlpProbe
  | persistProbe
  | keepaliveProbe
  deriving DecidableEq

structure TcpTimerOutcome where
  segment : Option TcpSegment
  action : Option TcpTimerAction
  deriving DecidableEq

def TcpTimerOutcome.none : TcpTimerOutcome := ⟨Option.none, Option.none⟩

def timerDispatchPending (c : TcpConnection C) (kind : TcpTimerKind) : Bool :=
  match c.state, kind with
  | .synSent, _ => true
  | .established, _ => true
  | .closeWait, .waitClose => true
  | .finWait1, .waitClose => true
  | .finWait2, .waitClose => true
  | .closing, .waitClose => true
  | .lastAck, .waitClose => true
  | .timeWait, .waitClose => true
  | .finWait1, .retransmit => true
  | .closeWait, .retransmit => true
  | .closing, .retransmit => true
  | .lastAck, .retransmit => true
  | _, _ => false

def onRetransmitTimerExpiry [CongestionSender C] (c : TcpConnection C) (now : Instant) :
    TcpConnection C × TcpTimerOutcome :=
  let backedOff := { c with retransmitTimeout := c.retransmitTimeout.onRetransmissionTimeout }
  if c.state = .synSent then
    (backedOff, ⟨some ⟨c.iss, c.rcvNxt, c.outputReceiveWindow .SYN, .SYN,
      c.fastOpenSynPayloadLen⟩, some .rtoRetransmit⟩)
  else if (c.state = .established || c.state = .closeWait || c.state = .finWait1) &&
      !c.finSent then
    match onRetransmissionTimeout c.recovery c.congestion now c.sndNxt with
    | (recovery, congestion, some sample) =>
      ({ c with
        recovery := recovery
        congestion := congestion
        txIntentSequence := some sample.sequence
        txIntentPayloadLen := sample.payloadLen }, ⟨none, some .rtoRetransmit⟩)
    | (recovery, congestion, none) =>
      ({ c with recovery := recovery, congestion := congestion }, .none)
  else if c.state = .finWait1 || c.state = .closing || c.state = .lastAck then
    (backedOff, ⟨some ⟨c.sndNxt - 1, c.rcvNxt, c.outputReceiveWindow .FIN_ACK, .FIN_ACK, 0⟩,
      some .rtoRetransmit⟩)
  else (c, .none)

def onRackTimerExpiry [CongestionSender C] (c : TcpConnection C) (now : Instant) :
    TcpConnection C × TcpTimerOutcome :=
  if c.state ≠ .established then (c, .none)
  else
    let (recovery, congestion) := onRackTimeout c.recovery c.congestion now c.sndNxt
    let c := { c with recovery := recovery, congestion := congestion }
    if (retransmitCandidate recovery).isNone then (c, .none)
    else (c, ⟨none, some .rackRetransmit⟩)

def onTlpTimerExpiry (c : TcpConnection C) : TcpConnection C × TcpTimerOutcome :=
  if c.state ≠ .established then (c, .none)
  else if !tlpDue c.recovery then (c, .none)
  else (c, ⟨none, some .tlpProbe⟩)

def onDelayedAckTimerExpiry (c : TcpConnection C) : Option TcpSegment :=
  if c.state ≠ .established then none
  else some ⟨c.sndNxt, c.rcvNxt, c.outputReceiveWindow .ACK, .ACK, 0⟩

def onPersistTimerExpiry (c : TcpConnection C) : TcpConnection C × TcpTimerOutcome :=
  if c.state ≠ .established then (c, .none)
  else if c.sndWnd ≠ 0 then ({ c with persistAttempts := 0 }, .none)
  else
    let c := { c with persistAttempts := Min.min (c.persistAttempts + 1) 255 }
    if c.txIntentSequence.isSome then (c, .none)
    else
      ({ c with txIntentSequence := some c.sndUna, txIntentPayloadLen := 1 },
        ⟨none, some .persistProbe⟩)

def onWaitCloseTimerExpiry (c : TcpConnection C) : TcpConnection C × Option TcpSegment :=
  let quiet := c.resetAllTimers
  match c.state with
  | .closeWait =>
    if c.finPending then
      let c := { quiet with
        sndNxt := c.sndUna
        state := .lastAck
        finPending := false
        finSent := true }
      let segment := c.controlSegment .FIN_ACK none
      ({ c with sndNxt := advance c.sndNxt 1, timers := c.timers.set .waitClose }, some segment)
    else ({ quiet with state := .closed }, none)
  | .finWait1 =>
    let closed := { quiet with state := .closed }
    (closed, if c.finPending then some (closed.controlSegment .RST_ACK none) else none)
  | .finWait2 =>
    let closed := { quiet with state := .closed }
    (closed, some (closed.controlSegment .RST_ACK none))
  | .closing => ({ quiet with state := .closed }, none)
  | .lastAck => ({ quiet with state := .closed }, none)
  | .timeWait => ({ quiet with state := .closed }, none)
  | _ => (c, none)

def onKeepaliveTimerExpiry (c : TcpConnection C) : TcpConnection C × TcpTimerOutcome :=
  if c.state ≠ .established then (c, .none)
  else if c.probesSent ≥ c.probeLimit then ({ c with state := .closed }, .none)
  else
    ({ c with probesSent := Min.min (c.probesSent + 1) 255 },
      ⟨some ⟨c.sndNxt - 1, c.rcvNxt, c.outputReceiveWindow .ACK, .ACK, 0⟩, some .keepaliveProbe⟩)

/-- What `on_typed_timer_expiry` does before it arms timers again. -/
def timerExpiryAction [CongestionSender C] (c : TcpConnection C) (kind : TcpTimerKind)
    (now : Instant) :
    TcpConnection C × TcpTimerOutcome :=
  match kind with
  | .retransmit => c.onRetransmitTimerExpiry now
  | .rack => c.onRackTimerExpiry now
  | .tlp => c.onTlpTimerExpiry
  | .delayedAck => (c, ⟨c.onDelayedAckTimerExpiry, none⟩)
  | .persist => c.onPersistTimerExpiry
  | .keepAlive => c.onKeepaliveTimerExpiry
  | .waitClose => let (c, segment) := c.onWaitCloseTimerExpiry; (c, ⟨segment, none⟩)
  | .pacing => (c, .none)

def retransmits : TcpState → Bool
  | .synSent | .established | .closeWait | .finWait1 | .closing | .lastAck => true
  | _ => false

def rearmAfterExpiry [CongestionSender C] (c : TcpConnection C) (kind : TcpTimerKind)
    (now : Instant) :
    TcpConnection C :=
  match kind with
  | .retransmit =>
    let timers := ((c.timers.reset .rack).reset .tlp).reset .pacing
    { c with timers := timers.updateOrReset .retransmit (retransmits c.state) }
  | .rack =>
    { c with timers := c.timers.updateOrReset .rack (rackTimeout c.recovery now).isSome }
  | .tlp => { c with recovery := disarmTlp c.recovery, timers := c.timers.reset .tlp }
  | .persist =>
    if c.state = .established && c.sndWnd == 0 then
      { c with timers := c.timers.update .persist }
    else c
  | .keepAlive =>
    { c with timers := c.timers.updateOrReset .keepAlive (c.state = .established) }
  | .pacing =>
    if c.pacingInterval.isSome then { c with timers := c.timers.update .pacing } else c
  | .delayedAck => c
  | .waitClose => c

def onTypedTimerExpiry [CongestionSender C] (c : TcpConnection C) (kind : TcpTimerKind)
    (now : Instant) :
    TcpConnection C × TcpTimerOutcome :=
  if !c.timerDispatchPending kind then (c, .none)
  else
    let (c, outcome) := c.timerExpiryAction kind now
    (c.rearmAfterExpiry kind now, outcome)

end TcpConnection

end Tcp
