import Hammer.TcpEndpoint

/-! # Output of an endpoint

The output part of `transport/tcp/src/worker.rs`, the transport entries of `lib.rs`, and the peek
path of `session/core.rs`. An `expect` or `assert` that fails is an error with the name of its
function. A request for the buffers of one segment, or of one burst, is granted or refused as a
whole.
-/

namespace Tcp

open TcpSeq Recovery

/-- A segment handed to TCP output, with its payload. -/
structure Emitted where
  segment : TcpSegment
  payload : List UInt8
  deriving DecidableEq

inductive TxPanic where
  | prepareSegment
  | transmitUnsent
  | retransmit
  | commitRetransmit
  | sendAcks
  | customTx
  | sendParams
  | pushHeader
  deriving DecidableEq, Repr

/-- An endpoint while it sends: what went out, and the answers to the next requests for buffers. -/
structure TxRun (C : Type) where
  endpoint : TcpEndpoint C
  output : List Emitted
  grants : ℕ → Bool

namespace TxRun

variable {C : Type}

abbrev connection (t : TxRun C) : TcpConnection C := t.endpoint.connection

def ofConnection (t : TxRun C) (c : TcpConnection C) : TxRun C :=
  { t with endpoint := t.endpoint.ofConnection c }

def alloc (t : TxRun C) : TxRun C × Bool :=
  ({ t with grants := fun k => t.grants (k + 1) }, t.grants 0)

def emit (t : TxRun C) (segment : TcpSegment) (payload : List UInt8) : TxRun C :=
  { t with output := t.output ++ [⟨segment, payload⟩] }

def programAck (t : TxRun C) (duplicate : Bool) : TxRun C :=
  { t with endpoint := t.endpoint.programAck duplicate }

def programRetransmit (t : TxRun C) : TxRun C :=
  { t with endpoint := t.endpoint.programRetransmit }

def sendAck (t : TxRun C) : TxRun C :=
  let c := t.connection.setRcvWnd t.endpoint.rx.maxEnqueue
  let (t, granted) := (t.ofConnection c).alloc
  if granted then t.emit (c.controlSegment .ACK none) [] else t

def setPendingDupacks (t : TxRun C) (count : ℕ) : TxRun C :=
  t.ofConnection { t.connection with pendingDupacks := count }

/-- The acknowledgments that carry the SACK blocks, `attempts` of them if the burst has room. -/
def ackAttempts (blocks pending : ℕ) : ℕ :=
  Max.max (Min.min (blocks / 3) pending) (Min.min pending 3)

def sendAcks (t : TxRun C) (maxBurst : ℕ) : Except TxPanic (TxRun C × ℕ) :=
  if maxBurst = 0 then .ok (t, 0)
  else
    let c := t.connection
    let pending := c.pendingDupacks
    if pending = 0 then
      let unsent := t.endpoint.tx.length - distanceTo c.sndUna c.sndNxt
      if c.recovery.recoveryActive || unsent = 0 || c.state ≠ .established then .ok (t.sendAck, 1)
      else .ok (t, 0)
    else if c.sack.blocks.length = 0 then .ok (t.sendAck.setPendingDupacks 0, 1)
    else
      let attempts := ackAttempts c.sack.blocks.length pending
      let t := sendAck^[Min.min attempts maxBurst] t
      if attempts < maxBurst then .ok (t.setPendingDupacks 0, attempts)
      else if attempts - maxBurst > 255 then .error .sendAcks
      else .ok ((t.setPendingDupacks (attempts - maxBurst)).programAck true, maxBurst)

/-- The bytes that one segment takes from `offset` on. -/
def requestedLen (t : TxRun C) (offset maxBytes : ℕ) : ℕ :=
  Min.min (Min.min (t.endpoint.tx.length - offset) maxBytes) t.connection.sendMss

def intend (t : TxRun C) (offset : ℕ) : TcpConnection C :=
  { t.connection with txIntentSequence := some (advance t.connection.sndUna offset) }

section

variable [CongestionSender C]

/-- One segment with the bytes at `offset` from `sndUna`; the bytes sent. -/
def prepareSegment (t : TxRun C) (now : Instant) (offset maxBytes : ℕ) (retransmit : Bool) :
    Except TxPanic (TxRun C × ℕ) :=
  let available := t.endpoint.tx.length - offset
  let requested := t.requestedLen offset maxBytes
  let c := if retransmit then t.intend offset else t.connection
  if requested = 0 then .ok (t, 0)
  else
    let (t, granted) := t.alloc
    if !granted then .ok (t, 0)
    else if !retransmit && available > U32_MAX then .error .prepareSegment
    else
      match c.txSegment requested with
      | .error _ => .error .prepareSegment
      | .ok segment =>
        match c.commitPayloadTx requested now (!retransmit && c.appLimitedForSend available) with
        | .error _ => .error .prepareSegment
        | .ok c =>
          .ok ((t.ofConnection c).emit segment ((t.endpoint.tx.drop offset).take requested),
            requested)

def unsentLoop (now : Instant) (sendMss : ℕ) :
    ℕ → ℕ → TxRun C → Except TxPanic (TxRun C × ℕ)
  | 0, _, t => .ok (t, 0)
  | n + 1, fifoOffset, t =>
    match t.prepareSegment now fifoOffset sendMss false with
    | .error panic => .error panic
    | .ok (t, written) =>
      if written = 0 then .ok (t, 0)
      else if fifoOffset + written > U32_MAX then .error .transmitUnsent
      else
        match unsentLoop now sendMss n (fifoOffset + written) t with
        | .error panic => .error panic
        | .ok (t, sent) => .ok (t, sent + 1)

def transmitUnsent (t : TxRun C) (now : Instant) (burstSize availableBytes : ℕ) :
    Except TxPanic (TxRun C × ℕ) :=
  let c := t.connection
  let offset := distanceTo c.sndUna c.sndNxt
  if offset + availableBytes > U32_MAX || c.sendMss = 0 then .error .transmitUnsent
  else
    unsentLoop now c.sendMss (Min.min burstSize ((c.sndWnd - offset) / c.sendMss)) offset t

end

/-- What one call of `retransmit` holds fixed. -/
structure Plan where
  now : Instant
  sendMss : ℕ
  sack : Bool
  noSackFirst : Bool
  noSackEnd : TcpSeq

def Plan.of (c : TcpConnection C) (now : Instant) : Plan where
  now := now
  sendMss := c.sendMss
  sack := c.negotiatedOptions.sack
  noSackFirst := c.recovery.noSackFirstPending
  noSackEnd := c.recovery.recoveryEndSequence

/-- What the pacer of a connection with paced output answers in an event: to the retransmissions,
and to the burst of new data after them. -/
structure Pacing where
  resend : ℕ
  burst : ℕ

def burstBytes (c : TcpConnection C) (pacing : Option Pacing) (burstSize : ℕ) : ℕ :=
  match pacing with
  | some pacing => pacing.resend
  | none => satMul U32_MAX burstSize c.sendMss

def resendSpace (c : TcpConnection C) (pacing : Option Pacing) (burstSize : ℕ) : ℕ :=
  Min.min ((recoverySendSpace c.recovery c.recovery.flight.bytesInFlight c.sendMss).getD c.sendMss)
    (burstBytes c pacing burstSize)

def Plan.pickOwn (p : Plan) (c : TcpConnection C) (noSackSequence : TcpSeq) :
    Option (TcpSentSample × TcpSeq) :=
  if p.sack then (retransmitCandidate c.recovery).map fun sample => (sample, sample.sequence)
  else if p.noSackFirst && lt noSackSequence p.noSackEnd then
    (sampleCovering c.recovery noSackSequence).map fun sample => (sample, noSackSequence)
  else none

/-- The sample of the next retransmission and where in it to start. An intent that no sample
covers is cleared first. -/
def Plan.pick (p : Plan) (c : TcpConnection C) (noSackSequence : TcpSeq) :
    TcpConnection C × Option (TcpSentSample × TcpSeq) :=
  match c.txIntentSequence with
  | none => (c, p.pickOwn c noSackSequence)
  | some sequence =>
    match sampleCovering c.recovery sequence with
    | some sample => (c, some (sample, sequence))
    | none => (c.clearTxIntent, p.pickOwn c.clearTxIntent noSackSequence)

/-- The bytes from `sequence` on that one retransmission may take. -/
def Plan.remaining (p : Plan) (sample : TcpSentSample) (sequence : TcpSeq) : ℕ :=
  Min.min (distanceTo sequence sample.endSequence)
    (if p.sack then U32_MAX else distanceTo sequence p.noSackEnd)

structure Resend (C : Type) where
  run : TxRun C
  sendSpace : ℕ
  noSackSequence : TcpSeq
  sent : ℕ
  bufferExhausted : Bool

/-- The recovery state after a retransmission that ends before `next`. -/
def Plan.resent (p : Plan) (recovery : TcpRecoveryState) (next : TcpSeq) (written : ℕ) :
    TcpRecoveryState :=
  let recovery := onRetransmitSent recovery written
  if p.sack then advanceHighRxt recovery next else recovery

/-- The account of a retransmission that went out; the flag says whether the loop goes on. -/
def Plan.account (p : Plan) (s : Resend C) (sample : TcpSentSample) (sequence : TcpSeq)
    (written : ℕ) : Except TxPanic (Resend C × Bool) :=
  let next := advance sequence written
  let s := { s with
    sent := s.sent + 1
    sendSpace := s.sendSpace - written
    noSackSequence := if p.sack then s.noSackSequence else next }
  let c := s.run.connection
  let recovery := p.resent c.recovery next written
  let complete := next == sample.endSequence
  let pastEnd := ge s.noSackSequence p.noSackEnd
  if complete || (!p.sack && pastEnd) then
    let committed := if complete then commitRetransmit recovery sample.sequence p.now
      else some recovery
    match committed with
    | none => .error .commitRetransmit
    | some recovery =>
      .ok ({ s with run := s.run.ofConnection ({ c with recovery := recovery }).clearTxIntent },
        true)
  else
    let c := { c with
      recovery := recovery
      txIntentSequence := some next
      txIntentPayloadLen := p.remaining sample sequence - written }
    let s := { s with run := s.run.ofConnection c }
    if p.sack || !p.noSackFirst || pastEnd then
      .ok ({ s with run := s.run.programRetransmit }, false)
    else .ok (s, true)

section

variable [CongestionSender C]

/-- A round of the loop of `retransmit`. One that only clears an intent without a sample is part of
the round after it. -/
def Plan.round (p : Plan) (s : Resend C) : Except TxPanic (Resend C × Bool) :=
  if s.sendSpace = 0 || (p.sack && s.sendSpace < p.sendMss) then .ok (s, false)
  else
    let (c, picked) := p.pick s.run.connection s.noSackSequence
    let s := { s with run := s.run.ofConnection c }
    match picked with
    | none => .ok (s, false)
    | some (sample, sequence) =>
      let requested := Min.min (Min.min (p.remaining sample sequence) p.sendMss) s.sendSpace
      if requested = 0 then .ok (s, false)
      else
        match s.run.prepareSegment p.now (distanceTo c.sndUna sequence) requested true with
        | .error panic => .error panic
        | .ok (run, written) =>
          if written = 0 then
            .ok ({ s with run := run.programRetransmit, bufferExhausted := true }, false)
          else p.account { s with run := run } sample sequence written

/-- The loop of `retransmit`, with the number of segments it may still send. -/
def retransmitLoop (p : Plan) : ℕ → Resend C → Except TxPanic (Resend C)
  | 0, s => .ok s
  | n + 1, s =>
    match p.round s with
    | .error panic => .error panic
    | .ok (s, true) => retransmitLoop p n s
    | .ok (s, false) => .ok s

/-- New bytes after the retransmissions; the segments sent and whether bytes are left. -/
def sendRecoveryData (p : Plan) (s : Resend C) (maxSegments available outstanding : ℕ) :
    Except TxPanic (TxRun C × ℕ × Bool) :=
  if s.bufferExhausted || s.sent ≥ maxSegments || s.sendSpace < p.sendMss || available = 0 then
    .ok (s.run, 0, false)
  else if available > U32_MAX then .error .retransmit
  else
    let c := s.run.connection
    let peerSpace := c.sndWnd - outstanding
    let permitted :=
      if p.sack then
        Min.min (Min.min s.sendSpace (peerSpace - p.sendMss)) (Max.max available p.sendMss)
      else Min.min (Min.min s.sendSpace peerSpace) available
    let burst := Min.min (maxSegments - s.sent) (permitted / p.sendMss)
    let burst := if p.sack then Min.min burst 10 else burst
    match s.run.transmitUnsent p.now burst available with
    | .error panic => .error panic
    | .ok (run, more) =>
      .ok (run, more, more ≠ 0 && available > distanceTo c.sndNxt run.connection.sndNxt)

/-- Retransmissions and, as far as they leave room, new bytes; the segments sent. -/
def retransmit (t : TxRun C) (now : Instant) (pacing : Option Pacing) (burstSize : ℕ) :
    Except TxPanic (TxRun C × ℕ) :=
  let c := t.connection
  let p := Plan.of c now
  let maxSegments := Min.min burstSize (burstBytes c pacing burstSize / c.sendMss)
  let outstanding := distanceTo c.sndUna c.sndNxt
  let available := t.endpoint.tx.length - outstanding
  if c.sendMss = 0 then .error .retransmit
  else if maxSegments = 0 then .ok (t.programRetransmit, 0)
  else
    match retransmitLoop p maxSegments
      ⟨t, resendSpace c pacing burstSize, c.txIntentSequence.getD c.sndUna, 0, false⟩ with
    | .error panic => .error panic
    | .ok s =>
      match sendRecoveryData p s maxSegments available outstanding with
      | .error panic => .error panic
      | .ok (t, more, newDataRemaining) =>
        let c := t.connection
        let hasMore := c.txIntentSequence.isSome || newDataRemaining ||
          (p.sack && (retransmitCandidate c.recovery).isSome)
        let t := if hasMore then t.programRetransmit else t
        let t :=
          if s.sent + more ≠ 0 then
            t.ofConnection { t.connection with
              recovery := onRecoveryBurstSent t.connection.recovery }
          else t
        .ok (t, s.sent + more)

/-- Retransmissions and acknowledgments that were asked for; the segments counted. -/
def customTx (t : TxRun C) (now : Instant) (pacing : Option Pacing) (maxBurst : ℕ) :
    Except TxPanic (TxRun C × ℕ) :=
  let c := t.connection
  let sent :=
    if c.recovery.recoveryActive && c.retransmitPending then
      (t.ofConnection { c with retransmitPending := false }).retransmit now pacing maxBurst
    else .ok (t, 0)
  match sent with
  | .error panic => .error panic
  | .ok (t, packets) =>
    let c := t.connection
    let sendAck := c.sendAckPending && (packets = 0 || c.pendingDupacks ≠ 0)
    let t := t.ofConnection { c with sendAckPending := false }
    if !sendAck then .ok (t, packets)
    else if packets ≥ maxBurst then .ok (t.programAck false, packets)
    else
      match t.sendAcks (maxBurst - packets) with
      | .error panic => .error panic
      | .ok (t, acks) => .ok (t, packets + acks)

end

end TxRun

namespace TcpEndpoint

variable {C : Type}

def SESSION_QUEUE_IO_BUDGET : ℕ := 128

/-- A TX event: the segments that the dispatch has sent before it, the two clocks, the path MTU
in the cache, the length of the TCP options of the burst, and the pacer if output is paced. -/
structure TxEvent where
  packets : ℕ
  lastTimerUpdate : Instant
  now : Instant
  pathMtu : Option ℕ
  optionsLen : ℕ
  pacing : Option TxRun.Pacing
  grants : ℕ → Bool

structure SendParams where
  sendSpace : ℕ
  txOffset : ℕ
  sendMss : ℕ
  /-- The header of the burst, if the connection may send. -/
  cachedSegment : Option TcpSegment

/-- The bytes of a burst: full segments only, if the FIFO ends it. -/
def SendParams.maxLen (params : SendParams) (available : ℕ) : ℕ :=
  if available < params.sendSpace then
    if available > params.sendMss then available - available % params.sendMss else available
  else params.sendSpace

/-- A paced burst is cut to full segments. -/
def SendParams.paced (params : SendParams) (burst : ℕ) : SendParams :=
  let paced := Min.min params.sendSpace burst
  { params with
    sendSpace := if paced ≥ params.sendMss then paced - paced % params.sendMss else paced }

/-- The burst that the pacer allows; it holds back one of less than 1460 bytes. -/
def SendParams.pace (params : SendParams) : Option TxRun.Pacing → Option SendParams
  | none => some params
  | some pacing => if pacing.burst < 1460 then none else some (params.paced pacing.burst)

def SendParams.segments (params : SendParams) (maxLen burst : ℕ) : ℕ :=
  Min.min ((maxLen + params.sendMss - 1) / params.sendMss) burst

def sendable (c : TcpConnection C) : Bool := c.state = .synSent || c.dataCapable

section

variable [CongestionSender C]

/-- `refresh_path_mtu_from_cache` with what the cache holds for the peer. -/
def refreshPathMtu (c : TcpConnection C) (pathMtu : Option ℕ) : TcpConnection C :=
  match pathMtu with
  | some pathMtu => c.applyPathMtu pathMtu
  | none => c

def refreshed (e : TcpEndpoint C) (x : TxEvent) : TcpConnection C :=
  (refreshPathMtu e.connection x.pathMtu).setRcvWnd e.rx.maxEnqueue

/-- `update_burst_send_vars`: the segments of the burst leave room for their options. -/
def sized (e : TcpEndpoint C) (x : TxEvent) : TcpConnection C :=
  { e.refreshed x with sendMss := (e.refreshed x).outputPayloadLen - x.optionsLen }

def sendParams (e : TcpEndpoint C) (x : TxEvent) :
    Except TxPanic (TcpEndpoint C × SendParams) :=
  let c := e.refreshed x
  let flight := distanceTo c.sndUna c.sndNxt
  if !sendable c then
    if c.sendMss > 65535 then .error .sendParams
    else .ok (e.ofConnection c, ⟨0, flight, c.sendMss, none⟩)
  else
    match c.txSegment 0 with
    | .error _ => .error .sendParams
    | .ok segment =>
      if c.outputPayloadLen ≤ x.optionsLen then .error .sendParams
      else
        let c := e.sized x
        .ok (e.ofConnection c.sendSpace.1,
          ⟨Min.min c.sendSpace.2 (c.sndWnd - flight), flight, c.sendMss, some segment⟩)

/-- Each payload of the burst gets the header at `sndNxt`. -/
def pushLoop (segment : TcpSegment) (now : Instant) (appLimited : Bool) :
    List (List UInt8) → TxRun C → Except TxPanic (TxRun C)
  | [], t => .ok t
  | payload :: rest, t =>
    match t.connection.commitPayloadTx payload.length now appLimited with
    | .error _ => .error .pushHeader
    | .ok c =>
      pushLoop segment now appLimited rest ((t.ofConnection c).emit
        { segment with sequence := t.connection.sndNxt, payloadLen := payload.length } payload)

def pushHeader (t : TxRun C) (segment : TcpSegment) (now : Instant) (payloads : List (List UInt8))
    (availableBytes : ℕ) : Except TxPanic (TxRun C) :=
  let c := t.connection
  if distanceTo c.sndUna c.sndNxt + availableBytes > U32_MAX then .error .pushHeader
  else
    match pushLoop segment now (c.appLimitedForSend availableBytes) payloads t with
    | .error panic => .error panic
    | .ok t =>
      if payloads = [] then .ok t else .ok (t.ofConnection (t.connection.syncPayloadTxTimers now))

def pushBurst (t : TxRun C) (segment : TcpSegment) (now : Instant) (payloads : List (List UInt8))
    (availableBytes : ℕ) : Except TxPanic (TxRun C) :=
  if t.alloc.2 then pushHeader t.alloc.1 segment now payloads availableBytes else .ok t.alloc.1

def burstPayloads (mss : ℕ) : ℕ → List UInt8 → List (List UInt8)
  | 0, _ => []
  | 1, bytes => [bytes]
  | n + 2, bytes => bytes.take mss :: burstPayloads mss (n + 1) (bytes.drop mss)

/-- The part of a TX event that follows custom TX. -/
def sendBurst (t : TxRun C) (x : TxEvent) (packets : ℕ) : Except TxPanic (TxRun C) :=
  match ({ t.endpoint with descheduled := false }).sendParams x with
  | .error panic => .error panic
  | .ok (e, params) =>
    match params.cachedSegment with
    | none => .ok { t with endpoint := { e with descheduled := true } }
    | some segment =>
      if params.sendSpace = 0 then .ok { t with endpoint := { e with descheduled := true } }
      else
        match params.pace x.pacing with
        | none => .ok { t with endpoint := e }
        | some params =>
          let available := e.tx.length - params.txOffset
          let maxLen := params.maxLen available
          let segments := params.segments maxLen (SESSION_QUEUE_IO_BUDGET - packets)
          let sendLen := Min.min maxLen (segments * params.sendMss)
          if sendLen = 0 then
            .ok { t with endpoint := { e with descheduled := e.tx.length ≤ params.txOffset } }
          else
            pushBurst { t with endpoint := e } segment x.now
              (burstPayloads params.sendMss segments ((e.tx.drop params.txOffset).take sendLen))
              available

def notReady (e : TcpEndpoint C) : Bool :=
  match e.sessionState with
  | .created | .listening | .connecting => true
  | .accepting => !e.customTx
  | .transportDeleted => true
  | .transportClosed | .closed => !e.customTx
  | _ => false

/-- The session states from `TransportClosed` on. -/
def transportGone : SessionState → Bool
  | .transportClosed | .closed | .transportDeleted => true
  | _ => false

/-- The peek path of `tx_fifo_read_and_send_i`. -/
def txFifoPeekAndSend (e : TcpEndpoint C) (x : TxEvent) :
    Except TxPanic (TcpEndpoint C × List Emitted) :=
  let maxBurst := SESSION_QUEUE_IO_BUDGET - x.packets
  let finish (r : Except TxPanic (TxRun C)) : Except TxPanic (TcpEndpoint C × List Emitted) :=
    r.map fun t => (t.endpoint, t.output)
  if e.notReady || maxBurst = 0 then .ok (e, [])
  else if !e.customTx then finish (sendBurst ⟨e, [], x.grants⟩ x x.packets)
  else
    match TxRun.customTx ⟨{ e with customTx := false }, [], x.grants⟩ x.lastTimerUpdate x.pacing
      maxBurst with
    | .error panic => .error panic
    | .ok (t, sent) =>
      if sent > maxBurst then .error .customTx
      else if transportGone t.endpoint.sessionState || sent = maxBurst || t.endpoint.customTx then
        finish (.ok t)
      else finish (sendBurst t x (x.packets + sent))

end

end TcpEndpoint

end Tcp
