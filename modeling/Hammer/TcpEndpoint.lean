import Hammer.StreamFifo
import Hammer.TcpConnection

/-! # A connection and its session

`transport/tcp/src/worker.rs`, `syn_sent.rs`, `established.rs` and `rcv_process.rs` with the parts
of `session/core.rs` that they call. The endpoint is one connection with the state, the flags and
the FIFOs of its session; the RX FIFO may be refused storage at any write.
-/

namespace Tcp

open TcpSeq Recovery

inductive SessionState where
  | created
  | listening
  | connecting
  | accepting
  | ready
  | opened
  | transportClosing
  | closing
  | appClosed
  | transportClosed
  | closed
  | transportDeleted
  deriving DecidableEq, Repr

structure TcpEndpoint (C : Type) where
  connection : TcpConnection C
  sessionState : SessionState
  customTx : Bool
  descheduled : Bool
  /-- A cleanup of the connection is scheduled. -/
  cleanup : Bool
  rx : StreamFifo UInt8
  /-- The TX FIFO from its head. -/
  tx : List UInt8

namespace TcpEndpoint

variable {C : Type}

def ofConnection (e : TcpEndpoint C) (c : TcpConnection C) : TcpEndpoint C :=
  { e with connection := c }

/-- The states from which a closing or reset notification does nothing. -/
def closeNotified : SessionState → Bool
  | .transportClosing | .closing | .appClosed | .transportClosed | .closed | .transportDeleted =>
    true
  | _ => false

def transportClosing (e : TcpEndpoint C) : TcpEndpoint C :=
  if closeNotified e.sessionState then e else { e with sessionState := .transportClosing }

def transportReset (e : TcpEndpoint C) : TcpEndpoint C :=
  if closeNotified e.sessionState then e else { e with sessionState := .transportClosing }

def transportClosed (e : TcpEndpoint C) : TcpEndpoint C :=
  match e.sessionState with
  | .transportClosed | .closed | .transportDeleted => e
  | .appClosed => { e with sessionState := .closed }
  | _ => { e with sessionState := .transportClosed }

def programCleanup (e : TcpEndpoint C) : TcpEndpoint C := { e with cleanup := true }

def programAck (e : TcpEndpoint C) (duplicate : Bool) : TcpEndpoint C :=
  let e :=
    if e.connection.sendAckPending then e
    else
      { e with
        customTx := true
        descheduled := false
        connection := { e.connection with sendAckPending := true } }
  if duplicate then
    { e with connection :=
      { e.connection with pendingDupacks := satAdd 255 e.connection.pendingDupacks 1 } }
  else e

def programRetransmit (e : TcpEndpoint C) : TcpEndpoint C :=
  if e.connection.retransmitPending then e
  else
    { e with
      customTx := true
      descheduled := false
      connection := { e.connection with retransmitPending := true } }

def programDequeue (e : TcpEndpoint C) (bytesAcked : ℕ) : TcpEndpoint C :=
  if bytesAcked = 0 then e else e.ofConnection (e.connection.recordAckedBytes bytesAcked)

/-- The end of every input frame: the acknowledged bytes leave the TX FIFO, and a FIN that waited
for them goes out. -/
def handlePostponedDequeues (e : TcpEndpoint C) : TcpEndpoint C × Option TcpSegment :=
  if !e.connection.deqPending then (e, none)
  else
    let (c, bytesAcked) := e.connection.takeBurstAcked
    if bytesAcked = 0 then (e.ofConnection c, none)
    else
      let e :=
        { e with
          connection := c.retransmitTimerAfterAck
          descheduled := false
          tx := e.tx.drop bytesAcked }
      if e.connection.finPending && e.tx.isEmpty then
        let (c, segment) := e.connection.sendPendingFin
        (e.ofConnection c, segment)
      else (e, none)

/-- A received packet. The payload in the first buffer is what `tcp_packet` counts; the parts in
the chained buffers follow it. -/
structure Arrival where
  packet : TcpPacket
  first : List UInt8
  rest : List (List UInt8)
  counted : packet.payloadLen = first.length
  bounded : first.length + rest.flatten.length ≤ 65535

def Arrival.length (a : Arrival) : ℕ := a.first.length + a.rest.flatten.length

/-- Drop `skip` bytes of the chain and keep the next `keep`. -/
def exposeLoop (skip keep : ℕ) : List (List UInt8) → List (List UInt8)
  | [] => []
  | buffer :: rest =>
    let current := buffer.drop (Min.min skip buffer.length)
    let kept := Min.min keep current.length
    current.take kept :: exposeLoop (skip - Min.min skip buffer.length) (keep - kept) rest

def exposePayload (a : Arrival) (trim : ℕ) : List (List UInt8) :=
  exposeLoop trim (a.packet.payloadLen - trim) (a.first :: a.rest)

/-- `enqueue_rx` at the tail: the bytes taken and those passed over. `backed` says what storage
each write finds. -/
def enqueueRxInOrder (backed : ℕ → ℕ) (rx : StreamFifo UInt8) (skipPromoted : ℕ) :
    List (List UInt8) → StreamFifo UInt8 × ℕ × ℕ
  | [] => (rx, 0, 0)
  | buffer :: rest =>
    let skip := Min.min skipPromoted buffer.length
    let bytes := buffer.drop skip
    if bytes = [] then
      enqueueRxInOrder (fun k => backed (k + 1)) rx (skipPromoted - skip) rest
    else
      let (rx, accepted, delivered) := rx.enqueueInOrder (backed 0) bytes
      if accepted ≠ bytes.length then (rx, accepted, delivered)
      else
        let (rx, more, promoted) := enqueueRxInOrder (fun k => backed (k + 1)) rx
          (skipPromoted - skip + delivered) rest
        (rx, accepted + more, delivered + promoted)

/-- `enqueue_rx` beyond the tail: the bytes taken and the last run reported. -/
def enqueueRxOutOfOrder (backed : ℕ → ℕ) (rx : StreamFifo UInt8) (offset : ℕ)
    (newest : Option (ℕ × ℕ)) : List (List UInt8) → StreamFifo UInt8 × ℕ × Option (ℕ × ℕ)
  | [] => (rx, 0, newest)
  | buffer :: rest =>
    match rx.enqueueOoo (backed 0) offset buffer with
    | .error _ => (rx, 0, newest)
    | .ok (rx, result) =>
      let (rx, more, newest) := enqueueRxOutOfOrder (fun k => backed (k + 1)) rx
        (offset + buffer.length) (result.newest.filter (·.2 ≠ 0)) rest
      (rx, result.accepted + more, newest)

def enqueueRx (backed : ℕ → ℕ) (rx : StreamFifo UInt8) (chain : List (List UInt8))
    (offset : ℕ) : StreamFifo UInt8 × TcpConnection.RxDelivery :=
  if offset = 0 then
    let (rx, accepted, promoted) := enqueueRxInOrder backed rx 0 chain
    (rx, if accepted = 0 then .notAccepted else .inOrder accepted promoted)
  else
    let (rx, accepted, newest) := enqueueRxOutOfOrder backed rx offset none chain
    (rx, if accepted = 0 then .notAccepted else .outOfOrder accepted newest)

/-- The payload of the packet, past `trim` bytes, goes to the RX FIFO. -/
def deliverPayload (e : TcpEndpoint C) (a : Arrival) (backed : ℕ → ℕ) (trim offset : ℕ) :
    TcpEndpoint C :=
  let (rx, delivery) := enqueueRx backed e.rx (exposePayload a trim) offset
  { e with rx := rx, connection := e.connection.receivePayload delivery }

def retransmitDue (c : TcpConnection C) : Bool :=
  c.recovery.recoveryActive &&
    ((retransmitCandidate c.recovery).isSome ||
      (!c.negotiatedOptions.sack &&
        (oldestUnacked c.recovery).any fun sample => !sample.retransmitted))

/-- The payload step of `tcp_established_index`; the flags say whether an ACK is due and whether
it is a duplicate. -/
def establishedPayload (e : TcpEndpoint C) (a : Arrival) (backed : ℕ → ℕ)
    (accept : Option (ℕ × ℕ)) : TcpEndpoint C × Bool × Bool :=
  match accept with
  | some (trim, offset) =>
    let e := e.deliverPayload a backed trim offset
    (e.ofConnection (e.connection.setRcvWnd e.rx.maxEnqueue), true, offset != 0)
  | none => (e, a.packet.payloadLen != 0, a.packet.payloadLen != 0)

def consumeFin (e : TcpEndpoint C) (a : Arrival) : TcpEndpoint C × Bool :=
  let (c, control) := e.connection.processFinAfterPayload a.packet
  (e.ofConnection c, control.isSome)

section

variable [CongestionSender C]

def tcpEstablishedIndex (e : TcpEndpoint C) (a : Arrival) (backed : ℕ → ℕ) (now : Instant) :
    Except TcpConnection.TcpConnectionError (TcpEndpoint C × Option TcpSegment) :=
  match e.connection.receiveEstablishedWithTimers a.packet now with
  | .error error => .error error
  | .ok (c, control) =>
    let accept := c.acceptPayload a.packet
    let (c, ackedTxLen) := c.takeAckedTxLen e.connection.sndUna
    let e := (e.ofConnection c).programDequeue ackedTxLen
    if a.packet.flags.rst && e.connection.state = .closed then
      .ok (e.transportReset.transportClosed.programCleanup, none)
    else
      let e := if retransmitDue e.connection then e.programRetransmit else e
      let (e, immediateAck, duplicateAck) := e.establishedPayload a backed accept
      let (e, fin) := e.consumeFin a
      let e := if fin then (e.programAck false).transportClosing else e
      let e := if immediateAck then e.programAck duplicateAck else e
      .ok (e, control)

def takesPayload : TcpState → Bool
  | .established | .finWait1 | .finWait2 => true
  | _ => false

/-- What `tcp_rcv_process_index` tells the session about a change of state. -/
def notifyClose (e : TcpEndpoint C) (a : Arrival) (prior : TcpState) : TcpEndpoint C :=
  let state := e.connection.state
  if prior ≠ state ∧ state = .closed then
    ((if a.packet.flags.rst then e.transportReset else e).transportClosed).programCleanup
  else if prior = .closing ∧ state = .timeWait then e.transportClosed
  else e

/-- The payload step of `tcp_rcv_process_index`. -/
def closeSidePayload (e : TcpEndpoint C) (a : Arrival) (backed : ℕ → ℕ) : TcpEndpoint C :=
  match e.connection.acceptPayload a.packet with
  | some (trim, offset) => (e.deliverPayload a backed trim offset).programAck (offset != 0)
  | none => e.programAck true

def tcpRcvProcessIndex (e : TcpEndpoint C) (a : Arrival) (backed : ℕ → ℕ) (now : Instant) :
    Except TcpConnection.TcpConnectionError (TcpEndpoint C × Option TcpSegment) :=
  match e.connection.receiveCloseSide a.packet now with
  | .error error => .error error
  | .ok (c, control) =>
    let prior := e.connection.state
    let receives := a.packet.payloadLen != 0 && takesPayload c.state
    let (c, ackedTxLen) := c.takeAckedTxLen e.connection.sndUna
    let e := ((e.ofConnection c).programDequeue ackedTxLen).notifyClose a prior
    let e := if receives then e.closeSidePayload a backed else e
    let (e, fin) := e.consumeFin a
    let e := if fin then e.programAck false else e
    let e := if fin && e.connection.state = .timeWait then e.transportClosed else e
    .ok (e, control)

/-- The payload of a SYN-ACK starts one number after the SYN. -/
def synAckPayload (e : TcpEndpoint C) (a : Arrival) (backed : ℕ → ℕ) : TcpEndpoint C :=
  match e.connection.acceptPayloadFrom (advance a.packet.sequence 1) a.packet.payloadLen with
  | some (trim, offset) => e.deliverPayload a backed trim offset
  | none => e

/-- The flag says that the packet is dropped; otherwise its buffer is let go of. -/
def tcpSynSentIndex (e : TcpEndpoint C) (a : Arrival) (localCapabilities : TcpCapabilities)
    (backed : ℕ → ℕ) (now : Instant) :
    Except TcpConnection.TcpConnectionError (TcpEndpoint C × Option TcpSegment × Bool) :=
  match e.connection.receiveOpenReply a.packet localCapabilities now with
  | .error error => .error error
  | .ok (c, control) =>
    let established := e.connection.state = .synSent && c.state = .established
    let (c, ackedTxLen) := c.takeAckedTxLen e.connection.sndUna
    let e := (e.ofConnection c).programDequeue ackedTxLen
    let withPayload := established && a.packet.payloadLen != 0
    let e := if withPayload then e.synAckPayload a backed else e
    let control := if withPayload then some (e.connection.controlSegment .ACK none) else control
    let e := if established then { e with sessionState := .ready } else e
    .ok (e, control, !withPayload)

def tcpSynSentFrame (e : TcpEndpoint C) (a : Arrival) (localCapabilities : TcpCapabilities)
    (backed : ℕ → ℕ) (now : Instant) : TcpEndpoint C :=
  match e.tcpSynSentIndex a localCapabilities backed now with
  | .error _ => e.handlePostponedDequeues.1
  | .ok (e, _, _) => e.handlePostponedDequeues.1

inductive InputNode where
  | established
  | rcvProcess
  deriving DecidableEq

def InputNode.index (node : InputNode) (e : TcpEndpoint C) (a : Arrival) (backed : ℕ → ℕ)
    (now : Instant) :
    Except TcpConnection.TcpConnectionError (TcpEndpoint C × Option TcpSegment) :=
  match node with
  | .established => e.tcpEstablishedIndex a backed now
  | .rcvProcess => e.tcpRcvProcessIndex a backed now

/-- A frame of one packet: a packet that fails is dropped, then the postponed dequeues run. -/
def InputNode.frame (node : InputNode) (e : TcpEndpoint C) (a : Arrival) (backed : ℕ → ℕ)
    (now : Instant) : TcpEndpoint C :=
  match node.index e a backed now with
  | .error _ => e.handlePostponedDequeues.1
  | .ok (e, _) => e.handlePostponedDequeues.1

end

end TcpEndpoint

end Tcp
