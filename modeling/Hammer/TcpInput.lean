import Hammer.TcpEndpoint
import Hammer.TcpStateMachine

/-! # What an input node does to an endpoint

The fields of an endpoint that `tcp-established` and `tcp-rcv-process` are trusted with, and what
each step of the two nodes does to them.
-/

namespace Tcp

open TcpSeq Recovery TcpConnection List

/-- The part of an endpoint that the peer may move. -/
structure View where
  core : Core
  irs : TcpSeq
  sndWnd : ℕ
  deqPending : Bool
  rx : StreamFifo UInt8
  tx : List UInt8

/-- The states in which a FIN is still expected. -/
def Core.finNext (k : Core) : Option TcpState :=
  match k.state with
  | .established => some .closeWait
  | .finWait1 =>
    if k.finPending then some .finWait1
    else if k.finSent && k.sndUna == k.sndNxt then some .timeWait
    else some .closing
  | .finWait2 => some .timeWait
  | _ => none

/-- The FIN of a packet, if it stands at `rcvNxt`. -/
def Core.takeFin (k : Core) (p : TcpPacket) : Core :=
  if p.flags.fin = true ∧ advance p.sequence p.payloadLen = k.rcvNxt then
    match k.finNext with
    | some next => k.consumeFin next
    | none => k
  else k

namespace View

/-- An acknowledgment and the window that comes with it. -/
def ack (v : View) (acknowledgment : Option TcpSeq) (sndWnd : ℕ) : View :=
  { v with
    core := v.core.ack acknowledgment
    sndWnd := if acknowledgment.any v.core.acceptsAck then sndWnd else v.sndWnd }

/-- Whether an acknowledgment covers all that was sent. -/
def coversAll (v : View) (acknowledgment : Option TcpSeq) : Bool :=
  acknowledgment.any fun a => v.core.acceptsAck a && a == v.core.sndNxt

def closeNext (v : View) : TcpState :=
  TcpConnection.closeNext v.core.state v.core.finSent v.core.finReceived

/-- An acknowledgment in `tcp-rcv-process`. -/
def closeSide (v : View) (acknowledgment : Option TcpSeq) (sndWnd : ℕ) : View :=
  if v.coversAll acknowledgment then
    { v.ack acknowledgment sndWnd with
      core := { (v.ack acknowledgment sndWnd).core with state := v.closeNext } }
  else v.ack acknowledgment sndWnd

def close (v : View) : View := { v with core := { v.core with state := .closed } }

/-- Payload of a packet, past `trim` bytes, at a distance from the tail. -/
def deliver (v : View) (a : TcpEndpoint.Arrival) (backed : ℕ → ℕ) (trim offset : ℕ) : View :=
  let (rx, delivery) := TcpEndpoint.enqueueRx backed v.rx (TcpEndpoint.exposePayload a trim) offset
  match delivery with
  | .inOrder accepted promoted =>
    { v with
      rx := rx
      core := { v.core with
        rcvNxt := advance v.core.rcvNxt (satAdd U32_MAX accepted promoted) } }
  | _ => { v with rx := rx }

def accept (v : View) (a : TcpEndpoint.Arrival) : Option (ℕ × ℕ) :=
  acceptAt v.core.rcvNxt a.packet.sequence a.packet.payloadLen

def payload (v : View) (a : TcpEndpoint.Arrival) (backed : ℕ → ℕ) : View :=
  match v.accept a with
  | some (trim, offset) => v.deliver a backed trim offset
  | none => v

def fin (v : View) (a : TcpEndpoint.Arrival) : View :=
  { v with core := v.core.takeFin a.packet }

end View

namespace TcpEndpoint

variable {C : Type}

def view (e : TcpEndpoint C) : View where
  core := e.connection.core
  irs := e.connection.irs
  sndWnd := e.connection.sndWnd
  deqPending := e.connection.deqPending
  rx := e.rx
  tx := e.tx

def timely (e : TcpEndpoint C) (a : Arrival) (now : Instant) : Bool :=
  (e.connection.observeInboundTimestamp a.packet.flags a.packet.timestamp a.packet.sequence
    a.packet.payloadLen now).2

def windowOf (e : TcpEndpoint C) (a : Arrival) : ℕ :=
  e.connection.effectiveSendWindow a.packet.advertisedWindow.toNat

section

variable (e : TcpEndpoint C)

@[simp] theorem view_transportClosing : e.transportClosing.view = e.view := by
  unfold transportClosing
  split <;> rfl

@[simp] theorem view_transportReset : e.transportReset.view = e.view := by
  unfold transportReset
  split <;> rfl

@[simp] theorem view_transportClosed : e.transportClosed.view = e.view := by
  unfold transportClosed
  split <;> rfl

@[simp] theorem view_programCleanup : e.programCleanup.view = e.view := rfl

@[simp] theorem view_programAck (duplicate : Bool) : (e.programAck duplicate).view = e.view := by
  unfold programAck
  split_ifs <;> rfl

@[simp] theorem view_programRetransmit : e.programRetransmit.view = e.view := by
  unfold programRetransmit
  split <;> rfl

@[simp] theorem view_notifyClose (a : Arrival) (prior : TcpState) :
    (e.notifyClose a prior).view = e.view := by
  unfold notifyClose
  dsimp only
  split_ifs <;> simp

theorem view_ite {p : Prop} [Decidable p] {x y : TcpEndpoint C} (h : x.view = y.view) :
    (if p then x else y).view = y.view := by
  split
  · exact h
  · rfl

theorem view_programDequeue (n : ℕ) :
    (e.programDequeue n).view = { e.view with deqPending := e.view.deqPending || n != 0 } := by
  unfold programDequeue
  split
  · next hn =>
    subst hn
    simp
  · next hn =>
    have : (n != 0) = true := by simpa using hn
    rw [this, Bool.or_true]
    rfl

theorem accept_view (a : Arrival) : e.connection.acceptPayload a.packet = e.view.accept a := rfl

section

variable (a : Arrival) (backed : ℕ → ℕ)
include a backed

theorem view_deliverPayload (trim offset : ℕ) :
    (e.deliverPayload a backed trim offset).view = e.view.deliver a backed trim offset := by
  unfold deliverPayload View.deliver
  rw [show e.view.rx = e.rx from rfl]
  rcases enqueueRx backed e.rx (exposePayload a trim) offset with ⟨rx, delivery⟩
  cases delivery with
  | notAccepted => rfl
  | inOrder accepted promoted => rfl
  | outOfOrder accepted newest => cases newest <;> rfl

theorem view_establishedPayload :
    (e.establishedPayload a backed (e.view.accept a)).1.view = e.view.payload a backed := by
  unfold establishedPayload View.payload
  cases e.view.accept a with
  | none => rfl
  | some x =>
    obtain ⟨trim, offset⟩ := x
    exact e.view_deliverPayload a backed trim offset

theorem view_closeSidePayload : (e.closeSidePayload a backed).view = e.view.payload a backed := by
  unfold closeSidePayload View.payload
  rw [accept_view]
  cases e.view.accept a with
  | none => simp
  | some x => simp [view_deliverPayload]

end

theorem view_consumeFin (a : Arrival) : (e.consumeFin a).1.view = e.view.fin a := by
  have hcond : (!a.packet.flags.fin || advance a.packet.sequence a.packet.payloadLen !=
      e.connection.rcvNxt) = true ↔ ¬(a.packet.flags.fin = true ∧
        advance a.packet.sequence a.packet.payloadLen = e.view.core.rcvNxt) := by
    rw [show e.view.core.rcvNxt = e.connection.rcvNxt from rfl]
    cases a.packet.flags.fin <;> simp
  unfold consumeFin View.fin Core.takeFin processFinAfterPayload
  by_cases hfin : a.packet.flags.fin = true ∧
      advance a.packet.sequence a.packet.payloadLen = e.view.core.rcvNxt
  · rw [if_pos hfin, if_neg (by rw [hcond]; exact not_not.mpr hfin)]
    have hs : e.view.core.state = e.connection.state := rfl
    unfold Core.finNext
    rw [hs]
    cases hstate : e.connection.state with
    | finWait1 =>
      rw [show e.view.core.finPending = e.connection.finPending from rfl,
        show e.view.core.finSent = e.connection.finSent from rfl,
        show e.view.core.sndUna = e.connection.sndUna from rfl,
        show e.view.core.sndNxt = e.connection.sndNxt from rfl]
      split_ifs <;> rfl
    | _ => rfl
  · rw [if_neg hfin, if_pos (hcond.mpr hfin)]
    rfl

end

theorem exposePayload_eq (a : Arrival) {trim : ℕ} (h : trim ≤ a.first.length) :
    exposePayload a trim = a.first.drop trim :: replicate a.rest.length [] := by
  have hrest (l : List (List UInt8)) : exposeLoop 0 0 l = replicate l.length [] := by
    induction l with
    | nil => rfl
    | cons buffer rest ih =>
      rw [exposeLoop]
      simp [ih, replicate_succ]
  unfold exposePayload
  rw [exposeLoop, a.counted, Nat.min_eq_left h, length_drop, Nat.min_self, Nat.sub_self,
    Nat.sub_self, hrest, take_of_length_le (by simp)]

section

variable (backed : ℕ → ℕ) (rx : StreamFifo UInt8)
include backed rx

theorem enqueueRxInOrder_empty (skip : ℕ) (n : ℕ) :
    enqueueRxInOrder backed rx skip (replicate n []) = (rx, 0, 0) := by
  induction n generalizing backed skip with
  | zero => rfl
  | succ n ih =>
    rw [replicate_succ, enqueueRxInOrder]
    simp [ih]

theorem enqueueRxInOrder_exposed (bytes : List UInt8) (n : ℕ) (h : bytes ≠ []) :
    enqueueRxInOrder backed rx 0 (bytes :: replicate n []) =
      rx.enqueueInOrder (backed 0) bytes := by
  rw [enqueueRxInOrder]
  simp only [Nat.zero_min, drop_zero, if_neg h]
  rcases rx.enqueueInOrder (backed 0) bytes with ⟨g, accepted, delivered⟩
  split
  · rfl
  · rw [enqueueRxInOrder_empty]
    rfl

theorem enqueueRxOutOfOrder_empty {offset : ℕ} (h : offset ≠ 0) (newest : Option (ℕ × ℕ)) (n : ℕ) :
    ∃ newest', enqueueRxOutOfOrder backed rx offset newest (replicate n []) =
      (rx, 0, newest') := by
  induction n generalizing backed newest with
  | zero => exact ⟨newest, rfl⟩
  | succ n ih =>
    rw [replicate_succ, enqueueRxOutOfOrder]
    rcases rx.enqueueOoo_nil (backed 0) h with hr | ⟨r, hr, hacc⟩
    · obtain ⟨error, hr⟩ := hr
      rw [hr]
      exact ⟨newest, rfl⟩
    · rw [hr]
      dsimp only
      obtain ⟨newest', ih⟩ := ih (fun k => backed (k + 1)) (r.newest.filter (·.2 ≠ 0))
      rw [length_nil, Nat.add_zero, ih, hacc]
      exact ⟨newest', rfl⟩

/-- The FIFO after a write at a distance from the tail. -/
def placed (backed : ℕ) (rx : StreamFifo UInt8) (offset : ℕ) (bytes : List UInt8) :
    StreamFifo UInt8 :=
  match rx.enqueueOoo backed offset bytes with
  | .ok (rx, _) => rx
  | .error _ => rx

theorem enqueueRxOutOfOrder_exposed {offset : ℕ} (h : offset ≠ 0) (bytes : List UInt8) (n : ℕ) :
    (enqueueRxOutOfOrder backed rx offset none (bytes :: replicate n [])).1 =
      placed (backed 0) rx offset bytes := by
  rw [enqueueRxOutOfOrder]
  unfold placed
  cases rx.enqueueOoo (backed 0) offset bytes with
  | error _ => rfl
  | ok x =>
    obtain ⟨g, r⟩ := x
    obtain ⟨newest', hempty⟩ := enqueueRxOutOfOrder_empty (fun k => backed (k + 1)) g
      (show offset + bytes.length ≠ 0 by omega) (r.newest.filter (·.2 ≠ 0)) n
    dsimp only
    rw [hempty]

end

end TcpEndpoint

namespace View

open TcpEndpoint

variable (v : View) (a : Arrival) (backed : ℕ → ℕ)

theorem deliver_inOrder {trim : ℕ} (h : trim < a.first.length) : v.deliver a backed trim 0 =
      let (rx, accepted, promoted) := v.rx.enqueueInOrder (backed 0) (a.first.drop trim)
      { v with
        rx := rx
        core := { v.core with
          rcvNxt := advance v.core.rcvNxt (satAdd U32_MAX accepted promoted) } } := by
  have hne : a.first.drop trim ≠ [] := by
    intro hnil
    have := congrArg length hnil
    rw [length_drop, length_nil] at this
    omega
  unfold deliver enqueueRx
  rw [if_pos rfl, exposePayload_eq a (by omega), enqueueRxInOrder_exposed _ _ _ _ hne]
  rcases hx : v.rx.enqueueInOrder (backed 0) (a.first.drop trim) with ⟨rx, accepted, promoted⟩
  dsimp only
  by_cases hacc : accepted = 0
  · have hnone := StreamFifo.enqueueInOrder_none
      (show (v.rx.enqueueInOrder (backed 0) (a.first.drop trim)).2.1 = 0 by rw [hx]; exact hacc)
    rw [hx] at hnone
    cases hnone
    rw [if_pos rfl, show satAdd U32_MAX 0 0 = 0 from rfl, advance_zero]
  · rw [if_neg hacc]

theorem deliver_outOfOrder {trim offset : ℕ} (h : trim < a.first.length) (h0 : offset ≠ 0) :
    v.deliver a backed trim offset =
      { v with rx := placed (backed 0) v.rx offset (a.first.drop trim) } := by
  have hplaced := enqueueRxOutOfOrder_exposed backed v.rx h0 (a.first.drop trim) a.rest.length
  unfold deliver enqueueRx
  rw [if_neg h0, exposePayload_eq a (by omega), ← hplaced]
  dsimp only
  split_ifs <;> rfl

theorem deliver_eq (trim offset : ℕ) : ∃ rx rcvNxt,
    v.deliver a backed trim offset =
      { v with rx := rx, core := { v.core with rcvNxt := rcvNxt } } := by
  unfold deliver
  rcases enqueueRx backed v.rx (exposePayload a trim) offset with ⟨rx, delivery⟩
  cases delivery <;> exact ⟨_, _, rfl⟩

theorem payload_eq : ∃ rx rcvNxt,
    v.payload a backed = { v with rx := rx, core := { v.core with rcvNxt := rcvNxt } } := by
  unfold payload
  cases v.accept a with
  | none => exact ⟨_, _, rfl⟩
  | some x => exact v.deliver_eq a backed x.1 x.2

/-- Payload and FIN move `rcvNxt`, the RX FIFO, and the state as the FIN says. -/
theorem processed_eq (takes : Bool) :
    ∃ rx state rcvNxt finReceived, (if takes then v.payload a backed else v).fin a =
        { v with rx := rx, core := { v.core with
          state := state
          rcvNxt := rcvNxt
          finReceived := finReceived } } ∧
      (state = v.core.state ∨ v.core.finNext = some state) := by
  have hfin (rx : StreamFifo UInt8) (rcvNxt : TcpSeq) : ∃ state rcvNxt' finReceived,
      View.fin { v with rx := rx, core := { v.core with rcvNxt := rcvNxt } } a =
        { v with rx := rx, core := { v.core with
          state := state
          rcvNxt := rcvNxt'
          finReceived := finReceived } } ∧
      (state = v.core.state ∨ v.core.finNext = some state) := by
    unfold fin Core.takeFin
    rw [show Core.finNext { v.core with rcvNxt := rcvNxt } = v.core.finNext from rfl]
    split
    · cases hnext : v.core.finNext with
      | none => exact ⟨_, _, _, rfl, Or.inl rfl⟩
      | some next => exact ⟨_, _, _, rfl, Or.inr rfl⟩
    · exact ⟨_, _, _, rfl, Or.inl rfl⟩
  cases takes with
  | false => exact ⟨v.rx, hfin v.rx v.core.rcvNxt⟩
  | true =>
    obtain ⟨rx, rcvNxt, hpayload⟩ := v.payload_eq a backed
    rw [hpayload]
    exact ⟨rx, hfin rx rcvNxt⟩

variable {v a}

theorem finNext_isSome (k : Core) : k.finNext.isSome = takesPayload k.state := by
  unfold Core.finNext
  cases k.state with
  | finWait1 =>
    split_ifs <;> rfl
  | _ => rfl

theorem fin_of_not_takesPayload (h : takesPayload v.core.state = false) : v.fin a = v := by
  have hnext : v.core.finNext = none := by
    have := finNext_isSome v.core
    rw [h] at this
    simpa using this
  have hkeep : v.core.takeFin a.packet = v.core := by
    unfold Core.takeFin
    rw [hnext]
    split <;> rfl
  unfold fin
  rw [hkeep]

theorem closeNext_eq (h : ¬(v.core.state = .closing ∨
    (v.core.state = .finWait1 ∨ v.core.state = .lastAck) ∧ v.core.finSent = true)) :
    v.closeNext = v.core.state := by
  unfold closeNext TcpConnection.closeNext
  cases hs : v.core.state <;> simp_all

theorem closeSide_established {acknowledgment : Option TcpSeq} {sndWnd : ℕ}
    (hs : v.core.state = .established) :
    v.closeSide acknowledgment sndWnd = v.ack acknowledgment sndWnd := by
  obtain ⟨una, huna⟩ := v.core.ack_eq acknowledgment
  unfold closeSide
  rw [closeNext_eq (by rw [hs]; simp)]
  split
  · unfold ack
    rw [huna]
  · rfl

end View

namespace TcpEndpoint

variable {C : Type}

section

variable (e : TcpEndpoint C) (c : TcpConnection C)

theorem view_applyAck (acknowledgment : TcpSeq) (advertisedWindow : BitVec 16) :
    (e.ofConnection (c.applyAck acknowledgment advertisedWindow)).view =
      (e.ofConnection c).view.ack (some acknowledgment)
        (c.effectiveSendWindow advertisedWindow.toNat) := by
  have haccept : (e.ofConnection c).view.core.acceptsAck acknowledgment =
    c.acceptsAck acknowledgment := rfl
  unfold applyAck View.ack Core.ack Core.applyAck
  simp only [Option.any_some, haccept]
  cases c.acceptsAck acknowledgment <;> rfl

theorem view_takeAckedTxLen (previousSndUna : TcpSeq) :
    (e.ofConnection (c.takeAckedTxLen previousSndUna).1).view = (e.ofConnection c).view := by
  unfold takeAckedTxLen
  dsimp only
  split <;> rfl

theorem takeAckedTxLen_same : (c.takeAckedTxLen c.sndUna).2 = 0 := by
  unfold takeAckedTxLen
  rw [if_pos (distanceTo_self _)]

variable (p : TcpPacket) (now : Instant)

theorem coversAll_ack (v : View) (acknowledgment : Option TcpSeq) (sndWnd : ℕ) :
    (v.ack acknowledgment sndWnd).coversAll acknowledgment = v.coversAll acknowledgment := by
  cases acknowledgment with
  | none => rfl
  | some a =>
    have hnxt : (v.core.applyAck a).sndNxt = v.core.sndNxt := by
      unfold Core.applyAck
      split <;> rfl
    simp [View.coversAll, View.ack, Core.ack, Core.acceptsAck_applyAck, hnxt]

theorem closeSideByState_view (hs : c.state ≠ .synRcvd) (v : View) (sndWnd : ℕ)
    (hv : (e.ofConnection c).view = v.ack p.acknowledgment sndWnd) :
    ∃ d control, c.closeSideByState p now = .ok (d, control) ∧
      (e.ofConnection d).view = v.closeSide p.acknowledgment sndWnd := by
  have hcovers : (p.acknowledgment.any fun a => c.acceptsAck a && a == c.sndNxt) =
      v.coversAll p.acknowledgment := by
    rw [← coversAll_ack v p.acknowledgment sndWnd, ← hv]
    rfl
  obtain ⟨una, hcore⟩ := v.core.ack_eq p.acknowledgment
  have hk : c.core = { v.core with sndUna := una } := (congrArg View.core hv).trans hcore
  obtain ⟨next, timers, control, hd, -, hnext⟩ := closeSideByState_eq p now hs hcovers
  refine ⟨_, _, hd, ?_⟩
  rw [show c.state = _ from congrArg Core.state hk, show c.finSent = _ from congrArg Core.finSent hk,
    show c.finReceived = _ from congrArg Core.finReceived hk] at hnext
  show { (e.ofConnection c).view with core := { (e.ofConnection c).view.core with state := next } } =
    v.closeSide p.acknowledgment sndWnd
  unfold View.closeSide
  rw [hv, hnext]
  split
  · rfl
  · unfold View.ack
    rw [hcore]

variable [CongestionSender C]

theorem view_receiveAckWithTimers (acknowledgment : TcpSeq) :
    (e.ofConnection (c.receiveAckWithTimers p acknowledgment now)).view =
      (e.ofConnection c).view.ack (some acknowledgment)
        (c.effectiveSendWindow p.advertisedWindow.toNat) := by
  obtain ⟨_, _, _, _, _, _, h⟩ := c.receiveAckWithTimers_eq p acknowledgment now
  rw [h, ← view_applyAck]
  rfl

theorem view_receiveAckOf : (e.ofConnection (c.receiveAckOf p now)).view =
      (e.ofConnection c).view.ack p.acknowledgment
        (c.effectiveSendWindow p.advertisedWindow.toNat) := by
  unfold receiveAckOf
  cases p.acknowledgment with
  | none => rfl
  | some acknowledgment => exact view_receiveAckWithTimers e c p now acknowledgment

end

/-- What the packet does before its payload is looked at, in `tcp-rcv-process`. -/
def closeSideView (e : TcpEndpoint C) (a : Arrival) (now : Instant) : View :=
  if !e.timely a now then e.view
  else if a.packet.flags.rst then e.view.close
  else e.view.closeSide a.packet.acknowledgment (e.windowOf a)

/-- The same in `tcp-established`. -/
def establishedView (e : TcpEndpoint C) (a : Arrival) (now : Instant) : View :=
  if a.packet.flags.rst then e.view.close
  else if !e.timely a now then e.view
  else e.view.ack a.packet.acknowledgment (e.windowOf a)

/-- The step of either node before the payload. -/
def ackView (e : TcpEndpoint C) (a : Arrival) (now : Instant) : View :=
  if e.timely a now then e.view.closeSide a.packet.acknowledgment (e.windowOf a) else e.view

section

variable {e : TcpEndpoint C} {a : Arrival} {now : Instant} (hr : a.packet.flags.rst = true)
include hr

theorem timely_reset : e.timely a now = true := by
  unfold timely observeInboundTimestamp
  rw [if_pos hr]

theorem closeSideView_reset : e.closeSideView a now = e.view.close := by
  unfold closeSideView
  rw [timely_reset hr, hr]
  rfl

end

section

variable (e : TcpEndpoint C) (a : Arrival) (backed : ℕ → ℕ) (now : Instant)

theorem acked_view (c : TcpConnection C) :
    ∃ e', (e.ofConnection (c.takeAckedTxLen e.connection.sndUna).1).programDequeue
        (c.takeAckedTxLen e.connection.sndUna).2 = e' ∧
      e'.view = { (e.ofConnection c).view with deqPending := e'.connection.deqPending } ∧
      ((e.ofConnection c).view.core.sndUna = e.view.core.sndUna →
        e'.connection.deqPending = (e.ofConnection c).view.deqPending) := by
  have hview : ((e.ofConnection (c.takeAckedTxLen e.connection.sndUna).1).programDequeue
      (c.takeAckedTxLen e.connection.sndUna).2).view =
        { (e.ofConnection c).view with deqPending := (e.ofConnection c).view.deqPending ||
          (c.takeAckedTxLen e.connection.sndUna).2 != 0 } := by
    rw [view_programDequeue, view_takeAckedTxLen]
  have hdeq := congrArg View.deqPending hview
  refine ⟨_, rfl, ?_, ?_⟩
  · rw [hview]
    exact congrArg (fun d => { (e.ofConnection c).view with deqPending := d }) hdeq.symm
  · intro huna
    refine hdeq.trans ?_
    rw [show e.connection.sndUna = c.sndUna from huna.symm, takeAckedTxLen_same]
    exact Bool.or_false _

variable [CongestionSender C]

theorem receiveCloseSide_view (hs : e.connection.state ≠ .synRcvd) :
    ∃ c control, e.connection.receiveCloseSide a.packet now = .ok (c, control) ∧
      (e.ofConnection c).view = e.closeSideView a now := by
  obtain ⟨timestamps, timely, hx⟩ := e.connection.observeInboundTimestamp_eq a.packet.flags
    a.packet.timestamp a.packet.sequence a.packet.payloadLen now
  unfold receiveCloseSide closeSideView TcpEndpoint.timely
  rw [hx]
  cases timely with
  | false => exact ⟨_, _, rfl, rfl⟩
  | true =>
    simp only [Bool.not_true, Bool.false_eq_true, if_false]
    split
    · exact ⟨_, _, rfl, rfl⟩
    · have hack := view_receiveAckOf e
        (observeActivity { e.connection with timestamps := timestamps }) a.packet now
      obtain ⟨una, huna⟩ := e.view.core.ack_eq a.packet.acknowledgment
      have hstate := congrArg Core.state ((congrArg View.core hack).trans huna)
      exact closeSideByState_view _ _ _ _ (fun h => hs (hstate.symm.trans h)) e.view (e.windowOf a)
        hack

theorem receiveEstablishedWithTimers_view (hs : e.connection.state = .established) :
    ∃ c control, e.connection.receiveEstablishedWithTimers a.packet now = .ok (c, control) ∧
      (e.ofConnection c).view = e.establishedView a now := by
  unfold receiveEstablishedWithTimers establishedView
  rw [if_neg (not_not.mpr hs)]
  split
  · next hr =>
    obtain ⟨c, control, hc, hv⟩ := e.receiveCloseSide_view a now (by rw [hs]; decide)
    refine ⟨c, control, hc, hv.trans ?_⟩
    exact closeSideView_reset hr
  · obtain ⟨timestamps, timely, hx⟩ := e.connection.observeInboundTimestamp_eq a.packet.flags
      a.packet.timestamp a.packet.sequence a.packet.payloadLen now
    unfold TcpEndpoint.timely
    rw [hx]
    cases timely with
    | false => exact ⟨_, _, rfl, rfl⟩
    | true =>
      cases hack : a.packet.acknowledgment with
      | none => exact ⟨_, _, rfl, rfl⟩
      | some acknowledgment => exact ⟨_, _, rfl, view_receiveAckWithTimers e _ _ _ _⟩

/-- The packet's payload and FIN, seen from a view. -/
structure Processed (v : View) (takes : Bool) (e' : TcpEndpoint C) : Prop where
  view : ∃ d, e'.view = (if takes then View.payload { v with deqPending := d } a backed
    else { v with deqPending := d }).fin a ∧
      (v.core.sndUna = e.view.core.sndUna → d = v.deqPending)

theorem tcpEstablishedIndex_view (hs : e.connection.state = .established) :
    ∃ e' control, e.tcpEstablishedIndex a backed now = .ok (e', control) ∧
      (a.packet.flags.rst = true → e'.view = e.view.close) ∧
      (a.packet.flags.rst = false → Processed e a backed (e.establishedView a now) true e') := by
  obtain ⟨c, control, hc, hv⟩ := e.receiveEstablishedWithTimers_view a now hs
  obtain ⟨e1, he1, hv1, hd⟩ := e.acked_view c
  unfold tcpEstablishedIndex
  rw [hc]
  dsimp only
  rw [he1]
  rw [hv] at hv1 hd
  have haccept : c.acceptPayload a.packet = e1.view.accept a := by
    rw [hv1, ← hv]
    rfl
  rw [haccept]
  by_cases hr : a.packet.flags.rst = true
  · rw [show e.establishedView a now = e.view.close from if_pos hr] at hv1 hd
    have hstate : e1.connection.state = .closed := congrArg (fun v => v.core.state) hv1
    rw [if_pos (by simp [hr, hstate])]
    refine ⟨_, _, rfl, fun _ => ?_, fun h => absurd hr (by rw [h]; decide)⟩
    rw [view_programCleanup, view_transportClosed, view_transportReset, hv1, hd rfl]
  · rw [if_neg (by simp [hr])]
    refine ⟨_, _, rfl, fun h => absurd h hr, fun _ => ⟨_, ?_, hd⟩⟩
    have hsame : (if retransmitDue e1.connection then e1.programRetransmit else e1).view =
        e1.view := view_ite (view_programRetransmit e1)
    rw [view_ite (view_programAck _ _), view_ite (by simp), view_consumeFin, ← hsame,
      view_establishedPayload, hsame, hv1]
    rfl

theorem tcpRcvProcessIndex_view (hs : e.connection.state ≠ .synRcvd) :
    ∃ e' control, e.tcpRcvProcessIndex a backed now = .ok (e', control) ∧
      Processed e a backed (e.closeSideView a now)
        (takesPayload (e.closeSideView a now).core.state) e' := by
  obtain ⟨c, control, hc, hv⟩ := e.receiveCloseSide_view a now hs
  obtain ⟨e1, he1, hv1, hd⟩ := e.acked_view c
  unfold tcpRcvProcessIndex
  rw [hc]
  dsimp only
  rw [he1]
  rw [hv] at hv1 hd
  have hstate : c.state = (e.closeSideView a now).core.state :=
    congrArg (fun v => v.core.state) hv
  rw [hstate]
  refine ⟨_, _, rfl, ⟨_, ?_, hd⟩⟩
  have hsame := view_notifyClose e1 a e.connection.state
  rw [view_ite (view_transportClosed _), view_ite (view_programAck _ _), view_consumeFin]
  cases htakes : takesPayload (e.closeSideView a now).core.state with
  | false =>
    rw [Bool.and_false, if_neg Bool.false_ne_true, if_neg Bool.false_ne_true, hsame, hv1]
  | true =>
    rw [if_pos rfl]
    by_cases hlen : a.packet.payloadLen = 0
    · rw [if_neg (by simp [hlen]), hsame, hv1]
      unfold View.payload View.accept acceptAt
      rw [if_pos hlen]
    · rw [if_pos (by simp [hlen]), view_closeSidePayload, hsame, hv1]

theorem index_view (node : InputNode) (hs : e.connection.state ≠ .synRcvd)
    (hn : node = .established → e.connection.state = .established) :
    ∃ e' control, node.index e a backed now = .ok (e', control) ∧
      (a.packet.flags.rst = true → e'.view = e.view.close) ∧
      (a.packet.flags.rst = false → Processed e a backed (e.ackView a now)
        (takesPayload (e.ackView a now).core.state) e') := by
  cases node with
  | established =>
    obtain ⟨e', control, hindex, hrst, hproc⟩ :=
      e.tcpEstablishedIndex_view a backed now (hn rfl)
    refine ⟨e', control, hindex, hrst, fun hr => ?_⟩
    have hview : e.establishedView a now = e.ackView a now := by
      unfold establishedView ackView
      rw [hr, View.closeSide_established (hn rfl)]
      cases e.timely a now <;> rfl
    have hstate : (e.ackView a now).core.state = .established := by
      obtain ⟨una, huna⟩ := e.view.core.ack_eq a.packet.acknowledgment
      unfold ackView
      rw [View.closeSide_established (hn rfl)]
      split
      · exact (congrArg Core.state huna).trans (hn rfl)
      · exact hn rfl
    rw [hstate, ← hview]
    exact hproc hr
  | rcvProcess =>
    obtain ⟨e', control, hindex, hproc⟩ := e.tcpRcvProcessIndex_view a backed now hs
    refine ⟨e', control, hindex, fun hr => ?_, fun hr => ?_⟩
    · rw [closeSideView_reset hr] at hproc
      obtain ⟨d, hview, hd⟩ := hproc
      rw [hview, hd rfl]
      exact View.fin_of_not_takesPayload rfl
    · have hview : e.closeSideView a now = e.ackView a now := by
        unfold closeSideView ackView
        rw [hr]
        cases e.timely a now <;> rfl
      rw [← hview]
      exact hproc

/-- A packet that comes to `tcp-established` in another state is dropped. -/
theorem InputNode.frame_cases (node : InputNode) (hs : e.connection.state ≠ .synRcvd) :
    (node = .established ∧ e.connection.state ≠ .established) ∧
        node.frame e a backed now = e.handlePostponedDequeues.1 ∨
      ¬(node = .established ∧ e.connection.state ≠ .established) ∧
        ∃ e' control, node.index e a backed now = .ok (e', control) ∧
          node.frame e a backed now = e'.handlePostponedDequeues.1 ∧
          (a.packet.flags.rst = true → e'.view = e.view.close) ∧
          (a.packet.flags.rst = false → Processed e a backed (e.ackView a now)
            (takesPayload (e.ackView a now).core.state) e') := by
  unfold InputNode.frame
  by_cases hn : node = .established ∧ e.connection.state ≠ .established
  · refine Or.inl ⟨hn, ?_⟩
    rw [hn.1]
    unfold InputNode.index tcpEstablishedIndex receiveEstablishedWithTimers
    rw [if_pos hn.2]
  · obtain ⟨e', control, hindex, hview⟩ := e.index_view a backed now node hs
      fun h => not_not.mp fun hne => hn ⟨h, hne⟩
    refine Or.inr ⟨hn, e', control, hindex, ?_, hview⟩
    rw [hindex]

end

theorem handlePostponedDequeues_idle {e : TcpEndpoint C} (h : e.connection.deqPending = false) :
    e.handlePostponedDequeues = (e, none) := by
  unfold handlePostponedDequeues
  rw [h]
  rfl

theorem sendPendingFin_eq (c : TcpConnection C) : ∃ timers, c.sendPendingFin.1 = { c with
      state := if c.state = .closeWait then .lastAck else c.state
      sndNxt := advance c.sndNxt 1
      finSent := true
      finPending := false
      timers := timers } := by
  unfold sendPendingFin sendFin
  dsimp only
  split_ifs <;> exact ⟨_, rfl⟩

theorem view_handlePostponedDequeues (e : TcpEndpoint C) :
    ∃ k deqPending tx, e.handlePostponedDequeues.1.view =
        { e.view with core := k, deqPending := deqPending, tx := tx } ∧
      (k = e.view.core ∨ e.view.core.finPending = true ∧ k = { e.view.core.sendFin with
        state := if e.view.core.state = .closeWait then .lastAck else e.view.core.state }) := by
  have hafter (c : TcpConnection C) :
      ∃ timers, c.retransmitTimerAfterAck = { c with timers := timers } := by
    unfold retransmitTimerAfterAck
    split <;> exact ⟨_, rfl⟩
  unfold handlePostponedDequeues
  split
  · exact ⟨_, _, _, rfl, Or.inl rfl⟩
  · dsimp only [takeBurstAcked]
    split
    · exact ⟨_, _, _, rfl, Or.inl rfl⟩
    · obtain ⟨timers, htimers⟩ := hafter { e.connection with deqPending := false, burstAcked := 0 }
      rw [htimers]
      split
      · next hfin =>
        have hpending : e.view.core.finPending = true := by
          simp only [Bool.and_eq_true] at hfin
          exact hfin.1
        obtain ⟨timers', hsent⟩ := sendPendingFin_eq
          { e.connection with deqPending := false, burstAcked := 0, timers := timers }
        rw [hsent]
        exact ⟨_, _, _, rfl, Or.inr ⟨hpending, rfl⟩⟩
      · exact ⟨_, _, _, rfl, Or.inl rfl⟩

/-- A connection that a peer opened with the sequence number 500. -/
def sampleEndpoint : TcpEndpoint Unit where
  connection :=
    { TcpConnection.new Machine.samplePolicy () with
      state := .established
      iss := 100
      sndUna := 101
      sndNxt := 101
      irs := 500
      rcvNxt := 501
      rcvWnd := 4096 }
  sessionState := .ready
  customTx := false
  descheduled := false
  cleanup := false
  rx := .empty 4096
  tx := []

end TcpEndpoint

end Tcp
