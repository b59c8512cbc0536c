import Hammer.TcpWindow

/-! # Segments that fail the timestamp check

A segment that `observe_inbound_timestamp` rejects is reported to the nodes only as one without a
reply. They go on with its payload and its FIN.
-/

namespace Tcp

open TcpSeq Recovery TcpConnection

namespace TcpEndpoint

variable {C : Type}

def synchronized : TcpState → Bool
  | .closed | .listen | .synSent | .synRcvd => false
  | _ => true

/-- What a rejected segment must leave alone. -/
structure Inbound where
  rx : StreamFifo UInt8
  finReceived : Bool
  rcvNxt : TcpSeq
  sndUna : TcpSeq
  sndWnd : ℕ
  timestamps : TcpTimestampState

def inbound (e : TcpEndpoint C) : Inbound :=
  ⟨e.rx, e.connection.finReceived, e.connection.rcvNxt, e.connection.sndUna, e.connection.sndWnd,
    e.connection.timestamps⟩

/-- The packet has neither payload nor a FIN that the connection would take. -/
structure Empty (e : TcpEndpoint C) (a : Arrival) (backed : ℕ) : Prop where
  payload : e.view.Barred a backed
  fin : a.packet.flags.fin = true → advance a.packet.sequence a.first.length ≠ e.connection.rcvNxt

section

variable {e : TcpEndpoint C} {a : Arrival} {backed : ℕ → ℕ} {now : Instant} {node : InputNode}

section

variable (e)

@[simp] theorem timestamps_programAck (duplicate : Bool) :
    (e.programAck duplicate).connection.timestamps = e.connection.timestamps := by
  unfold programAck
  split_ifs <;> rfl

@[simp] theorem timestamps_programRetransmit :
    e.programRetransmit.connection.timestamps = e.connection.timestamps := by
  unfold programRetransmit
  split <;> rfl

@[simp] theorem connection_transportClosing : e.transportClosing.connection = e.connection := by
  unfold transportClosing
  split <;> rfl

@[simp] theorem connection_transportReset : e.transportReset.connection = e.connection := by
  unfold transportReset
  split <;> rfl

@[simp] theorem connection_transportClosed : e.transportClosed.connection = e.connection := by
  unfold transportClosed
  split <;> rfl

@[simp] theorem timestamps_acked (previousSndUna : TcpSeq) :
    ((e.ofConnection (e.connection.takeAckedTxLen previousSndUna).1).programDequeue
      (e.connection.takeAckedTxLen previousSndUna).2).connection.timestamps =
        e.connection.timestamps := by
  unfold programDequeue takeAckedTxLen
  dsimp only
  split_ifs <;> rfl

@[simp] theorem timestamps_deliverPayload (a : Arrival) (backed : ℕ → ℕ) (trim offset : ℕ) :
    (e.deliverPayload a backed trim offset).connection.timestamps = e.connection.timestamps := by
  unfold deliverPayload receivePayload
  rcases enqueueRx backed e.rx (exposePayload a trim) offset with ⟨rx, delivery⟩
  cases delivery with
  | notAccepted => rfl
  | inOrder accepted promoted => rfl
  | outOfOrder accepted newest => cases newest <;> rfl

@[simp] theorem timestamps_consumeFin (a : Arrival) :
    (e.consumeFin a).1.connection.timestamps = e.connection.timestamps := by
  unfold consumeFin processFinAfterPayload
  cases e.connection.state <;> split_ifs <;> rfl

@[simp] theorem timestamps_establishedPayload (a : Arrival) (backed : ℕ → ℕ)
    (accept : Option (ℕ × ℕ)) :
    (e.establishedPayload a backed accept).1.connection.timestamps = e.connection.timestamps := by
  cases accept with
  | none => rfl
  | some x => exact timestamps_deliverPayload e a backed x.1 x.2

@[simp] theorem timestamps_closeSidePayload (a : Arrival) (backed : ℕ → ℕ) :
    (e.closeSidePayload a backed).connection.timestamps = e.connection.timestamps := by
  unfold closeSidePayload
  split <;> simp

@[simp] theorem connection_notifyClose (a : Arrival) (prior : TcpState) :
    (e.notifyClose a prior).connection = e.connection := by
  unfold notifyClose
  dsimp only
  split_ifs <;> simp [programCleanup]

end

theorem timestamps_ite {p : Prop} [Decidable p] {x y : TcpEndpoint C}
    (h : x.connection.timestamps = y.connection.timestamps) :
    (if p then x else y).connection.timestamps = y.connection.timestamps := by
  split
  · exact h
  · rfl

theorem inbound_handlePostponedDequeues (e : TcpEndpoint C) :
    e.handlePostponedDequeues.1.inbound = e.inbound := by
  unfold handlePostponedDequeues takeBurstAcked retransmitTimerAfterAck sendPendingFin sendFin
  dsimp only
  split_ifs <;> rfl

/-- Only a segment without RST is rejected, and the connection stays as it is. -/
theorem observeInboundTimestamp_of_not_timely (ht : e.timely a now = false) :
    a.packet.flags.rst = false ∧
      e.connection.observeInboundTimestamp a.packet.flags a.packet.timestamp a.packet.sequence
        a.packet.payloadLen now = (e.connection, false) := by
  unfold timely observeInboundTimestamp at *
  split_ifs at ht ⊢ with hr
  refine ⟨by simpa using hr, ?_⟩
  generalize a.packet.timestamp = timestamp at ht ⊢
  cases timestamp with
  | none => rfl
  | some tsval =>
    dsimp only at ht ⊢
    split_ifs at ht ⊢
    rfl

theorem inbound_eq_iff {e' : TcpEndpoint C} (hview : e'.view =
      (if takesPayload e.connection.state then e.view.payload a backed else e.view).fin a)
    (hstamps : e'.connection.timestamps = e.connection.timestamps) :
    e'.inbound = e.inbound ↔ (takesPayload e.connection.state = true → e.Empty a (backed 0)) := by
  have hsame (h : e'.view = e.view) : e'.inbound = e.inbound := by
    change Inbound.mk e'.view.rx e'.view.core.finReceived e'.view.core.rcvNxt
      e'.view.core.sndUna e'.view.sndWnd _ = _
    rw [h, hstamps]
    rfl
  cases ht : takesPayload e.connection.state with
  | false =>
    rw [ht, View.fin_of_not_takesPayload ht] at hview
    exact iff_of_true (hsame hview) (nomatch ·)
  | true =>
    rw [ht] at hview
    rcases View.payload_cases e.view a backed with ⟨hbarred, heq⟩ | ⟨hbarred, hne⟩
    · rw [heq] at hview
      constructor
      · intro h _
        refine ⟨hbarred, fun hfin hseq => View.rcvNxt_fin_ne (v := e.view) ht hfin hseq ?_⟩
        exact (congrArg (fun v => v.core.rcvNxt) hview).symm.trans (congrArg Inbound.rcvNxt h)
      · intro h
        exact hsame (hview.trans (View.fin_of_elsewhere (h rfl).fin))
    · refine iff_of_false (fun h => hne ?_) (fun h => hbarred (h rfl).payload)
      exact (congrArg View.rx hview).symm.trans (congrArg Inbound.rx h)

variable [CongestionSender C]

theorem receiveCloseSide_of_not_timely (ht : e.timely a now = false) :
    e.connection.receiveCloseSide a.packet now = .ok (e.connection, none) := by
  unfold receiveCloseSide
  rw [(observeInboundTimestamp_of_not_timely ht).2]
  rfl

theorem receiveEstablishedWithTimers_of_not_timely (ht : e.timely a now = false)
    (hs : e.connection.state = .established) :
    e.connection.receiveEstablishedWithTimers a.packet now = .ok (e.connection, none) := by
  obtain ⟨hr, hsame⟩ := observeInboundTimestamp_of_not_timely ht
  unfold receiveEstablishedWithTimers
  rw [if_neg (not_not.mpr hs), hr, hsame]
  rfl

theorem timestamps_index {e' : TcpEndpoint C} {control : Option TcpSegment}
    (ht : e.timely a now = false) (hn : node = .established → e.connection.state = .established)
    (h : node.index e a backed now = .ok (e', control)) :
    e'.connection.timestamps = e.connection.timestamps := by
  obtain ⟨hr, -⟩ := observeInboundTimestamp_of_not_timely ht
  cases node with
  | established =>
    unfold InputNode.index tcpEstablishedIndex at h
    rw [receiveEstablishedWithTimers_of_not_timely ht (hn rfl)] at h
    simp only [hr, Bool.false_and, Bool.false_eq_true, if_false] at h
    rw [← (Prod.mk.inj (Except.ok.inj h)).1, timestamps_ite (timestamps_programAck _ _),
      timestamps_ite (by simp), timestamps_consumeFin, timestamps_establishedPayload,
      timestamps_ite (timestamps_programRetransmit _), timestamps_acked]
  | rcvProcess =>
    unfold InputNode.index tcpRcvProcessIndex at h
    rw [receiveCloseSide_of_not_timely ht] at h
    dsimp only at h
    rw [← (Prod.mk.inj (Except.ok.inj h)).1, timestamps_ite (by simp),
      timestamps_ite (timestamps_programAck _ _), timestamps_consumeFin,
      timestamps_ite (timestamps_closeSidePayload _ _ _), connection_notifyClose, timestamps_acked]

/-- A segment that the timestamp check rejects is left out entirely exactly if it has nothing that
the connection would take, or comes to `tcp-established` in another state. -/
theorem timestamp_rejection_complete_iff (node : InputNode) (e : TcpEndpoint C) (a : Arrival)
    (backed : ℕ → ℕ) (now : Instant) (hs : synchronized e.connection.state = true)
    (ht : e.timely a now = false) :
    (node.frame e a backed now).inbound = e.inbound ↔
      (node = .established ∧ e.connection.state ≠ .established) ∨
        (takesPayload e.connection.state = true → e.Empty a (backed 0)) := by
  rcases node.frame_cases e a backed now (by intro h; rw [h] at hs; cases hs) with
    ⟨hn, hframe⟩ | ⟨hn, e', control, hindex, hframe, -, hproc⟩
  · refine iff_of_true ?_ (Or.inl hn)
    rw [hframe]
    exact inbound_handlePostponedDequeues e
  · have hstamps := timestamps_index ht (fun h => not_not.mp fun hne => hn ⟨h, hne⟩) hindex
    obtain ⟨d, hview, hd⟩ := hproc (observeInboundTimestamp_of_not_timely ht).1
    have hack : e.ackView a now = e.view := if_neg (by rw [ht]; decide)
    rw [hack] at hview hd
    rw [hd rfl] at hview
    rw [hframe, or_iff_right hn, inbound_handlePostponedDequeues, inbound_eq_iff hview hstamps]

end

/-- An established connection with timestamps, and the next byte of the peer without one. -/
def stamped : TcpEndpoint Unit :=
  { sampleEndpoint with
    connection := { sampleEndpoint.connection with
      negotiatedOptions := { sampleEndpoint.connection.negotiatedOptions with
        timestamps := true } } }

def unstamped : Arrival where
  packet := { Machine.samplePacket 501 101 .ACK with payloadLen := 1 }
  first := [7]
  rest := []
  counted := rfl
  bounded := by decide

theorem timestamp_rejection_complete_iff_unstamped :
    (InputNode.established.frame stamped unstamped (fun _ => 4096) 0).inbound = stamped.inbound ↔
      (InputNode.established = .established ∧ stamped.connection.state ≠ .established) ∨
        (takesPayload stamped.connection.state = true → stamped.Empty unstamped 4096) :=
  timestamp_rejection_complete_iff .established stamped unstamped (fun _ => 4096) 0 rfl rfl

/-- The byte is rejected and delivered all the same. -/
theorem rejected_byte_delivered : stamped.timely unstamped 0 = false ∧
    (InputNode.established.frame stamped unstamped (fun _ => 4096) 0).connection.rcvNxt = 502 ∧
    (InputNode.established.frame stamped unstamped (fun _ => 4096) 0).inbound ≠
      stamped.inbound := by
  have hnext : (InputNode.established.frame stamped unstamped (fun _ => 4096)
      0).connection.rcvNxt = 502 := by
    decide +kernel
  refine ⟨rfl, hnext, fun h => ?_⟩
  have hsame := congrArg Inbound.rcvNxt h
  exact absurd (hnext.symm.trans hsame) (by decide)

end TcpEndpoint

end Tcp
