import Hammer.TcpConnection

/-! # The state machine of a connection

What the methods of `transport/tcp/src/connection.rs` do to the state, the sequence variables and
the FIN flags, as one transition relation, and the runs of a connection under every segment,
close call and timer expiry.
-/

namespace Tcp

open TcpSeq Recovery TcpConnection

/-- The part of a connection that decides its state changes. -/
structure Core where
  state : TcpState
  iss : TcpSeq
  sndUna : TcpSeq
  sndNxt : TcpSeq
  rcvNxt : TcpSeq
  finPending : Bool
  finSent : Bool
  finReceived : Bool

def TcpConnection.core {C : Type} (c : TcpConnection C) : Core :=
  ⟨c.state, c.iss, c.sndUna, c.sndNxt, c.rcvNxt, c.finPending, c.finSent, c.finReceived⟩

namespace Core

def acceptsAck (k : Core) (acknowledgment : TcpSeq) : Bool :=
  ge acknowledgment k.sndUna && le acknowledgment k.sndNxt

def applyAck (k : Core) (acknowledgment : TcpSeq) : Core :=
  if k.acceptsAck acknowledgment then { k with sndUna := acknowledgment } else k

def ack (k : Core) (acknowledgment : Option TcpSeq) : Core :=
  match acknowledgment with
  | some acknowledgment => k.applyAck acknowledgment
  | none => k

def finalAck (k : Core) (acknowledgment : Option TcpSeq) : Core :=
  match acknowledgment with
  | some acknowledgment =>
    if k.acceptsAck acknowledgment then { k with state := .established, sndUna := acknowledgment }
    else k
  | none => k

def sendFin (k : Core) : Core :=
  { k with sndNxt := advance k.sndNxt 1, finSent := true, finPending := false }

def consumeFin (k : Core) (state : TcpState) : Core :=
  { k with rcvNxt := advance k.rcvNxt 1, finReceived := true, state := state }

theorem ack_eq (k : Core) (a : Option TcpSeq) :
    ∃ sndUna, k.ack a = { k with sndUna := sndUna } := by
  cases a with
  | none => exact ⟨k.sndUna, rfl⟩
  | some a =>
    unfold ack applyAck
    dsimp only
    split
    · exact ⟨a, rfl⟩
    · exact ⟨k.sndUna, rfl⟩

theorem acceptsAck_applyAck (k : Core) (a : TcpSeq) :
    (k.applyAck a).acceptsAck a = k.acceptsAck a := by
  unfold applyAck
  split
  · next hk =>
    rw [hk]
    simp only [acceptsAck, Bool.and_eq_true] at hk ⊢
    exact ⟨by simp [ge, cmp_eq_ite, distanceTo_self], hk.2⟩
  · rfl

/-- In SYN-RCVD the acknowledgment is applied twice, with the effect of once. -/
theorem finalAck_ack (k : Core) (a : Option TcpSeq) : (k.ack a).finalAck a = k.finalAck a := by
  cases a with
  | none => rfl
  | some a =>
    simp only [finalAck, ack, acceptsAck_applyAck]
    split
    · next hk => rw [applyAck, if_pos hk]
    · next hk => rw [applyAck, if_neg hk]

end Core

/-- What takes a connection through a transition. -/
inductive Cause where
  | segment (rst : Bool) (acknowledgment : Option TcpSeq)
  | fin (flag : Bool) (position : TcpSeq)
  | close
  | reset
  | timeout
  | progress
  deriving DecidableEq

/-- The transitions of a connection, with the number of the FIN that is handed to output. -/
inductive Transition : Cause → Option TcpSeq → Core → Core → Prop
  | idle {e : Cause} {k : Core} : Transition e none k k
  | resendFin {e : Cause} {k : Core} (sent : k.finSent) : Transition e (some (k.sndNxt - 1)) k k
  | received {e : Cause} {k : Core} (rcvNxt : TcpSeq) :
      Transition e none k { k with rcvNxt := rcvNxt }
  | acked {k : Core} {a : Option TcpSeq} (state : k.state ≠ .synSent ∧ k.state ≠ .synRcvd) :
      Transition (.segment false a) none k (k.ack a)
  | opened {k : Core} {a : TcpSeq} (rcvNxt : TcpSeq) (state : k.state = .synSent)
      (above : gt a k.iss) :
      Transition (.segment false (some a)) none k
        { k with state := .established, sndUna := a, rcvNxt := rcvNxt }
  | openedBoth {k : Core} (rcvNxt : TcpSeq) (state : k.state = .synSent) :
      Transition (.segment false none) none k { k with state := .synRcvd, rcvNxt := rcvNxt }
  | accepted {k : Core} {a : TcpSeq} (state : k.state = .synRcvd) (accepts : k.acceptsAck a) :
      Transition (.segment false (some a)) none k { k with state := .established, sndUna := a }
  | finAcked {k : Core} {a : TcpSeq} (next : TcpState)
      (state : k.state = .finWait1 ∧ k.finSent ∧
          next = (if k.finReceived then .closed else .finWait2) ∨
        k.state = .closing ∧ next = .timeWait ∨ k.state = .lastAck ∧ k.finSent ∧ next = .closed)
      (covers : a = k.sndNxt) :
      Transition (.segment false (some a)) none k { k.applyAck a with state := next }
  | finConsumed {k : Core} (next : TcpState)
      (state : k.state = .established ∧ next = .closeWait ∨
        k.state = .finWait1 ∧ k.finPending ∧ next = .finWait1 ∨
        k.state = .finWait1 ∧ !k.finPending ∧ (next = .timeWait ∨ next = .closing) ∨
        k.state = .finWait2 ∧ next = .timeWait) :
      Transition (.fin true k.rcvNxt) none k (k.consumeFin next)
  | closeRequested {k : Core} (next : TcpState) (state : k.state = .established ∧ next = .finWait1 ∨
        k.state = .closeWait ∧ next = .closeWait) :
      Transition .close none k { k with state := next, finPending := true }
  | closed {k : Core} (fin : TcpSeq) (number : k.sndNxt ≠ 0 → fin = k.sndNxt) (next : TcpState)
      (state : (k.state = .synRcvd ∨ k.state = .established) ∧ next = .finWait1 ∨
        k.state = .closeWait ∧ next = .lastAck) :
      Transition .close (some fin) k { k.sendFin with state := next }
  | drained {k : Core} (fin : TcpSeq) (number : k.sndNxt ≠ 0 → fin = k.sndNxt) (next : TcpState)
      (pending : k.finPending)
      (state : next = if k.state = .closeWait then .lastAck else k.state) :
      Transition .progress (some fin) k { k.sendFin with state := next }
  | reset {e : Cause} {k : Core} (cause : (∃ a, e = .segment true a) ∨ e = .reset) :
      Transition e none k { k with state := .closed }
  | expired {k : Core} : Transition .timeout none k { k with state := .closed }
  | abandoned {k : Core} (fin : TcpSeq) (number : k.sndUna ≠ 0 → fin = k.sndUna)
      (state : k.state = .closeWait) :
      Transition .timeout (some fin) k
        { k with state := .lastAck, sndNxt := advance k.sndUna 1, finPending := false,
                 finSent := true }
  | sent {k : Core} (sndNxt : TcpSeq)
      (state : k.state = .synSent ∨ k.state = .established ∨ k.state = .closeWait ∨
        k.state = .finWait1 ∧ k.finPending) :
      Transition .progress none k { k with sndNxt := sndNxt }

namespace TcpConnection

variable {C : Type}

variable (c : TcpConnection C)

/-- The check moves nothing but the timestamps. -/
theorem observeInboundTimestamp_eq (flags : TcpSegmentFlags) (timestamp : Option TcpSeq)
    (sequence : TcpSeq) (payloadLen : ℕ) (now : Instant) : ∃ timestamps timely,
    c.observeInboundTimestamp flags timestamp sequence payloadLen now =
      ({ c with timestamps := timestamps }, timely) := by
  unfold observeInboundTimestamp
  split_ifs
  · exact ⟨_, _, rfl⟩
  · exact ⟨_, _, rfl⟩
  · cases timestamp with
    | none => exact ⟨_, _, rfl⟩
    | some tsval => dsimp only; split_ifs <;> exact ⟨_, _, rfl⟩

@[simp] theorem core_applyAck (acknowledgment : TcpSeq) (advertisedWindow : BitVec 16) :
    (c.applyAck acknowledgment advertisedWindow).core = c.core.applyAck acknowledgment := by
  have h : c.core.acceptsAck acknowledgment = c.acceptsAck acknowledgment := rfl
  unfold applyAck Core.applyAck
  rw [h]
  cases c.acceptsAck acknowledgment <;> rfl

variable {now : Instant}

theorem observeInboundTimestamp_again {c c' : TcpConnection C} {flags : TcpSegmentFlags}
    {timestamp : Option TcpSeq} {sequence : TcpSeq} {payloadLen : ℕ}
    (h : (c.observeInboundTimestamp flags timestamp sequence payloadLen now).2 = true)
    (hn : c'.negotiatedOptions = c.negotiatedOptions) (ht : c'.timestamps =
      (c.observeInboundTimestamp flags timestamp sequence payloadLen now).1.timestamps) :
    (c'.observeInboundTimestamp flags timestamp sequence payloadLen now).2 = true := by
  have hself (x : TcpSeq) : gt x x = false := by simp [gt, cmp_eq_ite, distanceTo_self]
  unfold observeInboundTimestamp at h ht ⊢
  rw [hn]
  by_cases hr : flags.rst = true
  · rw [if_pos hr]
  by_cases hneg : (!c.negotiatedOptions.timestamps) = true
  · rw [if_neg hr, if_pos hneg]
  rw [if_neg hr, if_neg hneg] at h ht ⊢
  cases timestamp with
  | none => simp at h
  | some tsval =>
    have hyoung : c'.timestamps.recentRemote.any (gt · tsval) = false := by
      rw [ht]
      dsimp only at h ⊢
      split_ifs at h ⊢ with h1 h2
      · simp [hself]
      · simp only [Bool.or_eq_true, not_or, Bool.not_eq_true] at h2
        exact h2.1.1
    simp only [hyoung, Bool.false_and, Bool.false_eq_true, if_false, Bool.false_or]
    split_ifs <;> rfl

section

variable [CongestionSender C]

theorem observeAckProgress_eq (p : TcpPacket) (acknowledgment : TcpSeq) (now : Instant) :
    ∃ recovery congestion rto flight, c.observeAckProgress p acknowledgment now = { c with
        recovery := recovery
        congestion := congestion
        retransmitTimeout := rto
        bytesInFlightCached := flight } := by
  unfold observeAckProgress
  split
  · exact ⟨_, _, _, _, rfl⟩
  · exact ⟨_, _, _, _, rfl⟩

theorem syncRecoveryTimers_eq (now : Instant) (changed : Bool) :
    ∃ timers, c.syncRecoveryTimers now changed = { c with timers := timers } := by
  unfold syncRecoveryTimers
  split
  · exact ⟨_, rfl⟩
  · exact ⟨_, rfl⟩

/-- Besides the acknowledgment itself, only the recovery, the counters and the timers move. -/
theorem receiveAckWithTimers_eq (p : TcpPacket) (acknowledgment : TcpSeq) (now : Instant) :
    ∃ recovery congestion rto flight dupacks timers, c.receiveAckWithTimers p acknowledgment now =
        { c.applyAck acknowledgment p.advertisedWindow with
          recovery := recovery
          congestion := congestion
          retransmitTimeout := rto
          bytesInFlightCached := flight
          receivedDupacks := dupacks
          probesSent := 0
          timers := timers } := by
  obtain ⟨recovery, congestion, rto, flight, hp⟩ := c.observeAckProgress_eq p acknowledgment now
  have hack : (c.observeAckProgress p acknowledgment now).applyAck acknowledgment
      p.advertisedWindow = { c.applyAck acknowledgment p.advertisedWindow with
        recovery := recovery
        congestion := congestion
        retransmitTimeout := rto
        bytesInFlightCached := flight } := by
    rw [hp]
    unfold applyAck
    have h : acceptsAck { c with
        recovery := recovery
        congestion := congestion
        retransmitTimeout := rto
        bytesInFlightCached := flight } acknowledgment = c.acceptsAck acknowledgment := rfl
    rw [h]
    cases c.acceptsAck acknowledgment <;> rfl
  unfold receiveAckWithTimers
  dsimp only
  rw [hack]
  split_ifs
  all_goals exact (syncRecoveryTimers_eq (C := C) _ now _).elim fun timers ht =>
    ⟨recovery, congestion, rto, flight, _, timers, ht⟩

@[simp] theorem core_receiveAckWithTimers (p : TcpPacket) (acknowledgment : TcpSeq)
    (now : Instant) :
    (c.receiveAckWithTimers p acknowledgment now).core = c.core.applyAck acknowledgment := by
  obtain ⟨_, _, _, _, _, _, h⟩ := c.receiveAckWithTimers_eq p acknowledgment now
  rw [h]
  exact c.core_applyAck acknowledgment p.advertisedWindow

def finOut (out : Option TcpSegment) : Option TcpSeq :=
  (out.filter (·.flags.fin)).map (·.sequence)

omit [CongestionSender C] in
theorem outputSequence_fin (h : c.sndNxt ≠ 0) : c.outputSequence .FIN_ACK = c.sndNxt :=
  (if_neg Bool.false_ne_true).trans (if_pos h)

theorem receiveSyn_core (sequence : TcpSeq) (advertisedWindow : BitVec 16)
    (capabilities : TcpCapabilities) (timestamp : Option TcpSeq)
    (localCapabilities : TcpCapabilities) (now : Instant) :
    ∃ iss rcvNxt, (c.receiveSyn .SYN sequence advertisedWindow capabilities timestamp 0
      localCapabilities now).1.core = { c.core with
          state := .synRcvd
          iss := iss
          sndUna := iss
          sndNxt := advance iss 1
          rcvNxt := rcvNxt } := by
  obtain ⟨timestamps, timely, hx⟩ := observeInboundTimestamp_eq
    (c.applyPeerHandshakeCapabilities localCapabilities capabilities) .SYN timestamp sequence 0 now
  refine ⟨if c.iss = 0 then 1 else c.iss, advance sequence (1 + 0), ?_⟩
  unfold receiveSyn
  dsimp only
  rw [hx]
  rfl

def segmentCause (p : TcpPacket) : Cause := .segment p.flags.rst p.acknowledgment

theorem acceptOpenReply_transition (p : TcpPacket) (localCapabilities : TcpCapabilities)
    (now : Instant) (hs : c.state = .synSent) (hr : p.flags.rst = false)
    (hack : ∀ a, p.acknowledgment = some a → gt a c.iss) :
    Transition (segmentCause p) (finOut (c.acceptOpenReply p localCapabilities now).2) c.core
      (c.acceptOpenReply p localCapabilities now).1.core := by
  obtain ⟨timestamps, timely, hx⟩ := observeInboundTimestamp_eq
    (c.applyPeerHandshakeCapabilities localCapabilities p.capabilities)
    p.flags p.timestamp p.sequence p.payloadLen now
  unfold acceptOpenReply
  dsimp only
  rw [hx]
  cases timely with
  | false => exact .idle
  | true =>
    simp only [Bool.not_true, Bool.false_eq_true, if_false]
    split
    · next a ha =>
      rw [segmentCause, hr, ha]
      split
      · exact .received (advance p.sequence 1)
      · exact .opened (k := c.core) (advance p.sequence 1) hs (hack a ha)
    · next ha =>
      rw [segmentCause, hr, ha]
      exact .openedBoth (k := c.core) (advance p.sequence 1) hs

variable {x : TcpConnection C × Option TcpSegment} {p : TcpPacket}

theorem receiveOpenReply_transition {c : TcpConnection C} {localCapabilities : TcpCapabilities}
    (h : c.receiveOpenReply p localCapabilities now = .ok x) :
    Transition (segmentCause p) (finOut x.2) c.core x.1.core := by
  unfold receiveOpenReply at h
  split at h
  · cases h
  · next hs =>
    simp only [ne_eq, not_not] at hs
    dsimp only at h
    split at h
    · split at h <;> cases h <;> exact .idle
    · next hout =>
      split at h
      · next hr =>
        split at h <;> cases h
        · exact .reset (Or.inl ⟨p.acknowledgment, by rw [segmentCause, hr]⟩)
        · exact .idle
      · next hr =>
        split at h
        · cases h
          exact .idle
        · cases h
          refine acceptOpenReply_transition c p localCapabilities now hs (by simpa using hr) ?_
          intro a ha
          rw [ha] at hout
          have hle : le a c.iss = false := by
            by_contra hle
            simp [Option.filter, hle] at hout
          rw [gt_eq_not_le, hle]
          rfl

omit [CongestionSender C] in
theorem receiveFinalAck_core {c : TcpConnection C} (h : c.receiveFinalAck p now = .ok x) :
    c.state = .synRcvd ∧ finOut x.2 = none ∧
      ((c.observeInboundTimestamp p.flags p.timestamp p.sequence p.payloadLen now).2 = false ∧
          x.1.core = c.core ∨
        p.flags.rst = true ∧ x.1.core = { c.core with state := .closed } ∨
        p.flags.rst = false ∧ x.1.core = c.core.finalAck p.acknowledgment) := by
  obtain ⟨timestamps, timely, hx⟩ :=
    c.observeInboundTimestamp_eq p.flags p.timestamp p.sequence p.payloadLen now
  unfold receiveFinalAck at h
  rw [hx] at h ⊢
  set d := { c with timestamps := timestamps }
  split at h
  · cases h
  next hs =>
  refine ⟨not_not.mp hs, ?_⟩
  cases timely with
  | false => cases h; exact ⟨rfl, Or.inl ⟨rfl, rfl⟩⟩
  | true =>
    simp only [Bool.not_true, Bool.false_eq_true, if_false] at h
    split at h
    · next hr =>
      cases h
      exact ⟨rfl, Or.inr (Or.inl ⟨hr, rfl⟩)⟩
    next hr =>
    suffices hfinal : finOut x.2 = none ∧ x.1.core = d.core.finalAck p.acknowledgment from
      ⟨hfinal.1, Or.inr (Or.inr ⟨by simpa using hr, hfinal.2⟩)⟩
    split at h
    · next hn =>
      cases h
      rw [hn]
      exact ⟨rfl, rfl⟩
    · next a ha =>
      rw [ha]
      split at h
      · next hno =>
        cases h
        exact ⟨rfl, (if_neg (by simpa using hno : ¬d.acceptsAck a = true)).symm⟩
      · next hyes =>
        cases h
        have hyes' : d.acceptsAck a = true := by simpa using hyes
        have hack := d.core_applyAck a p.advertisedWindow
        rw [Core.applyAck, if_pos (show d.core.acceptsAck a = true from hyes')] at hack
        refine ⟨rfl, Eq.trans ?_ (if_pos hyes').symm⟩
        exact congrArg (fun k : Core => { k with state := .established }) hack

theorem finalAck_transition {c : Core} (hs : c.state = .synRcvd) (hr : p.flags.rst = false) :
    Transition (segmentCause p) none c (c.finalAck p.acknowledgment) := by
  rw [segmentCause, hr]
  cases p.acknowledgment with
  | none => exact .idle
  | some a =>
    unfold Core.finalAck
    dsimp only
    split
    · next ha => exact .accepted hs ha
    · exact .idle

omit [CongestionSender C] in
theorem receiveFinalAck_transition {c : TcpConnection C} (h : c.receiveFinalAck p now = .ok x) :
    Transition (segmentCause p) (finOut x.2) c.core x.1.core := by
  obtain ⟨hs, hout, hx⟩ := receiveFinalAck_core h
  rw [hout]
  rcases hx with ⟨_, hx⟩ | ⟨hr, hx⟩ | ⟨hr, hx⟩
  · rw [hx]
    exact .idle
  · rw [hx]
    exact .reset (Or.inl ⟨p.acknowledgment, by rw [segmentCause, hr]⟩)
  · rw [hx]
    exact finalAck_transition hs hr

theorem receiveAckOf_core (p : TcpPacket) (now : Instant) :
    (c.receiveAckOf p now).core = c.core.ack p.acknowledgment ∧
      (c.receiveAckOf p now).timestamps = c.timestamps ∧
      (c.receiveAckOf p now).negotiatedOptions = c.negotiatedOptions := by
  unfold receiveAckOf
  cases p.acknowledgment with
  | none => exact ⟨rfl, rfl, rfl⟩
  | some a =>
    obtain ⟨_, _, _, _, _, _, h⟩ := c.receiveAckWithTimers_eq p a now
    refine ⟨c.core_receiveAckWithTimers p a now, ?_⟩
    dsimp only
    rw [h]
    unfold applyAck
    split <;> exact ⟨rfl, rfl⟩

/-- The state that an acknowledgment of all that was sent leads to. -/
def closeNext (state : TcpState) (finSent finReceived : Bool) : TcpState :=
  match state with
  | .finWait1 => if finSent then (if finReceived then .closed else .finWait2) else .finWait1
  | .closing => .timeWait
  | .lastAck => if finSent then .closed else .lastAck
  | state => state

theorem closeNext_cases {state next : TcpState} {finSent finReceived : Bool}
    (h : next = closeNext state finSent finReceived) (hne : next ≠ state) :
    state = .finWait1 ∧ finSent ∧ next = (if finReceived then .closed else .finWait2) ∨
      state = .closing ∧ next = .timeWait ∨ state = .lastAck ∧ finSent ∧ next = .closed := by
  cases state <;> simp_all [closeNext]

omit [CongestionSender C] in
theorem closeSideByState_eq {c : TcpConnection C} {covered : Bool} (p : TcpPacket) (now : Instant)
    (hs : c.state ≠ .synRcvd)
    (hc : (p.acknowledgment.any fun a => c.acceptsAck a && a == c.sndNxt) = covered) :
    ∃ next timers control,
      c.closeSideByState p now = .ok ({ c with state := next, timers := timers }, control) ∧
      finOut control = none ∧
      next = if covered then closeNext c.state c.finSent c.finReceived else c.state := by
  unfold closeSideByState
  rw [hc]
  cases hst : c.state with
  | synRcvd => exact absurd hst hs
  | _ =>
    dsimp only
    split_ifs <;> exact ⟨_, _, _, rfl, rfl, by simp_all [closeNext]⟩

omit [CongestionSender C] in
theorem closeSideByState_transition {c d : TcpConnection C} (hs : c.state ≠ .synSent)
    (hr : p.flags.rst = false) (hd : d.core = c.core.ack p.acknowledgment)
    (ht : (d.observeInboundTimestamp p.flags p.timestamp p.sequence p.payloadLen now).2 = true)
    (h : d.closeSideByState p now = .ok x) :
    Transition (segmentCause p) (finOut x.2) c.core x.1.core := by
  obtain ⟨una, huna⟩ := c.core.ack_eq p.acknowledgment
  have hcore : d.core = { c.core with sndUna := una } := hd.trans huna
  have hstate : d.state = c.core.state := congrArg Core.state hcore
  by_cases hsyn : c.core.state = .synRcvd
  · unfold closeSideByState at h
    rw [hstate, hsyn] at h
    obtain ⟨_, hout, hres⟩ := receiveFinalAck_core h
    rw [hout]
    rcases hres with ⟨hlate, _⟩ | ⟨hrst, _⟩ | ⟨_, hres⟩
    · rw [ht] at hlate
      cases hlate
    · rw [hr] at hrst
      cases hrst
    · rw [hres, hd, Core.finalAck_ack]
      exact finalAck_transition hsyn hr
  obtain ⟨next, timers, control, heq, hout, hnext⟩ :=
    closeSideByState_eq p now (fun hst => hsyn (hstate.symm.trans hst)) rfl
  rw [h] at heq
  cases heq
  rw [hout, segmentCause, hr]
  show Transition _ none c.core { d.core with state := next }
  by_cases hstay : next = c.core.state
  · rw [hstay, hcore]
    exact (hd.symm.trans hcore) ▸ .acked ⟨hs, hsyn⟩
  · split at hnext
    · next hacked =>
      have hsame : d.finSent = c.core.finSent ∧ d.finReceived = c.core.finReceived :=
        ⟨congrArg Core.finSent hcore, congrArg Core.finReceived hcore⟩
      rw [hstate, hsame.1, hsame.2] at hnext
      rw [hd]
      cases ha : p.acknowledgment with
      | none => rw [ha] at hacked; cases hacked
      | some a =>
        rw [ha] at hacked
        simp only [Option.any_some, Bool.and_eq_true, beq_iff_eq] at hacked
        exact .finAcked next (closeNext_cases hnext hstay)
          (hacked.2.trans (congrArg Core.sndNxt hcore))
    · exact absurd (hnext.trans hstate) hstay

theorem receiveCloseSide_transition {c : TcpConnection C} (hs : c.state ≠ .synSent)
    (h : c.receiveCloseSide p now = .ok x) :
    Transition (segmentCause p) (finOut x.2) c.core x.1.core := by
  obtain ⟨timestamps, timely, hx⟩ :=
    c.observeInboundTimestamp_eq p.flags p.timestamp p.sequence p.payloadLen now
  unfold receiveCloseSide at h
  rw [hx] at h
  cases timely with
  | false => cases h; exact .idle
  | true =>
    simp only [Bool.not_true, Bool.false_eq_true, if_false] at h
    split at h
    · next hr =>
      cases h
      exact .reset (Or.inl ⟨p.acknowledgment, by rw [segmentCause, hr]⟩)
    · next hr =>
      obtain ⟨hcore, hts, hneg⟩ :=
        receiveAckOf_core (observeActivity { c with timestamps := timestamps }) p now
      refine closeSideByState_transition hs (by simpa using hr) hcore ?_ h
      exact observeInboundTimestamp_again (c := c) (by rw [hx]) hneg (hts.trans (by rw [hx]; rfl))

theorem receiveEstablishedWithTimers_transition {c : TcpConnection C}
    (h : c.receiveEstablishedWithTimers p now = .ok x) :
    Transition (segmentCause p) (finOut x.2) c.core x.1.core := by
  unfold receiveEstablishedWithTimers at h
  split at h
  · cases h
  next hs =>
  have hs' : c.state = .established := not_not.mp hs
  split at h
  · exact receiveCloseSide_transition (by rw [hs']; decide) h
  next hr =>
  have hr' : p.flags.rst = false := by simpa using hr
  obtain ⟨timestamps, timely, hx⟩ :=
    c.observeInboundTimestamp_eq p.flags p.timestamp p.sequence p.payloadLen now
  rw [hx] at h
  cases timely with
  | false => cases h; exact .idle
  | true =>
    simp only [Bool.not_true, Bool.false_eq_true, if_false] at h
    rw [segmentCause, hr']
    split at h
    · next a ha =>
      cases h
      rw [ha, core_receiveAckWithTimers]
      refine Transition.acked (k := c.core) (a := some a) ?_
      rw [show c.core.state = .established from hs']
      decide
    · next ha =>
      cases h
      exact .idle

omit [CongestionSender C]

theorem processFinAfterPayload_transition (p : TcpPacket) :
    Transition (.fin p.flags.fin (advance p.sequence p.payloadLen))
      (finOut (c.processFinAfterPayload p).2) c.core (c.processFinAfterPayload p).1.core := by
  unfold processFinAfterPayload
  split
  · exact .idle
  next hfin =>
  have hpos : p.flags.fin = true ∧ advance p.sequence p.payloadLen = c.rcvNxt := by
    simpa using hfin
  rw [hpos.1, show advance p.sequence p.payloadLen = c.core.rcvNxt from hpos.2]
  cases hs : c.state with
  | established => exact .finConsumed .closeWait (Or.inl ⟨hs, rfl⟩)
  | finWait1 =>
    by_cases hpend : c.finPending = true
    · rw [if_pos hpend]
      exact .finConsumed .finWait1 (Or.inr (Or.inl ⟨hs, hpend, rfl⟩))
    · have hpend' : (!c.core.finPending) = true := by
        rw [show c.core.finPending = false from Bool.eq_false_of_not_eq_true hpend]
        rfl
      split_ifs
      · exact .finConsumed .timeWait (Or.inr (Or.inr (Or.inl ⟨hs, hpend', Or.inl rfl⟩)))
      · exact .finConsumed .closing (Or.inr (Or.inr (Or.inl ⟨hs, hpend', Or.inr rfl⟩)))
  | finWait2 => exact .finConsumed .timeWait (Or.inr (Or.inr (Or.inr ⟨hs, rfl⟩)))
  | closed | listen | synSent | synRcvd | closeWait | closing | lastAck | timeWait => exact .idle

theorem receivePayload_transition (delivery : RxDelivery) :
    Transition .progress none c.core (c.receivePayload delivery).core := by
  cases delivery with
  | notAccepted => exact .idle
  | inOrder accepted promoted =>
    exact .received (advance c.rcvNxt (satAdd U32_MAX accepted promoted))
  | outOfOrder accepted newest =>
    cases newest <;> exact .idle

theorem onSessionClose_transition (txQueued : Bool) :
    Transition .close (finOut (c.onSessionClose txQueued).2) c.core
      (c.onSessionClose txQueued).1.core := by
  unfold onSessionClose
  cases hs : c.state with
  | synRcvd => exact .closed _ c.outputSequence_fin .finWait1 (Or.inl ⟨Or.inl hs, rfl⟩)
  | established =>
    cases txQueued with
    | true => exact .closeRequested .finWait1 (Or.inl ⟨hs, rfl⟩)
    | false => exact .closed _ c.outputSequence_fin .finWait1 (Or.inl ⟨Or.inr hs, rfl⟩)
  | closeWait =>
    cases txQueued with
    | true => exact .closeRequested .closeWait (Or.inr ⟨hs, rfl⟩)
    | false => exact .closed _ c.outputSequence_fin .lastAck (Or.inr ⟨hs, rfl⟩)
  | finWait1 =>
    have h : Transition .close none c.core { c.core with state := .finWait1 } := by
      rw [← hs]
      exact .idle
    exact h
  | closed | listen | synSent | finWait2 | closing | lastAck | timeWait => exact .idle

theorem sendPendingFin_transition (hp : c.finPending = true) :
    Transition .progress (finOut c.sendPendingFin.2) c.core c.sendPendingFin.1.core := by
  have h := Transition.drained (k := c.core) _ c.outputSequence_fin _ hp rfl
  unfold sendPendingFin sendFin
  dsimp only
  split
  · next hs =>
    rw [if_pos (show c.core.state = .closeWait from hs)] at h
    exact h
  · next hs =>
    rw [if_neg (show ¬c.core.state = .closeWait from hs)] at h
    exact h

theorem onWaitCloseTimerExpiry_transition :
    Transition .timeout (finOut c.onWaitCloseTimerExpiry.2) c.core
      c.onWaitCloseTimerExpiry.1.core := by
  unfold onWaitCloseTimerExpiry
  cases hs : c.state with
  | closeWait =>
    split_ifs with hpend
    · exact .abandoned _ (outputSequence_fin { c.resetAllTimers with
        sndNxt := c.sndUna, state := .lastAck, finPending := false, finSent := true }) hs
    · exact .expired
  | finWait1 =>
    split_ifs with hpend
    · exact .expired
    · exact .expired
  | finWait2 | closing | lastAck | timeWait => exact .expired
  | closed | listen | synSent | synRcvd | established => exact .idle

theorem dataCapable_iff {c : TcpConnection C} : c.dataCapable = true ↔
    c.state = .established ∨ c.state = .closeWait ∨ c.state = .finWait1 ∧ c.finPending = true := by
  simp [dataCapable, or_assoc]

variable [CongestionSender C]

theorem core_applyPathMtu (pathMtu : ℕ) : (c.applyPathMtu pathMtu).core = c.core := by
  unfold applyPathMtu
  dsimp only
  split_ifs <;> rfl

theorem commitPayloadTx_transition {c d : TcpConnection C} {payloadLen : ℕ} {appLimited : Bool}
    (h : c.commitPayloadTx payloadLen now appLimited = .ok d) :
    Transition .progress none c.core d.core := by
  unfold commitPayloadTx at h
  split at h
  · next hs =>
    split_ifs at h
    · cases h
      exact .idle
    · cases h
      exact .sent _ (Or.inl hs)
  next hs =>
  split at h
  · cases h
  next hcap =>
  have hcap' := dataCapable_iff.mp (by simpa using hcap)
  dsimp only at h
  split_ifs at h
  all_goals cases h
  · exact .idle
  · exact .sent _ (Or.inr hcap')
  · exact .idle
  · exact .sent _ (Or.inr hcap')

theorem core_rearmAfterExpiry (kind : TcpTimerKind) (now : Instant) :
    (c.rearmAfterExpiry kind now).core = c.core := by
  unfold rearmAfterExpiry
  cases kind with
  | persist | pacing => dsimp only; split_ifs <;> rfl
  | retransmit | rack | tlp | delayedAck | keepAlive | waitClose => rfl

theorem timerExpiryAction_transition (kind : TcpTimerKind) (now : Instant)
    (hfin : c.state = .closing ∨ c.state = .lastAck → c.finSent = true) :
    Transition .timeout (finOut (c.timerExpiryAction kind now).2.segment) c.core
      (c.timerExpiryAction kind now).1.core := by
  unfold timerExpiryAction
  cases kind with
  | retransmit =>
    unfold onRetransmitTimerExpiry
    dsimp only
    split
    · exact .idle
    split
    · split <;> exact .idle
    next hsent =>
    split
    · next hst =>
      simp only [Bool.or_eq_true, decide_eq_true_eq] at hst
      refine .resendFin (k := c.core) (show c.finSent = true from ?_)
      rcases hst with (hst | hst) | hst
      · simpa [hst] using hsent
      · exact hfin (Or.inl hst)
      · exact hfin (Or.inr hst)
    · exact .idle
  | rack =>
    unfold onRackTimerExpiry
    dsimp only
    split_ifs <;> exact .idle
  | tlp =>
    unfold onTlpTimerExpiry
    split_ifs <;> exact .idle
  | delayedAck =>
    unfold onDelayedAckTimerExpiry
    split_ifs <;> exact .idle
  | persist =>
    unfold onPersistTimerExpiry
    dsimp only
    split_ifs <;> exact .idle
  | keepAlive =>
    unfold onKeepaliveTimerExpiry
    split_ifs
    · exact .idle
    · exact .expired
    · exact .idle
  | waitClose => exact c.onWaitCloseTimerExpiry_transition
  | pacing => exact .idle

theorem onTypedTimerExpiry_transition (kind : TcpTimerKind) (now : Instant)
    (hfin : c.state = .closing ∨ c.state = .lastAck → c.finSent = true) :
    Transition .timeout (finOut (c.onTypedTimerExpiry kind now).2.segment) c.core
      (c.onTypedTimerExpiry kind now).1.core := by
  unfold onTypedTimerExpiry
  split
  · exact .idle
  · rw [core_rearmAfterExpiry]
    exact c.timerExpiryAction_transition kind now hfin

end

end TcpConnection

/-- What happens to a connection after it was opened. -/
inductive Event (C : Type) where
  | openReply (p : TcpPacket) (localCapabilities : TcpCapabilities) (now : Instant)
  | finalAck (p : TcpPacket) (now : Instant)
  | established (p : TcpPacket) (now : Instant)
  | closeSide (p : TcpPacket) (now : Instant)
  | payload (delivery : TcpConnection.RxDelivery)
  | fin (p : TcpPacket)
  | close (txQueued : Bool)
  | reset
  | expiry (kind : TcpTimerKind) (now : Instant)
  | send (offset : Option ℕ) (payloadLen : ℕ) (now : Instant) (appLimited : Bool)
  | drained
  | pathMtu (pathMtu : ℕ)
  /-- Any method that leaves the state, the sequence variables and the FIN flags alone. -/
  | bookkeeping (d : TcpConnection C)

namespace Event

variable {C : Type}

def cause : Event C → Cause
  | .openReply p _ _ => TcpConnection.segmentCause p
  | .finalAck p _ => TcpConnection.segmentCause p
  | .established p _ => TcpConnection.segmentCause p
  | .closeSide p _ => TcpConnection.segmentCause p
  | .fin p => .fin p.flags.fin (advance p.sequence p.payloadLen)
  | .close _ => .close
  | .reset => .reset
  | .expiry _ _ => .timeout
  | _ => .progress

end Event

namespace TcpConnection

variable {C : Type} [CongestionSender C]

/-- The connection after an event and the segment the event hands to output. A method that fails
leaves the connection as it was. -/
def handle (c : TcpConnection C) : Event C → TcpConnection C × Option TcpSegment
  | .openReply p localCapabilities now =>
    (c.receiveOpenReply p localCapabilities now).toOption.getD (c, none)
  | .finalAck p now => (c.receiveFinalAck p now).toOption.getD (c, none)
  | .established p now => (c.receiveEstablishedWithTimers p now).toOption.getD (c, none)
  | .closeSide p now =>
    -- tcp-input sends no segment of a SYN-SENT connection to tcp-rcv-process
    if c.state = .synSent then (c, none)
    else (c.receiveCloseSide p now).toOption.getD (c, none)
  | .payload delivery => (c.receivePayload delivery, none)
  | .fin p => c.processFinAfterPayload p
  | .close txQueued => c.onSessionClose txQueued
  | .reset => c.reset
  | .expiry kind now =>
    let (c, outcome) := c.onTypedTimerExpiry kind now
    (c, outcome.segment)
  | .send offset payloadLen now appLimited =>
    let c := match offset with
      | some offset => { c with txIntentSequence := some (advance c.sndUna offset) }
      | none => c
    ((c.commitPayloadTx payloadLen now appLimited).toOption.getD c, none)
  | .drained => if c.finPending then c.sendPendingFin else (c, none)
  | .pathMtu pathMtu => (c.applyPathMtu pathMtu, none)
  | .bookkeeping d =>
    ({ d with
      state := c.state
      iss := c.iss
      sndUna := c.sndUna
      sndNxt := c.sndNxt
      rcvNxt := c.rcvNxt
      finPending := c.finPending
      finSent := c.finSent
      finReceived := c.finReceived }, none)

theorem handle_transition (c : TcpConnection C) (e : Event C)
    (hfin : c.state = .closing ∨ c.state = .lastAck → c.finSent = true) :
    Transition e.cause (finOut (c.handle e).2) c.core (c.handle e).1.core := by
  have hok {f : Except TcpConnectionError (TcpConnection C × Option TcpSegment)} {k : Cause}
      (h : ∀ x, f = .ok x → Transition k (finOut x.2) c.core x.1.core) :
      Transition k (finOut (f.toOption.getD (c, none)).2) c.core
        (f.toOption.getD (c, none)).1.core := by
    cases f with
    | error _ => exact .idle
    | ok x => exact h x rfl
  cases e with
  | openReply p localCapabilities now => exact hok fun _ => receiveOpenReply_transition
  | finalAck p now => exact hok fun _ => receiveFinalAck_transition
  | established p now => exact hok fun _ => receiveEstablishedWithTimers_transition
  | closeSide p now =>
    by_cases hs : c.state = .synSent
    · rw [show c.handle (.closeSide p now) = (c, none) from if_pos hs]
      exact .idle
    · rw [show c.handle (.closeSide p now) =
        (c.receiveCloseSide p now).toOption.getD (c, none) from if_neg hs]
      exact hok fun _ => receiveCloseSide_transition hs
  | payload delivery => exact c.receivePayload_transition delivery
  | fin p => exact c.processFinAfterPayload_transition p
  | close txQueued => exact c.onSessionClose_transition txQueued
  | reset =>
    have hout : finOut c.reset.2 = none := by
      unfold reset
      split <;> rfl
    show Transition .reset (finOut c.reset.2) c.core c.reset.1.core
    rw [hout]
    exact .reset (Or.inr rfl)
  | expiry kind now => exact c.onTypedTimerExpiry_transition kind now hfin
  | send offset payloadLen now appLimited =>
    dsimp only [handle]
    cases offset with
    | none =>
      cases h : c.commitPayloadTx payloadLen now appLimited with
      | error _ => exact .idle
      | ok d => exact commitPayloadTx_transition h
    | some offset =>
      cases h : commitPayloadTx { c with txIntentSequence := some (advance c.sndUna offset) }
        payloadLen now appLimited with
      | error _ => exact .idle
      | ok d =>
        have := commitPayloadTx_transition h
        exact this
  | drained =>
    by_cases hp : c.finPending = true
    · rw [show c.handle .drained = c.sendPendingFin from if_pos hp]
      exact c.sendPendingFin_transition hp
    · rw [show c.handle .drained = (c, none) from if_neg hp]
      exact .idle
  | pathMtu pathMtu =>
    rw [show (c.handle (.pathMtu pathMtu)).1.core = c.core from c.core_applyPathMtu pathMtu]
    exact .idle
  | bookkeeping d => exact .idle

end TcpConnection

/-- A connection with the number that the last FIN it sent carries, and the number of the FIN it
consumed. -/
structure Machine (C : Type) where
  connection : TcpConnection C
  ownFin : Option TcpSeq
  peerFin : Option TcpSeq

/-- What a run keeps about the FINs and the open. -/
structure Sound (k : Core) (ownFin peerFin : Option TcpSeq) : Prop where
  unacked : k.state = .synSent ∨ k.state = .synRcvd → k.sndUna = k.iss
  pending : k.finPending = true →
    k.state = .finWait1 ∨ k.state = .closeWait ∨ k.state = .closed
  /-- The output never numbers a FIN with zero. -/
  ownFin : k.finSent = true →
    ∃ fin, ownFin = some fin ∧ (k.sndNxt ≠ 1 → k.sndNxt = advance fin 1)
  sentOnce : k.finSent = true → k.finPending = false ∧ k.state ≠ .synSent ∧
    k.state ≠ .synRcvd ∧ k.state ≠ .established ∧ k.state ≠ .closeWait
  finWait1 : k.state = .finWait1 → k.finPending = true ∨ k.finSent = true
  closing : k.state = .closing ∨ k.state = .lastAck → k.finSent = true
  received : k.state = .closeWait ∨ k.state = .closing ∨ k.state = .timeWait →
    k.finReceived = true
  peerFin : k.finReceived = true → peerFin.isSome = true

/-- A segment with a FIN at `rcvNxt` moved it by one. -/
def peerFinAfter (e : Cause) (k k' : Core) (peerFin : Option TcpSeq) : Option TcpSeq :=
  if e = .fin true k.rcvNxt ∧ k'.rcvNxt = advance k.rcvNxt 1 then some k.rcvNxt else peerFin

theorem peerFinAfter_isSome {e : Cause} {k k' : Core} {peerFin : Option TcpSeq}
    (h : peerFin.isSome = true) : (peerFinAfter e k k' peerFin).isSome = true := by
  unfold peerFinAfter
  split
  · rfl
  · exact h

variable {next : TcpState} {e : Cause} {k k' : Core}
  {ownFin peerFin peerFin' : Option TcpSeq} {a : TcpSeq}

theorem advance_of_number {fin sndNxt : TcpSeq} (number : sndNxt ≠ 0 → fin = sndNxt) :
    advance sndNxt 1 ≠ 1 → advance sndNxt 1 = advance fin 1 := by
  intro hne
  have hzero : sndNxt ≠ 0 := fun hz => hne (by rw [hz]; rfl)
  rw [number hzero]

section

variable (h : Sound k ownFin peerFin)
include h

theorem Sound.afterFin (sndUna : TcpSeq) (sent : k.finSent = true)
    (hnext : next = .closed ∨ next = .finWait2 ∨ next = .timeWait ∧ k.finReceived = true) :
    Sound { k with state := next, sndUna := sndUna } ownFin peerFin := by
  refine ⟨?_, fun hp => ?_, h.ownFin, fun _ => ⟨(h.sentOnce sent).1, ?_⟩, ?_, ?_, ?_, h.peerFin⟩
  · rcases hnext with rfl | rfl | ⟨rfl, _⟩ <;> simp
  · exact absurd hp (by simp [(h.sentOnce sent).1])
  · rcases hnext with rfl | rfl | ⟨rfl, _⟩ <;> simp
  · exact fun _ => Or.inr sent
  · exact fun _ => sent
  · rcases hnext with rfl | rfl | ⟨rfl, received⟩
    · simp
    · simp
    · exact fun _ => received

theorem Sound.afterOpen (hs : k.state = .synSent ∨ k.state = .synRcvd)
    (rcvNxt sndUna : TcpSeq) (hnext : next = .established ∨ next = .synRcvd ∧ sndUna = k.sndUna) :
    Sound { k with state := next, sndUna := sndUna, rcvNxt := rcvNxt } ownFin peerFin := by
  have hpending : k.finPending ≠ true := by
    intro hp
    rcases hs with hs | hs <;> simpa [hs] using h.pending hp
  have hsent : k.finSent ≠ true := by
    intro hp
    have hne := (h.sentOnce hp).2
    exact hs.elim hne.1 hne.2.1
  refine ⟨?_, fun hp => absurd hp hpending, fun hp => absurd hp hsent,
    fun hp => absurd hp hsent, ?_, ?_, ?_, h.peerFin⟩
  · rcases hnext with rfl | ⟨rfl, rfl⟩
    · simp
    · exact fun _ => h.unacked hs
  all_goals rcases hnext with rfl | ⟨rfl, _⟩ <;> simp

theorem Sound.afterPeerFin (position : TcpSeq) (state : k.state = .established ∧ next = .closeWait ∨
      k.state = .finWait1 ∧ k.finPending ∧ next = .finWait1 ∨
      k.state = .finWait1 ∧ !k.finPending ∧ (next = .timeWait ∨ next = .closing) ∨
      k.state = .finWait2 ∧ next = .timeWait) :
    Sound (k.consumeFin next) ownFin (some position) := by
  obtain ⟨h1, h2, h3, h4, h5, h6, h7, h8⟩ := h
  constructor <;> grind [Core.consumeFin]

theorem Sound.afterCloseRequest (state : k.state = .established ∧ next = .finWait1 ∨
      k.state = .closeWait ∧ next = .closeWait) :
    Sound { k with state := next, finPending := true } ownFin peerFin := by
  obtain ⟨h1, h2, h3, h4, h5, h6, h7, h8⟩ := h
  constructor <;> grind

theorem Sound.afterOwnFin {fin : TcpSeq} (number : k.sndNxt ≠ 0 → fin = k.sndNxt)
    (state : next = .finWait1 ∨ next = .lastAck ∨ next = .closed ∧ k.state = .closed) :
    Sound { k.sendFin with state := next } (some fin) peerFin := by
  have hfin := advance_of_number number
  obtain ⟨h1, h2, h3, h4, h5, h6, h7, h8⟩ := h
  constructor <;> grind [Core.sendFin]

theorem Sound.afterReset : Sound { k with state := .closed } ownFin peerFin := by
  refine ⟨?_, fun _ => Or.inr (Or.inr rfl), h.ownFin, fun hp => ⟨(h.sentOnce hp).1, ?_⟩, ?_, ?_, ?_,
    h.peerFin⟩ <;> simp

theorem Sound.afterGivingUp {sndNxt fin : TcpSeq} (number : sndNxt ≠ 0 → fin = sndNxt) :
    Sound { k with
      state := .lastAck, sndNxt := advance sndNxt 1, finPending := false, finSent := true }
      (some fin) peerFin := by
  refine ⟨?_, ?_, fun _ => ⟨fin, rfl, advance_of_number number⟩, ?_, ?_, fun _ => rfl, ?_,
    h.peerFin⟩ <;> simp

theorem Sound.afterData (sndNxt : TcpSeq)
    (state : k.state = .synSent ∨ k.state = .established ∨ k.state = .closeWait ∨
      k.state = .finWait1 ∧ k.finPending) :
    Sound { k with sndNxt := sndNxt } ownFin peerFin := by
  have hsent : k.finSent ≠ true := by
    intro hp
    obtain ⟨hpending, hne⟩ := h.sentOnce hp
    rcases state with hs | hs | hs | ⟨_, hp⟩
    · exact hne.1 hs
    · exact hne.2.2.1 hs
    · exact hne.2.2.2 hs
    · exact absurd hp (by simp [hpending])
  exact { h with ownFin := fun hp => absurd hp hsent }

theorem Sound.step {fin : Option TcpSeq} (ht : Transition e fin k k') :
    Sound k' (fin.or ownFin) (peerFinAfter e k k' peerFin) := by
  have hpeer (hr : k.finReceived = true) : (peerFinAfter e k k' peerFin).isSome = true :=
    peerFinAfter_isSome (h.peerFin hr)
  have hs : Sound k ownFin (peerFinAfter e k k' peerFin) := { h with peerFin := hpeer }
  cases ht with
  | idle => exact hs
  | resendFin sent =>
    have hnumber : k.sndNxt = advance (k.sndNxt - 1) 1 := by
      unfold advance
      bv_omega
    exact { hs with ownFin := fun _ => ⟨_, rfl, fun _ => hnumber⟩ }
  | received rcvNxt => exact { hs with }
  | acked state =>
    obtain ⟨una, huna⟩ := k.ack_eq _
    rw [huna] at hs ⊢
    exact { hs with unacked := fun hs => (hs.elim state.1 state.2).elim }
  | opened rcvNxt state above => exact hs.afterOpen (Or.inl state) rcvNxt _ (Or.inl rfl)
  | openedBoth rcvNxt state =>
    exact hs.afterOpen (Or.inl state) rcvNxt k.sndUna (Or.inr ⟨rfl, rfl⟩)
  | accepted state accepts => exact hs.afterOpen (Or.inr state) k.rcvNxt _ (Or.inl rfl)
  | finAcked next state covers =>
    rename_i a
    obtain ⟨una, huna⟩ := k.ack_eq (some a)
    have hack : k.applyAck a = { k with sndUna := una } := huna
    rw [hack] at hs ⊢
    refine hs.afterFin una ?_ ?_
    · rcases state with ⟨_, sent, _⟩ | ⟨hc, _⟩ | ⟨_, sent, _⟩
      · exact sent
      · exact h.closing (Or.inl hc)
      · exact sent
    · rcases state with ⟨_, _, rfl⟩ | ⟨hc, rfl⟩ | ⟨_, _, rfl⟩
      · cases k.finReceived
        · exact Or.inr (Or.inl rfl)
        · exact Or.inl rfl
      · exact Or.inr (Or.inr ⟨rfl, h.received (Or.inr (Or.inl hc))⟩)
      · exact Or.inl rfl
  | finConsumed next state =>
    have hfin : peerFinAfter (.fin true k.rcvNxt) k (k.consumeFin next) peerFin = some k.rcvNxt :=
      if_pos ⟨rfl, rfl⟩
    rw [hfin]
    exact h.afterPeerFin k.rcvNxt state
  | closeRequested next state => exact hs.afterCloseRequest state
  | closed fin number next state =>
    refine hs.afterOwnFin number ?_
    rcases state with ⟨_, rfl⟩ | ⟨_, rfl⟩
    · exact Or.inl rfl
    · exact Or.inr (Or.inl rfl)
  | drained fin number next pending state =>
    refine hs.afterOwnFin number ?_
    rcases h.pending pending with hk | hk | hk <;> rw [state, hk]
    · exact Or.inl rfl
    · exact Or.inr (Or.inl rfl)
    · exact Or.inr (Or.inr ⟨rfl, rfl⟩)
  | reset cause | expired => exact hs.afterReset
  | abandoned fin number state => exact hs.afterGivingUp number
  | sent sndNxt state => exact hs.afterData sndNxt state

end

def Cause.acknowledgment : Cause → Option TcpSeq
  | .segment _ acknowledgment => acknowledgment
  | _ => none

theorem Sound.fin_last {fin : Option TcpSeq} (h : Sound k ownFin peerFin) (ht : Transition e fin k k')
    (hs : k.finSent = true) : k'.finSent = true ∧ k'.sndNxt = k.sndNxt := by
  have hack (a : Option TcpSeq) : (k.ack a).finSent = true ∧ (k.ack a).sndNxt = k.sndNxt := by
    obtain ⟨una, huna⟩ := k.ack_eq a
    rw [huna]
    exact ⟨hs, rfl⟩
  -- the steps that number something start where no FIN is out
  obtain ⟨hpending, hsyn, hrcvd, hest, hwait⟩ := h.sentOnce hs
  cases ht with
  | @acked _ a => exact hack a
  | @finAcked _ a => exact hack (some a)
  | closed | drained | abandoned | sent => simp_all
  | _ => exact ⟨hs, rfl⟩

namespace Machine

variable {C : Type} [CongestionSender C]

def step (m : Machine C) (e : Event C) : Machine C :=
  let (c, out) := m.connection.handle e
  ⟨c, (TcpConnection.finOut out).or m.ownFin,
    peerFinAfter e.cause m.connection.core c.core m.peerFin⟩

def run (m : Machine C) (events : List (Event C)) : Machine C := events.foldl step m

/-- An active open, or a passive one that answers a SYN with a cookie. The passive one of
`accept_fast_open`, whose SYN carries payload, is left out. -/
inductive Opening where
  | active (initialSequence : TcpSeq)
  | passive (cookie sequence : TcpSeq) (advertisedWindow : BitVec 16)
      (capabilities localCapabilities : TcpCapabilities) (timestamp : Option TcpSeq)
      (now : Instant)

def opened (policy : TcpPolicy) (congestion : C) : Opening → Machine C
  | .active initialSequence =>
    ⟨(TcpConnection.new policy congestion).connectState initialSequence, none, none⟩
  | .passive cookie sequence advertisedWindow capabilities localCapabilities timestamp now =>
    ⟨((TcpConnection.new policy congestion).connectState cookie |>.receiveSyn .SYN sequence
      advertisedWindow capabilities timestamp 0 localCapabilities now).1, none, none⟩

def Sound (m : Machine C) : Prop := Tcp.Sound m.connection.core m.ownFin m.peerFin

theorem sound_opened (policy : TcpPolicy) (congestion : C) (o : Opening) :
    (opened policy congestion o).Sound := by
  cases o with
  | active initialSequence =>
    constructor <;> simp [opened, connectState, core, new]
  | passive cookie sequence advertisedWindow capabilities localCapabilities timestamp now =>
    obtain ⟨iss, rcvNxt, hcore⟩ := receiveSyn_core
      ((new policy congestion).connectState cookie) sequence advertisedWindow
      capabilities timestamp localCapabilities now
    have hsound : Tcp.Sound { (new policy congestion).core with
        state := .synRcvd
        iss := iss
        sndUna := iss
        sndNxt := advance iss 1
        rcvNxt := rcvNxt } none none := by
      constructor <;> simp [core, new]
    exact hcore.symm.subst (motive := fun k => Tcp.Sound k none none) hsound

theorem Sound.step {m : Machine C} (h : m.Sound) (e : Event C) : (m.step e).Sound :=
  Tcp.Sound.step h (m.connection.handle_transition e h.closing)

theorem Sound.run {m : Machine C} (h : m.Sound) (events : List (Event C)) :
    (m.run events).Sound := by
  induction events generalizing m with
  | nil => exact h
  | cons e rest ih => exact ih (h.step e)

instance fixedSender : CongestionSender Unit where
  maxDatagramSize _ := 1460
  congestionWindow _ := 14600
  delivered _ := 0
  onAck c _ _ _ _ := c
  onEndAcks c _ _ _ _ := c
  onLoss c _ _ _ := c
  onRecovery c := c
  onRecovered c := c
  onUndoRecovery c := c
  onTailLossProbeAck c _ _ _ := c
  onPacketSent c _ _ _ _ := c
  onMtuUpdate c _ := c
  nextSendDelay _ _ := none
  minRtt _ := none

def samplePolicy : TcpPolicy := ⟨1460, 65535, 8, 1000000000, 200000000, 60000000000, 0, false⟩

def samplePacket (sequence acknowledgment : TcpSeq) (flags : TcpSegmentFlags) : TcpPacket :=
  ⟨sequence, acknowledgment, 1000, flags, .default, [], none, none, 0⟩

/-- An application closes with ten bytes queued; the peer's FIN arrives before the last of them
is acknowledged. -/
def closeWithQueuedBytes : List (Event Unit) :=
  [.openReply (samplePacket 500 101 .SYN_ACK) .default 0, .send none 10 0 false, .close true,
    .fin (samplePacket 501 101 .FIN_ACK), .closeSide (samplePacket 502 111 .ACK) 0, .drained]

/-- Nothing is numbered after the FIN: once it is sent, `snd_nxt` stays right behind it, and so is
the number it carries in every transmission, unless that would be zero. -/
theorem fin_stays_last (policy : TcpPolicy) (congestion : C) (o : Opening)
    (before after : List (Event C))
    (hs : ((opened policy congestion o).run before).connection.finSent = true) :
    let m := (opened policy congestion o).run (before ++ after)
    m.connection.finSent = true ∧
      (∃ fin, m.ownFin = some fin ∧
        (m.connection.sndNxt ≠ 1 → m.connection.sndNxt = advance fin 1)) ∧
      m.connection.sndNxt = ((opened policy congestion o).run before).connection.sndNxt := by
  have hsound (events) := (sound_opened policy congestion o).run events
  induction after using List.reverseRecOn with
  | nil =>
    rw [List.append_nil]
    exact ⟨hs, (hsound before).ownFin hs, rfl⟩
  | append_singleton after e ih =>
    have hm := hsound (before ++ after)
    obtain ⟨hsent, hnxt⟩ := hm.fin_last (handle_transition _ e hm.closing) ih.1
    rw [← List.append_assoc, run, List.foldl_append]
    exact ⟨hsent, (hm.step e).ownFin hsent, hnxt.trans ih.2.2⟩

theorem fin_stays_last_after_ack :
    let m := (opened samplePolicy () (.active 100)).run
      (closeWithQueuedBytes ++ [.closeSide (samplePacket 502 112 .ACK) 0])
    m.connection.finSent = true ∧ m.connection.sndNxt = 112 := by
  obtain ⟨hsent, -, hnxt⟩ := fin_stays_last samplePolicy () (.active 100) closeWithQueuedBytes
    [.closeSide (samplePacket 502 112 .ACK) 0] (by decide +kernel)
  exact ⟨hsent, hnxt.trans (by decide +kernel)⟩

end Machine

end Tcp
