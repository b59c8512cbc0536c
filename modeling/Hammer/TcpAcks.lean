import Hammer.TcpInput
import Hammer.TcpSends

/-! # Pending acknowledgments

A TX event takes the request for an acknowledgment and leaves it to the data it expects to send.
When a segment with the acknowledgment goes out after all.
-/

namespace Tcp

open TcpSeq Recovery TcpConnection TxRun List

namespace TxRun

variable {C : Type} {t t' : TxRun C} {p : Plan} {s s' : Resend C}
  {now : Instant} {pacing : Option Pacing} {n : ℕ} {again : Bool}

theorem pick_sndNxt (p : Plan) (c : TcpConnection C) (noSackSequence : TcpSeq) :
    (p.pick c noSackSequence).1.sndNxt = c.sndNxt := by
  unfold Plan.pick
  split
  · rfl
  · split <;> rfl

theorem sendAck_count (hg : ∀ k, t.grants k = true) :
    t.sendAck.output.length = t.output.length + 1 := by
  unfold sendAck
  dsimp only [alloc, ofConnection]
  rw [hg 0]
  exact length_append

theorem sendAck_endpoint (t : TxRun C) : t.sendAck.endpoint =
    t.endpoint.ofConnection (t.connection.setRcvWnd t.endpoint.rx.maxEnqueue) := by
  unfold sendAck
  dsimp only [alloc]
  split <;> rfl

variable [CongestionSender C]

/-- The range of the first retransmission, as its offset and its length. -/
def Plan.firstRange (p : Plan) (c : TcpConnection C) (sendSpace : ℕ) (noSackSequence : TcpSeq) :
    Option (ℕ × ℕ) :=
  if sendSpace = 0 || (p.sack && sendSpace < p.sendMss) then none
  else
    (p.pick c noSackSequence).2.bind fun x =>
      if p.wanted sendSpace x.1 x.2 = 0 then none
      else some (distanceTo c.sndUna x.2, p.wanted sendSpace x.1 x.2)

/-- Whether the windows let recovery send a new segment. -/
def Plan.newDataFits (p : Plan) (sendSpace peerSpace available : ℕ) : Bool :=
  available ≠ 0 && p.sendMss ≤ sendSpace &&
    (if p.sack then 2 * p.sendMss ≤ peerSpace else p.sendMss ≤ peerSpace && p.sendMss ≤ available)

/-- Whether a recovery burst sends anything: the first range to retransmit has bytes in the FIFO,
or there is no such range and new bytes fit. -/
def resends (t : TxRun C) (now : Instant) (pacing : Option Pacing) (burstSize : ℕ) : Bool :=
  let c := t.connection
  let p := Plan.of c now
  let outstanding := distanceTo c.sndUna c.sndNxt
  Min.min burstSize (burstBytes c pacing burstSize / c.sendMss) ≠ 0 &&
    match p.firstRange c (resendSpace c pacing burstSize) (c.txIntentSequence.getD c.sndUna) with
    | some (offset, length) => t.requestedLen offset length ≠ 0
    | none => p.newDataFits (resendSpace c pacing burstSize) (c.sndWnd - outstanding)
        (t.endpoint.tx.length - outstanding)

theorem round_first (h : p.round s = .ok (s', again)) (hg : ∀ k, s.run.grants k = true) :
    match p.firstRange s.run.connection s.sendSpace s.noSackSequence with
    | some (offset, length) =>
      (s.run.requestedLen offset length ≠ 0 ∧ s'.sent = s.sent + 1) ∨
        (s.run.requestedLen offset length = 0 ∧ s'.sent = s.sent ∧ again = false ∧
          s'.bufferExhausted = true)
    | none => again = false ∧ s'.sent = s.sent ∧ s'.bufferExhausted = s.bufferExhausted ∧
        s'.sendSpace = s.sendSpace ∧ s'.run.connection.sndNxt = s.run.connection.sndNxt := by
  unfold Plan.firstRange
  rcases round_cases h with ⟨hroom, rfl, rfl⟩ | ⟨hroom, c, picked, hpick, hround⟩
  · rw [if_pos (by simpa using hroom)]
    exact ⟨rfl, rfl, rfl, rfl, rfl⟩
  rw [if_neg (by simpa using hroom), hpick]
  have hfixed : c.fixed = s.run.connection.fixed := by
    have hc := pick_fixed p s.run.connection s.noSackSequence
    rwa [hpick] at hc
  have hnxt : c.sndNxt = s.run.connection.sndNxt := by
    have hc := pick_sndNxt p s.run.connection s.noSackSequence
    rwa [hpick] at hc
  have hlen (offset length : ℕ) : (s.run.ofConnection c).requestedLen offset length =
      s.run.requestedLen offset length := by
    unfold requestedLen
    rw [show (s.run.ofConnection c).connection.sendMss = s.run.connection.sendMss from
      congrArg Fixed.sendMss hfixed]
    rfl
  have huna : c.sndUna = s.run.connection.sndUna := congrArg Fixed.sndUna hfixed
  rcases hround with ⟨hzero, rfl, rfl⟩ | ⟨sample, sequence, run, written, rfl, hne, hprep, hround⟩
  · cases picked with
    | none => exact ⟨rfl, rfl, rfl, rfl, hnxt⟩
    | some x =>
      rw [Option.bind_some, if_pos (hzero x.1 x.2 rfl)]
      exact ⟨rfl, rfl, rfl, rfl, hnxt⟩
  · rw [Option.bind_some, if_neg hne]
    have hwritten := prepareSegment_granted hprep hg
    rw [hlen, huna] at hwritten
    rcases hround with ⟨hw, rfl, rfl⟩ | ⟨hw, hacc⟩
    · exact Or.inr ⟨by rw [← hwritten, hw], rfl, rfl, rfl⟩
    · obtain ⟨-, hcount, -⟩ := account_spec (P := fun _ => True) hacc
      exact Or.inl ⟨by rwa [← hwritten], hcount⟩

theorem unsentLoop_first {sendMss m offset sent : ℕ}
    (h : unsentLoop now sendMss m offset t = .ok (t', sent)) (hg : ∀ k, t.grants k = true) :
    sent ≠ 0 ↔ m ≠ 0 ∧ t.requestedLen offset sendMss ≠ 0 := by
  cases m with
  | zero =>
    cases h
    simp
  | succ m =>
    unfold unsentLoop at h
    split at h
    · cases h
    · next t1 written hprep =>
      have hw := prepareSegment_granted hprep hg
      split_ifs at h with hzero
      · cases h
        simp [← hw, hzero]
      · split at h
        · cases h
        · cases h
          simp [← hw, hzero]

theorem transmitUnsent_first {burstSize availableBytes : ℕ}
    (h : t.transmitUnsent now burstSize availableBytes = .ok (t', n))
    (hg : ∀ k, t.grants k = true) :
    n ≠ 0 ↔ burstSize ≠ 0 ∧ t.connection.sendMss ≤
        t.connection.sndWnd - distanceTo t.connection.sndUna t.connection.sndNxt ∧
      t.endpoint.tx.length - distanceTo t.connection.sndUna t.connection.sndNxt ≠ 0 := by
  unfold transmitUnsent at h
  dsimp only at h
  split at h
  · cases h
  · next hmss =>
    have hpos : t.connection.sendMss ≠ 0 := by
      intro hzero
      simp [hzero] at hmss
    rw [unsentLoop_first h hg]
    have hdiv := Nat.div_eq_zero_iff (a := t.connection.sndWnd -
      distanceTo t.connection.sndUna t.connection.sndNxt) (b := t.connection.sendMss)
    generalize (t.connection.sndWnd - distanceTo t.connection.sndUna t.connection.sndNxt) /
      t.connection.sendMss = segments at hdiv ⊢
    unfold requestedLen
    omega

theorem sendRecoveryData_first {maxSegments available outstanding more : ℕ} {left : Bool}
    (h : sendRecoveryData p s maxSegments available outstanding = .ok (t', more, left))
    (hg : ∀ k, s.run.grants k = true) (hs : s.sent = 0) (hmax : maxSegments ≠ 0)
    (hpos : p.sendMss ≠ 0) (hmss : s.run.connection.sendMss = p.sendMss)
    (hout : distanceTo s.run.connection.sndUna s.run.connection.sndNxt = outstanding)
    (havailable : s.run.endpoint.tx.length - outstanding = available) :
    more ≠ 0 ↔ s.bufferExhausted = false ∧
      p.newDataFits s.sendSpace (s.run.connection.sndWnd - outstanding) available = true := by
  unfold sendRecoveryData at h
  unfold Plan.newDataFits
  split at h
  · next hstop =>
    cases h
    simp only [hs, ge_iff_le, Bool.or_eq_true, decide_eq_true_eq] at hstop
    simp only [ne_eq, not_true_eq_false, false_iff, Bool.and_eq_true, decide_eq_true_eq]
    rintro ⟨hb, ⟨ha, hspace⟩, -⟩
    rcases hstop with ((hb' | hmax') | hspace') | ha'
    · rw [hb] at hb'
      cases hb'
    · omega
    · omega
    · exact ha ha'
  · next hstop =>
    simp only [hs, ge_iff_le, Bool.or_eq_true, decide_eq_true_eq, not_or] at hstop
    obtain ⟨⟨⟨hb, -⟩, hspace⟩, ha⟩ := hstop
    have hb' : s.bufferExhausted = false := by simpa using hb
    dsimp only at h
    split at h
    · cases h
    · split at h
      · cases h
      · next run sent hsent =>
        cases h
        rw [transmitUnsent_first hsent hg, hout, hb']
        have hdiv (m : ℕ) := Nat.div_eq_zero_iff (a := m) (b := p.sendMss)
        cases p.sack with
        | true =>
          simp only [if_true, ne_eq, Bool.and_eq_true, decide_eq_true_eq]
          have := hdiv (Min.min (Min.min s.sendSpace (s.run.connection.sndWnd - outstanding -
            p.sendMss)) (Max.max available p.sendMss))
          simp only [true_and]
          omega
        | false =>
          simp only [Bool.false_eq_true, if_false, ne_eq, Bool.and_eq_true, decide_eq_true_eq]
          have := hdiv (Min.min (Min.min s.sendSpace (s.run.connection.sndWnd - outstanding))
            available)
          simp only [true_and]
          omega

theorem retransmitLoop_first {m : ℕ} (h : retransmitLoop p (m + 1) s = .ok s')
    (hg : ∀ k, s.run.grants k = true) :
    match p.firstRange s.run.connection s.sendSpace s.noSackSequence with
    | some (offset, length) =>
      (s.run.requestedLen offset length ≠ 0 ∧ s.sent < s'.sent) ∨
        (s.run.requestedLen offset length = 0 ∧ s'.sent = s.sent ∧ s'.bufferExhausted = true)
    | none => s'.sent = s.sent ∧ s'.bufferExhausted = s.bufferExhausted ∧
        s'.sendSpace = s.sendSpace ∧ s'.run.connection.sndNxt = s.run.connection.sndNxt := by
  unfold retransmitLoop at h
  split at h
  · cases h
  · next s1 hround =>
    have hfirst := round_first hround hg
    have hle := (retransmitLoop_carries h).2.1
    cases hrange : p.firstRange s.run.connection s.sendSpace s.noSackSequence with
    | none =>
      rw [hrange] at hfirst
      cases hfirst.1
    | some x =>
      rw [hrange] at hfirst
      rcases hfirst with ⟨hne, hsent⟩ | ⟨-, -, hagain, -⟩
      · exact Or.inl ⟨hne, by omega⟩
      · cases hagain
  · next s1 hround =>
    cases h
    have hfirst := round_first hround hg
    cases hrange : p.firstRange s.run.connection s.sendSpace s.noSackSequence with
    | none =>
      rw [hrange] at hfirst
      exact hfirst.2
    | some x =>
      rw [hrange] at hfirst
      rcases hfirst with ⟨hne, hsent⟩ | ⟨hzero, hsent, -, hb⟩
      · exact Or.inl ⟨hne, by omega⟩
      · exact Or.inr ⟨hzero, hsent, hb⟩

/-- A recovery burst sends a segment if and only if `resends` says so. -/
theorem retransmit_sends {burstSize : ℕ} (h : t.retransmit now pacing burstSize = .ok (t', n))
    (hg : ∀ k, t.grants k = true) : n ≠ 0 ↔ t.resends now pacing burstSize = true := by
  unfold retransmit at h
  unfold resends
  dsimp only at h ⊢
  split at h
  · cases h
  next hmss =>
  split at h
  · next hmax =>
    cases h
    simp [hmax]
  next hmax =>
  split at h
  · cases h
  next s hloop =>
  split at h
  · cases h
  next t1 more left hnew =>
  have hn : n = s.sent + more := by
    cases h
    rfl
  have hframe := (retransmitLoop_carries hloop).1
  have hdata := fun hs hout => sendRecoveryData_first hnew (hframe.grants hg) hs hmax hmss
    (congrArg Fixed.sendMss hframe.fixed) hout (by rw [hframe.tx])
  obtain ⟨m, hm⟩ := Nat.exists_eq_succ_of_ne_zero hmax
  rw [hm] at hloop
  have hfirst := retransmitLoop_first hloop hg
  rw [hn]
  simp only [hmax, ne_eq, not_false_eq_true, decide_true, Bool.true_and]
  cases hrange : (Plan.of t.connection now).firstRange t.connection
      (resendSpace t.connection pacing burstSize)
      (t.connection.txIntentSequence.getD t.connection.sndUna) with
  | some x =>
    rw [hrange] at hfirst
    rcases hfirst with ⟨hne, hsent⟩ | ⟨hzero, hsent, hb⟩
    · simp only [hne, not_false_eq_true, decide_true, iff_true]
      omega
    · have hmore : more = 0 := by
        unfold sendRecoveryData at hnew
        rw [if_pos (by simp [hb])] at hnew
        cases hnew
        rfl
      simp [hzero, hsent, hmore]
  | none =>
    rw [hrange] at hfirst
    obtain ⟨hsent, hb, hspace, hnxt⟩ := hfirst
    have huna : s.run.connection.sndUna = t.connection.sndUna :=
      congrArg Fixed.sndUna hframe.fixed
    have hwnd : s.run.connection.sndWnd = t.connection.sndWnd :=
      congrArg Fixed.sndWnd hframe.fixed
    have hiff := hdata hsent (by rw [huna, hnxt])
    rw [hb, hspace, hwnd] at hiff
    simp only [true_and] at hiff
    rw [← hiff, hsent]
    simp

/-- A segment that only acknowledges. -/
def Acknowledges (number : TcpSeq) (x : Emitted) : Prop :=
  x.segment.flags = .ACK ∧ x.segment.acknowledgment = number

omit [CongestionSender C] in
theorem sendAck_frame (t : TxRun C) :
    Frame (Acknowledges (t.connection.outputAcknowledgment .ACK)) t t.sendAck := by
  unfold sendAck
  dsimp only [alloc]
  split
  · exact ⟨rfl, rfl, rfl, rfl, fun hg k => hg _, [_], rfl,
      fun x hx => mem_singleton.mp hx ▸ ⟨rfl, rfl⟩⟩
  · exact .of_silent rfl rfl rfl rfl (Or.inr rfl) rfl

omit [CongestionSender C] in
theorem sendAck_iterate (hg : ∀ k, t.grants k = true) (n : ℕ) :
    Frame (Acknowledges (t.connection.outputAcknowledgment .ACK)) t (sendAck^[n] t) ∧
      (sendAck^[n] t).output.length = t.output.length + n ∧
      ∃ rcvWnd, (sendAck^[n] t).endpoint =
        t.endpoint.ofConnection { t.connection with rcvWnd := rcvWnd } := by
  induction n with
  | zero => exact ⟨.refl t, rfl, t.connection.rcvWnd, rfl⟩
  | succ n ih =>
    obtain ⟨hframe, hcount, rcvWnd, hend⟩ := ih
    rw [Function.iterate_succ_apply']
    have hstep := sendAck_frame (sendAck^[n] t)
    have hconn : (sendAck^[n] t).connection = { t.connection with rcvWnd := rcvWnd } :=
      congrArg TcpEndpoint.connection hend
    rw [hconn] at hstep
    refine ⟨hframe.trans hstep, ?_, ?_⟩
    · rw [sendAck_count (hframe.grants hg), hcount]
      omega
    · rw [sendAck_endpoint, hconn, hend]
      exact ⟨_, rfl⟩

end TxRun

namespace TcpEndpoint

variable {C : Type} {e e' : TcpEndpoint C} {x : TxEvent}

theorem programAck_pending (e : TcpEndpoint C) (duplicate : Bool) :
    (e.programAck duplicate).connection.sendAckPending = true ∧
      (e.connection.sendAckPending = false → (e.programAck duplicate).customTx = true) := by
  unfold programAck
  split_ifs with hpending <;> simp_all

variable {t t' : TxRun C}

theorem resends_congr (pending : Bool) (htx : t'.endpoint.tx = t.endpoint.tx)
    (hc : t'.connection = { t.connection with retransmitPending := pending }) (now : Instant)
    (pacing : Option Pacing) (burstSize : ℕ) :
    t'.resends now pacing burstSize = t.resends now pacing burstSize := by
  have hpick (p : TxRun.Plan) (c : TcpConnection C) (q : TcpSeq) :
      (p.pick ({ c with retransmitPending := pending }) q).2 = (p.pick c q).2 := by
    unfold TxRun.Plan.pick
    dsimp only
    split
    · rfl
    · split <;> rfl
  have hlen (offset length : ℕ) : t'.requestedLen offset length = t.requestedLen offset length := by
    unfold requestedLen
    rw [hc, htx]
  have hrange (p : TxRun.Plan) (space : ℕ) (q : TcpSeq) :
      p.firstRange t'.connection space q = p.firstRange t.connection space q := by
    unfold TxRun.Plan.firstRange
    rw [hc, hpick]
  unfold resends
  dsimp only
  rw [hrange, hc, htx]
  simp only [hlen]
  rfl

variable [CongestionSender C]

/-- The bytes that congestion control, or limited transmit, still lets out. -/
def room (c : TcpConnection C) : ℕ :=
  if c.receivedDupacks ≠ 0 || sackedBytes c.recovery ≠ 0 then c.limitedTransmitSpace.2
  else CongestionController.congestionWindow c.congestion - distanceTo c.sndUna c.sndNxt

/-- Whether both windows let a byte out: a peer window below one segment must fit in the room,
otherwise the room must hold a segment or all of the congestion window. -/
def windowOpen (c : TcpConnection C) : Bool :=
  distanceTo c.sndUna c.sndNxt < c.sndWnd &&
    (if c.sndWnd < c.sendMss then c.sndWnd ≤ room c
    else c.sendMss ≤ room c ||
      (room c ≠ 0 && CongestionController.congestionWindow c.congestion ≤ room c))

/-- Whether the burst of a TX event sends data. -/
def burstDue (e : TcpEndpoint C) (x : TxEvent) : Bool :=
  sendable e.connection && !e.connection.recovery.recoveryActive &&
    distanceTo e.connection.sndUna e.connection.sndNxt < e.tx.length && windowOpen (e.sized x) &&
    x.pacing.all (1460 ≤ ·.burst)

variable (c : TcpConnection C)

omit [CongestionSender C] in
theorem limitedTransmitSpace_fst :
    ∃ mark, c.limitedTransmitSpace.1 = { c with limitedTransmit := mark } := by
  unfold limitedTransmitSpace
  dsimp only
  split_ifs <;> exact ⟨_, rfl⟩

section

variable {c : TcpConnection C} (hr : c.recovery.recoveryActive = false) (hs : c.state ≠ .closed)
include hr hs

theorem sendSpace_eq : ∃ mark, c.sendSpace = ({ c with limitedTransmit := mark },
      if c.sndWnd < c.sendMss then if c.sndWnd ≤ room c then c.sndWnd else 0
      else if room c < c.sendMss then
        if room c < CongestionController.congestionWindow c.congestion then 0 else room c
      else room c - room c % c.sendMss) := by
  unfold sendSpace room
  rw [if_neg (by simp [hr, hs])]
  dsimp only
  split
  · obtain ⟨mark, hmark⟩ := limitedTransmitSpace_fst c
    rcases hspace : c.limitedTransmitSpace with ⟨d, available⟩
    rw [hspace] at hmark
    subst hmark
    refine ⟨mark, ?_⟩
    split_ifs <;> rfl
  · refine ⟨c.limitedTransmit, ?_⟩
    split_ifs <;> rfl

theorem sendSpace_ne_zero (hmss : c.sendMss ≠ 0) :
    Min.min c.sendSpace.2 (c.sndWnd - distanceTo c.sndUna c.sndNxt) ≠ 0 ↔ windowOpen c = true := by
  obtain ⟨mark, hspace⟩ := sendSpace_eq hr hs
  rw [hspace]
  unfold windowOpen
  have hmod := Nat.mod_lt (room c) (Nat.pos_of_ne_zero hmss)
  simp only [Bool.and_eq_true, decide_eq_true_eq]
  by_cases hwnd : c.sndWnd < c.sendMss
  · simp only [if_pos hwnd, decide_eq_true_eq]
    split_ifs <;> omega
  · simp only [if_neg hwnd, Bool.or_eq_true, Bool.and_eq_true, decide_eq_true_eq]
    split_ifs <;> omega

end

theorem refreshPathMtu_eq (pathMtu : Option ℕ) :
    ∃ options congestion intent intentLen, refreshPathMtu c pathMtu = { c with
        negotiatedOptions := options
        congestion := congestion
        txIntentSequence := intent
        txIntentPayloadLen := intentLen } := by
  unfold refreshPathMtu applyPathMtu
  split
  · dsimp only
    split_ifs <;> exact ⟨_, _, _, _, rfl⟩
  · exact ⟨_, _, _, _, rfl⟩

variable {segment : TcpSegment} {P : Emitted → Prop} {now : Instant}

theorem pushLoop_frame {appLimited : Bool} (hp : ∀ sequence payload, P ⟨{ segment with
      sequence := sequence, payloadLen := payload.length }, payload⟩) :
    ∀ {payloads : List (List UInt8)} {t t' : TxRun C},
      pushLoop segment now appLimited payloads t = .ok t' →
      TxRun.Frame P t t' ∧ t'.output.length = t.output.length + payloads.length
  | [], t, _, h => by
    cases h
    exact ⟨.refl t, rfl⟩
  | payload :: rest, t, t', h => by
    unfold pushLoop at h
    split at h
    · cases h
    · next c hc =>
      obtain ⟨hframe, hcount⟩ := pushLoop_frame hp h
      have hpush : TxRun.Frame P t ((t.ofConnection c).emit { segment with
          sequence := t.connection.sndNxt, payloadLen := payload.length } payload) :=
        ⟨commitPayloadTx_fixed hc, rfl, rfl, rfl, fun hg => hg, [_], rfl,
          fun y hy => mem_singleton.mp hy ▸ hp _ payload⟩
      refine ⟨hpush.trans hframe, ?_⟩
      rw [hcount]
      show (t.output ++ [_]).length + rest.length = t.output.length + (rest.length + 1)
      rw [length_append, length_singleton]
      omega

omit [CongestionSender C] in
theorem syncPayloadTxTimers_fixed [CongestionSender C] (now : Instant) :
    (c.syncPayloadTxTimers now).fixed = c.fixed := by
  unfold syncPayloadTxTimers
  split <;> rfl

section

variable {payloads : List (List UInt8)} {available : ℕ}
  (hp : ∀ sequence payload, P ⟨{ segment with sequence := sequence, payloadLen := payload.length }, payload⟩)
include hp

theorem pushHeader_frame (h : pushHeader t segment now payloads available = .ok t') :
    TxRun.Frame P t t' ∧ t'.output.length = t.output.length + payloads.length := by
  unfold pushHeader at h
  dsimp only at h
  split at h
  · cases h
  · split at h
    · cases h
    · next t1 hloop =>
      obtain ⟨hframe, hcount⟩ := pushLoop_frame hp hloop
      split at h <;> cases h
      · exact ⟨hframe, hcount⟩
      · exact ⟨hframe.trans (frame_ofConnection (syncPayloadTxTimers_fixed _ _)), hcount⟩

theorem pushBurst_frame (h : pushBurst t segment now payloads available = .ok t')
    (hg : ∀ k, t.grants k = true) :
    TxRun.Frame P t t' ∧ t'.output.length = t.output.length + payloads.length := by
  unfold pushBurst at h
  rw [show t.alloc.2 = true from hg 0] at h
  obtain ⟨hframe, hcount⟩ := pushHeader_frame hp h
  have halloc : TxRun.Frame P t t.alloc.1 := .of_silent rfl rfl rfl rfl (Or.inr rfl) rfl
  exact ⟨halloc.trans hframe, hcount⟩

end

theorem length_burstPayloads (mss : ℕ) :
    ∀ (n : ℕ) (bytes : List UInt8), (burstPayloads mss n bytes).length = n
  | 0, _ => rfl
  | 1, _ => rfl
  | n + 2, bytes => congrArg (· + 1) (length_burstPayloads mss (n + 1) (bytes.drop mss))

theorem sendSpace_fst : ∃ mark, c.sendSpace.1 = { c with limitedTransmit := mark } := by
  unfold sendSpace
  obtain ⟨mark, hmark⟩ := limitedTransmitSpace_fst c
  rcases hspace : c.limitedTransmitSpace with ⟨d, available⟩
  rw [hspace] at hmark
  dsimp only at hmark ⊢
  subst hmark
  split_ifs <;> exact ⟨_, rfl⟩

/-- What a path MTU and the size of a burst leave alone. -/
structure SameFlight (c d : TcpConnection C) : Prop where
  sendable : sendable d = sendable c
  state : d.state = c.state
  rcvNxt : d.rcvNxt = c.rcvNxt
  sndUna : d.sndUna = c.sndUna
  sndNxt : d.sndNxt = c.sndNxt
  sendAckPending : d.sendAckPending = c.sendAckPending
  recovery : d.recovery = c.recovery

theorem refreshed_same (e : TcpEndpoint C) (x : TxEvent) :
    SameFlight e.connection (e.refreshed x) := by
  obtain ⟨options, congestion, intent, intentLen, hmtu⟩ :=
    refreshPathMtu_eq e.connection x.pathMtu
  unfold refreshed
  rw [hmtu]
  exact ⟨rfl, rfl, rfl, rfl, rfl, rfl, rfl⟩

theorem sized_same (e : TcpEndpoint C) (x : TxEvent) : SameFlight e.connection (e.sized x) :=
  { e.refreshed_same x with }

theorem sendParams_cases {params : SendParams} (h : e.sendParams x = .ok (e', params)) :
    (sendable e.connection = false ∧ params.cachedSegment = none ∧
      e' = e.ofConnection (e.refreshed x)) ∨
    (sendable e.connection = true ∧ (e.sized x).sendMss ≠ 0 ∧ ∃ segment,
      (∀ sequence payload, TxRun.Carries e.connection.fixed ⟨{ segment with
        sequence := sequence, payloadLen := payload.length }, payload⟩) ∧
      e' = e.ofConnection (e.sized x).sendSpace.1 ∧
      params = ⟨Min.min (e.sized x).sendSpace.2 ((e.sized x).sndWnd -
          distanceTo e.connection.sndUna e.connection.sndNxt),
        distanceTo e.connection.sndUna e.connection.sndNxt, (e.sized x).sendMss,
        some segment⟩) := by
  have hsame := e.refreshed_same x
  unfold sendParams at h
  dsimp only at h
  rw [hsame.sendable, hsame.sndUna, hsame.sndNxt] at h
  cases hsendable : sendable e.connection with
  | false =>
    rw [hsendable, Bool.not_false, if_pos rfl] at h
    split at h <;> cases h
    exact Or.inl ⟨rfl, rfl, rfl⟩
  | true =>
    rw [hsendable, Bool.not_true, if_neg Bool.false_ne_true] at h
    split at h
    · cases h
    · next segment hseg =>
      split at h
      · cases h
      · next hlen =>
        cases h
        refine Or.inr ⟨rfl, ?_, segment, fun sequence payload => ?_, rfl, rfl⟩
        · unfold sized
          dsimp only
          omega
        · obtain ⟨hack, hflags⟩ := carries_of_txSegment hseg payload
          exact ⟨hack.trans hsame.rcvNxt, fun hs => hflags (hsame.state.trans_ne hs)⟩

theorem windowOpen_iff (hs : sendable e.connection = true)
    (hr : e.connection.recovery.recoveryActive = false) (hmss : (e.sized x).sendMss ≠ 0) :
    Min.min (e.sized x).sendSpace.2 ((e.sized x).sndWnd -
      distanceTo e.connection.sndUna e.connection.sndNxt) ≠ 0 ↔
      windowOpen (e.sized x) = true := by
  have hsame := e.sized_same x
  have hopen : (e.sized x).state ≠ .closed := by
    rw [hsame.state]
    intro hclosed
    unfold sendable dataCapable at hs
    simp [hclosed] at hs
  have hiff := sendSpace_ne_zero (c := e.sized x) (by rw [hsame.recovery]; exact hr) hopen hmss
  rwa [hsame.sndUna, hsame.sndNxt] at hiff

theorem sized_sendSpace_recovery (hr : e.connection.recovery.recoveryActive = true) :
    (e.sized x).sendSpace.2 = 0 := by
  unfold sendSpace
  rw [(e.sized_same x).recovery, hr]
  rfl

/-- A burst has bytes if and only if the FIFO has some and the budget has room. -/
theorem SendParams.sendLen_ne_zero (params : SendParams) (hmss : params.sendMss ≠ 0)
    (hspace : params.sendSpace ≠ 0) (available burst : ℕ) :
    Min.min (params.maxLen available)
        (params.segments (params.maxLen available) burst * params.sendMss) ≠ 0 ↔
      available ≠ 0 ∧ burst ≠ 0 := by
  have hmax : params.maxLen available ≠ 0 ↔ available ≠ 0 := by
    have hmod := Nat.mod_lt available (Nat.pos_of_ne_zero hmss)
    unfold maxLen
    split_ifs <;> omega
  have hceil : (params.maxLen available + params.sendMss - 1) / params.sendMss ≠ 0 ↔
      params.maxLen available ≠ 0 := by
    rw [ne_eq, Nat.div_eq_zero_iff]
    omega
  unfold segments
  rw [ne_eq, Nat.min_eq_zero_iff, Nat.mul_eq_zero, Nat.min_eq_zero_iff]
  tauto

/-- Pacing holds a burst back, or leaves bytes of it. -/
theorem SendParams.pace_cases (params : SendParams) (hmss : params.sendMss ≠ 0)
    (hspace : params.sendSpace ≠ 0) (pacing : Option TxRun.Pacing) :
    params.pace pacing = none ∧ pacing.all (1460 ≤ ·.burst) = false ∨
      ∃ space, space ≠ 0 ∧ params.pace pacing = some { params with sendSpace := space } ∧
        pacing.all (1460 ≤ ·.burst) = true := by
  cases pacing with
  | none => exact Or.inr ⟨params.sendSpace, hspace, rfl, rfl⟩
  | some pacing =>
    unfold pace
    dsimp only
    split
    · next hheld => exact Or.inl ⟨rfl, by simpa using hheld⟩
    · next hfree =>
      refine Or.inr ⟨_, ?_, rfl, by simpa using hfree⟩
      have hmod := Nat.mod_lt (Min.min params.sendSpace pacing.burst) (Nat.pos_of_ne_zero hmss)
      split <;> omega

/-- What a TX event adds after custom TX: data, exactly if it is due and the budget has room. -/
def Bursts (t : TxRun C) (x : TxEvent) (packets : ℕ) (t' : TxRun C) : Prop :=
  ∃ more, t'.output = t.output ++ more ∧ (∀ y ∈ more, TxRun.Carries t.connection.fixed y) ∧
    t'.connection.sendAckPending = t.connection.sendAckPending ∧
    (more ≠ [] ↔ packets < SESSION_QUEUE_IO_BUDGET ∧ t.endpoint.burstDue x = true)

theorem sendBurst_spec {packets : ℕ} (h : sendBurst t x packets = .ok t')
    (hg : ∀ k, t.grants k = true) : Bursts t x packets t' := by
  have hsilent (hdue : ¬(packets < SESSION_QUEUE_IO_BUDGET ∧ t.endpoint.burstDue x = true))
      (hout : t'.output = t.output)
      (hack : t'.connection.sendAckPending = t.connection.sendAckPending) : Bursts t x packets t' :=
    ⟨[], by rw [hout, append_nil], by simp, hack, by simp [hdue]⟩
  unfold sendBurst at h
  split at h
  · cases h
  next e params hparams =>
  rcases sendParams_cases hparams with ⟨hs, hnone, rfl⟩ | ⟨hs, hmss, segment, hcarries, rfl, rfl⟩
  · rw [hnone] at h
    cases h
    exact hsilent (by simp [burstDue, hs]) rfl (t.endpoint.refreshed_same x).sendAckPending
  have hpending :
    (t.endpoint.sized x).sendSpace.1.sendAckPending = t.connection.sendAckPending := by
    obtain ⟨mark, hmark⟩ := sendSpace_fst (t.endpoint.sized x)
    rw [hmark]
    exact (t.endpoint.sized_same x).sendAckPending
  dsimp only at h
  split at h
  · next hzero =>
    cases h
    refine hsilent (fun hdue => ?_) rfl hpending
    have hdue' := hdue.2
    simp only [burstDue, Bool.and_eq_true, Bool.not_eq_true'] at hdue'
    obtain ⟨⟨⟨⟨-, hrec⟩, -⟩, hopen⟩, -⟩ := hdue'
    exact (windowOpen_iff hs hrec hmss).mpr hopen hzero
  next hspace =>
  have hrec : t.endpoint.connection.recovery.recoveryActive = false := by
    by_contra hrec
    apply hspace
    have hzero := sized_sendSpace_recovery (x := x) (e := t.endpoint) (by simpa using hrec)
    exact Nat.min_eq_zero_iff.mpr (Or.inl hzero)
  have hopen : windowOpen (t.endpoint.sized x) = true := (windowOpen_iff hs hrec hmss).mp hspace
  rcases SendParams.pace_cases ⟨_, distanceTo t.endpoint.connection.sndUna
    t.endpoint.connection.sndNxt, _, some segment⟩ hmss hspace x.pacing
    with ⟨hpace, hheld⟩ | ⟨space, hspace, hpace, hfree⟩ <;> rw [hpace] at h
  · cases h
    exact hsilent (fun hdue => by simp [burstDue, hheld] at hdue) rfl hpending
  have hdue : (packets < SESSION_QUEUE_IO_BUDGET ∧ t.endpoint.burstDue x = true) ↔
      t.endpoint.tx.length - distanceTo t.endpoint.connection.sndUna t.endpoint.connection.sndNxt ≠
        0 ∧ SESSION_QUEUE_IO_BUDGET - packets ≠ 0 := by
    simp only [burstDue, hs, hrec, hopen, hfree, Bool.not_false, Bool.and_true, Bool.true_and,
      decide_eq_true_eq]
    omega
  have hlen := SendParams.sendLen_ne_zero ⟨space, distanceTo t.endpoint.connection.sndUna
    t.endpoint.connection.sndNxt, (t.endpoint.sized x).sendMss, some segment⟩ hmss hspace
    (t.endpoint.tx.length - distanceTo t.endpoint.connection.sndUna t.endpoint.connection.sndNxt)
    (SESSION_QUEUE_IO_BUDGET - packets)
  rw [← hdue] at hlen
  dsimp only at h
  split at h
  · next hzero =>
    cases h
    exact hsilent (fun hd => hlen.mpr hd hzero) rfl hpending
  next hne =>
  obtain ⟨hframe, hcount⟩ := pushBurst_frame (P := TxRun.Carries t.connection.fixed) hcarries h hg
  obtain ⟨more, hmore, hall⟩ := hframe.output
  refine ⟨more, hmore, hall, ?_, ?_⟩
  · exact (congrArg Fixed.sendAckPending hframe.fixed).trans hpending
  · simp only [hlen.mp hne, and_self, iff_true]
    rintro rfl
    rw [hmore, append_nil, length_burstPayloads] at hcount
    apply hne
    rw [show SendParams.segments _ _ _ = 0 by omega, Nat.zero_mul, Nat.min_zero]

def ackCount (e : TcpEndpoint C) : ℕ :=
  let c := e.connection
  if c.pendingDupacks = 0 then
    if c.recovery.recoveryActive || e.tx.length - distanceTo c.sndUna c.sndNxt = 0 ||
      c.state ≠ .established then 1 else 0
  else if c.sack.blocks.length = 0 then 1
  else TxRun.ackAttempts c.sack.blocks.length c.pendingDupacks

/-- Whether more acknowledgments with SACK blocks are due than the burst has room for. -/
def acksAgain (e : TcpEndpoint C) (maxBurst : ℕ) : Bool :=
  e.connection.pendingDupacks ≠ 0 && e.connection.sack.blocks.length ≠ 0 &&
    maxBurst ≤ e.ackCount

omit [CongestionSender C] in
/-- `sendAcks` sends what is owed, as far as the burst has room, and asks for more custom TX if it
had too little. -/
theorem sendAcks_spec {maxBurst acks : ℕ}
    (h : t.sendAcks maxBurst = .ok (t', acks)) (hmax : maxBurst ≠ 0)
    (hg : ∀ k, t.grants k = true) :
    ∃ t1 : TxRun C, TxRun.Frame (TxRun.Acknowledges (t.connection.outputAcknowledgment .ACK)) t t1 ∧
      acks = Min.min t.endpoint.ackCount maxBurst ∧ t'.output = t1.output ∧
      t'.grants = t1.grants ∧ t'.output.length = t.output.length + acks ∧
      (if t.endpoint.acksAgain maxBurst = true then
        t'.connection.sendAckPending = true ∧
          (t.connection.sendAckPending = false → t'.endpoint.customTx = true)
      else ∃ rcvWnd pendingDupacks, t'.endpoint = t.endpoint.ofConnection { t.connection with
        rcvWnd := rcvWnd
        pendingDupacks := pendingDupacks }) := by
  have hagain : t.connection.pendingDupacks = 0 ∨ t.connection.sack.blocks.length = 0 →
      t.endpoint.acksAgain maxBurst = false := by
    intro hor
    unfold acksAgain
    rcases hor with h0 | h0
    · rw [show t.endpoint.connection.pendingDupacks = 0 from h0]
      rfl
    · rw [show t.endpoint.connection.sack.blocks.length = 0 from h0]
      simp
  unfold sendAcks at h
  unfold ackCount
  rw [if_neg hmax] at h
  dsimp only at h ⊢
  obtain ⟨hframe1, hcount1, rcvWnd1, hend1⟩ := sendAck_iterate hg 1
  split at h
  · next hpending =>
    rw [if_pos hpending, hagain (Or.inl hpending), if_neg Bool.false_ne_true]
    split at h
    · next hdue =>
      rw [if_pos hdue]
      cases h
      exact ⟨t.sendAck, hframe1, by omega, rfl, rfl, hcount1, rcvWnd1, _, hend1⟩
    · next hdue =>
      rw [if_neg hdue]
      cases h
      exact ⟨t, .refl _, by omega, rfl, rfl, rfl, t.connection.rcvWnd, _, rfl⟩
  · next hpending =>
    rw [if_neg hpending]
    split at h
    · next hblocks =>
      rw [if_pos hblocks, hagain (Or.inr hblocks), if_neg Bool.false_ne_true]
      cases h
      refine ⟨t.sendAck, hframe1, by omega, rfl, rfl, hcount1, rcvWnd1, 0, ?_⟩
      show t.sendAck.endpoint.ofConnection { t.sendAck.endpoint.connection with
        pendingDupacks := 0 } = _
      rw [show t.sendAck.endpoint = _ from hend1]
      rfl
    · next hblocks =>
      rw [if_neg hblocks]
      have hcond : t.endpoint.acksAgain maxBurst = decide (maxBurst ≤
          ackAttempts t.connection.sack.blocks.length t.connection.pendingDupacks) := by
        unfold acksAgain ackCount
        simp [hpending, hblocks]
      generalize ackAttempts t.connection.sack.blocks.length t.connection.pendingDupacks =
        attempts at h hcond ⊢
      obtain ⟨hframe, hcount, rcvWnd, hend⟩ := sendAck_iterate hg (Min.min attempts maxBurst)
      generalize sendAck^[Min.min attempts maxBurst] t = t1 at h hframe hcount hend
      have hset (k : ℕ) : (t1.setPendingDupacks k).endpoint = t.endpoint.ofConnection
          { t.connection with rcvWnd := rcvWnd, pendingDupacks := k } := by
        show t1.endpoint.ofConnection { t1.endpoint.connection with pendingDupacks := k } = _
        rw [hend]
        rfl
      rw [hcond]
      split at h
      · next hlt =>
        cases h
        rw [if_neg (by simpa using hlt)]
        exact ⟨t1, hframe, by omega, rfl, rfl, hcount.trans (by omega), rcvWnd, 0, hset 0⟩
      · next hlt =>
        split at h
        · cases h
        · cases h
          rw [if_pos (by simpa using hlt)]
          refine ⟨t1, hframe, by omega, rfl, rfl, ?_, ?_⟩
          · refine hcount.trans ?_
            omega
          · show ((t1.setPendingDupacks _).endpoint.programAck true).connection.sendAckPending =
                true ∧ (_ → ((t1.setPendingDupacks _).endpoint.programAck true).customTx = true)
            obtain ⟨hpend, hcustom⟩ := programAck_pending (t1.setPendingDupacks _).endpoint true
            refine ⟨hpend, fun hnone => hcustom ?_⟩
            rw [hset]
            exact hnone

/-- Whether the recovery burst of a TX event sends anything. -/
def resends (e : TcpEndpoint C) (x : TxEvent) : Bool :=
  e.connection.recovery.recoveryActive && e.connection.retransmitPending &&
    TxRun.resends ⟨e, [], x.grants⟩ x.lastTimerUpdate x.pacing (SESSION_QUEUE_IO_BUDGET - x.packets)

theorem burstDue_congr (rcvWnd pendingDupacks : ℕ) (b : Bool) (htx : e'.tx = e.tx)
    (hrx : e'.rx = e.rx) (hc : e'.connection = { e.connection with
      rcvWnd := rcvWnd
      pendingDupacks := pendingDupacks
      sendAckPending := b }) : e'.burstDue x = e.burstDue x := by
  have hmtu : e'.refreshed x = { e.refreshed x with
      pendingDupacks := pendingDupacks
      sendAckPending := b } := by
    unfold refreshed refreshPathMtu applyPathMtu
    rw [hc, hrx]
    cases x.pathMtu with
    | none => rfl
    | some pathMtu =>
      dsimp only
      split_ifs <;> rfl
  have hroom (c : TcpConnection C) : room { c with
      pendingDupacks := pendingDupacks, sendAckPending := b } = room c := by
    unfold room limitedTransmitSpace
    dsimp only
    split_ifs <;> rfl
  have hopen : windowOpen (e'.sized x) = windowOpen (e.sized x) := by
    have hsized : e'.sized x = { e.sized x with
        pendingDupacks := pendingDupacks, sendAckPending := b } := by
      unfold sized
      rw [hmtu]
      rfl
    rw [hsized]
    unfold windowOpen
    rw [hroom]
  unfold burstDue
  rw [hopen, htx, hc]
  rfl

/-- Custom TX with a request for an acknowledgment: it sends data, or it leaves the request to
`sendAcks`. -/
theorem customTx_cases {maxBurst sent : ℕ}
    (h : t.customTx now pacing maxBurst = .ok (t', sent)) (hmax : maxBurst ≠ 0)
    (hg : ∀ k, t.grants k = true) (hack : t.connection.sendAckPending = true) :
    ∃ t1 n, TxRun.Frame (TxRun.Carries t.connection.fixed) t t1 ∧
      t1.output.length = t.output.length + n ∧
      (n ≠ 0 ↔ (t.connection.recovery.recoveryActive = true ∧
        t.connection.retransmitPending = true) ∧ t.resends now pacing maxBurst = true) ∧
      (t.connection.recovery.recoveryActive = false → t1 = t) ∧ (∀ k, t'.grants k = true) ∧
      ((n ≠ 0 ∧ ∃ more, t'.output = t1.output ++ more) ∨
        (n = 0 ∧ (t1.ofConnection { t1.connection with sendAckPending := false }).sendAcks
          maxBurst = .ok (t', sent))) := by
  -- the retransmissions, if any are asked for
  have hfirst : ∀ r, (if (t.connection.recovery.recoveryActive && t.connection.retransmitPending) =
        true then (t.ofConnection { t.connection with retransmitPending := false }).retransmit now
          pacing maxBurst else .ok (t, 0)) = .ok r →
      TxRun.Frame (TxRun.Carries t.connection.fixed) t r.1 ∧
        r.1.output.length = t.output.length + r.2 ∧
        (r.2 ≠ 0 ↔ (t.connection.recovery.recoveryActive = true ∧
          t.connection.retransmitPending = true) ∧ t.resends now pacing maxBurst = true) ∧
        (t.connection.recovery.recoveryActive = false → r.1 = t) := by
    rintro ⟨t1, n⟩ hr
    split at hr
    · next hdue =>
      rw [Bool.and_eq_true] at hdue
      have hclear : TxRun.Frame (TxRun.Carries t.connection.fixed) t
          (t.ofConnection { t.connection with retransmitPending := false }) :=
        TxRun.frame_ofConnection rfl
      obtain ⟨hframe, hcount⟩ := TxRun.retransmit_carries hr
      have hsends := TxRun.retransmit_sends hr hg
      have hsame : (t.ofConnection { t.connection with retransmitPending := false }).resends now
          pacing maxBurst = t.resends now pacing maxBurst :=
        resends_congr false (by rfl) (by rfl) now pacing maxBurst
      rw [hsame] at hsends
      exact ⟨hclear.trans hframe, hcount, by rw [hsends]; simp [hdue], fun hr => by simp [hr] at hdue⟩
    · next hdue =>
      cases hr
      refine ⟨.refl t, rfl, ?_, fun _ => rfl⟩
      simp only [ne_eq, not_true_eq_false, false_iff, not_and]
      exact fun hboth => absurd (by simpa using hboth) hdue
  unfold TxRun.customTx at h
  dsimp only at h
  split at h
  · cases h
  next t1 n hr =>
  obtain ⟨hframe, hcount, hiff, hsame⟩ := hfirst (t1, n) hr
  have hg1 := hframe.grants hg
  have hacks {k : ℕ} {t2 : TxRun C} {acks : ℕ} (hk : k ≠ 0)
      (h : (t1.ofConnection { t1.connection with sendAckPending := false }).sendAcks k =
        .ok (t2, acks)) : (∀ k, t2.grants k = true) ∧ ∃ more, t2.output = t1.output ++ more := by
    obtain ⟨t3, hframe3, -, hout, hgrants, -⟩ := sendAcks_spec h hk hg1
    obtain ⟨more, hmore, -⟩ := hframe3.output
    exact ⟨fun k => hgrants ▸ hframe3.grants hg1 k, more, hout.trans hmore⟩
  refine ⟨t1, n, hframe, hcount, hiff, hsame, ?_⟩
  have hpending : t1.connection.sendAckPending = true :=
    (congrArg Fixed.sendAckPending hframe.fixed).trans hack
  rw [hpending] at h
  by_cases hn : n = 0
  · subst hn
    rw [if_neg (by simp), if_neg (by simpa using hmax)] at h
    split at h
    · cases h
    · next t2 acks hsend =>
      cases h
      rw [Nat.zero_add]
      exact ⟨(hacks hmax hsend).1, Or.inr ⟨rfl, hsend⟩⟩
  · split at h
    · cases h
      exact ⟨hg1, Or.inl ⟨hn, [], (append_nil _).symm⟩⟩
    · split at h
      · cases h
        exact ⟨hg1, Or.inl ⟨hn, [], (append_nil _).symm⟩⟩
      · next hlt =>
        split at h
        · cases h
        · next t2 acks hsend =>
          cases h
          obtain ⟨hg2, hmore⟩ := hacks (by omega) hsend
          exact ⟨hg2, Or.inl ⟨hn, hmore⟩⟩

/-- The acknowledgment number zero stands for none; the sequence number after the SYN replaces
it. -/
def Numbered (c : TcpConnection C) : Prop := c.rcvNxt ≠ 0 ∨ c.irs = -1

/-- The number after the initial one stands in for zero. It is zero itself only if it wrapped. -/
theorem afterInitial_eq_zero_iff (i : TcpSeq) :
    (if i ≠ 0 then advance i 1 else 1) = 0 ↔ i = -1 := by
  split
  · exact eq_neg_iff_add_eq_zero.symm
  · next hi =>
    rw [not_not.mp hi]
    decide

omit [CongestionSender C] in
theorem outputAcknowledgment_eq_iff {flags : TcpSegmentFlags} (h : flags.ack = true) :
    c.outputAcknowledgment flags = c.rcvNxt ↔ Numbered c := by
  unfold outputAcknowledgment Numbered
  rw [h, if_neg (by decide)]
  by_cases hrcv : c.rcvNxt = 0
  · rw [if_neg (not_not.mpr hrcv), hrcv, afterInitial_eq_zero_iff]
    simp
  · rw [if_pos hrcv]
    exact ⟨fun _ => Or.inl hrcv, fun _ => rfl⟩

/-- So does the sequence number zero, which the oldest unacknowledged number replaces first. A SYN
may not have it at all. -/
def Sequenced (c : TcpConnection C) (flags : TcpSegmentFlags) : Prop :=
  if flags.syn then c.iss ≠ 0 else c.sndNxt ≠ 0 ∨ c.sndUna = 0 ∧ c.iss = -1

/-- The number a segment without payload is due to have. -/
def dueSequence (c : TcpConnection C) (flags : TcpSegmentFlags) : TcpSeq :=
  if flags.syn then c.iss else c.sndNxt

omit [CongestionSender C] in
theorem outputSequence_eq_iff (flags : TcpSegmentFlags) :
    c.outputSequence flags = dueSequence c flags ↔ Sequenced c flags := by
  have hzero := afterInitial_eq_zero_iff c.iss
  unfold outputSequence Sequenced dueSequence
  cases flags.syn with
  | true => grind
  | false =>
    simp only [Bool.false_and, Bool.false_eq_true, if_false]
    by_cases hnxt : c.sndNxt = 0
    · rw [if_neg (not_not.mpr hnxt), hnxt]
      by_cases huna : c.sndUna = 0
      · rw [if_neg (not_not.mpr huna), huna, hzero]
        simp
      · rw [if_pos huna]
        exact iff_of_false huna fun h => h.elim (absurd rfl) fun h => huna h.1
    · rw [if_pos hnxt]
      exact iff_of_true rfl (.inl hnxt)

omit [CongestionSender C] in
/-- A control segment has the right numbers except where zero is taken for none. -/
theorem control_segment_numbers_iff (c : TcpConnection C) (flags : TcpSegmentFlags) :
    ((c.controlSegment flags none).sequence = dueSequence c flags ∧
      (flags.ack = true → (c.controlSegment flags none).acknowledgment = c.rcvNxt)) ↔
    Sequenced c flags ∧ (flags.ack = true → Numbered c) :=
  and_congr (outputSequence_eq_iff c flags)
    (forall_congr' fun h => outputAcknowledgment_eq_iff c h)

/-- An established connection that is to send and to receive number zero next. -/
def atZero : TcpConnection Unit :=
  { sampleEndpoint.connection with sndUna := -100, sndNxt := 0, rcvNxt := 0 }

/-- It goes back a hundred bytes, and to the beginning of what it received. -/
theorem zero_numbers_replaced : atZero.state = .established ∧
    (atZero.controlSegment .ACK none).sequence = -100 ∧
    (atZero.controlSegment .ACK none).acknowledgment = 501 := by
  decide

/-- The request is programmed again, or a segment with the acknowledgment went out. -/
def AckKept (e e' : TcpEndpoint C) (output : List Emitted) : Prop :=
  e'.connection.sendAckPending = true ∨ ∃ y ∈ output, y.segment.flags.ack = true ∧
    y.segment.acknowledgment = e.connection.rcvNxt

/-- What keeps a request for an acknowledgment that a TX event takes. -/
inductive AckGoesOut (e : TcpEndpoint C) (x : TxEvent) : Prop
  /-- A recovery burst sends data. -/
  | retransmission (sends : e.resends x = true)
  /-- An acknowledgment is owed by itself, and its number is not taken for none. -/
  | acknowledgment (owed : e.ackCount ≠ 0) (numbered : Numbered e.connection)
  /-- The burst has no room for all acknowledgments that are owed. -/
  | again (full : e.acksAgain (SESSION_QUEUE_IO_BUDGET - x.packets) = true)
  /-- The burst that follows custom TX sends data. -/
  | burst (present : transportGone e.sessionState = false)
      (room : x.packets + e.ackCount < SESSION_QUEUE_IO_BUDGET) (due : e.burstDue x = true)

/-- The run in which a TX event calls custom TX. -/
abbrev customRun (e : TcpEndpoint C) (x : TxEvent) : TxRun C :=
  ⟨{ e with customTx := false }, [], x.grants⟩

/-- A segment acknowledges all that the endpoint has received. -/
def Answers (e : TcpEndpoint C) (y : Emitted) : Prop :=
  y.segment.flags.ack = true ∧ y.segment.acknowledgment = e.connection.rcvNxt

omit [CongestionSender C] in
theorem answers_of_carries {fixed : Fixed} {y : Emitted} (hsyn : e.connection.state ≠ .synSent)
    (hrcv : fixed.rcvNxt = e.connection.rcvNxt) (hstate : fixed.state = e.connection.state)
    (hy : TxRun.Carries fixed y) : Answers e y := by
  refine ⟨?_, hy.1.trans hrcv⟩
  rw [hy.2 (hstate.trans_ne hsyn)]
  rfl

omit [CongestionSender C] in
theorem numbers_acknowledged {acks : List Emitted}
    (hall : ∀ y ∈ acks, TxRun.Acknowledges (e.connection.outputAcknowledgment .ACK) y) :
    (∃ y ∈ acks, Answers e y) ↔ acks.length ≠ 0 ∧ Numbered e.connection := by
  rw [← outputAcknowledgment_eq_iff _ (show TcpSegmentFlags.ACK.ack = true from rfl)]
  constructor
  · rintro ⟨y, hy, -, hnum⟩
    exact ⟨(length_pos_of_mem hy).ne', (hall y hy).2.symm.trans hnum⟩
  · rintro ⟨hne, hnum⟩
    obtain ⟨y, hy⟩ := exists_mem_of_ne_nil acks (ne_nil_of_length_pos (Nat.pos_of_ne_zero hne))
    exact ⟨y, hy, by rw [(hall y hy).1]; rfl, (hall y hy).2.trans hnum⟩

omit [CongestionSender C] in
/-- The acknowledgments that are owed are those owed before a recovery burst that sent nothing. -/
theorem ackCount_kept {P : Emitted → Prop} (hframe : TxRun.Frame P (e.customRun x) t)
    (hsame : e.connection.recovery.recoveryActive = false → t = e.customRun x) (b : Bool)
    (burst : ℕ) :
    let taken := (t.ofConnection { t.connection with sendAckPending := b }).endpoint
    taken.ackCount = e.ackCount ∧ taken.acksAgain burst = e.acksAgain burst := by
  have hdup : t.connection.pendingDupacks = e.connection.pendingDupacks :=
    congrArg Fixed.pendingDupacks hframe.fixed
  have hblocks : t.connection.sack.blocks.length = e.connection.sack.blocks.length :=
    congrArg Fixed.blocks hframe.fixed
  have hcount : (t.ofConnection { t.connection with sendAckPending := b }).endpoint.ackCount =
      e.ackCount := by
    cases hrec : e.connection.recovery.recoveryActive with
    | false =>
      rw [hsame hrec]
      rfl
    | true =>
      have hrec1 : t.connection.recovery.recoveryActive = true :=
        (congrArg Fixed.recoveryActive hframe.fixed).trans hrec
      unfold ackCount
      simp [TxRun.ofConnection, ofConnection, hdup, hblocks, hrec, hrec1]
  refine ⟨hcount, ?_⟩
  unfold acksAgain
  rw [hcount]
  simp [TxRun.ofConnection, ofConnection, hdup, hblocks]

/-- What custom TX leaves when it sent acknowledgments only. -/
structure AcksLeft (e : TcpEndpoint C) (x : TxEvent) (t : TxRun C) (sent : ℕ) : Prop where
  count : sent = Min.min e.ackCount (SESSION_QUEUE_IO_BUDGET - x.packets)
  acked : (∃ y ∈ t.output, Answers e y) ↔ e.ackCount ≠ 0 ∧ Numbered e.connection
  again : e.acksAgain (SESSION_QUEUE_IO_BUDGET - x.packets) = true →
    t.connection.sendAckPending = true ∧ t.endpoint.customTx = true
  taken : e.acksAgain (SESSION_QUEUE_IO_BUDGET - x.packets) = false →
    t.connection.sendAckPending = false ∧ t.endpoint.sessionState = e.sessionState ∧
    t.connection.rcvNxt = e.connection.rcvNxt ∧ t.connection.state = e.connection.state ∧
    t.endpoint.burstDue x = e.burstDue x ∧ (e.burstDue x = true → t.endpoint.customTx = false)

theorem AcksLeft.of_sendAcks {P : Emitted → Prop} {t1 : TxRun C} {sent : ℕ}
    (hframe : TxRun.Frame P (e.customRun x) t1) (hnone : t1.output = [])
    (hsame : e.connection.recovery.recoveryActive = false → t1 = e.customRun x)
    (hmax : SESSION_QUEUE_IO_BUDGET - x.packets ≠ 0) (hg : ∀ k, x.grants k = true)
    (h : (t1.ofConnection { t1.connection with sendAckPending := false }).sendAcks
      (SESSION_QUEUE_IO_BUDGET - x.packets) = .ok (t, sent)) : AcksLeft e x t sent := by
  obtain ⟨t2, hframe2, hsent, hout, -, hlen, hcase⟩ := sendAcks_spec h hmax (hframe.grants hg)
  obtain ⟨hcount, hagain⟩ := ackCount_kept hframe hsame false (SESSION_QUEUE_IO_BUDGET - x.packets)
  rw [hcount] at hsent
  rw [hagain] at hcase
  refine ⟨hsent, ?_, fun hfull => ?_, fun hroom => ?_⟩
  · obtain ⟨acks, hacks, hall⟩ := hframe2.output
    have hnumber : t1.connection.outputAcknowledgment .ACK =
        e.connection.outputAcknowledgment .ACK := by
      unfold TcpConnection.outputAcknowledgment
      rw [show t1.connection.rcvNxt = e.connection.rcvNxt from congrArg Fixed.rcvNxt hframe.fixed,
        show t1.connection.irs = e.connection.irs from congrArg Fixed.irs hframe.fixed]
    have hacks' : t.output = acks := by
      rw [hout, hacks]
      show t1.output ++ acks = acks
      rw [hnone, nil_append]
    have hlen' : acks.length = sent := by
      have hsum : t.output.length = t1.output.length + sent := hlen
      rw [hacks', hnone] at hsum
      simpa using hsum
    rw [hacks', numbers_acknowledged fun y hy => hnumber ▸ hall y hy, hlen']
    exact and_congr_left fun _ => by omega
  · rw [if_pos hfull] at hcase
    exact ⟨hcase.1, hcase.2 rfl⟩
  rw [hroom, if_neg Bool.false_ne_true] at hcase
  obtain ⟨rcvWnd, pendingDupacks, ht⟩ := hcase
  have hconn := congrArg TcpEndpoint.connection ht
  have hrecovering : t.endpoint.connection.recovery.recoveryActive =
      e.connection.recovery.recoveryActive := by
    rw [ht]
    exact congrArg Fixed.recoveryActive hframe.fixed
  refine ⟨congrArg TcpConnection.sendAckPending hconn, ?_, ?_, ?_, ?_, fun hdue => ?_⟩
  · rw [ht]
    exact hframe.sessionState
  · exact (congrArg TcpConnection.rcvNxt hconn).trans (congrArg Fixed.rcvNxt hframe.fixed)
  · exact (congrArg TcpConnection.state hconn).trans (congrArg Fixed.state hframe.fixed)
  · cases hrec : e.connection.recovery.recoveryActive with
    | false =>
      rw [hsame hrec] at ht
      refine burstDue_congr rcvWnd pendingDupacks false ?_ ?_ ?_ <;> rw [ht] <;> rfl
    | true =>
      unfold burstDue
      rw [hrecovering, hrec]
      simp
  · have hrec : e.connection.recovery.recoveryActive = false := by
      unfold burstDue at hdue
      simp only [Bool.and_eq_true, Bool.not_eq_true'] at hdue
      exact hdue.1.1.1.2
    rw [ht, hsame hrec]
    rfl

/-- Custom TX with a request for an acknowledgment sends data, or it leaves the request to
`sendAcks`. -/
theorem customTx_answers {sent : ℕ} (hmax : SESSION_QUEUE_IO_BUDGET - x.packets ≠ 0)
    (hack : e.connection.sendAckPending = true) (hg : ∀ k, x.grants k = true)
    (h : (e.customRun x).customTx x.lastTimerUpdate x.pacing (SESSION_QUEUE_IO_BUDGET - x.packets) =
      .ok (t, sent)) :
    (∀ k, t.grants k = true) ∧
      (e.resends x = true ∧ (∃ y ∈ t.output, TxRun.Carries e.connection.fixed y) ∨
        e.resends x = false ∧ AcksLeft e x t sent) := by
  obtain ⟨t1, n, hframe, hcount, hiff, hsame, hgt, hrest⟩ := customTx_cases h hmax hg hack
  have hresends : n ≠ 0 ↔ e.resends x = true := by
    have hclear : (e.customRun x).resends x.lastTimerUpdate x.pacing
        (SESSION_QUEUE_IO_BUDGET - x.packets) = TxRun.resends ⟨e, [], x.grants⟩ x.lastTimerUpdate
        x.pacing (SESSION_QUEUE_IO_BUDGET - x.packets) :=
      resends_congr e.connection.retransmitPending (by rfl) (by rfl) _ _ _
    rw [hiff, hclear]
    unfold resends
    rw [Bool.and_eq_true, Bool.and_eq_true]
  refine ⟨hgt, ?_⟩
  rcases hrest with ⟨hn, more, hout⟩ | ⟨hn, hacks⟩
  · obtain ⟨data, hdata, hall⟩ := hframe.output
    obtain ⟨y, hy⟩ : ∃ y, y ∈ data := by
      apply exists_mem_of_ne_nil
      rintro rfl
      rw [hdata, append_nil] at hcount
      exact hn (by omega)
    refine Or.inl ⟨hresends.mp hn, y, ?_, hall y hy⟩
    rw [hout, hdata]
    simp [hy]
  · refine Or.inr ⟨by simpa [hn] using hresends, .of_sendAcks hframe ?_ hsame hmax hg hacks⟩
    exact length_eq_zero_iff.mp (by rw [hcount, hn]; rfl)

/-- How a TX event goes on after custom TX: it ends there, or its burst may add data. -/
inductive Continues (x : TxEvent) (t : TxRun C) (sent : ℕ) : TcpEndpoint C → List Emitted → Prop
  | ends (reason : transportGone t.endpoint.sessionState = true ∨
      sent = SESSION_QUEUE_IO_BUDGET - x.packets ∨ t.endpoint.customTx = true) :
      Continues x t sent t.endpoint []
  | bursts {e' : TcpEndpoint C} {more : List Emitted}
      (present : transportGone t.endpoint.sessionState = false)
      (customTx : t.endpoint.customTx = false)
      (carries : ∀ y ∈ more, TxRun.Carries t.connection.fixed y)
      (kept : e'.connection.sendAckPending = t.connection.sendAckPending)
      (due : more ≠ [] ↔ x.packets + sent < SESSION_QUEUE_IO_BUDGET ∧ t.endpoint.burstDue x = true) :
      Continues x t sent e' more

theorem txFifoPeekAndSend_custom {output : List Emitted} (hready : e.notReady = false)
    (hmax : SESSION_QUEUE_IO_BUDGET - x.packets ≠ 0) (hcustom : e.customTx = true)
    (h : e.txFifoPeekAndSend x = .ok (e', output)) :
    ∃ t sent, (e.customRun x).customTx x.lastTimerUpdate x.pacing
        (SESSION_QUEUE_IO_BUDGET - x.packets) = .ok (t, sent) ∧
      ((∀ k, t.grants k = true) → ∃ more, output = t.output ++ more ∧ Continues x t sent e' more) := by
  unfold txFifoPeekAndSend at h
  rw [hready, hcustom] at h
  simp only [Bool.false_or, decide_eq_true_eq, hmax, if_false, Bool.not_true,
    Bool.false_eq_true] at h
  split at h
  · cases h
  next t sent hctx =>
  refine ⟨t, sent, hctx, fun hg => ?_⟩
  split at h
  · cases h
  split at h
  · next hend =>
    cases h
    exact ⟨[], (append_nil _).symm, .ends (by simpa [or_assoc] using hend)⟩
  · next hend =>
    cases hburst : sendBurst t x (x.packets + sent) with
    | error panic =>
      rw [hburst] at h
      cases h
    | ok t2 =>
      rw [hburst] at h
      cases h
      obtain ⟨more, hmore, hall, hpending, hdue⟩ := sendBurst_spec hburst hg
      simp only [Bool.or_eq_true, not_or, Bool.not_eq_true] at hend
      exact ⟨more, hmore, .bursts hend.1.1 hend.2 hall hpending hdue⟩

/-- What the burst adds to the acknowledgments of custom TX. -/
theorem AcksLeft.kept_iff {sent : ℕ} {more : List Emitted} (hleft : AcksLeft e x t sent)
    (hsyn : e.connection.state ≠ .synSent)
    (hagain : e.acksAgain (SESSION_QUEUE_IO_BUDGET - x.packets) = false)
    (h : Continues x t sent e' more) :
    AckKept e e' (t.output ++ more) ↔ e.ackCount ≠ 0 ∧ Numbered e.connection ∨
      transportGone e.sessionState = false ∧ x.packets + e.ackCount < SESSION_QUEUE_IO_BUDGET ∧
        e.burstDue x = true := by
  obtain ⟨hpending, hsession, hrcv, hstate, hdue, hcustom⟩ := hleft.taken hagain
  have hcount := hleft.count
  rw [← hleft.acked, ← hsession]
  cases h with
  | ends reason =>
    unfold AckKept
    rw [show t.endpoint.connection.sendAckPending = false from hpending, append_nil]
    refine (or_iff_right Bool.false_ne_true).trans (or_iff_left ?_).symm
    rintro ⟨hpresent, hroom, hburst⟩
    rcases reason with hgone | hfull | hmore
    · exact Bool.false_ne_true (hpresent.symm.trans hgone)
    · omega
    · exact Bool.false_ne_true ((hcustom hburst).symm.trans hmore)
  | bursts present customTx carries kept due =>
    have hmore : (∃ y ∈ more, Answers e y) ↔ x.packets + e.ackCount < SESSION_QUEUE_IO_BUDGET ∧
        e.burstDue x = true := by
      rw [hdue] at due
      constructor
      · rintro ⟨y, hy, -⟩
        obtain ⟨hroom, hburst⟩ := due.mp (ne_nil_of_mem hy)
        exact ⟨by omega, hburst⟩
      · rintro ⟨hroom, hburst⟩
        obtain ⟨y, hy⟩ := exists_mem_of_ne_nil more (due.mpr ⟨by omega, hburst⟩)
        exact ⟨y, hy, answers_of_carries hsyn hrcv hstate (carries y hy)⟩
    unfold AckKept
    rw [kept, show t.connection.sendAckPending = false from hpending, ← hmore]
    simp only [Bool.false_eq_true, false_or, mem_append, present, true_and, or_and_right, exists_or]
    rfl

/-- With buffers to be had, a TX event that takes the request for an acknowledgment keeps it in
these cases and no others. -/
theorem acknowledgment_kept_iff {output : List Emitted}
    (hready : e.notReady = false) (hpackets : x.packets < SESSION_QUEUE_IO_BUDGET)
    (hcustom : e.customTx = true) (hack : e.connection.sendAckPending = true)
    (hopen : e.connection.state = .synSent → e.sessionState = .connecting)
    (hg : ∀ k, x.grants k = true) (h : e.txFifoPeekAndSend x = .ok (e', output)) :
    AckKept e e' output ↔ AckGoesOut e x := by
  have hsyn : e.connection.state ≠ .synSent := by
    intro hs
    unfold notReady at hready
    rw [hopen hs] at hready
    cases hready
  have hmax : SESSION_QUEUE_IO_BUDGET - x.packets ≠ 0 := by omega
  obtain ⟨t, sent, hctx, hcontinues⟩ := txFifoPeekAndSend_custom hready hmax hcustom h
  obtain ⟨hgt, hanswers⟩ := customTx_answers hmax hack hg hctx
  obtain ⟨more, rfl, hmore⟩ := hcontinues hgt
  rcases hanswers with ⟨hresends, y, hy, hcarries⟩ | ⟨hno, hleft⟩
  · exact iff_of_true (Or.inr ⟨y, mem_append_left _ hy, answers_of_carries hsyn rfl rfl hcarries⟩)
      (.retransmission hresends)
  cases hagain : e.acksAgain (SESSION_QUEUE_IO_BUDGET - x.packets) with
  | true =>
    obtain ⟨hpending, hagain'⟩ := hleft.again hagain
    refine iff_of_true (Or.inl ?_) (.again hagain)
    cases hmore with
    | ends => exact hpending
    | bursts present customTx => exact absurd (customTx.symm.trans hagain') Bool.false_ne_true
  | false =>
    rw [hleft.kept_iff hsyn hagain hmore]
    constructor
    · rintro (⟨howed, hnumbered⟩ | ⟨hpresent, hroom, hdue⟩)
      · exact .acknowledgment howed hnumbered
      · exact .burst hpresent hroom hdue
    · rintro (hsends | ⟨howed, hnumbered⟩ | hfull | ⟨hpresent, hroom, hdue⟩)
      · exact absurd (hno.symm.trans hsends) Bool.false_ne_true
      · exact Or.inl ⟨howed, hnumbered⟩
      · exact absurd (hagain.symm.trans hfull) Bool.false_ne_true
      · exact Or.inr ⟨hpresent, hroom, hdue⟩

/-- An endpoint with one unsent byte that owes an acknowledgment, and the window of its peer. -/
def owingAck (sndWnd : ℕ) : TcpEndpoint Unit :=
  { sampleEndpoint with
    customTx := true
    tx := [1]
    connection := { sampleEndpoint.connection with sendAckPending := true, sndWnd := sndWnd } }

/-- A TX event at the start of a dispatch, with every buffer to be had. -/
def freshEvent : TxEvent := ⟨0, 0, 0, none, 0, none, fun _ => true⟩

/-- Into an open window the byte takes the acknowledgment along. -/
theorem acknowledgment_kept_iff_open_window :
    ∃ e' output, (owingAck 4096).txFifoPeekAndSend freshEvent = .ok (e', output) ∧
      (AckKept (owingAck 4096) e' output ↔ AckGoesOut (owingAck 4096) freshEvent) := by
  have hok : ((owingAck 4096).txFifoPeekAndSend freshEvent).isOk = true := by decide +kernel
  cases h : (owingAck 4096).txFifoPeekAndSend freshEvent with
  | error panic =>
    rw [h] at hok
    nomatch hok
  | ok r =>
    exact ⟨r.1, r.2, rfl, acknowledgment_kept_iff rfl (by decide) rfl rfl (by decide)
      (fun _ => rfl) h⟩

/-- Into a closed window nothing goes out, and the request is gone. -/
theorem closed_window_loses_acknowledgment :
    (owingAck 0).notReady = false ∧ (owingAck 0).connection.sendAckPending = true ∧
      ((owingAck 0).txFifoPeekAndSend freshEvent).toOption.map
        (fun r => (r.1.connection.sendAckPending, r.2)) = some (false, []) := by
  decide +kernel

end TcpEndpoint

end Tcp
