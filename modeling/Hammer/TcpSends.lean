import Hammer.TcpOutput

/-! # What sending changes

Sending moves `sndNxt`, the recovery state and the requests for more output. The rest of the
connection stays, and so do the FIFOs and the state of the session.
-/

namespace Tcp

open TcpSeq Recovery

/-- What sending leaves alone in a connection. -/
structure Fixed where
  state : TcpState
  finPending : Bool
  finSent : Bool
  iss : TcpSeq
  irs : TcpSeq
  rcvNxt : TcpSeq
  sndUna : TcpSeq
  sndWnd : ℕ
  sendMss : ℕ
  pendingDupacks : ℕ
  sendAckPending : Bool
  negotiatedOptions : TcpNegotiatedOptions
  blocks : ℕ
  recoveryActive : Bool

def TcpConnection.fixed {C : Type} (c : TcpConnection C) : Fixed :=
  ⟨c.state, c.finPending, c.finSent, c.iss, c.irs, c.rcvNxt, c.sndUna, c.sndWnd, c.sendMss,
    c.pendingDupacks, c.sendAckPending, c.negotiatedOptions, c.sack.blocks.length,
    c.recovery.recoveryActive⟩

section

variable (s : TcpRecoveryState) (bytes : ℕ) (sequence : TcpSeq) (now : Instant)

@[simp] theorem recoveryActive_onRetransmitSent :
    (onRetransmitSent s bytes).recoveryActive = s.recoveryActive := by
  unfold onRetransmitSent
  split <;> rfl

@[simp] theorem recoveryActive_onNewDataSent :
    (onNewDataSent s bytes).recoveryActive = s.recoveryActive := by
  unfold onNewDataSent
  split <;> rfl

@[simp] theorem recoveryActive_recordSent (packetNumber : ℕ) (endSequence : TcpSeq)
    (payloadLen bytesInFlight : ℕ) (appLimited : Bool) :
    (recordSent s packetNumber sequence endSequence bytes payloadLen bytesInFlight now
      appLimited).recoveryActive = s.recoveryActive :=
  recordSent_frame.2

theorem recoveryActive_commitRetransmit {s' : TcpRecoveryState}
    (h : commitRetransmit s sequence now = some s') : s'.recoveryActive = s.recoveryActive := by
  unfold commitRetransmit at h
  split at h
  · cases h
  · obtain ⟨sample, -, rfl⟩ := Option.map_eq_some_iff.mp h
    rfl

end

namespace TcpConnection

variable {C : Type} {c d : TcpConnection C}

theorem txSegment_ok (h : TcpEndpoint.sendable c = true) (payloadLen : ℕ) :
    ∃ segment, c.txSegment payloadLen = .ok segment ∧ segment.acknowledgment = c.rcvNxt ∧
      (c.state ≠ .synSent → segment.flags = .ACK) := by
  unfold txSegment
  by_cases hs : c.state = .synSent
  · rw [if_pos hs]
    exact ⟨_, rfl, rfl, fun hne => absurd hs hne⟩
  · have hd : c.dataCapable = true := by
      unfold TcpEndpoint.sendable at h
      simpa [hs] using h
    rw [if_neg hs, hd]
    exact ⟨_, rfl, rfl, fun _ => rfl⟩

theorem txSegment_error (h : TcpEndpoint.sendable c = false) (payloadLen : ℕ) :
    c.txSegment payloadLen = .error .invalidState := by
  unfold TcpEndpoint.sendable at h
  simp only [Bool.or_eq_false_iff, decide_eq_false_iff_not] at h
  unfold txSegment
  rw [if_neg h.1, h.2]
  rfl

variable [CongestionSender C]

theorem commitPayloadTx_fixed {payloadLen : ℕ} {now : Instant} {appLimited : Bool}
    (h : c.commitPayloadTx payloadLen now appLimited = .ok d) : d.fixed = c.fixed := by
  unfold commitPayloadTx at h
  dsimp only at h
  split_ifs at h <;> cases h <;>
    simp [fixed, recordNewData, clearTxIntent]

end TcpConnection

namespace TxRun

variable {C : Type} {t t' t'' : TxRun C} {P Q : Emitted → Prop}

/-- From `t` to `t'` only segments with `P` went out, and nothing else changed than sending may
change. -/
structure Frame (P : Emitted → Prop) (t t' : TxRun C) : Prop where
  fixed : t'.connection.fixed = t.connection.fixed
  tx : t'.endpoint.tx = t.endpoint.tx
  rx : t'.endpoint.rx = t.endpoint.rx
  sessionState : t'.endpoint.sessionState = t.endpoint.sessionState
  grants : (∀ k, t.grants k = true) → ∀ k, t'.grants k = true
  output : ∃ more, t'.output = t.output ++ more ∧ ∀ x ∈ more, P x

theorem Frame.refl (t : TxRun C) : Frame P t t :=
  ⟨rfl, rfl, rfl, rfl, id, [], (List.append_nil _).symm, by simp⟩

theorem Frame.trans (h : Frame P t t') (h' : Frame P t' t'') : Frame P t t'' := by
  obtain ⟨more, hmore, hp⟩ := h.output
  obtain ⟨more', hmore', hp'⟩ := h'.output
  refine ⟨h'.fixed.trans h.fixed, h'.tx.trans h.tx, h'.rx.trans h.rx,
    h'.sessionState.trans h.sessionState, fun hg => h'.grants (h.grants hg), more ++ more', ?_, ?_⟩
  · rw [hmore', hmore, List.append_assoc]
  · intro x hx
    rcases List.mem_append.mp hx with hx | hx
    · exact hp x hx
    · exact hp' x hx

theorem Frame.of_silent (hfixed : t'.connection.fixed = t.connection.fixed)
    (htx : t'.endpoint.tx = t.endpoint.tx) (hrx : t'.endpoint.rx = t.endpoint.rx)
    (hs : t'.endpoint.sessionState = t.endpoint.sessionState)
    (hg : t'.grants = t.grants ∨ t'.grants = fun k => t.grants (k + 1))
    (ho : t'.output = t.output) : Frame P t t' := by
  refine ⟨hfixed, htx, hrx, hs, fun hall k => ?_, [], by rw [ho, List.append_nil], by simp⟩
  rcases hg with hg | hg <;> rw [hg] <;> exact hall _

theorem frame_ofConnection {c : TcpConnection C} (h : c.fixed = t.connection.fixed) :
    Frame P t (t.ofConnection c) :=
  .of_silent h rfl rfl rfl (Or.inl rfl) rfl

@[simp] theorem output_programRetransmit (t : TxRun C) :
    t.programRetransmit.output = t.output := rfl

theorem frame_programRetransmit (t : TxRun C) : Frame P t t.programRetransmit := by
  unfold programRetransmit TcpEndpoint.programRetransmit
  split <;> exact .of_silent rfl rfl rfl rfl (Or.inl rfl) rfl

section

variable {now : Instant} {offset maxBytes n : ℕ} {retransmit : Bool}

theorem pick_fixed (p : Plan) (c : TcpConnection C) (noSackSequence : TcpSeq) :
    (p.pick c noSackSequence).1.fixed = c.fixed := by
  unfold Plan.pick
  split
  · rfl
  · split <;> rfl

variable [CongestionSender C]

section

variable (h : t.prepareSegment now offset maxBytes retransmit = .ok (t', n))
include h

/-- What `prepareSegment` does: nothing, for want of bytes or of a buffer, or one segment. -/
theorem prepareSegment_cases : (n = 0 ∧ t' = t ∧ t.requestedLen offset maxBytes = 0) ∨
    (n = 0 ∧ t' = t.alloc.1 ∧ t.requestedLen offset maxBytes ≠ 0 ∧ t.grants 0 = false) ∨
    (n = t.requestedLen offset maxBytes ∧ n ≠ 0 ∧ t.grants 0 = true ∧
      ∃ c segment, (if retransmit then t.intend offset else t.connection).txSegment n =
          .ok segment ∧
        (if retransmit then t.intend offset else t.connection).commitPayloadTx n now
          (!retransmit && (if retransmit then t.intend offset else t.connection).appLimitedForSend
            (t.endpoint.tx.length - offset)) = .ok c ∧
        t' = (t.alloc.1.ofConnection c).emit segment ((t.endpoint.tx.drop offset).take n)) := by
  unfold prepareSegment at h
  dsimp only [alloc] at h
  by_cases h0 : t.requestedLen offset maxBytes = 0
  · rw [if_pos h0] at h
    cases h
    exact Or.inl ⟨rfl, rfl, h0⟩
  rw [if_neg h0] at h
  cases hg : t.grants 0 with
  | false =>
    rw [hg] at h
    cases h
    exact Or.inr (Or.inl ⟨rfl, rfl, h0, rfl⟩)
  | true =>
    rw [hg, if_neg (by simp)] at h
    split at h
    · cases h
    · split at h
      · cases h
      · next segment hseg =>
        split at h
        · cases h
        · next c hc =>
          cases h
          exact Or.inr (Or.inr ⟨rfl, h0, rfl, c, segment, hseg, hc, rfl⟩)

theorem prepareSegment_frame (hp : ∀ segment, n ≠ 0 →
      (if retransmit then t.intend offset else t.connection).txSegment n = .ok segment →
      P ⟨segment, (t.endpoint.tx.drop offset).take n⟩) : Frame P t t' := by
  rcases prepareSegment_cases h with ⟨-, rfl, -⟩ | ⟨-, rfl, -⟩ | ⟨-, hn, -, c, segment, hs, hc, rfl⟩
  · exact .refl _
  · exact .of_silent rfl rfl rfl rfl (Or.inr rfl) rfl
  · have hfixed : c.fixed = t.connection.fixed := by
      rw [TcpConnection.commitPayloadTx_fixed hc]
      cases retransmit <;> rfl
    refine ⟨hfixed, rfl, rfl, rfl, fun hg k => hg _, [_], rfl, fun x hx => ?_⟩
    rw [List.mem_singleton.mp hx]
    exact hp segment hn hs

theorem prepareSegment_granted
    (hg : ∀ k, t.grants k = true) : n = t.requestedLen offset maxBytes := by
  rcases prepareSegment_cases h with ⟨rfl, -, hn⟩ | ⟨-, -, -, hf⟩ | ⟨hn, -⟩
  · exact hn.symm
  · rw [hg 0] at hf
    cases hf
  · exact hn

end

/-- A segment with the acknowledgment that the connection owes, and with the ACK flag unless it
opens the connection. -/
def Carries (k : Fixed) (x : Emitted) : Prop :=
  x.segment.acknowledgment = k.rcvNxt ∧ (k.state ≠ .synSent → x.segment.flags = .ACK)

omit [CongestionSender C] in
theorem carries_of_txSegment {c : TcpConnection C} {payloadLen : ℕ} {segment : TcpSegment}
    (h : c.txSegment payloadLen = .ok segment) (payload : List UInt8) :
    Carries c.fixed ⟨segment, payload⟩ := by
  cases hs : TcpEndpoint.sendable c with
  | false =>
    rw [TcpConnection.txSegment_error hs] at h
    cases h
  | true =>
    obtain ⟨segment', h', hack, hflags⟩ := TcpConnection.txSegment_ok hs payloadLen
    cases h.symm.trans h'
    exact ⟨hack, hflags⟩

theorem prepareSegment_carries (h : t.prepareSegment now offset maxBytes retransmit = .ok (t', n)) :
    Frame (Carries t.connection.fixed) t t' := by
  apply prepareSegment_frame h
  intro segment _ hseg
  have hcarries := carries_of_txSegment hseg ((t.endpoint.tx.drop offset).take n)
  cases retransmit <;> exact hcarries

theorem prepareSegment_count (h : t.prepareSegment now offset maxBytes retransmit = .ok (t', n)) :
    t'.output.length = t.output.length + (if n = 0 then 0 else 1) := by
  rcases prepareSegment_cases h with ⟨rfl, rfl, -⟩ | ⟨rfl, rfl, -⟩ | ⟨-, hn, -, c, segment, -, -, rfl⟩
  · rfl
  · rfl
  · rw [if_neg hn]
    exact List.length_append

theorem unsentLoop_carries {sendMss : ℕ} : ∀ {m : ℕ} {offset : ℕ} {t t' : TxRun C} {sent : ℕ},
      unsentLoop now sendMss m offset t = .ok (t', sent) →
      Frame (Carries t.connection.fixed) t t' ∧ t'.output.length = t.output.length + sent
  | 0, _, t, _, _, h => by
    cases h
    exact ⟨.refl t, rfl⟩
  | m + 1, offset, t, t', sent, h => by
    unfold unsentLoop at h
    split at h
    · cases h
    · next t1 written hprep =>
      have hframe := prepareSegment_carries hprep
      have hcount := prepareSegment_count hprep
      split_ifs at h with hw
      · cases h
        rw [if_pos hw] at hcount
        exact ⟨hframe, hcount⟩
      · split at h
        · cases h
        · next t2 sent' hrest =>
          obtain ⟨hframe', hcount'⟩ := unsentLoop_carries hrest
          cases h
          rw [hframe.fixed] at hframe'
          rw [if_neg hw] at hcount
          exact ⟨hframe.trans hframe', by omega⟩

theorem transmitUnsent_carries {burstSize availableBytes : ℕ}
    (h : t.transmitUnsent now burstSize availableBytes = .ok (t', n)) :
    Frame (Carries t.connection.fixed) t t' ∧ t'.output.length = t.output.length + n := by
  unfold transmitUnsent at h
  dsimp only at h
  split at h
  · cases h
  · exact unsentLoop_carries h

variable {p : Plan} {s s' : Resend C} {sample : TcpSentSample} {sequence : TcpSeq} {again : Bool}

omit [CongestionSender C] in
theorem account_spec {written : ℕ} (h : p.account s sample sequence written = .ok (s', again)) :
    Frame P s.run s'.run ∧ s'.sent = s.sent + 1 ∧ s'.run.output = s.run.output := by
  have hfixed {recovery : TcpRecoveryState}
      (hr : recovery.recoveryActive = s.run.connection.recovery.recoveryActive) :
      ({ s.run.connection with recovery := recovery } : TcpConnection C).fixed =
        s.run.connection.fixed := by
    unfold TcpConnection.fixed
    rw [hr]
  have hactive : (p.resent s.run.connection.recovery (advance sequence written)
      written).recoveryActive = s.run.connection.recovery.recoveryActive := by
    unfold Plan.resent
    split <;> simp [advanceHighRxt]
  unfold Plan.account at h
  dsimp only at h
  generalize p.resent s.run.connection.recovery (advance sequence written) written = recovery
    at h hactive
  generalize (if p.sack = true then s.noSackSequence else advance sequence written) = next at h
  split at h
  · split at h
    · cases h
    · next recovery hcommit =>
      have hrec : recovery.recoveryActive = s.run.connection.recovery.recoveryActive := by
        split at hcommit
        · exact (recoveryActive_commitRetransmit _ _ _ hcommit).trans hactive
        · cases hcommit
          exact hactive
      cases h
      exact ⟨frame_ofConnection (hfixed hrec), rfl, rfl⟩
  · split at h <;> cases h
    · refine ⟨Frame.trans (frame_ofConnection ?_) (frame_programRetransmit _), rfl, rfl⟩
      exact hfixed hactive
    · exact ⟨frame_ofConnection (hfixed hactive), rfl, rfl⟩

/-- The bytes that a round asks for from a sample. -/
def Plan.wanted (p : Plan) (sendSpace : ℕ) (sample : TcpSentSample) (sequence : TcpSeq) : ℕ :=
  Min.min (Min.min (p.remaining sample sequence) p.sendMss) sendSpace

theorem round_cases (h : p.round s = .ok (s', again)) :
    ((s.sendSpace = 0 ∨ p.sack = true ∧ s.sendSpace < p.sendMss) ∧ s' = s ∧ again = false) ∨
    (¬(s.sendSpace = 0 ∨ p.sack = true ∧ s.sendSpace < p.sendMss) ∧
      ∃ c picked, p.pick s.run.connection s.noSackSequence = (c, picked) ∧
        (((∀ sample sequence, picked = some (sample, sequence) →
            p.wanted s.sendSpace sample sequence = 0) ∧
          s' = { s with run := s.run.ofConnection c } ∧ again = false) ∨
        ∃ sample sequence run written, picked = some (sample, sequence) ∧
          p.wanted s.sendSpace sample sequence ≠ 0 ∧
          (s.run.ofConnection c).prepareSegment p.now (distanceTo c.sndUna sequence)
            (p.wanted s.sendSpace sample sequence) true = .ok (run, written) ∧
          ((written = 0 ∧ s' = { s with run := run.programRetransmit, bufferExhausted := true } ∧
              again = false) ∨
            (written ≠ 0 ∧
              p.account { s with run := run } sample sequence written = .ok (s', again))))) := by
  unfold Plan.round at h
  split at h
  · next hroom =>
    cases h
    exact Or.inl ⟨by simpa using hroom, rfl, rfl⟩
  · next hroom =>
    refine Or.inr ⟨by simpa using hroom, ?_⟩
    rcases hpick : p.pick s.run.connection s.noSackSequence with ⟨c, picked⟩
    rw [hpick] at h
    refine ⟨c, picked, rfl, ?_⟩
    cases picked with
    | none =>
      cases h
      exact Or.inl ⟨nofun, rfl, rfl⟩
    | some x =>
      obtain ⟨sample, sequence⟩ := x
      dsimp only at h
      split at h
      · next hzero =>
        cases h
        refine Or.inl ⟨fun sample' sequence' heq => ?_, rfl, rfl⟩
        cases heq
        exact hzero
      · next hzero =>
        split at h
        · cases h
        · next run written hprep =>
          refine Or.inr ⟨sample, sequence, run, written, rfl, hzero, hprep, ?_⟩
          split at h
          · next hw =>
            cases h
            exact Or.inl ⟨hw, rfl, rfl⟩
          · next hw => exact Or.inr ⟨hw, h⟩

theorem round_carries (h : p.round s = .ok (s', again)) :
    Frame (Carries s.run.connection.fixed) s.run s'.run ∧ s.sent ≤ s'.sent ∧
      s'.run.output.length + s.sent = s.run.output.length + s'.sent := by
  rcases round_cases h with ⟨-, rfl, -⟩ | ⟨-, c, picked, hpick, hround⟩
  · exact ⟨.refl _, le_rfl, rfl⟩
  have hfixed : c.fixed = s.run.connection.fixed := by
    have hc := pick_fixed p s.run.connection s.noSackSequence
    rwa [hpick] at hc
  have hpicked : Frame (Carries s.run.connection.fixed) s.run (s.run.ofConnection c) :=
    frame_ofConnection hfixed
  rcases hround with ⟨-, rfl, -⟩ | ⟨sample, sequence, run, written, -, -, hprep, hround⟩
  · exact ⟨hpicked, le_rfl, rfl⟩
  have hsent := prepareSegment_carries hprep
  rw [hpicked.fixed] at hsent
  have hcount := prepareSegment_count hprep
  replace hcount : run.output.length = s.run.output.length + (if written = 0 then 0 else 1) :=
    hcount
  rcases hround with ⟨hw, rfl, -⟩ | ⟨hw, hacc⟩
  · rw [if_pos hw] at hcount
    refine ⟨(hpicked.trans hsent).trans (frame_programRetransmit run), le_rfl, ?_⟩
    rw [output_programRetransmit, hcount, Nat.add_zero]
  · obtain ⟨hframe, hadd, hout⟩ := account_spec (P := Carries s.run.connection.fixed) hacc
    rw [if_neg hw] at hcount
    rw [hout, hadd]
    exact ⟨(hpicked.trans hsent).trans hframe, Nat.le_succ _, by dsimp only; omega⟩

theorem retransmitLoop_carries : ∀ {m : ℕ} {s s' : Resend C}, retransmitLoop p m s = .ok s' →
      Frame (Carries s.run.connection.fixed) s.run s'.run ∧ s.sent ≤ s'.sent ∧
        s'.run.output.length + s.sent = s.run.output.length + s'.sent
  | 0, s, _, h => by
    cases h
    exact ⟨.refl _, le_rfl, rfl⟩
  | m + 1, s, s', h => by
    unfold retransmitLoop at h
    split at h
    · cases h
    · next s1 hround =>
      obtain ⟨hframe, hle, hout⟩ := round_carries hround
      obtain ⟨hframe', hle', hout'⟩ := retransmitLoop_carries h
      rw [hframe.fixed] at hframe'
      exact ⟨hframe.trans hframe', hle.trans hle', by omega⟩
    · next s1 hround =>
      cases h
      exact round_carries hround

theorem sendRecoveryData_carries {maxSegments available outstanding more : ℕ} {left : Bool}
    (h : sendRecoveryData p s maxSegments available outstanding = .ok (t', more, left)) :
    Frame (Carries s.run.connection.fixed) s.run t' ∧
      t'.output.length = s.run.output.length + more := by
  unfold sendRecoveryData at h
  split at h
  · cases h
    exact ⟨.refl _, rfl⟩
  · dsimp only at h
    split at h
    · cases h
    · split at h
      · cases h
      · next run sent hsent =>
        cases h
        exact transmitUnsent_carries hsent

/-- What `retransmit` sends acknowledges what the connection owes. -/
theorem retransmit_carries {pacing : Option Pacing} {burstSize : ℕ}
    (h : t.retransmit now pacing burstSize = .ok (t', n)) :
    Frame (Carries t.connection.fixed) t t' ∧ t'.output.length = t.output.length + n := by
  unfold TxRun.retransmit at h
  dsimp only at h
  split at h
  · cases h
  split at h
  · cases h
    exact ⟨frame_programRetransmit t, rfl⟩
  split at h
  · cases h
  next s hloop =>
  split at h
  · cases h
  next t1 more left hnew =>
  obtain ⟨hframe, hle, hout⟩ := retransmitLoop_carries hloop
  obtain ⟨hframe1, hout1⟩ := sendRecoveryData_carries hnew
  rw [hframe.fixed] at hframe1
  have hmore (b : Bool) : Frame (Carries t.connection.fixed) t1
      (if b = true then t1.programRetransmit else t1) := by
    split
    · exact frame_programRetransmit t1
    · exact .refl t1
  have hdone (t2 : TxRun C) : Frame (Carries t.connection.fixed) t2
      (if s.sent + more ≠ 0 then t2.ofConnection { t2.connection with
        recovery := onRecoveryBurstSent t2.connection.recovery } else t2) := by
    split
    · exact frame_ofConnection rfl
    · exact .refl t2
  have hsame (b : Bool) : (if b = true then t1.programRetransmit else t1).output = t1.output := by
    split <;> rfl
  cases h
  refine ⟨((hframe.trans hframe1).trans (hmore _)).trans (hdone _), ?_⟩
  have hlast (t2 : TxRun C) (c : TcpConnection C) :
      (if s.sent + more ≠ 0 then t2.ofConnection c else t2).output = t2.output := by
    split <;> rfl
  rw [hlast, hsame]
  dsimp only at hout
  omega

end

end TxRun

end Tcp
