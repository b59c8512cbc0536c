import Hammer.RecoveryMirror

/-! # Invariance of the recovery state under translation

Two runs that differ by one constant in all sequence numbers go through translated states, once
the zeros the state starts with have been replaced by sequence numbers of the connection.
-/
namespace Recovery

open TcpSeq Flight CongestionController TcpSackBlock

variable {C : Type} [CongestionController C]
variable {c : TcpSeq} {s t : TcpRecoveryState}

/-- States that mirror each other, under one controller. -/
def Both (c : TcpSeq) (x y : TcpRecoveryState × C) : Prop := Mirrors c x.1 y.1 ∧ y.2 = x.2

theorem chainFrom_none (f : Flight) : f.chainFrom none = [] := by
  unfold chainFrom
  cases f.sentSamples.slots.length <;> rfl

theorem Mirrors.chain (h : Mirrors c s t) :
    t.flight.chainFrom t.flight.sampleHead = s.flight.chainFrom s.flight.sampleHead := by
  rw [h.flight]
  exact chainFrom_shift ..

theorem sackedBytes_mirrors (h : Mirrors c s t)
    (hhigh : t.scoreboard.highSacked = s.scoreboard.highSacked + c)
    (hfloor : t.ackFloor = s.ackFloor + c) : sackedBytes t = sackedBytes s := by
  have hholes : t.scoreboard.holes = shiftHoles c s.scoreboard.holes := by
    obtain ⟨p, rfl, -⟩ := h
    rfl
  unfold sackedBytes shiftHoles at *
  rw [hhigh, hfloor, hholes, List.foldl_map]
  simp [shiftHole, distanceTo_shift]

theorem isRackCandidate_mirrors (h : Mirrors c s t) (hr : s.rackReferenceSentAt.isSome)
    (right : TcpSeq) (sentAt : Instant) (x : TcpSentSample) :
    isRackCandidate t (right + c) sentAt (x.shift c) = isRackCandidate s right sentAt x := by
  obtain ⟨p, rfl, hf⟩ := h
  have hrack := hf.rack hr
  unfold isRackCandidate
  simp only [TcpSentSample.shift, shiftTo, hrack, le_shift, lt_shift]
  rfl

theorem markRackLoop_mirrors (right : TcpSeq) (sentAt : Instant) (delay : Duration)
    (now : Instant) : ∀ (is : List ℕ) (s t : TcpRecoveryState), Mirrors c s t →
      s.rackReferenceSentAt.isSome →
      Mirrors c (markRackLoop right sentAt delay now is s)
        (markRackLoop (right + c) sentAt delay now is t) := by
  intro is
  induction is with
  | nil => exact fun s t h _ => h
  | cons i is ih =>
    intro s t h hr
    unfold markRackLoop
    rw [h.flight, sentSample_shift]
    cases hs : s.flight.sentSample i with
    | none => exact h
    | some x =>
      simp only [Option.map_some, isRackCandidate_mirrors h hr]
      split
      · refine ih _ _ ?_ hr
        rw [updateSample_shift c s.flight (g := fun current =>
            { current with rackDeadline := some (x.sentAt + delay) }) fun _ => rfl]
        exact h.withFlight _
      · exact ih s t h hr

theorem markRackCandidates_mirrors (h : Mirrors c s t)
    (hhigh : t.scoreboard.highSacked = s.scoreboard.highSacked + c)
    (hfloor : t.ackFloor = s.ackFloor + c) (right : TcpSeq) (now : Instant) (window : Duration)
    (size : ℕ) : Mirrors c (markRackCandidates s right now window size)
      (markRackCandidates t (right + c) now window size) := by
  have hsacked := sackedBytes_mirrors h hhigh hfloor
  have hchain := h.chain
  have hfields : t.rackReferenceSentAt = s.rackReferenceSentAt ∧ t.rackRtt = s.rackRtt ∧
      t.rackReordered = s.rackReordered ∧ t.recoveryActive = s.recoveryActive ∧
      t.scoreboard.reorder = s.scoreboard.reorder := by
    obtain ⟨p, rfl, -⟩ := h
    exact ⟨rfl, rfl, rfl, rfl, rfl⟩
  obtain ⟨h1, h2, h3, h4, h5⟩ := hfields
  unfold markRackCandidates
  rw [hchain, hsacked, h1, h2, h3, h4, h5]
  cases hr : s.rackReferenceSentAt with
  | none => exact h
  | some sentAt =>
    cases s.rackRtt with
    | none => exact h
    | some rtt => exact markRackLoop_mirrors right sentAt _ now _ s t h (by rw [hr]; rfl)

theorem lostPacket_mirrors (h : Mirrors c s t) (x : TcpSentSample) :
    lostPacket t (x.shift c) = lostPacket s x := by
  obtain ⟨p, rfl, -⟩ := h
  unfold lostPacket
  simp only [TcpSentSample.shift, shiftTo, Flight.shift]

structure Scans (c : TcpSeq) (r q : RackScan C) : Prop where
  mirrors : Mirrors c r.state q.state
  congestion : q.congestion = r.congestion
  recoveryStarted : q.recoveryStarted = r.recoveryStarted
  lostAny : q.lostAny = r.lostAny

theorem Mirrors.recoveryActive (h : Mirrors c s t) : t.recoveryActive = s.recoveryActive := by
  obtain ⟨p, rfl, -⟩ := h
  rfl

theorem rackTimeoutLoop_mirrors (now : Instant) : ∀ (is : List ℕ) (r q : RackScan C),
    Scans c r q → Scans c (rackTimeoutLoop now is r) (rackTimeoutLoop now is q) := by
  intro is
  induction is with
  | nil => exact fun r q h => h
  | cons i is ih =>
    intro r q h
    unfold rackTimeoutLoop
    rw [h.mirrors.flight, sentSample_shift]
    cases hs : r.state.flight.sentSample i with
    | none => exact h
    | some x =>
      simp only [Option.map_some, show (x.shift c).txLost = x.txLost from rfl,
        shift_rackDeadline]
      split
      · exact ih r q h
      · refine ih _ _ ⟨?_, ?_, ?_, rfl⟩
        · rw [updateSample_shift c r.state.flight (g := fun current =>
            markLost { current with rackDeadline := none }) fun _ => rfl]
          obtain ⟨p, hp, hf⟩ := h.mirrors
          rw [hp]
          exact ⟨p, rfl, hf.rack, hf.recovery⟩
        · simp only [h.congestion, lostPacket_mirrors h.mirrors]
        · simp only [h.recoveryStarted, h.mirrors.recoveryActive]

theorem enterRecovery_mirrors (h : Mirrors c s t) (prevWindow window : ℕ) (sndNxt : TcpSeq) :
    Mirrors c (enterRecovery s prevWindow window sndNxt)
      (enterRecovery t prevWindow window (sndNxt + c)) := by
  obtain ⟨p, rfl, hf⟩ := h
  exact ⟨{ p with highRxt := firstHole (shiftTo c p s), recoveryEndSequence := sndNxt + c }, rfl,
    hf.rack, fun _ => rfl⟩

theorem clearTlp_mirrors (h : Mirrors c s t) : Mirrors c (clearTlp s) (clearTlp t) := by
  obtain ⟨p, rfl, hf⟩ := h
  exact ⟨p, rfl, hf.rack, hf.recovery⟩

theorem afterScan_mirrors {r q : RackScan C} (h : Scans c r q) (prevWindow : ℕ)
    {sndNxt sndNxt' : TcpSeq} (hn : r.recoveryStarted = true → sndNxt' = sndNxt + c) :
    Both c (afterScan r prevWindow sndNxt) (afterScan q prevWindow sndNxt') := by
  unfold afterScan
  rw [h.recoveryStarted, h.congestion, h.mirrors.recoveryActive]
  split
  · next hs =>
    rw [hn hs]
    refine ⟨?_, rfl⟩
    obtain ⟨p, hp, hf⟩ := enterRecovery_mirrors h.mirrors prevWindow
      (congestionWindow (onRecovery r.congestion)) sndNxt
    simp only [hp]
    exact ⟨p, rfl, hf.rack, hf.recovery⟩
  · obtain ⟨p, hp, hf⟩ := h.mirrors
    split
    · rw [hp]
      exact ⟨⟨p, rfl, hf.rack, hf.recovery⟩, rfl⟩
    · exact ⟨h.mirrors, rfl⟩

theorem onRackTimeout_mirrors (h : Mirrors c s t) (congestion : C) (now : Instant)
    {sndNxt sndNxt' : TcpSeq} (hn : s.flight.sampleHead ≠ none → sndNxt' = sndNxt + c) :
    Both c (onRackTimeout s congestion now sndNxt) (onRackTimeout t congestion now sndNxt') := by
  have hscan : Scans c ⟨s, congestion, false, false⟩ ⟨t, congestion, false, false⟩ :=
    ⟨h, rfl, rfl, rfl⟩
  have hloop := rackTimeoutLoop_mirrors now (s.flight.chainFrom s.flight.sampleHead) _ _ hscan
  have hstart : (rackTimeoutLoop now (s.flight.chainFrom s.flight.sampleHead)
      ⟨s, congestion, false, false⟩).recoveryStarted = true → sndNxt' = sndNxt + c := by
    intro hs
    refine hn fun hnone => ?_
    rw [hnone, chainFrom_none] at hs
    simp [rackTimeoutLoop] at hs
  have hafter := afterScan_mirrors hloop (congestionWindow congestion) hstart
  have hchain := h.chain
  unfold onRackTimeout
  rw [hchain]
  simp only [hloop.lostAny]
  refine ⟨?_, hafter.2⟩
  have hs := rescan_mirrors (refreshLostBytes_mirrors hafter.1)
  split
  · obtain ⟨p, hp, hf⟩ := clearTlp_mirrors hs
    rw [hp]
    exact ⟨p, rfl, hf.rack, hf.recovery⟩
  · exact hs

theorem leaveRecovery_mirrors (h : Mirrors c s t) :
    Mirrors c (leaveRecovery s) (leaveRecovery t) := by
  obtain ⟨p, rfl, hf⟩ := h
  exact ⟨{ p with recoveryEndSequence := 0 }, rfl, hf.rack, fun h => absurd h Bool.false_ne_true⟩

theorem maybeFinishRecovery_mirrors {x y : TcpRecoveryState × C} (h : Both c x y) (a : TcpSeq) :
    Both c (maybeFinishRecovery x.1 x.2 a) (maybeFinishRecovery y.1 y.2 (a + c)) := by
  obtain ⟨hm, hc⟩ := h
  have hge : (y.1.recoveryActive && ge (a + c) y.1.recoveryEndSequence) =
      (x.1.recoveryActive && ge a x.1.recoveryEndSequence) := by
    obtain ⟨p, hp, hf⟩ := hm
    rw [hp]
    cases ha : x.1.recoveryActive with
    | false => simp [shiftTo, ha]
    | true => simp [shiftTo, ha, hf.recovery ha, ge_shift]
  unfold maybeFinishRecovery
  rw [hge, hc]
  split
  · exact ⟨leaveRecovery_mirrors hm, rfl⟩
  · exact ⟨hm, rfl⟩

/-- The anchors that RACK reads are translated. -/
structure Settled (c : TcpSeq) (s t : TcpRecoveryState) : Prop where
  mirrors : Mirrors c s t
  high : t.scoreboard.highSacked = s.scoreboard.highSacked + c
  floor : t.ackFloor = s.ackFloor + c
  next : s.flight.sampleHead ≠ none → t.sndNxt = s.sndNxt + c

variable {s' t' : TcpRecoveryState}

theorem Settled.keeps (h : Settled c s t) (hs : Keeps s s')
    (ht : Keeps t t') (h' : Mirrors c s' t') : Settled c s' t' := by
  refine ⟨h', ?_, ?_, ?_⟩
  · rw [hs.highSacked, ht.highSacked, h.high]
  · rw [hs.ackFloor, ht.ackFloor, h.floor]
  · rw [hs.marks.head, hs.sndNxt, ht.sndNxt]
    exact h.next

theorem rackDetect_mirrors {x y : TcpRecoveryState × C} (h : Settled c x.1 y.1) (hc : y.2 = x.2)
    (ack : TcpRecoveryAck) (right : TcpSeq) :
    Both c (rackDetect x ack right) (rackDetect y (ack.shift c) (right + c)) := by
  unfold rackDetect
  rw [hc]
  have hmark := markRackCandidates_mirrors h.mirrors h.high h.floor right ack.now
    ack.reorderingWindow (maxDatagramSize x.2)
  refine onRackTimeout_mirrors hmark x.2 ack.now fun hne => h.next ?_
  obtain ⟨f', e, hmarks⟩ := markRackCandidates_marks x.1 right ack.now ack.reorderingWindow
    (maxDatagramSize x.2)
  rw [e] at hne
  rw [← hmarks.head]
  exact hne

section

variable {x y : TcpRecoveryState × C} (h : Settled c x.1 y.1) (hk : y.2 = x.2)
include h hk

theorem Settled.finish (a : TcpSeq) :
    Settled c (maybeFinishRecovery x.1 x.2 a).1 (maybeFinishRecovery y.1 y.2 (a + c)).1 ∧
      (maybeFinishRecovery y.1 y.2 (a + c)).2 = (maybeFinishRecovery x.1 x.2 a).2 := by
  have hm := maybeFinishRecovery_mirrors ⟨h.mirrors, hk⟩ a
  exact ⟨h.keeps (maybeFinishRecovery_keeps _ _ a).1 (maybeFinishRecovery_keeps _ _ (a + c)).1 hm.1,
    hm.2⟩

theorem Settled.rack (ack : TcpRecoveryAck) (p : Bool) (right : TcpSeq) :
    Both c (if x.1.rackEnabled && p then rackDetect x ack right else x)
      (if y.1.rackEnabled && p then rackDetect y (ack.shift c) (right + c) else y) := by
  have henabled : y.1.rackEnabled = x.1.rackEnabled := by
    obtain ⟨q, hq, -⟩ := h.mirrors
    rw [hq]
    rfl
  rw [henabled]
  split
  · exact rackDetect_mirrors h hk ack right
  · exact ⟨h.mirrors, hk⟩

end

theorem queueRecoveryHead_mirrors (h : Mirrors c s t) :
    Mirrors c (queueRecoveryHead s) (queueRecoveryHead t) := by
  unfold queueRecoveryHead
  rw [h.flight, shift_sampleHead]
  cases s.flight.sampleHead with
  | none => exact h
  | some i =>
    simp only [sentSample_shift]
    cases s.flight.sentSample i with
    | none => exact h
    | some x =>
      simp only [Option.map_some, show (x.shift c).txLost = x.txLost from rfl,
        shift_rackDeadline]
      split
      · exact h
      · rw [updateSample_shift c s.flight (g := fun current =>
          markLost { current with rackDeadline := none }) fun _ => rfl]
        exact rescan_mirrors (refreshLostBytes_mirrors (h.withFlight _))

theorem Mirrors.tlp (h : Mirrors c s t) : t.tlpProbeEnd = s.tlpProbeEnd.map (· + c) ∧
    t.tlpProbeRetransmitted = s.tlpProbeRetransmitted := by
  obtain ⟨p, rfl, -⟩ := h
  exact ⟨rfl, rfl⟩

theorem probeAcked_mirrors (h : Mirrors c s t) {p q : TcpSeq → Bool}
    (hpq : ∀ e, q (e + c) = p e) : probeAcked t q = probeAcked s p := by
  unfold probeAcked
  rw [h.tlp.1, h.tlp.2, Option.any_map]
  congr 2
  funext e
  exact hpq e

theorem probeAcked_ack (h : Mirrors c s t) (a : TcpSeq) :
    probeAcked t (gt (a + c) ·) = probeAcked s (gt a ·) ∧
      probeAcked t (a + c == ·) = probeAcked s (a == ·) :=
  ⟨probeAcked_mirrors h fun _ => gt_shift .., probeAcked_mirrors h fun _ => beq_shift ..⟩

theorem mirrors_ite (p : Bool) (h : Mirrors c s t)
    (h' : Mirrors c s' t') : Mirrors c (if p then s' else s) (if p then t' else t) := by
  split
  · exact h'
  · exact h

theorem settleTlp_mirrors (h : Mirrors c s t) (a : TcpSeq) (rtt : Option Duration) (drop : Bool) :
    Mirrors c (settleTlp s a rtt drop) (settleTlp t (a + c) rtt drop) := by
  have hfresh : ∀ {s t : TcpRecoveryState}, Mirrors c s t →
      Mirrors c { s with tlpRttFresh := true } { t with tlpRttFresh := true } := by
    rintro s t ⟨p, rfl, hf⟩
    exact ⟨p, rfl, hf.rack, hf.recovery⟩
  have h1 := mirrors_ite rtt.isSome h (hfresh h)
  have hcleared : ∀ {s t : TcpRecoveryState}, Mirrors c s t →
      (t.tlpProbeEnd.any fun probeEnd => gt (a + c) probeEnd ||
        (ge (a + c) probeEnd && !t.tlpProbeRetransmitted)) =
      s.tlpProbeEnd.any fun probeEnd => gt a probeEnd ||
        (ge a probeEnd && !s.tlpProbeRetransmitted) := by
    intro s t h
    rw [h.tlp.1, h.tlp.2, Option.any_map]
    simp only [gt_shift, ge_shift]
  have harm : ∀ {s t : TcpRecoveryState}, Mirrors c s t → Mirrors c
      { s with
        tlpTimerArmed := s.flight.bytesInFlight != 0 && s.tlpRttFresh && s.tlpProbeEnd.isNone }
      { t with
        tlpTimerArmed := t.flight.bytesInFlight != 0 && t.tlpRttFresh && t.tlpProbeEnd.isNone } := by
    rintro s t ⟨p, rfl, hf⟩
    refine ⟨p, ?_, hf.rack, hf.recovery⟩
    simp [shiftTo, Flight.shift]
  unfold settleTlp
  simp only [hcleared h1]
  have h2 := mirrors_ite ((if rtt.isSome = true then { s with tlpRttFresh := true }
    else s).tlpProbeEnd.any fun probeEnd => gt a probeEnd || (ge a probeEnd &&
      !(if rtt.isSome = true then { s with tlpRttFresh := true } else s).tlpProbeRetransmitted))
    h1 (clearTlp_mirrors h1)
  exact harm (mirrors_ite drop h2 (clearTlp_mirrors h2))

theorem dsackBlock_shift (blocks : List TcpSackBlock) (a : TcpSeq) :
    dsackBlock (blocks.map (TcpSackBlock.shift c)) (a + c) =
      (dsackBlock blocks a).map (TcpSackBlock.shift c) := by
  cases blocks with
  | nil => rfl
  | cons first rest =>
    rw [List.map_cons]
    unfold dsackBlock
    simp only [TcpSackBlock.shift, ge_shift, gt_shift]
    cases rest with
    | nil =>
      split
      · rfl
      · split
        · rfl
        · split <;> rfl
    | cons second rest =>
      simp only [List.map_cons, TcpSackBlock.shift, lt_shift, gt_shift]
      split
      · rfl
      · split
        · split <;> rfl
        · split <;> rfl

theorem rangeCovered_shift (right : TcpSeq) : ∀ (xs : List TcpSentSample) (cursor : TcpSeq),
    rangeCovered (right + c) (xs.map (TcpSentSample.shift c)) (cursor + c) =
      rangeCovered right xs cursor := by
  intro xs
  induction xs with
  | nil => exact fun _ => rfl
  | cons x xs ih =>
    intro cursor
    rw [List.map_cons]
    unfold rangeCovered
    simp only [TcpSentSample.shift, le_shift, gt_shift, max_shift, ge_shift] at ih ⊢
    simp only [ih]

theorem retransmittedRangeCovered_mirrors (h : Mirrors c s t) (left right : TcpSeq) :
    retransmittedRangeCovered t (left + c) (right + c) =
      retransmittedRangeCovered s left right := by
  unfold retransmittedRangeCovered
  rw [h.flight, samples_shift]
  exact rangeCovered_shift right _ left

/-- What both acknowledgments need before they begin: the comparisons with `highSacked` agree, and
so does `sndNxt` if anything is outstanding. -/
structure Ready (c : TcpSeq) (s t : TcpRecoveryState) (a : TcpSeq) : Prop where
  mirrors : Mirrors c s t
  ends : Every (Reads c s t) s.flight
  ack : Reads c s t a
  high : TcpSeq.max t.scoreboard.highSacked (a + c) = TcpSeq.max s.scoreboard.highSacked a + c
  next : s.flight.sampleHead ≠ none → t.sndNxt = s.sndNxt + c

variable {ack : TcpRecoveryAck}

theorem shift_acknowledgment : (ack.shift c).acknowledgment = ack.acknowledgment + c := rfl

theorem ackPhase_walk (h : Ready c s t ack.acknowledgment) :
    Walk c (atFloor s ack.acknowledgment) (atFloor t (ack.acknowledgment + c)) (ackPhase s ack)
      (ackPhase t (ack.shift c)) := by
  have hchain := h.mirrors.chain
  have hm : Mirrors c (atFloor s ack.acknowledgment) (atFloor t (ack.acknowledgment + c)) := by
    obtain ⟨p, hp, hf⟩ := h.mirrors
    rw [hp]
    exact ⟨{ p with ackFloor := ack.acknowledgment + c }, rfl, hf.rack, hf.recovery⟩
  have hw : Walk c (atFloor s ack.acknowledgment) (atFloor t (ack.acknowledgment + c))
      (atFloor s ack.acknowledgment, .empty) (atFloor t (ack.acknowledgment + c), .empty) :=
    ⟨hm, rfl, ⟨rfl, rfl⟩, ⟨rfl, rfl⟩, ⟨rfl, rfl⟩, h.ends⟩
  unfold ackPhase
  rw [hchain]
  exact ackLoop_walk (s := atFloor s ack.acknowledgment)
    (t := atFloor t (ack.acknowledgment + c)) ack h.ack _ _ _ hw

theorem Ready.max_high (h : Ready c s t ack.acknowledgment) :
    max (ackPhase t (ack.shift c)).1.scoreboard.highSacked (ack.acknowledgment + c) =
      max (ackPhase s ack).1.scoreboard.highSacked ack.acknowledgment + c := by
  have w := ackPhase_walk h
  rw [w.high.1, w.high.2]
  exact h.high

/-- A delivery phase, seen from the scoreboard that is built on it. -/
theorem settled_of_walk {a m : TcpSeq} {x y : TcpRecoveryState × AckBatch}
    {hs ht : List (TcpSeq × TcpScoreboardHole)}
    (w : Walk c (atFloor s a) (atFloor t (a + c)) x y) (hm : Mirrors c s' t')
    (ks : Keeps (withHoles x.1 hs m) s') (kt : Keeps (withHoles y.1 ht (m + c)) t')
    (hnext : x.1.flight.sampleHead ≠ none → t.sndNxt = s.sndNxt + c) : Settled c s' t' := by
  refine ⟨hm, ?_, ?_, fun hne => ?_⟩
  · rw [ks.highSacked, kt.highSacked]
    rfl
  · rw [ks.ackFloor, kt.ackFloor]
    exact w.floor.2.trans (congrArg (· + c) w.floor.1.symm)
  · rw [ks.marks.head] at hne
    rw [ks.sndNxt, kt.sndNxt]
    exact (w.next.2.trans (hnext hne)).trans (congrArg (· + c) w.next.1.symm)

theorem ackPhase_none (h : s.flight.sampleHead = none) :
    ackPhase s ack = (atFloor s ack.acknowledgment, .empty) := by
  unfold ackPhase
  rw [h, chainFrom_none]
  rfl

theorem probeControl_mirrors (h : Mirrors c s t) (k : C) (ack : TcpRecoveryAck) (acked : Bool) :
    probeControl t k (ack.shift c) acked = probeControl s k ack acked := by
  unfold probeControl
  rw [h.flight]
  rfl

theorem batchControl_walk {x y : TcpRecoveryState × AckBatch}
    (w : Walk c s t x y) (k : C) (ack : TcpRecoveryAck) :
    batchControl y k (ack.shift c) = batchControl x k ack := by
  unfold batchControl
  rw [endAcks_shift w, notifyDuplicateAck_shift w.mirrors, w.batch]
  rfl

theorem onAck_eq (s : TcpRecoveryState) (k : C) (ack : TcpRecoveryAck) :
    onAck s k ack = ackTail (ackPhase s ack)
      (batchControl (ackPhase s ack)
        (probeControl s k ack (probeAcked s (gt ack.acknowledgment ·))) ack) ack
      (probeAcked s (ack.acknowledgment == ·) && ack.duplicateAck) := by
  have hx : ∀ k : C, processAck (atFloor s ack.acknowledgment) k ack =
      ((ackPhase s ack).1, if (ackPhase s ack).2.anyAcked then
        endAcks (ackPhase s ack).1 k ack (ackPhase s ack).2 else k, (ackPhase s ack).2) :=
    fun _ => rfl
  simp only [onAck, batchControl, hx]
  cases (ackPhase s ack).2.anyAcked <;> simp

theorem ackPhase_head (h : (ackPhase s ack).1.flight.sampleHead ≠ none) :
    s.flight.sampleHead ≠ none := by
  intro hnone
  rw [ackPhase_none hnone] at h
  exact h hnone

theorem ackTail_mirrors (h : Ready c s t ack.acknowledgment) (k : C) (drop : Bool) :
    Both c (ackTail (ackPhase s ack) k ack drop)
      (ackTail (ackPhase t (ack.shift c)) k (ack.shift c) drop) := by
  have w := ackPhase_walk h
  have hhead : (ackPhase s ack).1.flight.sampleHead ≠ none → s.flight.sampleHead ≠ none :=
    ackPhase_head
  have hmax := h.max_high
  set x := ackPhase s ack with hx
  set y := ackPhase t (ack.shift c) with hy
  set a := ack.acknowledgment with ha
  set n := maxDatagramSize k with hn
  have h1 : Settled c (advanceScoreboardForAck x.1 a n)
      (advanceScoreboardForAck y.1 (a + c) n) := by
    have kt := (advanceScoreboardForAck_keeps y.1 (a + c) n).1
    rw [hmax] at kt
    exact settled_of_walk w (advanceScoreboardForAck_mirrors w.mirrors a n hmax)
      (advanceScoreboardForAck_keeps x.1 a n).1 kt fun hne => h.next (hhead hne)
  obtain ⟨h2, hk⟩ := h1.finish (x := (advanceScoreboardForAck x.1 a n, k))
    (y := (advanceScoreboardForAck y.1 (a + c) n, k)) rfl a
  set u := maybeFinishRecovery (advanceScoreboardForAck x.1 a n) k a with hu
  set v := maybeFinishRecovery (advanceScoreboardForAck y.1 (a + c) n) k (a + c) with hv
  have h3 : Both c
      (if u.1.rackEnabled && gt u.1.scoreboard.highSacked a then
        rackDetect u ack u.1.scoreboard.highSacked else u)
      (if v.1.rackEnabled && gt v.1.scoreboard.highSacked (a + c) then
        rackDetect v (ack.shift c) v.1.scoreboard.highSacked else v) := by
    rw [h2.high, gt_shift]
    exact h2.rack hk ack _ _
  have hbatch : y.2.anyAcked = x.2.anyAcked ∧ y.2.latestRtt = x.2.latestRtt := by
    rw [w.batch]
    exact ⟨rfl, rfl⟩
  have hqueue : ∀ {s t : TcpRecoveryState}, Mirrors c s t → Mirrors c
      (if s.recoveryActive && x.2.anyAcked then
        { queueRecoveryHead s with noSackFirstPending := true } else s)
      (if t.recoveryActive && y.2.anyAcked then
        { queueRecoveryHead t with noSackFirstPending := true } else t) := by
    intro s t hm
    rw [hm.recoveryActive, hbatch.1]
    refine mirrors_ite _ hm ?_
    obtain ⟨p, hp, hf⟩ := queueRecoveryHead_mirrors hm
    rw [hp]
    exact ⟨p, rfl, hf.rack, hf.recovery⟩
  refine ⟨?_, ?_⟩
  · have hsettle := settleTlp_mirrors (hqueue h3.1) a x.2.latestRtt drop
    unfold ackTail
    rw [hbatch.2]
    exact hsettle
  · exact Prod.ext h3.2 hbatch.2

theorem onAck_mirrors (h : Ready c s t ack.acknowledgment) (k : C) :
    Both c (onAck s k ack) (onAck t k (ack.shift c)) := by
  obtain ⟨hgt, heq⟩ := probeAcked_ack h.mirrors ack.acknowledgment
  rw [onAck_eq, onAck_eq, batchControl_walk (ackPhase_walk h), probeControl_mirrors h.mirrors,
    shift_acknowledgment, hgt, heq]
  exact ackTail_mirrors h _ _

/-- Blocks are either compared with a translated `sndNxt`, or all refused. -/
def BlocksReady (c : TcpSeq) (s t : TcpRecoveryState) (blocks : List TcpSackBlock) : Prop :=
  (t.sndNxt = s.sndNxt + c ∧
    ∀ b ∈ blocks, Reads c s t b.leftEdge ∧ Reads c s t b.rightEdge) ∨
  ∀ b ∈ blocks, ge b.leftEdge s.sndNxt = true ∧ ge (b.leftEdge + c) t.sndNxt = true

variable {blocks : List TcpSackBlock}

theorem ordinaryBlocks_subset {b : TcpSackBlock} {a : TcpSeq}
    (h : b ∈ ordinaryBlocks blocks a) : b ∈ blocks := by
  unfold ordinaryBlocks at h
  split at h
  · exact List.mem_of_mem_tail h
  · exact h

theorem ordinaryBlocks_shift (blocks : List TcpSackBlock) (a : TcpSeq) :
    ordinaryBlocks (blocks.map (TcpSackBlock.shift c)) (a + c) =
      (ordinaryBlocks blocks a).map (TcpSackBlock.shift c) := by
  unfold ordinaryBlocks
  rw [dsackBlock_shift, Option.isSome_map]
  split
  · exact List.map_tail.symm
  · rfl

theorem sackPhase_walk (h : Ready c s t ack.acknowledgment) (hb : BlocksReady c s t blocks) :
    (sackPhase t (ack.shift c) (blocks.map (TcpSackBlock.shift c))).1 =
      (sackPhase s ack blocks).1 + c ∧
    Walk c (atFloor s ack.acknowledgment) (atFloor t (ack.acknowledgment + c))
      (sackPhase s ack blocks).2 (sackPhase t (ack.shift c) (blocks.map (TcpSackBlock.shift c))).2 ∧
    ((sackPhase s ack blocks).2.1.flight.sampleHead ≠ none → t.sndNxt = s.sndNxt + c) := by
  have w := ackPhase_walk h
  unfold sackPhase
  rw [shift_acknowledgment, ordinaryBlocks_shift,
    h.max_high]
  rcases hb with ⟨hn, hreads⟩ | hahead
  · obtain ⟨h1, h2⟩ := sackLoop_walk (s := atFloor s ack.acknowledgment)
      (t := atFloor t (ack.acknowledgment + c)) ack hn
      (ordinaryBlocks blocks ack.acknowledgment)
      (max (ackPhase s ack).1.scoreboard.highSacked ack.acknowledgment) _ _ w
      fun b hb => hreads b (ordinaryBlocks_subset hb)
    exact ⟨h1, h2, fun _ => hn⟩
  · have hs : ∀ b ∈ ordinaryBlocks blocks ack.acknowledgment,
        ge b.leftEdge (ackPhase s ack).1.sndNxt = true := by
      intro b hb
      rw [w.next.1]
      exact (hahead b (ordinaryBlocks_subset hb)).1
    have ht : ∀ b ∈ (ordinaryBlocks blocks ack.acknowledgment).map (TcpSackBlock.shift c),
        ge b.leftEdge (ackPhase t (ack.shift c)).1.sndNxt = true := by
      intro b hb
      obtain ⟨b', hb', rfl⟩ := List.mem_map.mp hb
      rw [w.next.2]
      exact (hahead b' (ordinaryBlocks_subset hb')).2
    rw [sackLoop_ahead ack _ _ hs, sackLoop_ahead (ack.shift c) _ _ ht]
    exact ⟨rfl, w, fun hne => h.next (ackPhase_head hne)⟩

theorem undo_mirrors (h : Mirrors c s t) (k : C) (spurious : Bool) :
    Both c (undo s k spurious) (undo t k spurious) := by
  unfold undo
  split
  · refine ⟨?_, rfl⟩
    rw [h.recoveryActive]
    exact mirrors_ite _ h (leaveRecovery_mirrors h)
  · exact ⟨h, rfl⟩

section

variable (h : Ready c s t ack.acknowledgment) (hb : BlocksReady c s t blocks) (k : C)
include h hb k

theorem sackTail_mirrors (spurious drop : Bool) :
    Both c (sackTail (sackPhase s ack blocks) k ack spurious drop)
      (sackTail (sackPhase t (ack.shift c) (blocks.map (TcpSackBlock.shift c))) k (ack.shift c)
        spurious drop) := by
  obtain ⟨hr, w, hhead⟩ := sackPhase_walk h hb
  set r := sackPhase s ack blocks with hx
  set q := sackPhase t (ack.shift c) (blocks.map (TcpSackBlock.shift c)) with hy
  set a := ack.acknowledgment with ha
  set n := maxDatagramSize k with hn
  have h1 : Settled c (rebuildScoreboard r.2.1 a r.1 n)
      (rebuildScoreboard q.2.1 (a + c) (r.1 + c) n) := by
    have kt := (rebuildScoreboard_keeps q.2.1 (a + c) (r.1 + c) n).1
    rw [max_shift] at kt
    exact settled_of_walk w (rebuildScoreboard_mirrors w.mirrors a r.1 n)
      (rebuildScoreboard_keeps r.2.1 a r.1 n).1 kt hhead
  have h2 := undo_mirrors h1.mirrors k spurious
  obtain ⟨h3, hk⟩ :=
    (h1.keeps (undo_keeps _ k spurious).1 (undo_keeps _ k spurious).1 h2.1).finish h2.2 a
  have hne : (r.1 + c != a + c) = (r.1 != a) := by
    unfold bne
    rw [beq_shift]
  set u := maybeFinishRecovery (undo (rebuildScoreboard r.2.1 a r.1 n) k spurious).1
    (undo (rebuildScoreboard r.2.1 a r.1 n) k spurious).2 a with hu
  set v := maybeFinishRecovery (undo (rebuildScoreboard q.2.1 (a + c) (r.1 + c) n) k spurious).1
    (undo (rebuildScoreboard q.2.1 (a + c) (r.1 + c) n) k spurious).2 (a + c) with hv
  have h4 := h3.rack hk ack (r.1 != a) r.1
  have hrtt : q.2.2.latestRtt = r.2.2.latestRtt := by
    rw [w.batch]
    rfl
  unfold sackTail
  simp only [hr, hrtt, show (ack.shift c).acknowledgment = a + c from rfl, ← ha, ← hn, ← hu, ← hv,
    hne]
  exact ⟨settleTlp_mirrors h4.1 a _ drop, Prod.ext h4.2 rfl⟩

theorem onSackBlocks_mirrors : Both c (onSackBlocks s k ack blocks)
    (onSackBlocks t k (ack.shift c) (blocks.map (TcpSackBlock.shift c))) := by
  obtain ⟨hgt, heq⟩ := probeAcked_ack h.mirrors ack.acknowledgment
  have hprobe : ∀ (n : ℕ) (dsack : Option TcpSackBlock),
      probeDsacked t n (dsack.map (TcpSackBlock.shift c)) = probeDsacked s n dsack := by
    intro n dsack
    refine probeAcked_mirrors h.mirrors fun e => ?_
    rw [Option.any_map]
    cases dsack with
    | none => simp
    | some b =>
      simp [TcpSackBlock.shift, beq_shift, distanceTo_shift]
  have hcovered : ∀ dsack : Option TcpSackBlock,
      dsackCovered t (dsack.map (TcpSackBlock.shift c)) = dsackCovered s dsack := by
    intro dsack
    unfold dsackCovered
    rw [Option.any_map]
    cases dsack with
    | none => simp
    | some b => exact retransmittedRangeCovered_mirrors h.mirrors b.leftEdge b.rightEdge
  have hempty : (blocks.map (TcpSackBlock.shift c)).isEmpty = blocks.isEmpty := by
    cases blocks <;> rfl
  obtain ⟨-, w, -⟩ := sackPhase_walk h hb
  unfold onSackBlocks
  simp only [shift_acknowledgment,
    dsackBlock_shift, hprobe, hcovered, hempty, hgt, heq, probeControl_mirrors h.mirrors,
    batchControl_walk w]
  exact sackTail_mirrors h hb _ _ _

end

theorem appendSample_mirrors (h : Mirrors c s t) (x : TcpSentSample) :
    Mirrors c (appendSample s x) (appendSample t (x.shift c)) := by
  obtain ⟨p, rfl, hf⟩ := h
  refine ⟨{ p with sndNxt := x.endSequence + c }, ?_, hf.rack, hf.recovery⟩
  set f := s.flight with hfl
  have hins : (f.shift c).sentSamples.insert (x.shift c) =
      ((f.sentSamples.insert x).1.map (TcpSentSample.shift c), (f.sentSamples.insert x).2) :=
    Pool.insert_map (TcpSentSample.shift c) f.sentSamples x
  have hlook : ∀ j, OrderedMap.insert TcpSeq.cmp (x.sequence + c) j (f.shift c).sampleLookup =
      (OrderedMap.insert TcpSeq.cmp x.sequence j f.sampleLookup).map (Prod.map (· + c) id) :=
    fun j => OrderedMap.insert_map (φ := (· + c)) (ψ := id) (fun x y => cmp_shift c x y) _ j _
  have hset := setNext_shift c { f with
      sentSamples := (f.sentSamples.insert x).1
      sampleLookup := OrderedMap.insert TcpSeq.cmp x.sequence (f.sentSamples.insert x).2
        f.sampleLookup } x.prev (some (f.sentSamples.insert x).2)
  unfold appendSample
  simp only [show (shiftTo c p s).flight = f.shift c from rfl,
    shift_sequence,
    show (x.shift c).prev = x.prev from rfl, hins, hlook]
  unfold Flight.shift at hset ⊢
  simp only [hset, ← hfl]
  simp [shiftTo, TcpSentSample.shift, Flight.shift]

theorem restartTimes_mirrors (h : Mirrors c s t) (bytesInFlight : ℕ) (sentAt : Instant) :
    Mirrors c (restartTimes s bytesInFlight sentAt) (restartTimes t bytesInFlight sentAt) := by
  obtain ⟨p, rfl, hf⟩ := h
  unfold restartTimes
  split
  · exact ⟨p, rfl, hf.rack, hf.recovery⟩
  · exact ⟨p, rfl, hf⟩

theorem recordSent_mirrors (h : Mirrors c s t) (packetNumber : ℕ) (sequence endSequence : TcpSeq)
    (bytes payloadLen bytesInFlight : ℕ) (sentAt : Instant) (appLimited : Bool) :
    Mirrors c (recordSent s packetNumber sequence endSequence bytes payloadLen bytesInFlight sentAt
        appLimited)
      (recordSent t packetNumber (sequence + c) (endSequence + c) bytes payloadLen bytesInFlight
        sentAt appLimited) := by
  have hr := restartTimes_mirrors h bytesInFlight sentAt
  have hnew : newSample t packetNumber (sequence + c) (endSequence + c) bytes payloadLen
      bytesInFlight sentAt appLimited = (newSample s packetNumber sequence endSequence bytes
        payloadLen bytesInFlight sentAt appLimited).shift c := by
    obtain ⟨p, hp, -⟩ := hr
    unfold newSample
    rw [hp]
    rfl
  unfold recordSent
  rw [hnew, h.flight]
  split
  · exact h
  · exact appendSample_mirrors hr { newSample s packetNumber sequence endSequence bytes payloadLen
      bytesInFlight sentAt appLimited with prev := s.flight.sampleTail }

section

variable (h : Mirrors c s t)
include h

theorem loseHead_mirrors (i : ℕ) (x : TcpSentSample) :
    Mirrors c (loseHead s i x) (loseHead t i (x.shift c)) := by
  have hlost : Mirrors c
      (if !x.txLost then { s with lost := satAdd U64_MAX s.lost x.bytes } else s)
      (if !x.txLost then { t with lost := satAdd U64_MAX t.lost x.bytes } else t) := by
    refine mirrors_ite _ h ?_
    obtain ⟨p, rfl, hf⟩ := h
    exact ⟨p, rfl, hf.rack, hf.recovery⟩
  have hmark : ∀ {s t : TcpRecoveryState}, Mirrors c s t → Mirrors c
      { s with flight := s.flight.updateSample i markLost }
      { t with flight := t.flight.updateSample i markLost } := by
    intro s t h
    rw [h.flight, updateSample_shift c s.flight (g := markLost) fun _ => rfl]
    exact h.withFlight _
  exact refreshLostBytes_mirrors (hmark hlost)

theorem timedOut_mirrors (k : C) (prevWindow : ℕ) (sndNxt : TcpSeq) :
    Both c (timedOut s k prevWindow sndNxt) (timedOut t k prevWindow (sndNxt + c)) := by
  unfold timedOut
  rw [h.recoveryActive]
  by_cases ha : s.recoveryActive = true
  · obtain ⟨p, rfl, hf⟩ := h
    have hend : (shiftTo c p s).recoveryEndSequence = s.recoveryEndSequence + c := hf.recovery ha
    simp only [ha, Bool.not_true, hend, gt_shift]
    refine ⟨⟨{ p with recoveryEndSequence := (if gt sndNxt s.recoveryEndSequence then sndNxt
      else s.recoveryEndSequence) + c }, ?_, hf.rack, fun _ => rfl⟩, rfl⟩
    by_cases hg : gt sndNxt s.recoveryEndSequence = true
    · simp only [hg, if_true, shiftTo]
      rfl
    · simp only [hg, shiftTo]
      rfl
  · simp only [ha, Bool.not_false, if_true]
    exact ⟨enterRecovery_mirrors h prevWindow _ sndNxt, rfl⟩

theorem onRetransmissionTimeout_mirrors (k : C) (now : Instant) (sndNxt : TcpSeq) :
    Mirrors c (onRetransmissionTimeout s k now sndNxt).1
      (onRetransmissionTimeout t k now (sndNxt + c)).1 ∧
    (onRetransmissionTimeout t k now (sndNxt + c)).2.1 =
      (onRetransmissionTimeout s k now sndNxt).2.1 := by
  have hhead : t.flight.sampleHead = s.flight.sampleHead := by
    rw [h.flight]
    rfl
  cases hi : s.flight.sampleHead with
  | none =>
    unfold onRetransmissionTimeout
    simp only [hhead, hi]
    exact ⟨h, trivial⟩
  | some i =>
    have hget : t.flight.sentSample i = (s.flight.sentSample i).map (TcpSentSample.shift c) := by
      rw [h.flight]
      exact sentSample_shift ..
    cases hx : s.flight.sentSample i with
    | none =>
      unfold onRetransmissionTimeout
      simp only [hhead, hi, hx, hget, Option.map_none]
      exact ⟨h, trivial⟩
    | some x =>
      rw [hx] at hget
      unfold onRetransmissionTimeout
      simp only [hhead, hi, hx, hget, Option.map_some, lostPacket_mirrors h]
      have hout := timedOut_mirrors (loseHead_mirrors h i x)
        (onLoss k now (lostPacket s x) true)
        (congestionWindow k) sndNxt
      refine ⟨?_, hout.2⟩
      obtain ⟨p, hp, hf⟩ := clearTlp_mirrors hout.1
      simp only [hp]
      exact ⟨p, rfl, hf.rack, hf.recovery⟩

theorem commitRetransmit_mirrors (sequence : TcpSeq) (sentAt : Instant) :
    Option.Rel (Mirrors c) (commitRetransmit s sequence sentAt)
      (commitRetransmit t (sequence + c) sentAt) := by
  have hfind : ((t.flight.chainFrom t.flight.sampleHead).find? fun index =>
      (t.flight.sentSample index).any (·.sequence == sequence + c)) =
      (s.flight.chainFrom s.flight.sampleHead).find? fun index =>
        (s.flight.sentSample index).any (·.sequence == sequence) := by
    rw [h.flight, chainFrom_shift]
    congr 1
    funext i
    rw [sentSample_shift, Option.any_map]
    cases s.flight.sentSample i with
    | none => simp
    | some x => simp [TcpSentSample.shift]
  unfold commitRetransmit
  rw [hfind]
  split
  · exact .none
  · rename_i i _
    rw [h.flight, sentSample_shift]
    cases s.flight.sentSample i with
    | none => exact .none
    | some x =>
      refine .some (refreshLostBytes_mirrors ?_)
      rw [updateSample_shift c s.flight (g := fun current => { current with
          retransmitted := true
          txLost := false
          rackDeadline := none
          sentAt := sentAt }) fun _ => rfl,
        rackInvalidateCleared_shift]
      obtain ⟨p, rfl, hf⟩ := h
      exact ⟨{ p with highRxt := if s.rackEnabled then x.endSequence + c
        else TcpSeq.max p.highRxt (x.endSequence + c) }, rfl, hf.rack, hf.recovery⟩

theorem recordTlpProbe_mirrors (probeEnd : TcpSeq) (retransmitted : Option (TcpSeq × TcpSeq)) :
    Mirrors c (recordTlpProbe s probeEnd retransmitted)
      (recordTlpProbe t (probeEnd + c) (retransmitted.map (Prod.map (· + c) (· + c)))) := by
  have hset : ∀ {s t : TcpRecoveryState} (b : Bool), Mirrors c s t → Mirrors c
      { s with
        tlpProbeEnd := some probeEnd
        tlpProbeRetransmitted := b
        tlpRttFresh := false
        tlpTimerArmed := false }
      { t with
        tlpProbeEnd := some (probeEnd + c)
        tlpProbeRetransmitted := b
        tlpRttFresh := false
        tlpTimerArmed := false } := by
    rintro s t b ⟨p, rfl, hf⟩
    exact ⟨p, rfl, hf.rack, hf.recovery⟩
  cases retransmitted with
  | none => exact hset false h
  | some r =>
    refine hset true (rescan_mirrors ?_)
    rw [h.flight, chainFrom_shift, tlpLoop_shift]
    exact h.withFlight _

end

def Op.shift (c : TcpSeq) : Op → Op
  | .recordSent packetNumber sequence endSequence bytes payloadLen bytesInFlight sentAt appLimited =>
    .recordSent packetNumber (sequence + c) (endSequence + c) bytes payloadLen bytesInFlight sentAt
      appLimited
  | .onAck ack => .onAck (ack.shift c)
  | .onSackBlocks ack blocks => .onSackBlocks (ack.shift c) (blocks.map (TcpSackBlock.shift c))
  | .onRackTimeout now sndNxt => .onRackTimeout now (sndNxt + c)
  | .onRetransmissionTimeout now sndNxt => .onRetransmissionTimeout now (sndNxt + c)
  | .commitRetransmit sequence sentAt => .commitRetransmit (sequence + c) sentAt
  | .recordTlpProbe probeEnd retransmitted =>
    .recordTlpProbe (probeEnd + c) (retransmitted.map (Prod.map (· + c) (· + c)))
  | .advanceHighRxt endSeq => .advanceHighRxt (endSeq + c)
  | .disarmTlp => .disarmTlp
  | .onRetransmitSent bytes => .onRetransmitSent bytes
  | .onNewDataSent bytes => .onNewDataSent bytes
  | .onRecoveryBurstSent => .onRecoveryBurstSent
  | .setRackEnabled enabled => .setRackEnabled enabled

def Op.sends : Op → Bool
  | .recordSent _ _ _ bytes _ _ _ _ => bytes != 0
  | _ => false

def Op.acks : Op → Bool
  | .onAck _ => true
  | .onSackBlocks .. => true
  | _ => false

/-- The ends of recorded ranges, the acknowledgments and the SACK edges. -/
def Op.numbers : Op → List TcpSeq
  | .recordSent _ _ endSequence _ _ _ _ _ => [endSequence]
  | .onAck ack => [ack.acknowledgment]
  | .onSackBlocks ack blocks =>
    ack.acknowledgment :: blocks.flatMap fun b => [b.leftEdge, b.rightEdge]
  | _ => []

/-- In both runs `e` lies in the half of the sequence space above zero. -/
def Low (c e : TcpSeq) : Prop := e.toNat < 2147483648 ∧ (e + c).toNat < 2147483648

instance (c e : TcpSeq) : Decidable (Low c e) := inferInstanceAs (Decidable (_ ∧ _))

/-- Until a range has been recorded and an acknowledgment has been processed, all numbers lie in
the half of the sequence space above zero, in both runs. -/
def Grounded (c : TcpSeq) : Bool → Bool → List Op → Prop
  | _, _, [] => True
  | sent, acked, op :: ops =>
    ((sent && acked) = false → ∀ e ∈ op.numbers, Low c e) ∧
      Grounded c (sent || op.sends) (acked || op.acks) ops

/-- The states of two runs in step. The flags say whether a range has been recorded and whether an
acknowledgment has been processed. -/
structure InStep (c : TcpSeq) (sent acked : Bool) (s t : TcpRecoveryState) : Prop where
  mirrors : Mirrors c s t
  nextSet : sent = true → t.sndNxt = s.sndNxt + c
  nextUnset : sent = false → s.sndNxt = 0 ∧ t.sndNxt = 0 ∧ s.flight.sampleHead = none
  highSet : acked = true → t.scoreboard.highSacked = s.scoreboard.highSacked + c
  highUnset : acked = false → s.scoreboard.highSacked = 0 ∧ t.scoreboard.highSacked = 0 ∧
    Every (Low c) s.flight

variable {sent acked : Bool} {e : TcpSeq}

theorem InStep.keeps (h : InStep c sent acked s t) (hs : Keeps s s')
    (ht : Keeps t t') (h' : Mirrors c s' t') : InStep c sent acked s' t' := by
  refine ⟨h', ?_, ?_, ?_, ?_⟩
  · rw [hs.sndNxt, ht.sndNxt]
    exact h.nextSet
  · rw [hs.sndNxt, ht.sndNxt, hs.marks.head]
    exact h.nextUnset
  · rw [hs.highSacked, ht.highSacked]
    exact h.highSet
  · rw [hs.highSacked, ht.highSacked]
    intro ha
    obtain ⟨h1, h2, h3⟩ := h.highUnset ha
    refine ⟨h1, h2, fun i x hx => ?_⟩
    obtain ⟨y, hy, he⟩ := hs.marks.ends i x hx
    rw [he]
    exact h3 i y hy

theorem lt_zero_of_low (h : e.toNat < 2147483648) : lt e 0 = false := by
  rw [Bool.eq_false_iff]
  intro hlt
  rw [lt_iff] at hlt
  have : distanceTo 0 e = e.toNat := by simp [distanceTo]
  omega

theorem max_zero_of_low (h : e.toNat < 2147483648) : max 0 e = e := by
  have hmax : max 0 e = if lt e 0 then 0 else e := rfl
  rw [hmax, lt_zero_of_low h]
  rfl

section

variable (h : InStep c sent acked s t)
include h

theorem InStep.reads (he : acked = false → Low c e) : Reads c s t e := by
  unfold Reads
  cases hk : acked with
  | true => rw [h.highSet hk, lt_shift]
  | false =>
    obtain ⟨h1, h2, -⟩ := h.highUnset hk
    rw [h1, h2, lt_zero_of_low (he hk).1, lt_zero_of_low (he hk).2]

theorem InStep.ready {a : TcpSeq} (ha : acked = false → Low c a) :
    Ready c s t a := by
  refine ⟨h.mirrors, fun i x hx => ?_, h.reads ha, ?_, fun hne => ?_⟩
  · exact h.reads fun hk => (h.highUnset hk).2.2 i x hx
  · cases hk : acked with
    | true => rw [h.highSet hk, max_shift]
    | false =>
      obtain ⟨h1, h2, -⟩ := h.highUnset hk
      rw [h1, h2, max_zero_of_low (ha hk).1, max_zero_of_low (ha hk).2]
  · cases hs : sent with
    | true => exact h.nextSet hs
    | false => exact absurd (h.nextUnset hs).2.2 hne

theorem InStep.blocksReady
    (hb : (sent && acked) = false → ∀ b ∈ blocks, Low c b.leftEdge ∧ Low c b.rightEdge) :
    BlocksReady c s t blocks := by
  cases hs : sent with
  | true =>
    refine Or.inl ⟨h.nextSet hs, fun b hm => ⟨h.reads fun hk => ?_, h.reads fun hk => ?_⟩⟩
    · exact (hb (by rw [hs, hk]; rfl) b hm).1
    · exact (hb (by rw [hs, hk]; rfl) b hm).2
  | false =>
    obtain ⟨h1, h2, -⟩ := h.nextUnset hs
    refine Or.inr fun b hm => ?_
    obtain ⟨hl, hl'⟩ := (hb (by rw [hs]; rfl) b hm).1
    rw [h1, h2, ge_eq_not_lt, ge_eq_not_lt, lt_zero_of_low hl, lt_zero_of_low hl']
    exact ⟨rfl, rfl⟩

theorem InStep.of_walk {a m : TcpSeq} {x y : TcpRecoveryState × AckBatch}
    {hs ht : List (TcpSeq × TcpScoreboardHole)}
    (w : Walk c (atFloor s a) (atFloor t (a + c)) x y) (hm : Mirrors c s' t')
    (ks : Keeps (withHoles x.1 hs m) s') (kt : Keeps (withHoles y.1 ht (m + c)) t')
    (hempty : sent = false → x.1.flight.sampleHead = none) : InStep c sent true s' t' := by
  refine ⟨hm, fun hsent => ?_, fun hsent => ?_, fun _ => ?_, fun h => absurd h.symm Bool.false_ne_true⟩
  · rw [ks.sndNxt, kt.sndNxt]
    exact (w.next.2.trans (h.nextSet hsent)).trans (congrArg (· + c) w.next.1.symm)
  · obtain ⟨h1, h2, -⟩ := h.nextUnset hsent
    rw [ks.sndNxt, kt.sndNxt, ks.marks.head]
    exact ⟨w.next.1.trans h1, w.next.2.trans h2, hempty hsent⟩
  · rw [ks.highSacked, kt.highSacked]
    rfl

theorem InStep.onAck (k : C) (ack : TcpRecoveryAck)
    (ha : acked = false → Low c ack.acknowledgment) :
    InStep c sent true (Recovery.onAck s k ack).1 (Recovery.onAck t k (ack.shift c)).1 := by
  have hr := h.ready ha
  have kt := (onAck_keeps t k (ack.shift c)).1
  rw [shift_acknowledgment, hr.max_high] at kt
  refine h.of_walk (ackPhase_walk hr) (onAck_mirrors hr k).1 (onAck_keeps s k ack).1 kt fun hs => ?_
  obtain ⟨-, -, hnone⟩ := h.nextUnset hs
  rw [ackPhase_none hnone]
  exact hnone

theorem InStep.onSackBlocks (k : C) (ack : TcpRecoveryAck)
    (blocks : List TcpSackBlock) (ha : acked = false → Low c ack.acknowledgment)
    (hb : (sent && acked) = false → ∀ b ∈ blocks, Low c b.leftEdge ∧ Low c b.rightEdge) :
    InStep c sent true (Recovery.onSackBlocks s k ack blocks).1
      (Recovery.onSackBlocks t k (ack.shift c) (blocks.map (TcpSackBlock.shift c))).1 := by
  have hr := h.ready ha
  have hbr := h.blocksReady hb
  obtain ⟨hhigh, w, -⟩ := sackPhase_walk hr hbr
  have kt := (onSackBlocks_keeps t k (ack.shift c) (blocks.map (TcpSackBlock.shift c))).1
  rw [hhigh, shift_acknowledgment, max_shift] at kt
  refine h.of_walk w (onSackBlocks_mirrors hr hbr k).1 (onSackBlocks_keeps s k ack blocks).1 kt
    fun hs => ?_
  obtain ⟨h1, -, hnone⟩ := h.nextUnset hs
  have hahead : ∀ b ∈ ordinaryBlocks blocks ack.acknowledgment,
      ge b.leftEdge (ackPhase s ack).1.sndNxt = true := by
    intro b hm
    rw [(ackPhase_walk hr).next.1]
    show ge b.leftEdge s.sndNxt = true
    rw [h1, ge_eq_not_lt, lt_zero_of_low
      (hb (by rw [hs]; rfl) b (ordinaryBlocks_subset hm)).1.1]
    rfl
  unfold sackPhase
  rw [sackLoop_ahead ack _ _ hahead, ackPhase_none hnone]
  exact hnone

theorem InStep.recordSent (packetNumber : ℕ)
    (sequence endSequence : TcpSeq) {bytes : ℕ} (hb : bytes ≠ 0) (payloadLen bytesInFlight : ℕ)
    (sentAt : Instant) (appLimited : Bool) (hl : acked = false → Low c endSequence) :
    InStep c true acked
      (Recovery.recordSent s packetNumber sequence endSequence bytes payloadLen bytesInFlight sentAt
        appLimited)
      (Recovery.recordSent t packetNumber (sequence + c) (endSequence + c) bytes payloadLen
        bytesInFlight sentAt appLimited) := by
  have hnext : ∀ (s : TcpRecoveryState) (sequence endSequence : TcpSeq),
      (Recovery.recordSent s packetNumber sequence endSequence bytes payloadLen bytesInFlight sentAt
        appLimited).sndNxt = endSequence := by
    intro s sequence endSequence
    rw [Recovery.recordSent, if_neg hb]
    rfl
  refine ⟨recordSent_mirrors h.mirrors .., fun _ => ?_, fun hs => absurd hs.symm Bool.false_ne_true,
    fun hk => ?_, fun hk => ?_⟩
  · rw [hnext, hnext]
  · rw [recordSent_frame.1, recordSent_frame.1]
    exact h.highSet hk
  · obtain ⟨h1, h2, h3⟩ := h.highUnset hk
    rw [recordSent_frame.1, recordSent_frame.1]
    refine ⟨h1, h2, ?_⟩
    obtain ⟨d, t, hrestart⟩ := restartTimes_eq s bytesInFlight sentAt
    rw [Recovery.recordSent, if_neg hb, hrestart]
    exact (h3.insert (x := { newSample s packetNumber sequence endSequence bytes payloadLen
      bytesInFlight sentAt appLimited with prev := s.flight.sampleTail }) (hl hk) _).setNext _ _

end

/-- The results of one operation in both runs. -/
def StepsTo (c : TcpSeq) (sent acked : Bool) (x y : TcpRecoveryState × C) : Prop :=
  InStep c sent acked x.1 y.1 ∧ y.2 = x.2

theorem InStep.other (h : InStep c sent acked s t) {k : C} {op : Op} (hop : op.moves = false)
    {k' : C} (hs : apply (s, k) op = some (s', k'))
    (ht : apply (t, k) (op.shift c) = some (t', k')) (hm : Mirrors c s' t') :
    InStep c sent acked s' t' := by
  have hop' : (op.shift c).moves = false := by
    cases op <;> first | rfl | exact hop
  exact h.keeps (apply_keeps hs hop).1 (apply_keeps ht hop').1 hm

theorem rel_cases {A B : Type} {R : A → B → Prop} {x : Option A} {y : Option B}
    (h : Option.Rel R x y) : (x = none ∧ y = none) ∨ ∃ a b, x = some a ∧ y = some b ∧ R a b := by
  cases h with
  | none => exact Or.inl ⟨rfl, rfl⟩
  | some h => exact Or.inr ⟨_, _, rfl, rfl, h⟩

theorem step_inStep (h : InStep c sent acked s t) (k : C) (op : Op)
    (hg : (sent && acked) = false → ∀ e ∈ op.numbers, Low c e) :
    Option.Rel (StepsTo c (sent || op.sends) (acked || op.acks)) (apply (s, k) op)
      (apply (t, k) (op.shift c)) := by
  have hg' : acked = false → ∀ e ∈ op.numbers, Low c e := by
    intro hk
    refine hg ?_
    rw [hk, Bool.and_false]
  have hstay : ∀ {s' t' : TcpRecoveryState} {k' : C}, op.moves = false → op.sends = false →
      op.acks = false → apply (s, k) op = some (s', k') →
      apply (t, k) (op.shift c) = some (t', k') → Mirrors c s' t' →
      Option.Rel (StepsTo c (sent || op.sends) (acked || op.acks)) (apply (s, k) op)
        (apply (t, k) (op.shift c)) := by
    intro s' t' k' hmoves hsends hacks hs ht hm
    rw [hs, ht, hsends, hacks, Bool.or_false, Bool.or_false]
    exact .some ⟨h.other hmoves hs ht hm, rfl⟩
  have hm := h.mirrors
  cases op with
  | recordSent p q e n m l v b =>
    refine .some ⟨?_, rfl⟩
    by_cases hn : n = 0
    · have hz : (Op.recordSent p q e n m l v b).sends = false := by simp [Op.sends, hn]
      rw [hz, hn]
      simp only [recordSent_zero, Op.acks, Bool.or_false]
      exact h
    · have hz : (Op.recordSent p q e n m l v b).sends = true := by simp [Op.sends, hn]
      rw [hz, Bool.or_true]
      simp only [Op.acks, Bool.or_false]
      exact h.recordSent p q e hn m l v b fun hk => hg' hk e (by simp [Op.numbers])
  | onAck ack =>
    have ha : acked = false → Low c ack.acknowledgment := fun hk =>
      hg' hk _ (by simp [Op.numbers])
    simp only [Op.acks, Op.sends, Bool.or_true, Bool.or_false]
    exact .some ⟨h.onAck k ack ha, congrArg Prod.fst (onAck_mirrors (h.ready ha) k).2⟩
  | onSackBlocks ack blocks =>
    have ha : acked = false → Low c ack.acknowledgment := fun hk =>
      hg' hk _ (by simp [Op.numbers])
    have hb : (sent && acked) = false → ∀ b ∈ blocks, Low c b.leftEdge ∧ Low c b.rightEdge := by
      intro hk b hm
      refine ⟨hg hk _ ?_, hg hk _ ?_⟩
      · exact List.mem_cons_of_mem _ (List.mem_flatMap.mpr ⟨b, hm, by simp⟩)
      · exact List.mem_cons_of_mem _ (List.mem_flatMap.mpr ⟨b, hm, by simp⟩)
    simp only [Op.acks, Op.sends, Bool.or_true, Bool.or_false]
    exact .some ⟨h.onSackBlocks k ack blocks ha hb,
      congrArg Prod.fst (onSackBlocks_mirrors (h.ready ha) (h.blocksReady hb) k).2⟩
  | onRackTimeout now sndNxt =>
    have hr : Both c (onRackTimeout s k now sndNxt) (onRackTimeout t k now (sndNxt + c)) :=
      onRackTimeout_mirrors hm k now fun _ => rfl
    exact hstay rfl rfl rfl rfl (congrArg some (Prod.ext rfl hr.2)) hr.1
  | onRetransmissionTimeout now sndNxt =>
    have hr := onRetransmissionTimeout_mirrors hm k now sndNxt
    exact hstay rfl rfl rfl rfl (congrArg some (Prod.ext rfl hr.2)) hr.1
  | commitRetransmit sequence sentAt =>
    rcases rel_cases (commitRetransmit_mirrors hm sequence sentAt) with
      ⟨hs, ht⟩ | ⟨s', t', hs, ht, hr⟩
    · simp only [apply, Op.shift, hs, ht, Option.map_none]
      exact .none
    · have hs' : apply (s, k) (.commitRetransmit sequence sentAt) = some (s', k) := by
        simp [apply, hs]
      have ht' : apply (t, k) (.commitRetransmit (sequence + c) sentAt) = some (t', k) := by
        simp [apply, ht]
      exact hstay rfl rfl rfl hs' ht' hr
  | recordTlpProbe probeEnd retransmitted =>
    exact hstay rfl rfl rfl rfl rfl (recordTlpProbe_mirrors hm probeEnd retransmitted)
  | onRetransmitSent bytes | onNewDataSent bytes =>
    refine hstay rfl rfl rfl rfl rfl ?_
    simp only [onRetransmitSent, onNewDataSent, hm.recoveryActive]
    split
    · exact hm
    · obtain ⟨p, rfl, hf⟩ := hm
      exact ⟨p, rfl, hf.rack, hf.recovery⟩
  | advanceHighRxt endSeq =>
    refine hstay rfl rfl rfl rfl rfl ?_
    obtain ⟨p, rfl, hf⟩ := hm
    exact ⟨{ p with highRxt := if s.rackEnabled then endSeq + c
      else TcpSeq.max p.highRxt (endSeq + c) }, rfl, hf.rack, hf.recovery⟩
  | disarmTlp | onRecoveryBurstSent | setRackEnabled enabled =>
    refine hstay rfl rfl rfl rfl rfl ?_
    obtain ⟨p, rfl, hf⟩ := hm
    exact ⟨p, rfl, hf.rack, hf.recovery⟩

/-- A whole run; `none` is a panic. -/
def runOps : TcpRecoveryState × C → List Op → Option (TcpRecoveryState × C)
  | x, [] => some x
  | x, op :: ops => (apply x op).bind (runOps · ops)

theorem runOps_inStep : ∀ (ops : List Op) (sent acked : Bool) (x y : TcpRecoveryState × C),
    StepsTo c sent acked x y → Grounded c sent acked ops →
    Option.Rel (fun x y => ∃ sent acked, StepsTo c sent acked x y) (runOps x ops)
      (runOps y (ops.map (Op.shift c))) := by
  intro ops
  induction ops with
  | nil => exact fun sent acked x y h _ => .some ⟨sent, acked, h⟩
  | cons op ops ih =>
    intro sent acked x y h hg
    obtain ⟨s, k⟩ := x
    obtain ⟨t, k'⟩ := y
    obtain rfl : k' = k := h.2
    rw [List.map_cons]
    unfold runOps
    rcases rel_cases (step_inStep h.1 k' op hg.1) with ⟨hs, ht⟩ | ⟨x', y', hs, ht, hstep⟩
    · rw [hs, ht]
      exact .none
    · rw [hs, ht]
      exact ih _ _ x' y' hstep hg.2

/-- What the sender can see of two states: the outputs are translated, the counters and flags
are equal. -/
structure Translated (c : TcpSeq) (s t : TcpRecoveryState) : Prop where
  flight : t.flight = s.flight.shift c
  holes : t.scoreboard.holes = shiftHoles c s.scoreboard.holes
  retransmit : retransmitCandidate t = (retransmitCandidate s).map (TcpSentSample.shift c)
  oldest : oldestUnacked t = (oldestUnacked s).map (TcpSentSample.shift c)
  tail : tailLossProbeCandidate t = (tailLossProbeCandidate s).map (TcpSentSample.shift c)
  counters : t.delivered = s.delivered ∧ t.lost = s.lost ∧
    t.scoreboard.lostBytes = s.scoreboard.lostBytes ∧
    t.recoveryDelivered = s.recoveryDelivered ∧
    t.recoveryPrevDelivered = s.recoveryPrevDelivered ∧
    t.recoveryRetransmitted = s.recoveryRetransmitted ∧
    t.recoveryNewData = s.recoveryNewData ∧ t.recoveryWindow = s.recoveryWindow ∧
    t.recoveryPrevWindow = s.recoveryPrevWindow
  flags : t.recoveryActive = s.recoveryActive ∧ t.noSackFirstPending = s.noSackFirstPending ∧
    t.rackReordered = s.rackReordered ∧ t.tlpTimerArmed = s.tlpTimerArmed ∧
    t.tlpProbeRetransmitted = s.tlpProbeRetransmitted ∧ t.tlpRttFresh = s.tlpRttFresh

theorem Mirrors.translated (h : Mirrors c s t) : Translated c s t := by
  have hflight := h.flight
  have hbind : ∀ i : Option ℕ, i.bind (s.flight.shift c).sentSample =
      (i.bind s.flight.sentSample).map (TcpSentSample.shift c) := by
    intro i
    cases i with
    | none => rfl
    | some i => exact sentSample_shift ..
  obtain ⟨p, rfl, -⟩ := h
  refine ⟨rfl, rfl, ?_, hbind _, hbind _, ⟨rfl, rfl, rfl, rfl, rfl, rfl, rfl, rfl, rfl⟩,
    ⟨rfl, rfl, rfl, rfl, rfl, rfl⟩⟩
  unfold retransmitCandidate
  rw [hflight, samples_shift, List.find?_map]
  rfl

theorem inStep_new : InStep c false false .new .new := by
  have hno {P : Prop} : false = true → P := fun h => absurd h Bool.false_ne_true
  refine ⟨⟨⟨0, 0, 0, 0, 0, 0⟩, rfl, hno, hno⟩, hno, fun _ => ⟨rfl, rfl, rfl⟩, hno,
    fun _ => ⟨rfl, rfl, ?_⟩⟩
  intro i x hx
  exact absurd hx (by simp [sentSample, TcpRecoveryState.new])

/-- Two runs of grounded operations that differ by `c` in all sequence numbers panic together, and
otherwise end in translated states under the same controller. -/
theorem recovery_shift_invariant (c : TcpSeq) (k : C) (ops : List Op)
    (hg : Grounded c false false ops) :
    Option.Rel (fun x y : TcpRecoveryState × C => Translated c x.1 y.1 ∧ y.2 = x.2)
      (runOps (.new, k) ops) (runOps (.new, k) (ops.map (Op.shift c))) := by
  have h := runOps_inStep ops false false (.new, k) (.new, k) ⟨inStep_new, rfl⟩ hg
  rcases rel_cases h with ⟨hx, hy⟩ | ⟨x, y, hx, hy, _, _, hstep, hk⟩
  · rw [hx, hy]
    exact .none
  · rw [hx, hy]
    exact .some ⟨hstep.mirrors.translated, hk⟩

/-- Three ranges; the first is acknowledged and the last sacked. -/
def sackedTransfer (start : TcpSeq) : List Op :=
  [.recordSent 0 start (start + 0x100) 0x100 0x100 0 0 false,
    .recordSent 1 (start + 0x100) (start + 0x200) 0x100 0x100 0x100 0 false,
    .recordSent 2 (start + 0x200) (start + 0x300) 0x100 0x100 0x200 0 false,
    .onSackBlocks (plainAck (start + 0x100)) [⟨start + 0x200, start + 0x300⟩]]

theorem recovery_shift_invariant_sacked :
    Grounded 0x1000 false false (sackedTransfer 1) ∧
    Option.Rel (fun x y : TcpRecoveryState × Unit => Translated 0x1000 x.1 y.1 ∧ y.2 = x.2)
      (runOps (.new, ()) (sackedTransfer 1))
      (runOps (.new, ()) ((sackedTransfer 1).map (Op.shift 0x1000))) := by
  have hg : Grounded 0x1000 false false (sackedTransfer 1) := by
    refine ⟨?_, ?_, ?_, ?_, trivial⟩ <;> simp [Op.numbers, Low, plainAck]
  exact ⟨hg, recovery_shift_invariant 0x1000 () (sackedTransfer 1) hg⟩

/-- One range above the half of the sequence space: `high_sacked` still holds the zero it started
with, and the bytes up to it become a hole. -/
theorem zero_high_sacked_not_translated :
    ∃ x y : TcpRecoveryState × Unit,
      runOps (.new, ()) [.recordSent 0 1 0x101 0x100 0x100 0 0 false,
        .onSackBlocks (plainAck 0x81) []] = some x ∧
      runOps (.new, ()) ([.recordSent 0 1 0x101 0x100 0x100 0 0 false,
        .onSackBlocks (plainAck 0x81) []].map (Op.shift 0x90000000)) = some y ∧
      x.1.scoreboard.holes =
    [] ∧ y.1.scoreboard.holes ≠ shiftHoles 0x90000000 x.1.scoreboard.holes :=
  ⟨_, _, rfl, rfl, by decide, by decide⟩

end Recovery
