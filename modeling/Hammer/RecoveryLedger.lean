import Hammer.RecoveryFlight
import Mathlib.Algebra.Order.BigOperators.Group.List

/-! # The sender's ledger

Marking samples leaves their ranges alone. Delivering moves bytes from the flight to the
delivered counter. Every operation of the recovery state is made of these two.
-/
namespace Recovery

open LinkedRing TcpSeq Flight List TcpSentSample

variable {C : Type} [CongestionController C]
variable {f f' f'' : Flight} {o : TcpSeq} {top total i : ℕ}
    {es es' es'' xs ys : List (ℕ × TcpSentSample)}

def bytesOf (es : List (ℕ × TcpSentSample)) : ℕ := (es.map (·.2.bytes)).sum

def lostOf (es : List (ℕ × TcpSentSample)) : ℕ :=
  (es.map fun e => if e.2.lost then e.2.bytes else 0).sum

/-- Index, place and size of a sample. -/
def rangeOf (e : ℕ × TcpSentSample) : ℕ × TcpSeq × TcpSeq × ℕ :=
  (e.1, e.2.sequence, e.2.endSequence, e.2.bytes)

/-- The lists differ in flags and times only. -/
def Alike (es es' : List (ℕ × TcpSentSample)) : Prop := es.map rangeOf = es'.map rangeOf

theorem Alike.trans (h : Alike es es') (h' : Alike es' es'') : Alike es es'' := Eq.trans h h'

theorem Alike.bytesOf_eq (h : Alike es es') : bytesOf es' = bytesOf es := by
  have : ∀ l : List (ℕ × TcpSentSample), bytesOf l = ((l.map rangeOf).map (·.2.2.2)).sum := by
    intro l
    rw [map_map]
    rfl
  rw [this, this, h]

theorem Flight.Ranges.alike (r : Ranges o top es) (h : Alike es es') : Ranges o top es' := by
  have hsized : ∀ q ∈ es.map rangeOf, 0 < q.2.2.2 ∧ q.2.2.1 = advance q.2.1 q.2.2.2 :=
    forall_mem_map.mpr r.sized
  have hbounded : ∀ q ∈ es.map rangeOf, distanceTo o q.2.1 + q.2.2.2 ≤ top :=
    forall_mem_map.mpr r.bounded
  have hasc : (es.map rangeOf).Pairwise fun p q =>
    distanceTo o p.2.1 + p.2.2.2 ≤ distanceTo o q.2.1 := pairwise_map.mpr r.ascending
  rw [h] at hsized hbounded hasc
  exact ⟨forall_mem_map.mp hsized, pairwise_map.mp hasc, forall_mem_map.mp hbounded, r.half⟩

theorem bytesOf_append (es es' : List (ℕ × TcpSentSample)) :
    bytesOf (es ++ es') = bytesOf es + bytesOf es' := by
  simp [bytesOf]

theorem bytesOf_cons (e : ℕ × TcpSentSample) (es : List (ℕ × TcpSentSample)) :
    bytesOf (e :: es) = e.2.bytes + bytesOf es := by
  simp [bytesOf]

theorem Flight.Ranges.bytesOf_le (r : Ranges o top es) : bytesOf es ≤ top := by
  suffices h : ∀ lo, (∀ e ∈ es, lo ≤ distanceTo o e.2.sequence) → lo ≤ top →
      lo + bytesOf es ≤ top by
    have := h 0 (fun _ _ => Nat.zero_le _) (Nat.zero_le _)
    omega
  have hb := r.bounded
  have ha := r.ascending
  clear r
  induction es with
  | nil => simp [bytesOf]
  | cons e es ih =>
    intro lo hlo _
    rw [pairwise_cons] at ha
    have h1 := hlo e (by simp)
    have h2 := hb e (by simp)
    have := ih (fun e he => hb e (by simp [he])) ha.2 (distanceTo o e.2.sequence + e.2.bytes)
      ha.1 h2
    rw [bytesOf_cons]
    omega

theorem foldl_satAdd (limit : ℕ) : ∀ (bs : List TcpSentSample) (n : ℕ), n ≤ limit →
    bs.foldl (fun n b => if b.lost then satAdd limit n b.bytes else n) n =
      Min.min (n + (bs.map fun b => if b.lost then b.bytes else 0).sum) limit := by
  intro bs
  induction bs with
  | nil => intro n hn; simp [hn]
  | cons b bs ih =>
    intro n hn
    rw [foldl_cons, map_cons, sum_cons]
    split
    · rw [ih _ (show satAdd limit n b.bytes ≤ limit from Nat.min_le_right _ _)]
      unfold satAdd
      omega
    · rw [ih n hn, Nat.zero_add]

theorem lostOf_le (es : List (ℕ × TcpSentSample)) : lostOf es ≤ bytesOf es := by
  apply sum_le_sum
  intro e _
  split <;> omega

theorem Flight.Tracks.lostBytes_eq (t : Tracks f es) (r : Ranges o top es) :
    f.lostBytes = lostOf es := by
  have hle := r.bytesOf_le
  have hlost := lostOf_le es
  have hhalf := r.half
  have hfold := foldl_satAdd U32_MAX (f.samples.map body) 0 (Nat.zero_le _)
  rw [foldl_map, t.samples_body, map_map, Nat.zero_add] at hfold
  have hsum : (es.map ((fun b : TcpSentSample => if b.lost then b.bytes else 0) ∘ Prod.snd)).sum =
      lostOf es := rfl
  rw [Nat.min_eq_left (by unfold U32_MAX; omega)] at hfold
  exact hfold

/-- Assignments to flags and times. -/
structure Flags (g : TcpSentSample → TcpSentSample) : Prop extends Relabels g where
  sequence : ∀ x, (g x).sequence = x.sequence
  endSequence : ∀ x, (g x).endSequence = x.endSequence
  bytes : ∀ x, (g x).bytes = x.bytes

structure Marks (f f' : Flight) : Prop where
  tracks : ∀ es, Tracks f es → ∃ es', Tracks f' es' ∧ Alike es es'
  bytes : f'.bytesInFlight = f.bytesInFlight
  head : f'.sampleHead = f.sampleHead
  ends : ∀ i x', f'.sentSample i = some x' →
    ∃ x, f.sentSample i = some x ∧ x'.endSequence = x.endSequence

theorem Marks.refl (f : Flight) : Marks f f :=
  ⟨fun es t => ⟨es, t, rfl⟩, rfl, rfl, fun _ x h => ⟨x, h, rfl⟩⟩

theorem Marks.trans (h : Marks f f') (h' : Marks f' f'') : Marks f f'' := by
  refine ⟨fun es t => ?_, h'.bytes.trans h.bytes, h'.head.trans h.head, fun i x hx => ?_⟩
  · obtain ⟨es1, t1, a1⟩ := h.tracks es t
    obtain ⟨es2, t2, a2⟩ := h'.tracks es1 t1
    exact ⟨es2, t2, a1.trans a2⟩
  · obtain ⟨x1, hx1, e1⟩ := h'.ends i x hx
    obtain ⟨x2, hx2, e2⟩ := h.ends i x1 hx1
    exact ⟨x2, hx2, e1.trans e2⟩

theorem marks_deadline (f : Flight) (d : Option Instant) : Marks f { f with rackDeadline := d } :=
  ⟨fun es t => ⟨es, t.deadline d, rfl⟩, rfl, rfl, fun _ x h => ⟨x, h, rfl⟩⟩

theorem marks_rescan (f : Flight) : Marks f f.rackRescanEarliest := marks_deadline f _

theorem marks_invalidate (f : Flight) (cleared : Option Instant) :
    Marks f (f.rackInvalidateCleared cleared) := by
  obtain ⟨d, hd⟩ := f.rackInvalidateCleared_eq cleared
  rw [hd]
  exact marks_deadline f d

theorem Marks.update {x : TcpSentSample} {g : TcpSentSample → TcpSentSample} (hg : Flags g)
    (hx : f.sentSample i = some x) : Marks f (f.updateSample i g) := by
  refine ⟨fun es t => ?_, rfl, rfl, fun k x' hx' => ?_⟩
  · obtain ⟨xs, ys, rfl⟩ := append_of_mem (t.mem hx)
    refine ⟨_, t.update hg.toRelabels (hg.sequence _), ?_⟩
    simp [Alike, rangeOf, hg.sequence, hg.endSequence, hg.bytes]
  · rw [sentSample_updateSample] at hx'
    split at hx'
    · obtain ⟨y, hy, rfl⟩ := Option.map_eq_some_iff.mp hx'
      exact ⟨y, hy, hg.endSequence y⟩
    · exact ⟨x', hx', rfl⟩

theorem Flags.intro {g : TcpSentSample → TcpSentSample}
    (h : ∀ x, (g x).next = x.next ∧ (g x).prev = x.prev ∧ (g x).body = g x.body ∧
      (g x).sequence = x.sequence ∧ (g x).endSequence = x.endSequence ∧ (g x).bytes = x.bytes) :
    Flags g where
  next x := (h x).1
  prev x := (h x).2.1
  body x := (h x).2.2.1
  sequence x := (h x).2.2.2.1
  endSequence x := (h x).2.2.2.2.1
  bytes x := (h x).2.2.2.2.2

theorem flags_markLost : Flags markLost := Flags.intro fun _ => ⟨rfl, rfl, rfl, rfl, rfl, rfl⟩

theorem markLoop_marks (rangeStart rangeEnd : TcpSeq) :
    ∀ (is : List ℕ) (f : Flight), Marks f (markLoop rangeStart rangeEnd is f) := by
  intro is
  induction is with
  | nil => exact Marks.refl
  | cons i is ih =>
    intro f
    unfold markLoop
    split
    · exact Marks.refl f
    · rename_i x hx
      split
      · exact Marks.refl f
      · split
        · exact (Marks.update flags_markLost hx).trans (ih _)
        · exact ih f

theorem markSamplesInRangeLost_marks (f : Flight) (rangeStart rangeEnd : TcpSeq) :
    Marks f (f.markSamplesInRangeLost rangeStart rangeEnd) := by
  unfold markSamplesInRangeLost
  split
  · exact Marks.refl f
  · exact markLoop_marks ..

theorem tlpLoop_marks (start retransmitEnd : TcpSeq) :
    ∀ (is : List ℕ) (f : Flight), Marks f (tlpLoop start retransmitEnd is f) := by
  intro is
  induction is with
  | nil => exact Marks.refl
  | cons i is ih =>
    intro f
    unfold tlpLoop
    split
    · exact Marks.refl f
    · rename_i x hx
      split
      · refine (Marks.update (Flags.intro fun _ => ?_) hx).trans (ih _)
        exact ⟨rfl, rfl, rfl, rfl, rfl, rfl⟩
      · exact ih f

theorem markRackLoop_marks (right : TcpSeq) (sentAt : Instant) (delay : Duration) (now : Instant) :
    ∀ (is : List ℕ) (s : TcpRecoveryState), ∃ f',
      markRackLoop right sentAt delay now is s = { s with flight := f' } ∧ Marks s.flight f' := by
  intro is
  induction is with
  | nil => exact fun s => ⟨s.flight, rfl, Marks.refl _⟩
  | cons i is ih =>
    intro s
    unfold markRackLoop
    split
    · exact ⟨s.flight, rfl, Marks.refl _⟩
    · rename_i x hx
      split
      · obtain ⟨f', e, hm⟩ := ih { s with
          flight := (s.flight.updateSample i fun current => { current with
            rackDeadline := some (x.sentAt + delay) }).rackNoteDeadline
              (Max.max (x.sentAt + delay) now) }
        refine ⟨f', e, Marks.trans ?_ hm⟩
        refine (Marks.update (Flags.intro fun _ => ?_) hx).trans (marks_deadline _ _)
        exact ⟨rfl, rfl, rfl, rfl, rfl, rfl⟩
      · exact ih s

theorem markRackCandidates_marks (s : TcpRecoveryState) (right : TcpSeq) (now : Instant)
    (window : Duration) (size : ℕ) : ∃ f',
      markRackCandidates s right now window size = { s with flight := f' } ∧ Marks s.flight f' := by
  unfold markRackCandidates
  split
  · exact markRackLoop_marks ..
  · exact ⟨s.flight, rfl, Marks.refl _⟩

theorem rackTimeoutLoop_marks (now : Instant) : ∀ (is : List ℕ) (r : RackScan C), ∃ f' lost,
    (rackTimeoutLoop now is r).state = { r.state with flight := f', lost := lost } ∧
      Marks r.state.flight f' := by
  intro is
  induction is with
  | nil => exact fun r => ⟨r.state.flight, r.state.lost, rfl, Marks.refl _⟩
  | cons i is ih =>
    intro r
    unfold rackTimeoutLoop
    split
    · exact ⟨r.state.flight, r.state.lost, rfl, Marks.refl _⟩
    · rename_i x hx
      split
      · exact ih r
      · obtain ⟨f', lost, e, hm⟩ := ih _
        refine ⟨f', lost, e, Marks.trans ?_ hm⟩
        exact Marks.update (Flags.intro fun _ => ⟨rfl, rfl, rfl, rfl, rfl, rfl⟩) hx

theorem lossFold_marks (reorderLimit byteThreshold : ℕ) (r : LossScan) :
    ∀ holes : List (TcpSeq × TcpScoreboardHole),
      Marks r.flight (holes.foldr (lossStep reorderLimit byteThreshold) r).flight := by
  intro holes
  induction holes with
  | nil => exact Marks.refl _
  | cons hole holes ih =>
    rw [foldr_cons]
    refine ih.trans ?_
    unfold lossStep
    simp only
    split
    · exact markSamplesInRangeLost_marks ..
    · exact Marks.refl _

variable {s s' s'' : TcpRecoveryState}

def holeRanges (s : TcpRecoveryState) : List (TcpSeq × TcpSeq) :=
  s.scoreboard.holes.map fun hole => (hole.1, hole.2.endSeq)

/-- Samples and holes are marked at most, and nothing is delivered or sent. -/
structure Keeps (s s' : TcpRecoveryState) : Prop where
  marks : Marks s.flight s'.flight
  delivered : s'.delivered = s.delivered
  sndNxt : s'.sndNxt = s.sndNxt
  highSacked : s'.scoreboard.highSacked = s.scoreboard.highSacked
  holes : holeRanges s' = holeRanges s
  ackFloor : s'.ackFloor = s.ackFloor

/-- `lost_bytes` is up to date. -/
def Scored (s : TcpRecoveryState) : Prop := s.scoreboard.lostBytes = s.flight.lostBytes

theorem Keeps.refl (s : TcpRecoveryState) : Keeps s s := ⟨Marks.refl _, rfl, rfl, rfl, rfl, rfl⟩

theorem Keeps.trans (h : Keeps s s') (h' : Keeps s' s'') : Keeps s s'' :=
  ⟨h.marks.trans h'.marks, h'.delivered.trans h.delivered, h'.sndNxt.trans h.sndNxt,
    h'.highSacked.trans h.highSacked, h'.holes.trans h.holes, h'.ackFloor.trans h.ackFloor⟩

theorem Marks.keeps (h : Marks s.flight f') : Keeps s { s with flight := f' } :=
  ⟨h, rfl, rfl, rfl, rfl, rfl⟩

theorem Keeps.congr (hf : s'.flight = s.flight) (hd : s'.delivered = s.delivered)
    (hn : s'.sndNxt = s.sndNxt) (hh : s'.scoreboard.highSacked = s.scoreboard.highSacked)
    (hb : s'.scoreboard.holes = s.scoreboard.holes) (ha : s'.ackFloor = s.ackFloor) :
    Keeps s s' :=
  ⟨hf ▸ Marks.refl _, hd, hn, hh, by unfold holeRanges; rw [hb], ha⟩

/-- Besides, `lost_bytes` does not fall behind. -/
structure KeepsScored (s s' : TcpRecoveryState) : Prop extends Keeps s s' where
  scored : Scored s → Scored s'

/-- Besides, `lost_bytes` is counted again. -/
structure Rescores (s s' : TcpRecoveryState) : Prop extends Keeps s s' where
  scored : Scored s'

theorem KeepsScored.refl (s : TcpRecoveryState) : KeepsScored s s := ⟨Keeps.refl s, id⟩

theorem KeepsScored.trans (h : KeepsScored s s') (h' : KeepsScored s' s'') : KeepsScored s s'' :=
  ⟨h.toKeeps.trans h'.toKeeps, h'.scored ∘ h.scored⟩

theorem KeepsScored.ite {p : Bool} (h : KeepsScored s s') :
    KeepsScored s (if p then s' else s) := by
  split
  · exact h
  · exact .refl s

theorem Rescores.keepsScored (h : Rescores s s') : KeepsScored s s' :=
  ⟨h.toKeeps, fun _ => h.scored⟩

theorem Rescores.trans (h : Rescores s s') (h' : KeepsScored s' s'') : Rescores s s'' :=
  ⟨h.toKeeps.trans h'.toKeeps, h'.scored h.scored⟩

theorem Keeps.rescores (h : Keeps s s') (h' : Rescores s' s'') : Rescores s s'' :=
  ⟨h.trans h'.toKeeps, h'.scored⟩

theorem refreshLostBytes_keeps (s : TcpRecoveryState) : Rescores s (refreshLostBytes s) :=
  ⟨Keeps.congr rfl rfl rfl rfl rfl rfl, rfl⟩

theorem rescan_keeps (s : TcpRecoveryState) : KeepsScored s (rescan s) :=
  ⟨(marks_rescan s.flight).keeps, id⟩

theorem refreshed_keeps (s : TcpRecoveryState) : Rescores s (rescan (refreshLostBytes s)) :=
  (refreshLostBytes_keeps s).trans (rescan_keeps _)

theorem clearTlp_keeps (s : TcpRecoveryState) : KeepsScored s (clearTlp s) :=
  ⟨Keeps.congr rfl rfl rfl rfl rfl rfl, id⟩

theorem onRackTimeout_keeps (s : TcpRecoveryState) (c : C) (now : Instant) (sndNxt : TcpSeq) :
    Rescores s (onRackTimeout s c now sndNxt).1 := by
  obtain ⟨f', lost, e, hm⟩ := rackTimeoutLoop_marks now (s.flight.chainFrom s.flight.sampleHead)
    (⟨s, c, false, false⟩ : RackScan C)
  set r := rackTimeoutLoop now (s.flight.chainFrom s.flight.sampleHead)
    (⟨s, c, false, false⟩ : RackScan C) with hr
  have h1 : Keeps s r.state := by
    rw [e]
    exact hm.keeps.trans (Keeps.congr rfl rfl rfl rfl rfl rfl)
  refine Rescores.trans ?_ (.ite ⟨Keeps.congr rfl rfl rfl rfl rfl rfl, id⟩)
  refine (h1.trans ?_).rescores (refreshed_keeps _)
  unfold afterScan
  split
  · exact Keeps.congr rfl rfl rfl rfl rfl rfl
  · split
    · exact Keeps.congr rfl rfl rfl rfl rfl rfl
    · exact Keeps.refl _

theorem rackDetect_keeps (x : TcpRecoveryState × C) (ack : TcpRecoveryAck) (right : TcpSeq) :
    Rescores x.1 (rackDetect x ack right).1 := by
  obtain ⟨f', e, hm⟩ := markRackCandidates_marks x.1 right ack.now ack.reorderingWindow
    (CongestionController.maxDatagramSize x.2)
  unfold rackDetect
  rw [e]
  exact hm.keeps.rescores (onRackTimeout_keeps { x.1 with flight := f' } x.2 ack.now x.1.sndNxt)

theorem maybeFinishRecovery_keeps (s : TcpRecoveryState) (c : C) (a : TcpSeq) :
    KeepsScored s (maybeFinishRecovery s c a).1 := by
  unfold maybeFinishRecovery
  split
  · exact ⟨Keeps.congr rfl rfl rfl rfl rfl rfl, id⟩
  · exact .refl _

theorem queueRecoveryHead_keeps (s : TcpRecoveryState) : KeepsScored s (queueRecoveryHead s) := by
  unfold queueRecoveryHead
  split
  · exact .refl _
  · split
    · exact .refl _
    · rename_i head _ _ x hx
      split
      · exact .refl _
      · have hm : Marks s.flight (s.flight.updateSample head fun current =>
            markLost { current with rackDeadline := none }) :=
          Marks.update (Flags.intro fun _ => ⟨rfl, rfl, rfl, rfl, rfl, rfl⟩) hx
        exact (hm.keeps.rescores (refreshed_keeps _)).keepsScored

theorem settleTlp_keeps (s : TcpRecoveryState) (a : TcpSeq) (rtt : Option Duration) (drop : Bool) :
    KeepsScored s (settleTlp s a rtt drop) := by
  have h1 : KeepsScored s (if rtt.isSome then { s with tlpRttFresh := true } else s) :=
    .ite ⟨Keeps.congr rfl rfl rfl rfl rfl rfl, id⟩
  have h2 (p : Bool) := h1.trans (.ite (p := p) (clearTlp_keeps _))
  have h3 (p : Bool) := (h2 p).trans (.ite (p := drop) (clearTlp_keeps _))
  exact (h3 _).trans ⟨Keeps.congr rfl rfl rfl rfl rfl rfl, id⟩

theorem lossFold_holes (reorderLimit byteThreshold : ℕ) (r : LossScan) :
    ∀ holes : List (TcpSeq × TcpScoreboardHole),
      (holes.foldr (lossStep reorderLimit byteThreshold) r).holes.map
          (fun hole => (hole.1, hole.2.endSeq)) =
        holes.map (fun hole => (hole.1, hole.2.endSeq)) ++
          r.holes.map fun hole => (hole.1, hole.2.endSeq) := by
  intro holes
  induction holes with
  | nil => rfl
  | cons hole holes ih =>
    rw [map_cons, cons_append, ← ih]
    rfl

theorem updateScoreboardLoss_keeps (s : TcpRecoveryState) (size : ℕ) :
    Rescores s (updateScoreboardLoss s size) := by
  refine Keeps.rescores ?_ (refreshLostBytes_keeps _)
  refine ⟨lossFold_marks _ _ ⟨s.flight, [], _, _, none⟩ _, rfl, rfl, rfl, ?_, rfl⟩
  unfold holeRanges
  rw [lossFold_holes]
  simp

theorem scoreLoss_keeps (s : TcpRecoveryState) (size : ℕ) :
    Rescores s (scoreLoss s size) := by
  unfold scoreLoss
  split
  · exact refreshed_keeps s
  · exact (updateScoreboardLoss_keeps s _).trans (rescan_keeps _)

/-- The holes after a cumulative acknowledgment, before they are marked. -/
def advancedHoles (s : TcpRecoveryState) (acknowledgment : TcpSeq) :
    List (TcpSeq × TcpScoreboardHole) :=
  if s.flight.sampleHead.isNone ||
    le (TcpSeq.max s.scoreboard.highSacked acknowledgment) acknowledgment then []
  else trimHoles acknowledgment s.scoreboard.holes

/-- The holes `rebuild_scoreboard` finds, before they are marked. -/
def rebuiltHoles (s : TcpRecoveryState) (acknowledgment highSacked : TcpSeq) :
    List (TcpSeq × TcpScoreboardHole) :=
  if s.flight.sampleHead.isNone ||
    le (TcpSeq.max highSacked acknowledgment) acknowledgment then []
  else holeLoop acknowledgment (TcpSeq.max highSacked acknowledgment) s.flight.samples none []

theorem advanceScoreboardForAck_keeps (s : TcpRecoveryState) (a : TcpSeq) (size : ℕ) :
    Rescores { s with scoreboard := { s.scoreboard with
        holes := advancedHoles s a
        highSacked := max s.scoreboard.highSacked a } }
      (advanceScoreboardForAck s a size) := by
  unfold advanceScoreboardForAck advancedHoles
  simp only
  split
  · refine Keeps.rescores ?_ (refreshed_keeps _)
    exact Keeps.congr rfl rfl rfl rfl rfl rfl
  · refine Keeps.rescores ?_ (scoreLoss_keeps _ size)
    exact Keeps.congr rfl rfl rfl rfl rfl rfl

theorem rebuildScoreboard_keeps (s : TcpRecoveryState) (a high : TcpSeq) (size : ℕ) :
    Rescores { s with scoreboard := { s.scoreboard with
        holes := rebuiltHoles s a high
        highSacked := max high a } }
      (rebuildScoreboard s a high size) := by
  unfold rebuildScoreboard rebuiltHoles
  simp only
  split
  · refine Keeps.rescores ?_ (refreshed_keeps _)
    exact Keeps.congr rfl rfl rfl rfl rfl rfl
  · refine Keeps.rescores ?_ (scoreLoss_keeps _ size)
    exact Keeps.congr rfl rfl rfl rfl rfl rfl

/-- The flight holds the samples `es`, and `total` bytes were recorded so far. -/
structure Books (s : TcpRecoveryState) (o : TcpSeq) (total : ℕ)
    (es : List (ℕ × TcpSentSample)) : Prop where
  tracks : Tracks s.flight es
  ranges : Ranges o (distanceTo o s.sndNxt) es
  inFlight : s.flight.bytesInFlight = bytesOf es
  recorded : bytesOf es ≤ total
  delivered : s.delivered = Min.min (total - bytesOf es) U64_MAX

theorem Books.keeps (b : Books s o total es) (h : Keeps s s') :
    ∃ es', Books s' o total es' ∧ Alike es es' := by
  obtain ⟨es', t, ha⟩ := h.marks.tracks es b.tracks
  refine ⟨es', ⟨t, ?_, ?_, ?_, ?_⟩, ha⟩
  · rw [h.sndNxt]
    exact b.ranges.alike ha
  · rw [h.marks.bytes, b.inFlight, ha.bytesOf_eq]
  · rw [ha.bytesOf_eq]
    exact b.recorded
  · rw [h.delivered, b.delivered, ha.bytesOf_eq]

theorem Books.take {n : ℕ} (b : Books s o total es) (t : Tracks s'.flight es')
    (r : Ranges o (distanceTo o s.sndNxt) es') (hn : s'.sndNxt = s.sndNxt)
    (hbytes : s'.flight.bytesInFlight = s.flight.bytesInFlight - n)
    (hsum : bytesOf es' + n = bytesOf es) (hd : s'.delivered = satAdd U64_MAX s.delivered n) :
    Books s' o total es' := by
  have hr := b.recorded
  have hin := b.inFlight
  have hdel := b.delivered
  refine ⟨t, by rw [hn]; exact r, by omega, by omega, ?_⟩
  rw [hd, satAdd]
  omega

variable (ack : TcpRecoveryAck)

theorem deliver_spec (segment : TcpSentSample) (x : TcpRecoveryState × AckBatch) :
    (deliver ack segment x).1.flight = x.1.flight ∧
    (deliver ack segment x).1.sndNxt = x.1.sndNxt ∧
    (deliver ack segment x).1.scoreboard = x.1.scoreboard ∧
    (deliver ack segment x).1.delivered = satAdd U64_MAX x.1.delivered segment.bytes := by
  unfold deliver deliverSample countDelivered noteDelivered
  simp only
  split <;> split <;> (try split) <;> exact ⟨rfl, rfl, rfl, rfl⟩

/-- The samples that a cumulative acknowledgment leaves. -/
def trimLow (a : TcpSeq) : List (ℕ × TcpSentSample) → List (ℕ × TcpSentSample)
  | [] => []
  | (i, b) :: es =>
    if le a b.sequence then (i, b) :: es
    else if ge a b.endSequence then trimLow a es
    else match b.split a with
      | some (_, suffix) => (i, suffix) :: es
      | none => (i, b) :: es

theorem split_body (x : TcpSentSample) (cut : TcpSeq) : x.body.split cut =
    (x.split cut).map fun p => (p.1.body, p.2.body) := by
  unfold split body
  split <;> rfl

theorem bytesOf_middle (xs ys : List (ℕ × TcpSentSample)) (e : ℕ × TcpSentSample) :
    bytesOf (xs ++ e :: ys) = e.2.bytes + bytesOf (xs ++ ys) := by
  rw [bytesOf_append, bytesOf_append, bytesOf_cons]
  omega

section Take

variable {i : ℕ} {b y : TcpSentSample} (bk : Books s o total (xs ++ (i, b) :: ys))
include bk

theorem Books.takeSent (batch : AckBatch) : ∃ f' segment,
    s.flight.takeSent i = some (f', segment) ∧
      Books (deliver ack segment ({ s with flight := f' }, batch)).1 o total (xs ++ ys) := by
  obtain ⟨f', segment, htake, hseg, ht, hbytes⟩ := takeSent_spec bk.tracks bk.ranges
  obtain ⟨h1, h2, -, h4⟩ := deliver_spec ack segment ({ s with flight := f' }, batch)
  have hsb : segment.bytes = b.bytes := by rw [← hseg]; rfl
  refine ⟨f', segment, htake, bk.take (n := b.bytes) (by rw [h1]; exact ht)
    (bk.ranges.sublist ?_) h2 (by rw [h1]; exact hbytes) ?_ (by rw [h4, hsb])⟩
  · exact (sublist_cons_self _ _).append_left _
  · rw [bytesOf_middle, Nat.add_comm]

theorem Books.takeSamplePrefix (hy : s.flight.sentSample i = some y) {cut : TcpSeq}
    {pre suffix : TcpSentSample} (hs : y.split cut = some (pre, suffix)) (batch : AckBatch) :
    ∃ f', s.flight.takeSamplePrefix i cut = some (f', pre) ∧
      Books (deliver ack pre ({ s with flight := f' }, batch)).1 o total
        (xs ++ (i, suffix.body) :: ys) := by
  have hyb : y.body = b := bk.tracks.unique (bk.tracks.mem hy) (by simp)
  obtain ⟨f', htake, ht, hbytes⟩ := takeSamplePrefix_spec bk.tracks bk.ranges hy hs
  obtain ⟨hcut, -, -⟩ := bk.ranges.split hyb hs
  obtain ⟨h1, h2, -, h4⟩ := deliver_spec ack pre ({ s with flight := f' }, batch)
  have hsum : pre.bytes + suffix.bytes = b.bytes := hcut.bytes
  refine ⟨f', htake, bk.take (n := pre.bytes) (by rw [h1]; exact ht)
    (hcut.ranges_suffix bk.ranges) h2 (by rw [h1]; exact hbytes) ?_ h4⟩
  rw [bytesOf_middle, bytesOf_middle]
  show suffix.bytes + _ + _ = _
  simp only
  omega

end Take

theorem ackLoop_spec :
    ∀ (es : List (ℕ × TcpSentSample)) (x : TcpRecoveryState × AckBatch), Books x.1 o total es →
      Books (ackLoop ack (es.map Prod.fst) x).1 o total (trimLow ack.acknowledgment es) ∧
      (ackLoop ack (es.map Prod.fst) x).1.scoreboard = x.1.scoreboard ∧
      (ackLoop ack (es.map Prod.fst) x).1.sndNxt = x.1.sndNxt := by
  intro es
  induction es with
  | nil => exact fun x b => ⟨b, rfl, rfl⟩
  | cons e es ih =>
    obtain ⟨i, b⟩ := e
    intro x bk
    obtain ⟨y, hy, hyb⟩ := bk.tracks.get (e := (i, b)) (by simp)
    simp only at hy hyb
    have hseq : y.sequence = b.sequence := by rw [← hyb]; rfl
    have hend : y.endSequence = b.endSequence := by rw [← hyb]; rfl
    rw [map_cons]
    unfold ackLoop trimLow
    simp only [hy, hseq, hend]
    have bk' : Books x.1 o total ([] ++ (i, b) :: es) := bk
    split
    · exact ⟨bk, rfl, rfl⟩
    · split
      · -- the whole sample is acknowledged
        obtain ⟨f', segment, htake, hbooks⟩ := bk'.takeSent ack x.2
        simp only [htake]
        obtain ⟨-, h2, h3, -⟩ := deliver_spec ack segment ({ x.1 with flight := f' }, x.2)
        obtain ⟨h5, h6, h7⟩ := ih _ hbooks
        exact ⟨h5, h6.trans h3, h7.trans h2⟩
      · -- the acknowledgment ends inside the sample
        rw [← hyb, split_body]
        cases hs : y.split ack.acknowledgment with
        | none =>
          rw [takeSamplePrefix_none hy hs, hyb]
          exact ⟨bk, rfl, rfl⟩
        | some p =>
          obtain ⟨f', htake, hbooks⟩ := bk'.takeSamplePrefix ack hy hs x.2
          simp only [htake, Option.map_some]
          obtain ⟨-, h2, h3, -⟩ := deliver_spec ack p.1 ({ x.1 with flight := f' }, x.2)
          exact ⟨hbooks, h3, h2⟩

theorem take_spec (batch : AckBatch) (ackEnd : TcpSeq)
    {b y : TcpSentSample} (bk : Books s o total (xs ++ (i, b) :: ys))
    (hy : s.flight.sentSample i = some y) {x : TcpRecoveryState × AckBatch}
    (hx : x = match (if lt ackEnd y.endSequence then s.flight.takeSamplePrefix i ackEnd
        else s.flight.takeSent i) with
      | none => (s, batch)
      | some (flight, segment) => deliver ack segment ({ s with flight := flight }, batch)) :
    ∃ ms, Books x.1 o total (xs ++ ms ++ ys) ∧ x.1.sndNxt = s.sndNxt := by
  by_cases hlt : lt ackEnd y.endSequence = true
  · rw [if_pos hlt] at hx
    cases hs : y.split ackEnd with
    | none =>
      rw [takeSamplePrefix_none hy hs] at hx
      subst hx
      exact ⟨[(i, b)], by simpa using bk, rfl⟩
    | some p =>
      obtain ⟨f', htake, hbooks⟩ := bk.takeSamplePrefix ack hy hs batch
      rw [htake] at hx
      subst hx
      refine ⟨[(i, p.2.body)], ?_, (deliver_spec ..).2.1⟩
      rw [append_assoc]
      exact hbooks
  · obtain ⟨f', segment, htake, hbooks⟩ := bk.takeSent ack batch
    rw [if_neg hlt, htake] at hx
    subst hx
    refine ⟨[], ?_, (deliver_spec ..).2.1⟩
    rw [append_nil]
    exact hbooks

theorem overlap_start {y : TcpSentSample} {left right : TcpSeq} (hpos : 0 < y.bytes)
    (hlt : y.bytes < 2147483648) (hend : y.endSequence = advance y.sequence y.bytes)
    (h : y.overlaps left right = true) :
    max y.sequence left = y.sequence ∨
      max y.sequence left = left ∧ gt left y.sequence = true ∧
        ∃ pre suffix, y.split left = some (pre, suffix) := by
  unfold overlaps at h
  rw [Bool.and_eq_true, gt_eq_not_le, Bool.not_eq_true', ← Bool.not_eq_true, le_iff, hend,
    distanceTo_origin y.sequence left, distanceTo_advance (by omega)] at h
  have hmax : max y.sequence left = if lt left y.sequence then y.sequence else left := rfl
  by_cases hl : lt left y.sequence = true
  · exact Or.inl (by rw [hmax, if_pos hl])
  rw [hmax, if_neg hl]
  rw [lt_iff] at hl
  by_cases h0 : distanceTo y.sequence left = 0
  · exact Or.inl (distanceTo_eq_zero.mp h0).symm
  · have hle : le left y.sequence = false := by
      rw [← Bool.not_eq_true, le_iff]
      omega
    refine Or.inr ⟨rfl, by rw [gt_eq_not_le, hle]; rfl, ?_⟩
    have hge : ge left y.endSequence = false := by
      rw [ge_eq_not_lt, Bool.not_eq_false', lt_iff, hend,
        distanceTo_origin y.sequence (advance y.sequence y.bytes), distanceTo_advance (by omega)]
      omega
    unfold split
    simp [hle, hge]

theorem sackSample_spec (block : TcpSackBlock) {b y : TcpSentSample}
    {x : TcpRecoveryState × AckBatch} (bk : Books x.1 o total (xs ++ (i, b) :: ys))
    (hy : x.1.flight.sentSample i = some y) :
    ∃ ms, Books (sackSample ack block i y x).1 o total (xs ++ ms ++ ys) ∧
      (sackSample ack block i y x).1.sndNxt = x.1.sndNxt := by
  have hyb : y.body = b := bk.tracks.unique (bk.tracks.mem hy) (by simp)
  obtain ⟨hpos, hend⟩ := bk.ranges.sized (i, b) (by simp)
  have hbound := bk.ranges.bounded (i, b) (by simp)
  have hhalf := bk.ranges.half
  rw [← hyb] at hpos hend hbound
  simp only [body] at hpos hend hbound
  unfold sackSample
  split
  · exact ⟨[(i, b)], by simpa using bk, rfl⟩
  · rename_i hov
    rw [Bool.not_eq_true', Bool.not_eq_false] at hov
    rcases overlap_start hpos (by omega) hend hov with hmax | ⟨hmax, hgt, pre, suffix, hs⟩
    · -- the block begins at or before the sample
      have hself : gt y.sequence y.sequence = false := by
        rw [gt_eq_not_le, Bool.not_eq_false', le_iff, distanceTo_self]
        exact Or.inl rfl
      have hfind : x.1.flight.sampleAtOrAfter y.sequence false = some i := by
        unfold sampleAtOrAfter
        rw [bk.tracks.lookup_self bk.ranges hy]
      rw [hmax]
      simp only [hself, Bool.false_eq_true, if_false, Bool.not_true, hfind, hy]
      exact take_spec ack x.2 _ bk hy rfl
    · -- the sample is cut where the block begins
      obtain ⟨f', j, e, ht, hbytes⟩ := splitSample_spec bk.tracks bk.ranges hy hs
      obtain ⟨hcut, hpre, hsuf⟩ := bk.ranges.split hyb hs
      have hsum : pre.bytes + suffix.bytes = b.bytes := hcut.bytes
      have hr := hcut.ranges (j := j) bk.ranges
      obtain ⟨z, hz, hzb⟩ := ht.get (e := (i, suffix.body)) (by simp)
      have hzs : z.sequence = block.leftEdge := by
        have : z.body.sequence = block.leftEdge := by rw [hzb, hsuf]
        exact this
      have hfind : f'.sampleAtOrAfter block.leftEdge false = some i := by
        unfold sampleAtOrAfter
        have := ht.lookup_self hr hz
        rw [hzs] at this
        rw [this]
      have hsame : bytesOf (xs ++ (j, pre.body) :: (i, suffix.body) :: ys) =
          bytesOf (xs ++ (i, b) :: ys) := by
        rw [bytesOf_middle, bytesOf_middle, bytesOf_middle]
        show pre.bytes + (suffix.bytes + _) = _
        simp only
        omega
      have bk' : Books { x.1 with flight := f' } o total
          ((xs ++ [(j, pre.body)]) ++ (i, suffix.body) :: ys) := by
        rw [append_assoc, singleton_append]
        exact ⟨ht, hr, by rw [hsame, ← bk.inFlight]; exact hbytes, by rw [hsame]; exact bk.recorded,
          by rw [hsame]; exact bk.delivered⟩
      rw [hmax]
      simp only [hgt, if_true, e, Bool.not_true, Bool.false_eq_true, if_false, hfind, hz]
      obtain ⟨ms, h1, h2⟩ := take_spec ack x.2 (min y.endSequence block.rightEdge) bk' hz rfl
      have hlist : xs ++ [(j, pre.body)] ++ ms ++ ys = xs ++ (j, pre.body) :: ms ++ ys := by simp
      rw [hlist] at h1
      exact ⟨(j, pre.body) :: ms, h1, h2⟩

theorem nextSample_spec {b : TcpSentSample} (t : Tracks f (xs ++ (i, b) :: ys))
    (r : Ranges o top (xs ++ (i, b) :: ys)) :
    f.nextSample b.sequence = (ys.map Prod.fst).head? := by
  have hb := r.pos_lt (e := (i, b)) (by simp)
  have hasc := r.ascending
  rw [pairwise_append, pairwise_cons] at hasc
  obtain ⟨-, ⟨hby, -⟩, hxy⟩ := hasc
  have hcmp : ∀ e ∈ xs ++ (i, b) :: ys, ((TcpSeq.cmp b.sequence e.2.sequence == .lt) = true ↔
      distanceTo o b.sequence < distanceTo o e.2.sequence) := by
    intro e he
    rw [cmp_of_distance hb (r.pos_lt he)]
    simp [Nat.compare_eq_lt]
  have hbefore : (xs.map fun e => (e.2.sequence, e.1)).find?
      (fun e => TcpSeq.cmp b.sequence e.1 == .lt) = none := by
    rw [find?_eq_none]
    intro e he
    obtain ⟨a, ha, rfl⟩ := mem_map.mp he
    rw [hcmp a (by simp [ha])]
    have := hxy a ha (i, b) (by simp)
    simp only at this
    omega
  unfold nextSample OrderedMap.successor
  rw [t.lookup, map_append, map_cons, find?_append, hbefore, find?_cons_of_neg (by
      rw [hcmp (i, b) (by simp)]
      exact lt_irrefl _)]
  cases ys with
  | nil => rfl
  | cons y ys =>
    rw [map_cons, find?_cons_of_pos (by
      rw [hcmp y (by simp)]
      have h1 := hby y (by simp)
      have h2 := (r.sized (i, b) (by simp)).1
      simp only at h1 h2 ⊢
      omega)]
    rfl

theorem sackBlockLoop_none (block : TcpSackBlock) (m : ℕ)
    (x : TcpRecoveryState × AckBatch) : sackBlockLoop ack block m none x = x := by
  cases m <;> rfl

/-- The loop over a block keeps the books, and no loop bound above the number of samples left
changes its result. -/
theorem sackBlockLoop_spec (block : TcpSackBlock) :
    ∀ (ys xs : List (ℕ × TcpSentSample)) (i : ℕ) (b : TcpSentSample)
      (x : TcpRecoveryState × AckBatch), Books x.1 o total (xs ++ (i, b) :: ys) →
      ∃ x', (∀ m, ys.length < m → sackBlockLoop ack block m (some i) x = x') ∧
        (∃ es', Books x'.1 o total es') ∧ x'.1.sndNxt = x.1.sndNxt
  | ys, xs, i, b, x, bk => by
    obtain ⟨y, hy, hyb⟩ := bk.tracks.get (e := (i, b)) (by simp)
    simp only at hy hyb
    have hseq : y.sequence = b.sequence := by rw [← hyb]; rfl
    obtain ⟨ms, h1, h2⟩ := sackSample_spec ack block bk hy
    have hnext := nextSample_spec bk.tracks bk.ranges
    by_cases hlt : lt block.rightEdge b.sequence = true
    · refine ⟨x, fun m hm => ?_, ⟨_, bk⟩, rfl⟩
      obtain ⟨m, rfl⟩ : ∃ k, m = k + 1 := ⟨m - 1, by omega⟩
      simp [sackBlockLoop, hy, hseq, hlt]
    cases ys with
    | nil =>
      refine ⟨_, fun m hm => ?_, ⟨_, h1⟩, h2⟩
      obtain ⟨m, rfl⟩ : ∃ k, m = k + 1 := ⟨m - 1, by omega⟩
      simp only [sackBlockLoop, hy, hseq, hlt, hnext]
      exact sackBlockLoop_none ..
    | cons e ys =>
      obtain ⟨x', hx', hbooks, hsnd⟩ := sackBlockLoop_spec block ys (xs ++ ms) e.1 e.2 _ h1
      refine ⟨x', fun m hm => ?_, hbooks, hsnd.trans h2⟩
      rw [length_cons] at hm
      obtain ⟨m, rfl⟩ : ∃ k, m = k + 1 := ⟨m - 1, by omega⟩
      simp only [sackBlockLoop, hy, hseq, hlt, hnext]
      exact hx' m (by omega)

theorem sampleAtOrAfter_mem {sequence : TcpSeq} {covering : Bool} (t : Tracks f es)
    (h : f.sampleAtOrAfter sequence covering = some i) : ∃ b, (i, b) ∈ es := by
  have hmem : ∀ e ∈ f.sampleLookup, ∃ b, (e.2, b) ∈ es := by
    intro e he
    rw [t.lookup] at he
    obtain ⟨a, ha, rfl⟩ := mem_map.mp he
    exact ⟨a.2, ha⟩
  have hsucc :
    ∀ j, (OrderedMap.successor cmp sequence f.sampleLookup).map Prod.snd = some j →
      ∃ b, (j, b) ∈ es := by
    intro j hj
    obtain ⟨e, he, rfl⟩ := Option.map_eq_some_iff.mp hj
    exact hmem e (mem_of_find?_eq_some he)
  unfold sampleAtOrAfter at h
  split at h
  · rename_i j hj
    obtain ⟨e, he, rfl⟩ := Option.map_eq_some_iff.mp hj
    obtain rfl : e.2 = i := by simpa using h
    exact hmem e (mem_of_find?_eq_some he)
  · split at h
    · exact hsucc i h
    · split at h
      · rename_i k j hj
        split at h
        · obtain rfl : j = i := by simpa using h
          exact hmem (k, j) (mem_of_mem_filter (mem_of_getLast? hj))
        · exact hsucc i h
      · exact hsucc i h

theorem sackBlockValid_behind {ack : TcpRecoveryAck} {block : TcpSackBlock}
    (h : sackBlockValid s ack block = true) (ha : Behind ack.acknowledgment s.sndNxt) :
    distanceTo block.rightEdge s.sndNxt < 2147483648 := by
  unfold sackBlockValid at h
  simp only [Bool.not_eq_true', Bool.or_eq_false_iff, ge_eq_not_lt, Bool.not_eq_false',
    gt_eq_not_le] at h
  obtain ⟨⟨⟨h1, h2⟩, h3⟩, h4⟩ := h
  rw [lt_iff] at h1 h3
  rw [le_iff] at h4
  rw [distanceTo_origin ack.acknowledgment] at h1 h3 h4 ⊢
  omega

theorem sackLoop_spec :
    ∀ (blocks : List TcpSackBlock) (highest : TcpSeq) (x : TcpRecoveryState × AckBatch),
      (∃ es, Books x.1 o total es) →
      (∃ es', Books (sackLoop ack blocks highest x).2.1 o total es') ∧
      (sackLoop ack blocks highest x).2.1.sndNxt = x.1.sndNxt ∧
      (Behind ack.acknowledgment x.1.sndNxt → Behind highest x.1.sndNxt →
        Behind (sackLoop ack blocks highest x).1 x.1.sndNxt) := by
  intro blocks
  induction blocks with
  | nil => exact fun _ x b => ⟨b, rfl, fun _ h => h⟩
  | cons block blocks ih =>
    intro highest x bk
    unfold sackLoop
    split
    · rename_i hvalid
      obtain ⟨es, bk⟩ := bk
      have hmax : Behind ack.acknowledgment x.1.sndNxt → Behind highest x.1.sndNxt →
          Behind (max highest block.rightEdge) x.1.sndNxt := by
        intro ha hh
        have : max highest block.rightEdge =
          if lt block.rightEdge highest then highest else block.rightEdge := rfl
        rw [this]
        split
        · exact hh
        · exact sackBlockValid_behind hvalid ha
      have hloop : ∃ x', sackBlockLoop ack block x.1.flight.sampleLookup.length
          (x.1.flight.sampleAtOrAfter block.leftEdge true) x = x' ∧
          (∃ es', Books x'.1 o total es') ∧ x'.1.sndNxt = x.1.sndNxt := by
        cases hc : x.1.flight.sampleAtOrAfter block.leftEdge true with
        | none => exact ⟨x, sackBlockLoop_none .., ⟨es, bk⟩, rfl⟩
        | some i =>
          obtain ⟨b, hb⟩ := sampleAtOrAfter_mem bk.tracks hc
          obtain ⟨xs, ys, rfl⟩ := append_of_mem hb
          obtain ⟨x', hx', hbooks⟩ := sackBlockLoop_spec ack block ys xs i b x bk
          refine ⟨x', hx' _ ?_, hbooks⟩
          rw [bk.tracks.lookup, length_map, length_append, length_cons]
          omega
      obtain ⟨x', hx', hbooks, hsnd⟩ := hloop
      rw [hx']
      obtain ⟨h1, h2, h3⟩ := ih (max highest block.rightEdge) x' hbooks
      rw [hsnd] at h2 h3
      exact ⟨h1, h2, fun ha hh => h3 ha (hmax ha hh)⟩
    · exact ih highest x bk

end Recovery
