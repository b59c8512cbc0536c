import Hammer.RecoveryShift

/-! # Translated states

A translated state keeps six sequence numbers of its own, its anchors: they start as the
absolute zero and are only sometimes meaningful. All operations commute with the translation as
long as the anchors they read are translated too.
-/
namespace Recovery

open TcpSeq Flight

variable {C : Type} [CongestionController C]

structure Anchors where
  highSacked : TcpSeq
  highRxt : TcpSeq
  ackFloor : TcpSeq
  sndNxt : TcpSeq
  rackReferenceEnd : TcpSeq
  recoveryEndSequence : TcpSeq

def shiftHole (c : TcpSeq) (hole : TcpScoreboardHole) : TcpScoreboardHole :=
  { hole with endSeq := hole.endSeq + c }

def shiftHoles (c : TcpSeq) (holes : List (TcpSeq × TcpScoreboardHole)) :
    List (TcpSeq × TcpScoreboardHole) := holes.map (Prod.map (· + c) (shiftHole c))

/-- The state `s` with all sequence numbers translated, except for the anchors. -/
def shiftTo (c : TcpSeq) (p : Anchors) (s : TcpRecoveryState) : TcpRecoveryState :=
  { s with
    flight := s.flight.shift c
    ackFloor := p.ackFloor
    scoreboard := { s.scoreboard with
      holes := shiftHoles c s.scoreboard.holes
      highSacked := p.highSacked
      highRxt := p.highRxt }
    rackReferenceEnd := p.rackReferenceEnd
    sndNxt := p.sndNxt
    tlpProbeEnd := s.tlpProbeEnd.map (· + c)
    recoveryEndSequence := p.recoveryEndSequence }

/-- The anchors that hold a sequence number of the connection are translated. -/
structure Fits (c : TcpSeq) (p : Anchors) (s : TcpRecoveryState) : Prop where
  rack : s.rackReferenceSentAt.isSome → p.rackReferenceEnd = s.rackReferenceEnd + c
  recovery : s.recoveryActive → p.recoveryEndSequence = s.recoveryEndSequence + c

def Mirrors (c : TcpSeq) (s t : TcpRecoveryState) : Prop := ∃ p, t = shiftTo c p s ∧ Fits c p s

def TcpRecoveryAck.shift (c : TcpSeq) (ack : TcpRecoveryAck) : TcpRecoveryAck :=
  { ack with acknowledgment := ack.acknowledgment + c }

def TcpSackBlock.shift (c : TcpSeq) (block : TcpSackBlock) : TcpSackBlock :=
  ⟨block.leftEdge + c, block.rightEdge + c⟩

def AckBatch.shift (c : TcpSeq) (batch : AckBatch) : AckBatch :=
  { batch with rateSample := batch.rateSample.map (TcpSentSample.shift c) }

variable {c : TcpSeq} {s t : TcpRecoveryState}

theorem refreshLostBytes_mirrors (h : Mirrors c s t) :
    Mirrors c (refreshLostBytes s) (refreshLostBytes t) := by
  obtain ⟨p, rfl, hf⟩ := h
  refine ⟨p, ?_, hf.rack, hf.recovery⟩
  unfold refreshLostBytes shiftTo
  simp only [lostBytes_shift]

theorem rescan_mirrors (h : Mirrors c s t) : Mirrors c (rescan s) (rescan t) := by
  obtain ⟨p, rfl, hf⟩ := h
  refine ⟨p, ?_, hf.rack, hf.recovery⟩
  unfold rescan shiftTo
  simp only [rackRescanEarliest_shift]

/-- All samples in the pool end in `P`. -/
def Flight.Every (P : TcpSeq → Prop) (f : Flight) : Prop :=
  ∀ i x, f.sentSample i = some x → P x.endSequence

section Ends

variable {P : TcpSeq → Prop} {f f' : Flight} {a : TcpSeq}

section

variable (h : Every P f)
include h

theorem Flight.Every.update {g : TcpSentSample → TcpSentSample} (i : ℕ)
    (hg : ∀ x, (g x).endSequence = x.endSequence) : Every P (f.updateSample i g) := by
  intro k x hx
  rw [sentSample_updateSample] at hx
  split at hx
  · obtain ⟨y, hy, rfl⟩ := Option.map_eq_some_iff.mp hx
    rw [hg]
    exact h k y hy
  · exact h k x hx

theorem Flight.Every.setNext (node value : Option ℕ) : Every P (f.setNext node value) := by
  cases node with
  | none => exact h
  | some i => exact h.update i fun _ => rfl

theorem Flight.Every.setPrev (node value : Option ℕ) : Every P (f.setPrev node value) := by
  cases node with
  | none => exact h
  | some i => exact h.update i fun _ => rfl

theorem Flight.Every.deadline (cleared : Option Instant) :
    Every P (f.rackInvalidateCleared cleared) := by
  obtain ⟨d, hd⟩ := f.rackInvalidateCleared_eq cleared
  rw [hd]
  exact h

theorem Flight.Every.takeSent {i : ℕ} {x : TcpSentSample} (ht : f.takeSent i = some (f', x)) :
    Every P f' ∧ P x.endSequence := by
  unfold Flight.takeSent at ht
  split at ht
  · simp at ht
  · rename_i y hy
    split at ht
    · simp at ht
    · split at ht
      · simp at ht
      · simp only at ht
        set f1 := ({ f with
          sampleLookup := OrderedMap.erase TcpSeq.cmp y.sequence f.sampleLookup }.setNext
            y.prev y.next).setPrev y.next y.prev with hf1
        have h0 : Every P { f with
          sampleLookup := OrderedMap.erase TcpSeq.cmp y.sequence f.sampleLookup } := h
        have h1 : Every P f1 := (h0.setNext _ _).setPrev _ _
        cases hg : f1.sentSamples.get i with
        | none =>
          rw [Pool.remove_eq_none hg] at ht
          simp at ht
        | some z =>
          obtain ⟨pool, hr, hget, -⟩ := Pool.remove_spec hg
          rw [hr] at ht
          simp only [Option.some.injEq, Prod.mk.injEq] at ht
          obtain ⟨rfl, rfl⟩ := ht
          refine ⟨Every.deadline (fun k w hw => ?_) _, h1 i z hg⟩
          have hw' : pool.get k = some w := hw
          rw [hget] at hw'
          split at hw'
          · simp at hw'
          · exact h1 k w hw'

theorem Flight.Every.trimTo (i : ℕ) (x y : TcpSentSample) : Every P (f.trimTo i x y) := by
  have h1 : Every P { f with
    sampleLookup := OrderedMap.erase TcpSeq.cmp x.sequence f.sampleLookup } := h
  exact h1.update i fun _ => rfl

end

theorem split_ends {x pre suffix : TcpSentSample} (h : x.split a = some (pre, suffix)) :
    pre.endSequence = a := by
  unfold TcpSentSample.split at h
  split at h
  · simp at h
  · simp only [Option.some.injEq, Prod.mk.injEq] at h
    rw [← h.1]

theorem Flight.Every.takeSamplePrefix {i : ℕ} {x : TcpSentSample} (h : Every P f) (ha : P a)
    (ht : f.takeSamplePrefix i a = some (f', x)) : Every P f' ∧ P x.endSequence := by
  unfold Flight.takeSamplePrefix at ht
  split at ht
  · simp at ht
  · rename_i y hy
    split at ht
    · simp at ht
    · rename_i pre suffix hs
      split at ht
      · simp at ht
      · obtain ⟨rfl, rfl⟩ := ht
        refine ⟨Every.deadline ?_ _, by rw [split_ends hs]; exact ha⟩
        exact h.trimTo i y suffix

theorem Flight.Every.insert (h : Every P f) {x : TcpSentSample} (hx : P x.endSequence)
    (lookup : List (TcpSeq × ℕ)) : Every P { f with
      sentSamples := (f.sentSamples.insert x).1, sampleLookup := lookup } := by
  intro k y hy
  have hy' : (f.sentSamples.insert x).1.get k = some y := hy
  by_cases hk : k = (f.sentSamples.insert x).2
  · rw [hk, Pool.get_insert_self] at hy'
    rw [← Option.some.inj hy']
    exact hx
  · rw [Pool.get_insert_of_ne _ _ hk] at hy'
    exact h k y hy'

theorem Flight.Every.splitSample (h : Every P f) (i : ℕ) (ha : P a) :
    Every P (f.splitSample i a).1 := by
  have hins : ∀ f : Flight, Every P f → ∀ x : TcpSentSample, P x.endSequence →
      Every P (f.insertSampleBefore i x).1 := by
    intro f h x hx
    unfold Flight.insertSampleBefore
    split
    · exact h
    · split
      · exact h
      · split
        · exact h
        · exact
    ((h.insert (x := { x with prev := _, next := some i }) hx _).setNext _ _).setPrev _ _
  unfold Flight.splitSample
  split
  · exact h
  · rename_i y hy
    split
    · exact h
    · rename_i pre suffix hs
      split
      · exact h
      · have h1 := hins _ (h.trimTo i y suffix) pre (by rw [split_ends hs]; exact ha)
        split
        · rename_i heq
          rw [heq] at h1
          exact h1
        · rename_i f1 j heq
          rw [heq] at h1
          split
          · split
            · exact h1
            · exact Every.update h1 j fun _ => rfl
          · exact h1

end Ends

theorem sentAfter_shift (x y : TcpSentSample) :
    sentAfter (x.shift c) (y.shift c) = sentAfter x y := by
  unfold sentAfter TcpSentSample.shift
  simp only [gt_shift]

theorem countDelivered_mirrors (h : Mirrors c s t) (ack : TcpRecoveryAck)
    (segment : TcpSentSample) : Mirrors c (countDelivered s ack segment)
      (countDelivered t (ack.shift c) (segment.shift c)) := by
  obtain ⟨p, rfl, hf⟩ := h
  refine ⟨p, ?_, ?_⟩
  · unfold countDelivered shiftTo
    split <;> rfl
  · unfold countDelivered
    split
    · exact ⟨hf.rack, hf.recovery⟩
    · exact ⟨hf.rack, hf.recovery⟩

theorem noteDelivered_mirrors (h : Mirrors c s t) (ack : TcpRecoveryAck) (segment : TcpSentSample)
    (hlt : lt (segment.endSequence + c) t.scoreboard.highSacked =
      lt segment.endSequence s.scoreboard.highSacked) :
    Mirrors c (noteDelivered s ack segment) (noteDelivered t (ack.shift c) (segment.shift c)) := by
  obtain ⟨p, rfl, hf⟩ := h
  have hlt' : lt (segment.endSequence + c) p.highSacked =
    lt segment.endSequence s.scoreboard.highSacked := hlt
  unfold noteDelivered
  cases hr : s.rackReferenceSentAt with
  | none =>
    simp only [shiftTo, TcpSentSample.shift, TcpRecoveryAck.shift, hr, hlt', Option.all_none,
      if_true]
    exact ⟨{ p with rackReferenceEnd := segment.endSequence + c }, rfl, fun _ => rfl, hf.recovery⟩
  | some sentAt =>
    have hrack := hf.rack (by rw [hr]; rfl)
    simp only [shiftTo, TcpSentSample.shift, TcpRecoveryAck.shift, hr, hlt', Option.all_some,
      hrack, gt_shift]
    split
    · next hn =>
      exact ⟨{ p with rackReferenceEnd := segment.endSequence + c }, if_pos hn, fun _ => rfl,
        hf.recovery⟩
    · next hn =>
      refine ⟨p, (if_neg hn).trans ?_, fun _ => hrack, hf.recovery⟩
      simp only [shiftTo, hrack]

theorem deliverSample_mirrors (h : Mirrors c s t) (ack : TcpRecoveryAck) (segment : TcpSentSample)
    (hlt : lt (segment.endSequence + c) t.scoreboard.highSacked =
      lt segment.endSequence s.scoreboard.highSacked) :
    Mirrors c (deliverSample s ack segment) (deliverSample t (ack.shift c) (segment.shift c)) := by
  have hboard : ∀ (s : TcpRecoveryState) (ack : TcpRecoveryAck) (segment : TcpSentSample),
      (countDelivered s ack segment).scoreboard = s.scoreboard := by
    intro s ack segment
    unfold countDelivered
    split <;> rfl
  have hc := countDelivered_mirrors h ack segment
  unfold deliverSample
  simp only [show (segment.shift c).retransmitted = segment.retransmitted from rfl,
    show (segment.shift c).sentAt = segment.sentAt from rfl,
    show (ack.shift c).now = ack.now from rfl]
  split
  · exact noteDelivered_mirrors hc ack segment (by rw [hboard, hboard]; exact hlt)
  · exact hc

/-- The comparison of `e` with `highSacked` agrees. -/
def Reads (c : TcpSeq) (s t : TcpRecoveryState) (e : TcpSeq) : Prop :=
  lt (e + c) t.scoreboard.highSacked = lt e s.scoreboard.highSacked

/-- Two delivery loops in step, from `s` and from `t`: `highSacked`, `sndNxt` and `ackFloor` are
still what they were. -/
structure Walk (c : TcpSeq) (s t : TcpRecoveryState) (x y : TcpRecoveryState × AckBatch) :
    Prop where
  mirrors : Mirrors c x.1 y.1
  batch : y.2 = x.2.shift c
  high : x.1.scoreboard.highSacked = s.scoreboard.highSacked ∧
    y.1.scoreboard.highSacked = t.scoreboard.highSacked
  next : x.1.sndNxt = s.sndNxt ∧ y.1.sndNxt = t.sndNxt
  floor : x.1.ackFloor = s.ackFloor ∧ y.1.ackFloor = t.ackFloor
  ends : Every (Reads c s t) x.1.flight

section Walks

variable {x y : TcpRecoveryState × AckBatch}

theorem Mirrors.flight (h : Mirrors c s t) : t.flight = s.flight.shift c := by
  obtain ⟨p, rfl, -⟩ := h
  rfl

theorem Mirrors.withFlight (h : Mirrors c s t) (f : Flight) :
    Mirrors c { s with flight := f } { t with flight := f.shift c } := by
  obtain ⟨p, rfl, hf⟩ := h
  exact ⟨p, rfl, hf.rack, hf.recovery⟩

theorem Walk.withFlight (w : Walk c s t x y) {f : Flight} (h : Every (Reads c s t) f) :
    Walk c s t ({ x.1 with flight := f }, x.2) ({ y.1 with flight := f.shift c }, y.2) :=
  ⟨w.mirrors.withFlight f, w.batch, w.high, w.next, w.floor, h⟩

variable (ack : TcpRecoveryAck)

theorem deliver_ackFloor (segment : TcpSentSample)
    (x : TcpRecoveryState × AckBatch) : (deliver ack segment x).1.ackFloor = x.1.ackFloor := by
  unfold deliver deliverSample countDelivered noteDelivered
  simp only
  split <;> split <;> (try split) <;> rfl

theorem Walk.deliver (w : Walk c s t x y) (ack : TcpRecoveryAck) {segment : TcpSentSample}
    (h : Reads c s t segment.endSequence) :
    Walk c s t (Recovery.deliver ack segment x)
      (Recovery.deliver (ack.shift c) (segment.shift c) y) := by
  obtain ⟨hx1, hx2, hx3, -⟩ := deliver_spec ack segment x
  obtain ⟨-, hy2, hy3, -⟩ := deliver_spec (ack.shift c) (segment.shift c) y
  refine ⟨?_, ?_, by rw [hx3, hy3]; exact w.high, by rw [hx2, hy2]; exact w.next,
    by rw [deliver_ackFloor, deliver_ackFloor]; exact w.floor, by rw [hx1]; exact w.ends⟩
  · refine deliverSample_mirrors w.mirrors ack segment ?_
    rw [w.high.1, w.high.2]
    exact h
  · have hall : (x.2.rateSample.map (TcpSentSample.shift c)).all (sentAfter (segment.shift c)) =
        x.2.rateSample.all (sentAfter segment) := by
      cases x.2.rateSample with
      | none => simp
      | some z => simp [sentAfter_shift]
    unfold Recovery.deliver AckBatch.shift
    simp only [w.batch, AckBatch.shift, hall]
    by_cases hn : x.2.rateSample.all (sentAfter segment) = true
    · rw [if_pos hn, if_pos hn]
      rfl
    · rw [if_neg hn, if_neg hn]
      rfl

theorem ackLoop_walk (ha : Reads c s t ack.acknowledgment) :
    ∀ (is : List ℕ) (x y : TcpRecoveryState × AckBatch), Walk c s t x y →
      Walk c s t (ackLoop ack is x) (ackLoop (ack.shift c) is y) := by
  intro is
  induction is with
  | nil => exact fun x y w => w
  | cons i is ih =>
    intro x y w
    unfold ackLoop
    rw [w.mirrors.flight, sentSample_shift]
    cases hs : x.1.flight.sentSample i with
    | none => exact w
    | some z =>
      simp only [Option.map_some, TcpRecoveryAck.shift, TcpSentSample.shift, le_shift, ge_shift]
      split
      · exact w
      · split
        · rw [takeSent_shift]
          cases ht : x.1.flight.takeSent i with
          | none => exact w
          | some r =>
            obtain ⟨hr1, hr2⟩ := w.ends.takeSent ht
            exact ih _ _ ((w.withFlight hr1).deliver ack hr2)
        · rw [takeSamplePrefix_shift]
          cases ht : x.1.flight.takeSamplePrefix i ack.acknowledgment with
          | none => exact w
          | some r =>
            obtain ⟨hr1, hr2⟩ := w.ends.takeSamplePrefix ha ht
            exact (w.withFlight hr1).deliver ack hr2

theorem max_eq_of_gt {a b : TcpSeq} (h : gt (max a b) a = true) : max a b = b := by
  have hmax : max a b = if lt b a then a else b := rfl
  rw [hmax] at h ⊢
  split
  · rename_i hlt
    rw [if_pos hlt] at h
    have : gt a a = false := by
      unfold gt
      rw [(cmp_eq_iff a a).mpr rfl]
      rfl
    rw [this] at h
    simp at h
  · rfl

theorem min_eq_or (a b : TcpSeq) : min a b = a ∨ min a b = b := by
  have hmin : min a b = if lt b a then b else a := rfl
  rw [hmin]
  split
  · exact Or.inr rfl
  · exact Or.inl rfl

theorem sackSample_walk (w : Walk c s t x y) (ack : TcpRecoveryAck) {block : TcpSackBlock}
    (hl : Reads c s t block.leftEdge)
    (hr : Reads c s t block.rightEdge) {i : ℕ} {z : TcpSentSample}
    (hz : x.1.flight.sentSample i = some z) :
    Walk c s t (sackSample ack block i z x)
      (sackSample (ack.shift c) (block.shift c) i (z.shift c) y) := by
  have hend := w.ends i z hz
  unfold sackSample
  simp only [TcpSackBlock.shift, overlaps_shift]
  by_cases hov : (!z.overlaps block.leftEdge block.rightEdge) = true
  · rw [if_pos hov, if_pos hov]
    exact w
  · rw [if_neg hov, if_neg hov]
    simp only [shift_sequence, shift_endSequence, max_shift, min_shift, gt_shift]
    set start := max z.sequence block.leftEdge with hstart
    set stop := min z.endSequence block.rightEdge with hstop
    have hstopOk : Reads c s t stop := by
      rcases min_eq_or z.endSequence block.rightEdge with h | h
      · rw [hstop, h]
        exact hend
      · rw [hstop, h]
        exact hr
    -- the sample is cut at the left edge if it starts before it
    have hcut : ∃ r : Flight × Bool,
        (if gt start z.sequence then x.1.flight.splitSample i start else (x.1.flight, true)) = r ∧
        (if gt start z.sequence then y.1.flight.splitSample i (start + c)
          else (y.1.flight, true)) = (r.1.shift c, r.2) ∧
        Every (Reads c s t) r.1 := by
      rw [w.mirrors.flight]
      by_cases hg : gt start z.sequence = true
      · rw [if_pos hg, if_pos hg]
        refine ⟨_, rfl, splitSample_shift .., w.ends.splitSample i ?_⟩
        rw [hstart, max_eq_of_gt hg]
        exact hl
      · rw [if_neg hg, if_neg hg]
        exact ⟨_, rfl, rfl, w.ends⟩
    obtain ⟨r, hx, hy, hevery⟩ := hcut
    simp only [hx, hy]
    have w' := w.withFlight hevery
    by_cases hr2 : (!r.2) = true
    · rw [if_pos hr2, if_pos hr2]
      exact w'
    · rw [if_neg hr2, if_neg hr2, sampleAtOrAfter_shift]
      cases r.1.sampleAtOrAfter start false with
      | none => exact w'
      | some j =>
        simp only [sentSample_shift]
        cases r.1.sentSample j with
        | none => exact w'
        | some v =>
          simp only [Option.map_some, shift_endSequence, lt_shift]
          by_cases hlt : lt stop v.endSequence = true
          · rw [if_pos hlt, if_pos hlt, takeSamplePrefix_shift]
            cases ht : r.1.takeSamplePrefix j stop with
            | none => exact w'
            | some q =>
              obtain ⟨hq1, hq2⟩ := hevery.takeSamplePrefix hstopOk ht
              exact (w'.withFlight hq1).deliver ack hq2
          · rw [if_neg hlt, if_neg hlt, takeSent_shift]
            cases ht : r.1.takeSent j with
            | none => exact w'
            | some q =>
              obtain ⟨hq1, hq2⟩ := hevery.takeSent ht
              exact (w'.withFlight hq1).deliver ack hq2

theorem sackBlockLoop_walk {block : TcpSackBlock} (hl : Reads c s t block.leftEdge)
    (hr : Reads c s t block.rightEdge) :
    ∀ (n : ℕ) (cursor : Option ℕ) (x y : TcpRecoveryState × AckBatch), Walk c s t x y →
      Walk c s t (sackBlockLoop ack block n cursor x)
        (sackBlockLoop (ack.shift c) (block.shift c) n cursor y) := by
  intro n
  induction n with
  | zero => exact fun _ x y w => w
  | succ n ih =>
    intro cursor x y w
    cases cursor with
    | none => exact w
    | some i =>
      unfold sackBlockLoop
      rw [w.mirrors.flight, sentSample_shift]
      cases hs : x.1.flight.sentSample i with
      | none => exact w
      | some z =>
        simp only [Option.map_some, TcpSackBlock.shift, shift_sequence, lt_shift, nextSample_shift]
        split
        · exact w
        · exact ih _ _ _ (sackSample_walk w ack hl hr hs)

theorem sackBlockValid_shift (w : Walk c s t x y) (hn : t.sndNxt = s.sndNxt + c)
    (ack : TcpRecoveryAck) (block : TcpSackBlock) :
    sackBlockValid y.1 (ack.shift c) (block.shift c) = sackBlockValid x.1 ack block := by
  unfold sackBlockValid TcpSackBlock.shift TcpRecoveryAck.shift
  simp only [w.next.1, w.next.2, hn, ge_shift, le_shift, gt_shift]

theorem sackLoop_walk (hn : t.sndNxt = s.sndNxt + c) :
    ∀ (blocks : List TcpSackBlock) (highest : TcpSeq) (x y : TcpRecoveryState × AckBatch),
      Walk c s t x y → (∀ b ∈ blocks, Reads c s t b.leftEdge ∧ Reads c s t b.rightEdge) →
      (sackLoop (ack.shift c) (blocks.map (TcpSackBlock.shift c)) (highest + c) y).1 =
        (sackLoop ack blocks highest x).1 + c ∧
      Walk c s t (sackLoop ack blocks highest x).2
        (sackLoop (ack.shift c) (blocks.map (TcpSackBlock.shift c)) (highest + c) y).2 := by
  intro blocks
  induction blocks with
  | nil => exact fun highest x y w _ => ⟨rfl, w⟩
  | cons b bs ih =>
    intro highest x y w hb
    have hrest : ∀ b ∈ bs, Reads c s t b.leftEdge ∧ Reads c s t b.rightEdge :=
      fun b h => hb b (List.mem_cons_of_mem _ h)
    rw [List.map_cons]
    unfold sackLoop
    rw [sackBlockValid_shift w hn]
    split
    · have hlen : y.1.flight.sampleLookup.length = x.1.flight.sampleLookup.length := by
        rw [w.mirrors.flight]
        exact List.length_map _
      have hcur : y.1.flight.sampleAtOrAfter (b.shift c).leftEdge true =
          x.1.flight.sampleAtOrAfter b.leftEdge true := by
        rw [w.mirrors.flight]
        exact sampleAtOrAfter_shift ..
      rw [hlen, hcur, show (b.shift c).rightEdge = b.rightEdge + c from rfl, max_shift]
      obtain ⟨hl, hr⟩ := hb b List.mem_cons_self
      exact ih _ _ _ (sackBlockLoop_walk ack hl hr _ _ _ _ w) hrest
    · exact ih _ _ _ w hrest

theorem sackLoop_ahead : ∀ (blocks : List TcpSackBlock) (highest : TcpSeq),
      (∀ b ∈ blocks, ge b.leftEdge x.1.sndNxt = true) →
      sackLoop ack blocks highest x = (highest, x) := by
  intro blocks
  induction blocks with
  | nil => exact fun _ _ => rfl
  | cons b bs ih =>
    intro highest hb
    unfold sackLoop
    have hv : sackBlockValid x.1 ack b = false := by
      unfold sackBlockValid
      rw [hb b List.mem_cons_self]
      simp
    rw [hv]
    exact ih highest fun b h => hb b (List.mem_cons_of_mem _ h)

theorem endAcks_shift (w : Walk c s t x y) (congestion : C) (ack : TcpRecoveryAck) :
    endAcks y.1 congestion (ack.shift c) y.2 = endAcks x.1 congestion ack x.2 := by
  obtain ⟨p, hp, -⟩ := w.mirrors
  unfold endAcks deliverAckBatch
  rw [w.batch, hp]
  cases hr : x.2.rateSample with
  | none => simp [AckBatch.shift, hr, TcpRecoveryAck.shift, shiftTo, Flight.shift]
  | some z =>
    simp [AckBatch.shift, hr, TcpRecoveryAck.shift, shiftTo, Flight.shift, TcpSentSample.shift]

theorem notifyDuplicateAck_shift (h : Mirrors c s t) (congestion : C) (ack : TcpRecoveryAck) :
    notifyDuplicateAck t congestion (ack.shift c) = notifyDuplicateAck s congestion ack := by
  obtain ⟨p, rfl, -⟩ := h
  unfold notifyDuplicateAck
  simp only [TcpRecoveryAck.shift, shiftTo, Flight.shift]

end Walks

def LossScan.shift (c : TcpSeq) (r : LossScan) : LossScan :=
  { r with
    flight := r.flight.shift c
    holes := shiftHoles c r.holes
    higherStart := r.higherStart.map (· + c) }

theorem lossStep_shift (reorderLimit byteThreshold : ℕ) (hole : TcpSeq × TcpScoreboardHole)
    (r : LossScan) : lossStep reorderLimit byteThreshold (Prod.map (· + c) (shiftHole c) hole)
      (r.shift c) = (lossStep reorderLimit byteThreshold hole r).shift c := by
  obtain ⟨start, hole⟩ := hole
  unfold lossStep LossScan.shift
  simp only [Prod.map_apply, shiftHole, markSamplesInRangeLost_shift]
  cases r.higherStart with
  | none =>
    split <;> rfl
  | some high =>
    simp only [Option.map_some, distanceTo_shift]
    split <;> rfl

theorem lossFold_shift (reorderLimit byteThreshold : ℕ) (r : LossScan)
    (holes : List (TcpSeq × TcpScoreboardHole)) :
    (shiftHoles c holes).foldr (lossStep reorderLimit byteThreshold) (r.shift c) =
      (holes.foldr (lossStep reorderLimit byteThreshold) r).shift c := by
  induction holes with
  | nil => rfl
  | cons hole holes ih =>
    have hcons : shiftHoles c (hole :: holes) =
      Prod.map (· + c) (shiftHole c) hole :: shiftHoles c holes := rfl
    rw [hcons, List.foldr_cons, List.foldr_cons, ih, lossStep_shift]

def trailingSacked (s : TcpRecoveryState) : ℕ :=
  match s.scoreboard.holes.getLast? with
  | some hole => distanceTo hole.2.endSeq s.scoreboard.highSacked
  | none => 0

/-- The walk of `update_scoreboard_loss` and its result. -/
def lossScan (s : TcpRecoveryState) (maxDatagramSize : ℕ) : LossScan :=
  let reorderLimit := Max.max s.scoreboard.reorder TCP_DUPACK_THRESHOLD
  s.scoreboard.holes.foldr
    (lossStep reorderLimit (satMul U32_MAX (reorderLimit - 1) (Max.max maxDatagramSize 1)))
    ⟨s.flight, [], trailingSacked s, if trailingSacked s = 0 then 0 else 1, none⟩

theorem updateScoreboardLoss_eq (s : TcpRecoveryState) (size : ℕ) :
    updateScoreboardLoss s size = refreshLostBytes { s with
      flight := (lossScan s size).flight
      scoreboard := { s.scoreboard with holes := (lossScan s size).holes } } := rfl

section

variable (h : Mirrors c s t) (hhigh : t.scoreboard.highSacked = s.scoreboard.highSacked + c)
   (size : ℕ)
include h hhigh size

theorem lossScan_mirrors : lossScan t size = (lossScan s size).shift c := by
  obtain ⟨p, rfl, hf⟩ := h
  have hhigh' : p.highSacked = s.scoreboard.highSacked + c := hhigh
  have htrail : trailingSacked (shiftTo c p s) = trailingSacked s := by
    unfold trailingSacked shiftTo shiftHoles
    rw [List.getLast?_map, hhigh']
    cases s.scoreboard.holes.getLast? with
    | none => rfl
    | some hole => exact distanceTo_shift ..
  unfold lossScan
  rw [htrail]
  exact lossFold_shift (c := c) _ _
    ⟨s.flight, [], trailingSacked s, if trailingSacked s = 0 then 0 else 1, none⟩
    s.scoreboard.holes

theorem updateScoreboardLoss_mirrors :
    Mirrors c (updateScoreboardLoss s size) (updateScoreboardLoss t size) := by
  rw [updateScoreboardLoss_eq, updateScoreboardLoss_eq, lossScan_mirrors h hhigh]
  refine refreshLostBytes_mirrors ?_
  obtain ⟨p, rfl, hf⟩ := h
  exact ⟨p, rfl, hf.rack, hf.recovery⟩

theorem scoreLoss_mirrors : Mirrors c (scoreLoss s size) (scoreLoss t size) := by
  have hrack : t.rackEnabled = s.rackEnabled := by
    obtain ⟨p, rfl, -⟩ := h
    rfl
  unfold scoreLoss
  rw [hrack]
  refine rescan_mirrors ?_
  split
  · exact refreshLostBytes_mirrors h
  · exact updateScoreboardLoss_mirrors h hhigh _

end

theorem insertHole_shift (holes : List (TcpSeq × TcpScoreboardHole)) (a b : TcpSeq) :
    insertHole (shiftHoles c holes) (a + c, b + c) = shiftHoles c (insertHole holes (a, b)) :=
  OrderedMap.insert_map (φ := (· + c)) (ψ := shiftHole c) (fun x y => cmp_shift c x y) a
    ⟨b, false⟩ holes

theorem finishHole_shift (pending : Option (TcpSeq × TcpSeq))
    (holes : List (TcpSeq × TcpScoreboardHole)) :
    finishHole (pending.map (Prod.map (· + c) (· + c))) (shiftHoles c holes) =
      shiftHoles c (finishHole pending holes) := by
  cases pending with
  | none => rfl
  | some hole => exact insertHole_shift holes hole.1 hole.2

theorem holeLoop_shift (a high : TcpSeq) : ∀ (xs : List TcpSentSample)
    (pending : Option (TcpSeq × TcpSeq)) (holes : List (TcpSeq × TcpScoreboardHole)),
    holeLoop (a + c) (high + c) (xs.map (TcpSentSample.shift c))
      (pending.map (Prod.map (· + c) (· + c))) (shiftHoles c holes) =
      shiftHoles c (holeLoop a high xs pending holes) := by
  intro xs
  induction xs with
  | nil =>
    intro pending holes
    exact finishHole_shift pending holes
  | cons x xs ih =>
    intro pending holes
    rw [List.map_cons]
    unfold holeLoop
    simp only [shift_sequence, shift_endSequence, le_shift, ge_shift, max_shift,
      min_shift, finishHole_shift, ih]
    split
    · rfl
    · split
      · rfl
      · split
        · rfl
        · cases pending with
          | none =>
            exact ih (some (max x.sequence a, min x.endSequence high)) holes
          | some hole =>
            obtain ⟨l, r⟩ := hole
            simp only [Option.map_some, Prod.map_apply, le_shift, max_shift, insertHole_shift]
            split
            · exact ih (some (l, max r (min x.endSequence high))) holes
            · exact ih (some (max x.sequence a, min x.endSequence high)) _

theorem trimHoles_shift (a : TcpSeq) (holes : List (TcpSeq × TcpScoreboardHole)) :
    trimHoles (a + c) (shiftHoles c holes) = shiftHoles c (trimHoles a holes) := by
  induction holes with
  | nil => rfl
  | cons hole holes ih =>
    obtain ⟨start, hole⟩ := hole
    have hcons : shiftHoles c ((start, hole) :: holes) =
      (start + c, shiftHole c hole) :: shiftHoles c holes := rfl
    rw [hcons]
    unfold trimHoles
    rw [show (shiftHole c hole).endSeq = hole.endSeq + c from rfl, le_shift, lt_shift, ih]
    split
    · rfl
    · split
      · exact OrderedMap.insert_map (φ := (· + c)) (ψ := shiftHole c)
          (fun x y => cmp_shift c x y) a hole holes
      · rfl

theorem rebuildScoreboard_mirrors (h : Mirrors c s t) (a high : TcpSeq) (size : ℕ) :
    Mirrors c (rebuildScoreboard s a high size) (rebuildScoreboard t (a + c) (high + c) size) := by
  obtain ⟨p, rfl, hf⟩ := h
  unfold rebuildScoreboard
  simp only [max_shift, le_shift, show (shiftTo c p s).flight = s.flight.shift c from rfl,
    shift_sampleHead, samples_shift]
  split
  · refine rescan_mirrors (refreshLostBytes_mirrors ?_)
    exact ⟨{ p with
      highSacked := max high a + c
      highRxt := if s.recoveryActive then max p.highRxt (a + c) else a + c },
      rfl, hf.rack, hf.recovery⟩
  · have hloop := holeLoop_shift (c := c) a (max high a) s.flight.samples none []
    rw [Option.map_none, show shiftHoles c [] = [] from rfl] at hloop
    rw [hloop]
    refine scoreLoss_mirrors ?_ rfl size
    exact ⟨{ p with
      highSacked := max high a + c
      highRxt := if s.recoveryActive then max p.highRxt (a + c) else a + c },
      rfl, hf.rack, hf.recovery⟩

theorem advanceScoreboardForAck_mirrors (h : Mirrors c s t) (a : TcpSeq) (size : ℕ)
    (hmax : max t.scoreboard.highSacked (a + c) = max s.scoreboard.highSacked a + c) :
    Mirrors c (advanceScoreboardForAck s a size) (advanceScoreboardForAck t (a + c) size) := by
  obtain ⟨p, rfl, hf⟩ := h
  unfold advanceScoreboardForAck
  simp only [hmax, le_shift, show (shiftTo c p s).flight = s.flight.shift c from rfl,
    shift_sampleHead,
    show (shiftTo c p s).scoreboard.holes = shiftHoles c s.scoreboard.holes from rfl,
    trimHoles_shift]
  split
  · refine rescan_mirrors (refreshLostBytes_mirrors ?_)
    exact ⟨{ p with
      highSacked := max s.scoreboard.highSacked a + c
      highRxt := max p.highRxt (a + c) }, rfl, hf.rack, hf.recovery⟩
  · refine scoreLoss_mirrors ?_ rfl size
    exact ⟨{ p with
      highSacked := max s.scoreboard.highSacked a + c
      highRxt := max p.highRxt (a + c) }, rfl, hf.rack, hf.recovery⟩

end Recovery
