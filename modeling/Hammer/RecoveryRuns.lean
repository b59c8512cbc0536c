import Hammer.RecoveryLedger

/-! # Runs of the recovery state

Each public operation is described by what it does to the books, and the books balance after
every run.
-/
namespace Recovery

open LinkedRing TcpSeq Flight Keeps List

variable {C : Type} [CongestionController C]
variable {s s' : TcpRecoveryState} {o o' : TcpSeq} {total : ℕ} {es : List (ℕ × TcpSentSample)}

inductive Op where
  | recordSent (packetNumber : ℕ) (sequence endSequence : TcpSeq)
      (bytes payloadLen bytesInFlight : ℕ) (sentAt : Instant) (appLimited : Bool)
  | onAck (ack : TcpRecoveryAck)
  | onSackBlocks (ack : TcpRecoveryAck) (blocks : List TcpSackBlock)
  | onRackTimeout (now : Instant) (sndNxt : TcpSeq)
  | onRetransmissionTimeout (now : Instant) (sndNxt : TcpSeq)
  | commitRetransmit (sequence : TcpSeq) (sentAt : Instant)
  | recordTlpProbe (probeEnd : TcpSeq) (retransmitted : Option (TcpSeq × TcpSeq))
  | disarmTlp
  | onRetransmitSent (bytes : ℕ)
  | onNewDataSent (bytes : ℕ)
  | onRecoveryBurstSent
  | advanceHighRxt (endSeq : TcpSeq)
  | setRackEnabled (enabled : Bool)

/-- `none` is a panic. -/
def apply (x : TcpRecoveryState × C) : Op → Option (TcpRecoveryState × C)
  | .recordSent packetNumber sequence endSequence bytes payloadLen bytesInFlight sentAt appLimited =>
    some (recordSent x.1 packetNumber sequence endSequence bytes payloadLen bytesInFlight sentAt
      appLimited, x.2)
  | .onAck ack => let r := onAck x.1 x.2 ack; some (r.1, r.2.1)
  | .onSackBlocks ack blocks => let r := onSackBlocks x.1 x.2 ack blocks; some (r.1, r.2.1)
  | .onRackTimeout now sndNxt => some (onRackTimeout x.1 x.2 now sndNxt)
  | .onRetransmissionTimeout now sndNxt =>
    let r := onRetransmissionTimeout x.1 x.2 now sndNxt
    some (r.1, r.2.1)
  | .commitRetransmit sequence sentAt => (commitRetransmit x.1 sequence sentAt).map (·, x.2)
  | .recordTlpProbe probeEnd retransmitted => some (recordTlpProbe x.1 probeEnd retransmitted, x.2)
  | .disarmTlp => some (disarmTlp x.1, x.2)
  | .onRetransmitSent bytes => some (onRetransmitSent x.1 bytes, x.2)
  | .onNewDataSent bytes => some (onNewDataSent x.1 bytes, x.2)
  | .onRecoveryBurstSent => some (onRecoveryBurstSent x.1, x.2)
  | .advanceHighRxt endSeq => some (advanceHighRxt x.1 endSeq, x.2)
  | .setRackEnabled enabled => some ({ x.1 with rackEnabled := enabled }, x.2)

/-- The operations that put samples in or take them out. -/
def Op.moves : Op → Bool
  | .recordSent .. => true
  | .onAck _ => true
  | .onSackBlocks .. => true
  | _ => false

def Op.recorded : Op → ℕ
  | .recordSent _ _ _ bytes _ _ _ _ => bytes
  | _ => 0

def recorded (ops : List Op) : ℕ := (ops.map Op.recorded).sum

/-- The states after the runs from the new state whose steps all satisfy `ok`. -/
inductive Reaches (ok : TcpRecoveryState → Op → Prop) (c₀ : C) :
    List Op → TcpRecoveryState × C → Prop
  | new : Reaches ok c₀ [] (.new, c₀)
  | step {ops : List Op} {x y : TcpRecoveryState × C} {op : Op} : Reaches ok c₀ ops x →
      ok x.1 op → apply x op = some y → Reaches ok c₀ (ops ++ [op]) y

/-- A range that may be recorded: it starts where the last one ended if anything is outstanding,
and it lies with all outstanding ranges in one half of the sequence space. -/
structure Recordable (s : TcpRecoveryState) (sequence endSequence : TcpSeq) (bytes : ℕ) :
    Prop where
  size : endSequence = advance sequence bytes
  start : s.flight.samples ≠ [] → sequence = s.sndNxt
  half : ∃ o, distanceTo o sequence + bytes < 2147483648 ∧
    ∀ x ∈ s.flight.samples, distanceTo o x.sequence + x.bytes < 2147483648

/-- Only what is recorded is restricted. Acknowledgments and SACK blocks are arbitrary. -/
def Admissible (s : TcpRecoveryState) : Op → Prop
  | .recordSent _ sequence endSequence bytes _ _ _ _ => Recordable s sequence endSequence bytes
  | _ => True

theorem distanceTo_rebase {x y : TcpSeq} {k : ℕ} (h : distanceTo o x + k ≤ distanceTo o y)
    (hy : Behind o y) (hx' : Behind o' x)
    (hy' : Behind o' y) : distanceTo o' x + k ≤ distanceTo o' y := by
  have h1 := distanceTo_origin o x y
  have h2 := distanceTo_origin o' x y
  omega

theorem Flight.Ranges.rebase {n : TcpSeq} (r : Ranges o (distanceTo o n) es)
    (h : ∀ e ∈ es, Behind o' e.2.sequence) (hn : Behind o' n) :
    Ranges o' (distanceTo o' n) es := by
  have hhalf := r.half
  refine ⟨r.sized, ?_, fun e he => ?_, hn⟩
  · refine r.ascending.imp_of_mem fun {a b} ha hb hab => ?_
    exact distanceTo_rebase hab (r.pos_lt hb) (h a ha) (h b hb)
  · exact distanceTo_rebase (r.bounded e he) hhalf (h e he) hn

theorem Books.samples_nil (b : Books s o total es) : s.flight.samples = [] ↔ es = [] := by
  have h := congrArg length b.tracks.samples_body
  rw [length_map, length_map] at h
  rw [← length_eq_zero_iff, ← length_eq_zero_iff, h]

theorem Books.forall_samples (b : Books s o total es) {p : TcpSeq → ℕ → Prop}
    (h : ∀ x ∈ s.flight.samples, p x.sequence x.bytes) : ∀ e ∈ es, p e.2.sequence e.2.bytes := by
  intro e he
  have hmem : e.2 ∈ s.flight.samples.map TcpSentSample.body := by
    rw [b.tracks.samples_body]
    exact mem_map_of_mem he
  obtain ⟨x, hx, hxe⟩ := mem_map.mp hmem
  rw [← hxe]
  exact h x hx

variable {sequence endSequence : TcpSeq}

section

variable {bytes : ℕ} (b : Books s o total es) (hr : Recordable s sequence endSequence bytes)
  (hb : 0 < bytes)
include b hr hb

theorem Books.record_ranges (new : TcpSentSample) (hseq : new.sequence = sequence)
    (hend : new.endSequence = endSequence) (hbytes : new.bytes = bytes) :
    ∃ o', ∀ j, Ranges o' (distanceTo o' endSequence) (es ++ [(j, new)]) := by
  obtain ⟨o', hhalf, hold⟩ := hr.half
  have hdist : distanceTo o' endSequence = distanceTo o' sequence + bytes := by
    rw [hr.size]
    exact distanceTo_advance_origin (by omega)
  have hsome : es ≠ [] → sequence = s.sndNxt := fun h =>
    hr.start fun hnil => h (b.samples_nil.mp hnil)
  have holds := b.forall_samples (p := fun q n => distanceTo o' q + n < 2147483648) hold
  have hbase : es ≠ [] → Ranges o' (distanceTo o' s.sndNxt) es := fun h =>
    b.ranges.rebase (fun e he => by have := holds e he; omega) (by rw [← hsome h]; omega)
  have hle : ∀ e ∈ es, distanceTo o' e.2.sequence + e.2.bytes ≤ distanceTo o' sequence := by
    intro e he
    have hne : es ≠ [] := ne_nil_of_mem he
    rw [hsome hne]
    exact (hbase hne).bounded e he
  refine ⟨o', fun j => ⟨fun e he => ?_, ?_, fun e he => ?_, by omega⟩⟩
  · rcases mem_append.mp he with he | he
    · exact b.ranges.sized e he
    · obtain rfl := mem_singleton.mp he
      simp only [hbytes, hseq, hend]
      exact ⟨hb, hr.size⟩
  · rw [pairwise_append]
    refine ⟨?_, pairwise_singleton _ _, fun e he e' he' => ?_⟩
    · by_cases hne : es = []
      · rw [hne]
        exact List.Pairwise.nil
      · exact (hbase hne).ascending
    · obtain rfl := mem_singleton.mp he'
      simp only [hseq]
      exact hle e he
  · rcases mem_append.mp he with he | he
    · have := hle e he
      omega
    · obtain rfl := mem_singleton.mp he
      simp only [hseq, hbytes]
      omega

theorem recordSent_books (packetNumber payloadLen bytesInFlight : ℕ) (sentAt : Instant)
    (appLimited : Bool) : ∃ o' j,
      Books (recordSent s packetNumber sequence endSequence bytes payloadLen bytesInFlight sentAt
        appLimited) o' (total + bytes) (es ++ [(j, newSample s packetNumber sequence endSequence
          bytes payloadLen bytesInFlight sentAt appLimited)]) := by
  set new := newSample s packetNumber sequence endSequence bytes payloadLen bytesInFlight sentAt
    appLimited with hnew
  obtain ⟨o', hranges⟩ := b.record_ranges hr hb new rfl rfl rfl
  set x : TcpSentSample := { new with prev := s.flight.sampleTail } with hx
  set j := (s.flight.sentSamples.insert x).2 with hj
  set lookup := OrderedMap.insert TcpSeq.cmp sequence j s.flight.sampleLookup with hlookup
  have tr : Tracks s.flight (es ++ []) := by simpa using b.tracks
  have hins := Tracks.insertBefore (x := x) tr lookup hj.symm rfl rfl (by
    rw [hlookup, b.tracks.lookup]
    have := (hranges j).insert_lookup
    rw [append_nil] at this
    exact this)
  have hsum : bytesOf (es ++ [(j, new)]) = bytesOf es + bytes := by
    rw [bytesOf_append]
    rfl
  have hsmall := (hranges j).bytesOf_le
  have hhalf := (hranges j).half
  obtain ⟨d, t, hrestart⟩ := restartTimes_eq s bytesInFlight sentAt
  have hflight : (recordSent s packetNumber sequence endSequence bytes payloadLen bytesInFlight
      sentAt appLimited).flight = { (({ s.flight with
        sentSamples := (s.flight.sentSamples.insert x).1
        sampleLookup := lookup }.setNext x.prev (some j)).setPrev x.next (some j)) with
      bytesInFlight := satAdd U32_MAX s.flight.bytesInFlight bytes } := by
    have hset : s.flight.bytesInFlight = ({ s.flight with
        sentSamples := (s.flight.sentSamples.insert x).1
        sampleLookup := lookup }.setNext x.prev (some j)).bytesInFlight := by
      rw [relinked_setNext.bytesInFlight]
    rw [hset, recordSent, if_neg (by omega), ← hnew, ← hx, hrestart]
    rfl
  have hrest : (recordSent s packetNumber sequence endSequence bytes payloadLen bytesInFlight
      sentAt appLimited).sndNxt = endSequence ∧ (recordSent s packetNumber sequence endSequence bytes
      payloadLen bytesInFlight sentAt appLimited).delivered = s.delivered := by
    rw [recordSent, if_neg (by omega), hrestart]
    exact ⟨rfl, rfl⟩
  have hin := b.inFlight
  have hrec := b.recorded
  refine ⟨o', j, ?_, ?_, ?_, ?_, ?_⟩
  · rw [hflight]
    exact hins.bytes _
  · rw [hrest.1]
    exact hranges j
  · rw [hflight, hin]
    show satAdd U32_MAX (bytesOf es) bytes = _
    unfold satAdd U32_MAX
    omega
  · omega
  · rw [hrest.2, b.delivered]
    omega

end

theorem ackPhase_spec (b : Books s o total es) (ack : TcpRecoveryAck) :
    Books (ackPhase s ack).1 o total (trimLow ack.acknowledgment es) ∧
      (ackPhase s ack).1.scoreboard = s.scoreboard ∧ (ackPhase s ack).1.sndNxt = s.sndNxt := by
  have b' : Books { s with ackFloor := ack.acknowledgment } o total es := { b with }
  unfold ackPhase
  rw [b.tracks.chain_head]
  exact ackLoop_spec ack es ({ s with ackFloor := ack.acknowledgment }, .empty) b'

/-- The state in which a scoreboard has been replaced up to the marks. -/
def withHoles (s : TcpRecoveryState) (holes : List (TcpSeq × TcpScoreboardHole))
    (highSacked : TcpSeq) : TcpRecoveryState :=
  { s with scoreboard := { s.scoreboard with holes := holes, highSacked := highSacked } }

theorem Books.withHoles (b : Books s o total es) (holes : List (TcpSeq × TcpScoreboardHole))
    (high : TcpSeq) : Books (withHoles s holes high) o total es := { b with }

theorem keepsScored_ite {D : Type} {x y : TcpRecoveryState × D} {p : Bool}
    (h : KeepsScored x.1 y.1) : KeepsScored x.1 (if p then y else x).1 := by
  rw [apply_ite Prod.fst]
  exact h.ite

theorem onAck_keeps (s : TcpRecoveryState) (c : C) (ack : TcpRecoveryAck) :
    Rescores (withHoles (ackPhase s ack).1 (advancedHoles (ackPhase s ack).1 ack.acknowledgment)
        (TcpSeq.max (ackPhase s ack).1.scoreboard.highSacked ack.acknowledgment))
      (onAck s c ack).1 := by
  have hq (t : TcpRecoveryState) :
      KeepsScored t { queueRecoveryHead t with noSackFirstPending := true } :=
    (queueRecoveryHead_keeps t).trans ⟨congr rfl rfl rfl rfl rfl rfl, id⟩
  refine Rescores.trans ?_ (settleTlp_keeps _ _ _ _)
  refine Rescores.trans ?_ (.ite (hq _))
  refine Rescores.trans ?_ (keepsScored_ite (rackDetect_keeps _ _ _).keepsScored)
  refine Rescores.trans ?_ (maybeFinishRecovery_keeps _ _ _)
  exact advanceScoreboardForAck_keeps (ackPhase s ack).1 ack.acknowledgment _

theorem undo_keeps (s : TcpRecoveryState) (c : C) (spurious : Bool) :
    KeepsScored s (undo s c spurious).1 := by
  unfold undo
  split
  · split
    · exact ⟨congr rfl rfl rfl rfl rfl rfl, id⟩
    · exact .refl s
  · exact .refl s

theorem onSackBlocks_keeps (s : TcpRecoveryState) (c : C) (ack : TcpRecoveryAck)
    (blocks : List TcpSackBlock) :
    Rescores (withHoles (sackPhase s ack blocks).2.1
        (rebuiltHoles (sackPhase s ack blocks).2.1 ack.acknowledgment (sackPhase s ack blocks).1)
        (TcpSeq.max (sackPhase s ack blocks).1 ack.acknowledgment))
      (onSackBlocks s c ack blocks).1 := by
  refine Rescores.trans ?_ (settleTlp_keeps _ _ _ _)
  refine Rescores.trans ?_ (keepsScored_ite (rackDetect_keeps _ _ _).keepsScored)
  refine Rescores.trans ?_ (maybeFinishRecovery_keeps _ _ _)
  refine Rescores.trans ?_ (undo_keeps _ _ _)
  exact rebuildScoreboard_keeps (sackPhase s ack blocks).2.1 ack.acknowledgment
    (sackPhase s ack blocks).1 _

theorem loseHead_keeps {head : ℕ} {x : TcpSentSample} (hx : s.flight.sentSample head = some x) :
    Rescores s (loseHead s head x) := by
  have hst : ∃ lost, (if !x.txLost then { s with lost := satAdd U64_MAX s.lost x.bytes } else s) =
      { s with lost := lost } := by
    split
    · exact ⟨_, rfl⟩
    · exact ⟨_, rfl⟩
  obtain ⟨lost, hlost⟩ := hst
  have hm : Marks s.flight (s.flight.updateSample head markLost) := Marks.update flags_markLost hx
  have hk : Keeps s { s with lost := lost, flight := s.flight.updateSample head markLost } :=
    hm.keeps.trans (congr rfl rfl rfl rfl rfl rfl)
  unfold loseHead
  rw [hlost]
  exact hk.rescores (refreshLostBytes_keeps _)

theorem onRetransmissionTimeout_keeps (s : TcpRecoveryState) (c : C) (now : Instant)
    (sndNxt : TcpSeq) : KeepsScored s (onRetransmissionTimeout s c now sndNxt).1 := by
  unfold onRetransmissionTimeout
  split
  · exact .refl s
  · split
    · exact .refl s
    · rename_i head _ _ x hx
      refine (loseHead_keeps hx).keepsScored.trans ?_
      unfold timedOut
      split <;> exact ⟨congr rfl rfl rfl rfl rfl rfl, id⟩

theorem commitRetransmit_keeps {sentAt : Instant}
    (h : commitRetransmit s sequence sentAt = some s') : Rescores s s' := by
  unfold commitRetransmit at h
  split at h
  · simp at h
  · rename_i i _
    obtain ⟨x, hx, rfl⟩ := Option.map_eq_some_iff.mp h
    refine ⟨?_, (refreshLostBytes_keeps _).scored⟩
    have hm : Marks s.flight (s.flight.updateSample i fun current => { current with
        retransmitted := true, txLost := false, rackDeadline := none, sentAt := sentAt }) :=
      Marks.update (Flags.intro fun _ => ⟨rfl, rfl, rfl, rfl, rfl, rfl⟩) hx
    exact (hm.trans (marks_invalidate _ x.rackDeadline)).keeps.trans (congr rfl rfl rfl rfl rfl rfl)

theorem chain_modify {i : ℕ} {g : TcpSentSample → TcpSentSample} (hg : ∀ x, (g x).next = x.next)
    (pool : Pool TcpSentSample) : ∀ (n : ℕ) (cursor : Option ℕ),
    chain (pool.modify i g) n cursor = chain pool n cursor := by
  intro n
  induction n with
  | zero => intro cursor; rfl
  | succ n ih =>
    intro cursor
    cases cursor with
    | none => rfl
    | some k =>
      by_cases hk : i = k
      · simp only [chain, Pool.get_modify, hk, if_true]
        cases pool.get k with
        | none => rfl
        | some x => simp [hg, ← hk, ih]
      · simp [chain, Pool.get_modify, hk, ih]

theorem lostBytes_updateSample (f : Flight) (i : ℕ) {g : TcpSentSample → TcpSentSample}
    (hn : ∀ x, (g x).next = x.next) (hl : ∀ x, (g x).lost = x.lost)
    (hb : ∀ x, (g x).bytes = x.bytes) : (f.updateSample i g).lostBytes = f.lostBytes := by
  have hpairs : ∀ f : Flight, f.lostBytes = (f.samples.map fun x => (x.lost, x.bytes)).foldl
      (fun n x => if x.1 then satAdd U32_MAX n x.2 else n) 0 := by
    intro f
    rw [foldl_map]
    rfl
  rw [hpairs, hpairs]
  congr 1
  have hlen : (f.updateSample i g).sentSamples.slots.length = f.sentSamples.slots.length := by
    simp [updateSample, Pool.modify]
  have hchain : (f.updateSample i g).chainFrom (f.updateSample i g).sampleHead =
      f.chainFrom f.sampleHead := by
    unfold chainFrom
    rw [hlen]
    exact chain_modify hn _ _ _
  unfold samples
  rw [hchain, map_filterMap, map_filterMap]
  apply filterMap_congr
  intro k _
  rw [sentSample_updateSample]
  split
  · cases f.sentSample k <;> simp [hl, hb]
  · rfl

theorem tlpLoop_lostBytes (start retransmitEnd : TcpSeq) : ∀ (is : List ℕ) (f : Flight),
    (tlpLoop start retransmitEnd is f).lostBytes = f.lostBytes := by
  intro is
  induction is with
  | nil => intro f; rfl
  | cons i is ih =>
    intro f
    unfold tlpLoop
    split
    · rfl
    · split
      · rw [ih]
        exact lostBytes_updateSample f i (fun _ => rfl) (fun _ => rfl) fun _ => rfl
      · exact ih f

theorem recordTlpProbe_keeps (s : TcpRecoveryState) (probeEnd : TcpSeq)
    (retransmitted : Option (TcpSeq × TcpSeq)) :
    KeepsScored s (recordTlpProbe s probeEnd retransmitted) := by
  cases retransmitted with
  | none => exact ⟨congr rfl rfl rfl rfl rfl rfl, id⟩
  | some r =>
    have hm := tlpLoop_marks r.1 r.2 (s.flight.chainFrom s.flight.sampleHead) s.flight
    have hl := tlpLoop_lostBytes r.1 r.2 (s.flight.chainFrom s.flight.sampleHead) s.flight
    exact ⟨(hm.trans (marks_rescan _)).keeps.trans (congr rfl rfl rfl rfl rfl rfl),
      fun h => h.trans hl.symm⟩

/-- All other operations mark samples at most. -/
theorem apply_keeps {x y : TcpRecoveryState × C} {op : Op} (h : apply x op = some y)
    (hop : op.moves = false) : KeepsScored x.1 y.1 := by
  cases op with
  | recordSent | onAck | onSackBlocks => simp [Op.moves] at hop
  | onRackTimeout now sndNxt =>
    obtain rfl := Option.some.inj h
    exact (onRackTimeout_keeps _ _ _ _).keepsScored
  | onRetransmissionTimeout now sndNxt =>
    obtain rfl := Option.some.inj h
    exact onRetransmissionTimeout_keeps x.1 x.2 now sndNxt
  | commitRetransmit sequence sentAt =>
    obtain ⟨s', hs', rfl⟩ := Option.map_eq_some_iff.mp h
    exact (commitRetransmit_keeps hs').keepsScored
  | recordTlpProbe probeEnd retransmitted =>
    obtain rfl := Option.some.inj h
    exact recordTlpProbe_keeps x.1 probeEnd retransmitted
  | onRetransmitSent bytes | onNewDataSent bytes =>
    obtain rfl := Option.some.inj h
    simp only [onRetransmitSent, onNewDataSent]
    split
    · exact .refl _
    · exact ⟨congr rfl rfl rfl rfl rfl rfl, id⟩
  | disarmTlp | onRecoveryBurstSent | advanceHighRxt endSeq | setRackEnabled enabled =>
    obtain rfl := Option.some.inj h
    exact ⟨congr rfl rfl rfl rfl rfl rfl, id⟩

theorem recordSent_zero (s : TcpRecoveryState) (packetNumber : ℕ) (sequence endSequence : TcpSeq)
    (payloadLen bytesInFlight : ℕ) (sentAt : Instant) (appLimited : Bool) :
    recordSent s packetNumber sequence endSequence 0 payloadLen bytesInFlight sentAt appLimited =
      s := if_pos rfl

/-- The books balance and `lost_bytes` is up to date. -/
def Balanced (s : TcpRecoveryState) (total : ℕ) : Prop :=
  (∃ o es, Books s o total es) ∧ Scored s

theorem balanced_new : Balanced .new 0 := by
  refine ⟨⟨0, [], ⟨fun i b => ?_, ?_, rfl⟩, ⟨by simp, List.Pairwise.nil, by simp, by decide⟩,
    rfl, le_rfl, by decide⟩, rfl⟩
  · constructor
    · intro h
      exact absurd h (by simp [sentSample, TcpRecoveryState.new])
    · simp
  · exact ring_nil.mpr ⟨rfl, rfl⟩

theorem step_balanced {x y : TcpRecoveryState × C} {op : Op} (h : Balanced x.1 total)
    (hok : Admissible x.1 op) (he : apply x op = some y) : Balanced y.1 (total + op.recorded) := by
  obtain ⟨⟨o, es, b⟩, hs⟩ := h
  by_cases hop : op.moves = false
  · obtain ⟨hk, hsc⟩ := apply_keeps he hop
    obtain ⟨es', b', -⟩ := b.keeps hk
    have hz : op.recorded = 0 := by
      cases op <;> first | rfl | simp [Op.moves] at hop
    rw [hz]
    exact ⟨⟨o, es', b'⟩, hsc hs⟩
  cases op with
  | recordSent p q e n m k t l =>
    obtain rfl := Option.some.inj he
    by_cases hn : n = 0
    · rw [hn]
      exact ⟨⟨o, es, b⟩, hs⟩
    · obtain ⟨o', j, b'⟩ := recordSent_books b hok (Nat.pos_of_ne_zero hn) p m k t l
      refine ⟨⟨o', _, b'⟩, ?_⟩
      -- a new sample is not marked
      have hnew : lostOf (es ++ [(j, newSample x.1 p q e n m k t l)]) = lostOf es := by
        simp [lostOf, newSample]
      unfold Scored
      rw [recordSent_frame.1, b'.tracks.lostBytes_eq b'.ranges, hnew,
        ← b.tracks.lostBytes_eq b.ranges]
      exact hs
  | onAck ack =>
    obtain rfl := Option.some.inj he
    obtain ⟨b', -, -⟩ := ackPhase_spec b ack
    obtain ⟨hk, hsc⟩ := onAck_keeps x.1 x.2 ack
    obtain ⟨es', b'', -⟩ := (b'.withHoles _ _).keeps hk
    exact ⟨⟨o, es', b''⟩, hsc⟩
  | onSackBlocks ack blocks =>
    obtain rfl := Option.some.inj he
    obtain ⟨b', -, -⟩ := ackPhase_spec b ack
    obtain ⟨⟨es1, b1⟩, -, -⟩ := sackLoop_spec ack (ordinaryBlocks blocks ack.acknowledgment)
      (TcpSeq.max (ackPhase x.1 ack).1.scoreboard.highSacked ack.acknowledgment)
      (ackPhase x.1 ack) ⟨_, b'⟩
    obtain ⟨hk, hsc⟩ := onSackBlocks_keeps x.1 x.2 ack blocks
    obtain ⟨es', b'', -⟩ := Books.keeps (Books.withHoles b1 _ _) hk
    exact ⟨⟨o, es', b''⟩, hsc⟩
  | _ => simp [Op.moves] at hop

theorem reaches_balanced {c₀ : C} {ops : List Op} {x : TcpRecoveryState × C}
    (h : Reaches Admissible c₀ ops x) : Balanced x.1 (recorded ops) := by
  induction h with
  | new => exact balanced_new
  | step _ hok he ih =>
    have := step_balanced ih hok he
    simpa [recorded] using this

/-- In every state of every run, pool, list and lookup hold the same disjoint ascending ranges,
and the counters add up. -/
theorem sender_books_balance (c₀ : C) (ops : List Op) (x : TcpRecoveryState × C)
    (h : Reaches Admissible c₀ ops x) :
    ∃ o es, Tracks x.1.flight es ∧ Ranges o (distanceTo o x.1.sndNxt) es ∧
      x.1.flight.bytesInFlight = bytesOf es ∧ x.1.scoreboard.lostBytes = lostOf es ∧
      x.1.flight.bytesInFlight ≤ recorded ops ∧
      x.1.delivered = Min.min (recorded ops - x.1.flight.bytesInFlight) U64_MAX := by
  obtain ⟨⟨o, es, b⟩, hs⟩ := reaches_balanced h
  have hlost : x.1.scoreboard.lostBytes = lostOf es :=
    hs.trans (b.tracks.lostBytes_eq b.ranges)
  refine ⟨o, es, b.tracks, b.ranges, b.inFlight, hlost, ?_, ?_⟩
  · rw [b.inFlight]
    exact b.recorded
  · rw [b.inFlight]
    exact b.delivered

/-- A controller that ignores all events. -/
instance fixedWindow : CongestionController Unit where
  maxDatagramSize _ := 1460
  congestionWindow _ := 14600
  delivered _ := 0
  onAck c _ _ _ _ := c
  onEndAcks c _ _ _ _ := c
  onLoss c _ _ _ := c
  onRecovery c := c
  onRecovered c := c
  onUndoRecovery c := c
  onTailLossProbeAck c _ _ _ := c

def plainAck (acknowledgment : TcpSeq) : TcpRecoveryAck := ⟨acknowledgment, 1, false, 0, 0, false⟩

theorem recordable_first {bytes : ℕ}
    (hnil : s.flight.samples = []) (hsize : endSequence = advance sequence bytes)
    (hb : bytes < 2147483648) : Recordable s sequence endSequence bytes := by
  refine ⟨hsize, fun h => absurd hnil h, sequence, ?_, ?_⟩
  · rw [distanceTo_self]
    omega
  · rw [hnil]
    simp

/-- A range across the wrap of the sequence space, cut by a cumulative acknowledgment and by a
SACK block. -/
theorem sender_books_balance_across_wrap :
    ∃ x : TcpRecoveryState × Unit,
      Reaches Admissible () [.recordSent 0 0xFFFFFF00 0x100 0x200 0x200 0 0 false,
        .onSackBlocks (plainAck 0xFFFFFF80) [⟨0x10, 0x20⟩]] x ∧
      x.1.flight.bytesInFlight = 0x170 ∧
      ∃ o es, Tracks x.1.flight es ∧ Ranges o (distanceTo o x.1.sndNxt) es ∧
        x.1.flight.bytesInFlight = bytesOf es ∧ x.1.scoreboard.lostBytes = lostOf es ∧
        x.1.flight.bytesInFlight ≤ 0x200 ∧
        x.1.delivered = Min.min (0x200 - x.1.flight.bytesInFlight) U64_MAX := by
  have h1 : Reaches Admissible () [.recordSent 0 0xFFFFFF00 0x100 0x200 0x200 0 0 false]
      (recordSent .new 0 0xFFFFFF00 0x100 0x200 0x200 0 0 false, ()) :=
    Reaches.step .new (recordable_first rfl (by decide) (by decide)) rfl
  have h2 : Reaches Admissible () _ _ :=
    h1.step (show Admissible _ (.onSackBlocks (plainAck 0xFFFFFF80) [⟨0x10, 0x20⟩]) from trivial)
      rfl
  exact ⟨_, h2, by decide, sender_books_balance () _ _ h2⟩

theorem round_drained {ops : List Op} {x : TcpRecoveryState × Unit}
    (h : Reaches Admissible () ops x) (b : Books x.1 o (recorded ops) []) :
    ∃ ops' y, Reaches Admissible () ops' y ∧ (∃ o', Books y.1 o' (recorded ops') []) ∧
      recorded ops' = recorded ops + 2147483647 := by
  set last : TcpSeq := advance 0 2147483647 with hlast
  have hr : Recordable x.1 0 last 2147483647 :=
    recordable_first (b.samples_nil.mpr rfl) rfl (by decide)
  obtain ⟨o', j, b1⟩ := recordSent_books b hr (by decide) 0 0 0 0 false
  have h1 := h.step (show Admissible x.1 (.recordSent 0 0 last 2147483647 0 0 0 false) from hr) rfl
  have h2 := h1.step (show Admissible _ (.onAck (plainAck last)) from trivial) rfl
  obtain ⟨b2, -, -⟩ := ackPhase_spec b1 (plainAck last)
  have htrim : trimLow last [(j, newSample x.1 0 0 last 2147483647 0 0 0 false)] = [] := by
    have hle : le last 0#32 = false := by decide
    have hge : ge last last = true := by decide
    simp [trimLow, newSample, hle, hge]
  have b3 : Books _ _ _ [] := htrim ▸ b2
  obtain ⟨es, b4, ha⟩ := (b3.withHoles _ _).keeps (onAck_keeps _ x.2 (plainAck last)).1
  obtain rfl : es = [] := by simpa using ha.symm
  have hrec : recorded ((ops ++ [.recordSent 0 0 last 2147483647 0 0 0 false]) ++
      [.onAck (plainAck last)]) = recorded ops + 2147483647 := by
    simp [recorded, Op.recorded]
  refine ⟨_, _, h2, ⟨o', ?_⟩, hrec⟩
  rw [hrec]
  exact b4

theorem rounds_drained (n : ℕ) : ∃ ops x, Reaches Admissible () ops x ∧
    (∃ o, Books x.1 o (recorded ops) []) ∧ recorded ops = n * 2147483647 := by
  induction n with
  | zero =>
    obtain ⟨⟨o, es, b⟩, -⟩ := balanced_new
    obtain rfl : es = [] := b.samples_nil.mp rfl
    exact ⟨[], _, .new, ⟨o, b⟩, rfl⟩
  | succ n ih =>
    obtain ⟨ops, x, h, ⟨o, b⟩, hrec⟩ := ih
    obtain ⟨ops', y, h', b', hrec'⟩ := round_drained h b
    exact ⟨ops', y, h', b', by omega⟩

/-- `delivered` is a saturating 64-bit counter. -/
theorem delivered_saturates : ∃ ops x, Reaches Admissible () ops x ∧
    x.1.delivered + x.1.flight.bytesInFlight ≠ recorded ops := by
  obtain ⟨ops, x, h, ⟨o, b⟩, hrec⟩ := rounds_drained (2 ^ 34)
  refine ⟨ops, x, h, ?_⟩
  have hd := b.delivered
  have hin : x.1.flight.bytesInFlight = 0 := b.inFlight
  rw [hd]
  unfold U64_MAX
  omega

end Recovery
