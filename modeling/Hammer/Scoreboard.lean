import Hammer.IntervalSet
import Hammer.RecoveryRuns

/-! # The holes of the scoreboard

Sequence numbers are read as positions, counted from the lowest one that can be outstanding.
The holes are the maximal intervals of outstanding positions below `high_sacked`, whether the
scoreboard is advanced or rebuilt.
-/
namespace Recovery

open LinkedRing TcpSeq Flight IntervalSet List

variable {C : Type} [CongestionController C]
variable {s s' : TcpRecoveryState} {o o' x y : TcpSeq} {n total : ℕ}
variable {es es' : List (ℕ × TcpSentSample)}

section

variable (hx : Behind o x)
include hx

section

variable (hy : Behind o y)
include hy

theorem le_iff_pos : le x y = true ↔ distanceTo o x ≤ distanceTo o y := by
  have : le x y = (TcpSeq.cmp x y != .gt) := rfl
  rw [this, cmp_of_distance hx hy, bne_iff_ne, ne_eq, Nat.compare_eq_gt, not_lt]

theorem lt_iff_pos : lt x y = true ↔ distanceTo o x < distanceTo o y := by
  have : lt x y = (TcpSeq.cmp x y == .lt) := rfl
  rw [this, cmp_of_distance hx hy, beq_iff_eq, Nat.compare_eq_lt]

theorem ge_iff_pos : ge x y = true ↔ distanceTo o y ≤ distanceTo o x := by
  rw [ge_eq_not_lt, Bool.not_eq_true', ← Bool.not_eq_true, lt_iff_pos hx hy, not_lt]

theorem max_pos : distanceTo o (max x y) = Max.max (distanceTo o x) (distanceTo o y) := by
  show distanceTo o (if lt y x then x else y) = _
  simp only [lt_iff_pos hy hx]
  split <;> omega

theorem min_pos : distanceTo o (min x y) = Min.min (distanceTo o x) (distanceTo o y) := by
  show distanceTo o (if lt y x then y else x) = _
  simp only [lt_iff_pos hy hx]
  split <;> omega

end

end

def holePositions (o : TcpSeq) (holes : List (TcpSeq × TcpScoreboardHole)) : List (ℕ × ℕ) :=
  holes.map fun hole => (distanceTo o hole.1, distanceTo o hole.2.endSeq)

def samplePositions (o : TcpSeq) (bs : List TcpSentSample) : List (ℕ × ℕ) :=
  bs.map fun b => (distanceTo o b.sequence, distanceTo o b.sequence + b.bytes)

theorem samplePositions_cons {b : TcpSentSample} {bs : List TcpSentSample} :
    samplePositions o (b :: bs) =
      (distanceTo o b.sequence, distanceTo o b.sequence + b.bytes) :: samplePositions o bs := rfl

variable {a : TcpSeq}

theorem trimHoles_positions (ha : Behind o a) :
    ∀ holes : List (TcpSeq × TcpScoreboardHole), Separated (holePositions o holes) →
      (∀ hole ∈ holes, Behind o hole.2.endSeq) →
      holePositions o (trimHoles a holes) = cutBelow (distanceTo o a) (holePositions o holes) := by
  intro holes
  induction holes with
  | nil => exact fun _ _ => rfl
  | cons hole holes ih =>
    obtain ⟨start, hole⟩ := hole
    intro hsep hend
    obtain ⟨hne, hafter, hrest⟩ := separated_cons.mp hsep
    have hlast := hend (start, hole) (by simp)
    simp only at hne hafter hlast
    have hstart : Behind o start := by omega
    show _ = cutBelow _ ((distanceTo o start, distanceTo o hole.endSeq) :: holePositions o holes)
    unfold trimHoles cutBelow
    split
    · next hle =>
      rw [le_iff_pos hlast ha] at hle
      rw [if_pos hle]
      exact ih hrest fun e he => hend e (by simp [he])
    · next hle =>
      rw [le_iff_pos hlast ha] at hle
      split
      · next hlt =>
        rw [lt_iff_pos hstart ha] at hlt
        have hbefore : ∀ e ∈ holes, TcpSeq.cmp a e.1 = .lt := by
          intro e he
          have h1 := hafter _ (mem_map_of_mem he)
          have h2 := hend e (by simp [he])
          have h3 := hrest.nonempty _ (mem_map_of_mem he)
          rw [cmp_of_distance ha (by omega), Nat.compare_eq_lt]
          omega
        rw [← nil_append holes, OrderedMap.insert_append (by simp) hbefore, max_eq_right hlt.le]
        rfl
      · next hlt =>
        rw [lt_iff_pos hstart ha, not_lt] at hlt
        rw [max_eq_left hlt]
        rfl

/-- The hole that is still being extended. -/
def pendingPositions (o : TcpSeq) (pending : Option (TcpSeq × TcpSeq)) : List (ℕ × ℕ) :=
  pending.toList.map fun hole => (distanceTo o hole.1, distanceTo o hole.2)

variable {holes holes' : List (TcpSeq × TcpScoreboardHole)} {pending : Option (TcpSeq × TcpSeq)}

theorem insertHole_eq {hole : TcpSeq × TcpSeq}
    (hsep : Separated (holePositions o holes ++ pendingPositions o (some hole)))
    (hlt : Behind o hole.2) :
    insertHole holes hole = holes ++ [(hole.1, ⟨hole.2, false⟩)] := by
  obtain ⟨hholes, hbefore, hne⟩ := separated_concat.mp hsep
  simp only at hbefore hne
  have hgt : ∀ e ∈ holes, TcpSeq.cmp hole.1 e.1 = .gt := by
    intro e he
    have h1 := hbefore _ (mem_map_of_mem he)
    have h2 := hholes.nonempty _ (mem_map_of_mem he)
    rw [cmp_of_distance (o := o) (by omega) (by omega), Nat.compare_eq_gt]
    omega
  unfold insertHole
  rw [← append_nil holes, OrderedMap.insert_append hgt (by simp)]
  simp

theorem finishHole_positions
    (hsep : Separated (holePositions o holes ++ pendingPositions o pending))
    (hlt : ∀ hole ∈ pending, Behind o hole.2) :
    holePositions o (finishHole pending holes) =
      holePositions o holes ++ pendingPositions o pending := by
  cases pending with
  | none => simp [finishHole, pendingPositions]
  | some hole =>
    rw [finishHole, insertHole_eq hsep (hlt hole rfl)]
    simp [holePositions, pendingPositions]

/-- What the walk has found so far lies before the samples it has still to read. -/
structure Found (o : TcpSeq) (bs : List TcpSentSample) (holes : List (TcpSeq × TcpScoreboardHole))
    (pending : Option (TcpSeq × TcpSeq)) : Prop where
  separated : Separated (holePositions o holes ++ pendingPositions o pending)
  before : ∀ r ∈ holePositions o holes ++ pendingPositions o pending,
    r.2 < 2147483648 ∧ ∀ b ∈ bs, r.2 ≤ distanceTo o b.sequence
  fresh : pending = none → holes = []

section Found

variable {b : TcpSentSample} {bs : List TcpSentSample}

theorem Found.pending_lt (h : Found o bs holes pending) : ∀ hole ∈ pending, Behind o hole.2 := by
  intro hole hp
  refine (h.before (distanceTo o hole.1, distanceTo o hole.2) ?_).1
  rw [Option.mem_def] at hp
  simp [hp, pendingPositions]

theorem Found.tail (h : Found o (b :: bs) holes pending) : Found o bs holes pending :=
  ⟨h.separated, fun r hr => ⟨(h.before r hr).1, fun c hc => (h.before r hr).2 c (by simp [hc])⟩,
    h.fresh⟩

section Join

/-! A sample that adds the positions from `start` to `stop`. -/

variable {start stop : TcpSeq} (hne : distanceTo o start < distanceTo o stop) (hlt : Behind o stop)
  (hnext : ∀ c ∈ bs, distanceTo o stop ≤ distanceTo o c.sequence)
include hlt hnext

theorem Found.of_last {first : TcpSeq}
    (hsep : Separated (holePositions o holes ++ pendingPositions o (some (first, stop))))
    (hbefore : ∀ r ∈ holePositions o holes,
      r.2 < 2147483648 ∧ ∀ b ∈ bs, r.2 ≤ distanceTo o b.sequence) :
    Found o bs holes (some (first, stop)) := by
  refine ⟨hsep, fun r hr => ?_, by simp⟩
  rcases mem_append.mp hr with hr | hr
  · exact hbefore r hr
  · obtain rfl := mem_singleton.mp hr
    exact ⟨hlt, hnext⟩

include hne

theorem Found.start_hole (hf : Found o (b :: bs) holes none) :
    Found o bs holes (some (start, stop)) := by
  obtain rfl := hf.fresh rfl
  exact of_last hlt hnext (separated_cons.mpr ⟨hne, by simp, separated_nil⟩) (by simp [holePositions])

variable {hole : TcpSeq × TcpSeq} (hf : Found o (b :: bs) holes (some hole))
include hf

theorem Found.extend (htouch : distanceTo o start = distanceTo o hole.2) :
    Found o bs holes (some (hole.1, max hole.2 stop)) ∧
    ∀ n, Covers (holePositions o holes ++ pendingPositions o (some (hole.1, max hole.2 stop))) n ↔
      Covers (holePositions o holes ++ pendingPositions o (some hole)) n ∨
        distanceTo o start ≤ n ∧ n < distanceTo o stop := by
  have hmax : distanceTo o (max hole.2 stop) = distanceTo o stop := by
    rw [max_pos (hf.pending_lt hole rfl) hlt]
    omega
  rw [distanceTo_injective hmax]
  obtain ⟨h1, h2, h3⟩ := separated_concat.mp hf.separated
  simp only at h2 h3
  have hgrown : distanceTo o hole.1 < distanceTo o stop := by omega
  refine ⟨of_last hlt hnext (separated_concat.mpr ⟨h1, h2, hgrown⟩) fun r hr =>
    hf.tail.before r (mem_append_left _ hr), fun n => ?_⟩
  rw [covers_append, covers_append, or_assoc]
  refine or_congr_right ?_
  simp only [pendingPositions, Option.toList_some, map_cons, map_nil, covers_cons, not_covers_nil,
    or_false]
  omega

theorem Found.push (hgap : distanceTo o hole.2 < distanceTo o start) :
    Found o bs (insertHole holes hole) (some (start, stop)) ∧
    ∀ n, Covers (holePositions o (insertHole holes hole) ++
        pendingPositions o (some (start, stop))) n ↔
      Covers (holePositions o holes ++ pendingPositions o (some hole)) n ∨
        distanceTo o start ≤ n ∧ n < distanceTo o stop := by
  have hpush := finishHole_positions hf.separated hf.pending_lt
  rw [finishHole] at hpush
  obtain ⟨-, h2, h3⟩ := separated_concat.mp hf.separated
  simp only at h2 h3
  refine ⟨of_last hlt hnext ?_ ?_, fun n => ?_⟩
  · rw [hpush]
    refine separated_concat.mpr ⟨hf.separated, fun r hr => ?_, hne⟩
    rcases mem_append.mp hr with hr | hr
    · exact (h2 r hr).trans (h3.trans hgap)
    · obtain rfl := mem_singleton.mp hr
      exact hgap
  · rw [hpush]
    exact hf.tail.before
  · rw [hpush, covers_append]
    simp [pendingPositions, covers_cons, not_covers_nil]

end Join

section Walk

variable {a high : TcpSeq} (ha : Behind o a) (hh : Behind o high)
include ha hh

/-- One turn of the walk adds the outstanding positions of its sample between the bounds. -/
theorem Found.turn (hend : b.endSequence = advance b.sequence b.bytes)
    (hlt : distanceTo o b.sequence + b.bytes < 2147483648)
    (hnext : ∀ c ∈ bs, distanceTo o b.sequence + b.bytes ≤ distanceTo o c.sequence)
    (hf : Found o (b :: bs) holes pending) :
    (distanceTo o high ≤ distanceTo o b.sequence ∧
      holeLoop a high (b :: bs) pending holes = finishHole pending holes) ∨
    ∃ pending' holes', holeLoop a high (b :: bs) pending holes =
        holeLoop a high bs pending' holes' ∧ Found o bs holes' pending' ∧
      ∀ n, Covers (holePositions o holes' ++ pendingPositions o pending') n ↔
        Covers (holePositions o holes ++ pendingPositions o pending) n ∨
          distanceTo o a ≤ n ∧ n < distanceTo o high ∧
            distanceTo o b.sequence ≤ n ∧ n < distanceTo o b.sequence + b.bytes := by
  have hpend : distanceTo o b.endSequence = distanceTo o b.sequence + b.bytes := by
    rw [hend]
    exact distanceTo_advance_origin (by omega)
  have hpl : Behind o b.endSequence := by omega
  have hsl : Behind o b.sequence := by omega
  rw [holeLoop]
  by_cases h1 : le b.endSequence a = true
  · rw [if_pos h1]
    rw [le_iff_pos hpl ha] at h1
    exact Or.inr ⟨pending, holes, rfl, hf.tail, fun n => (or_iff_left (by omega)).symm⟩
  rw [if_neg h1]
  by_cases h2 : ge b.sequence high = true
  · rw [if_pos h2]
    exact Or.inl ⟨(ge_iff_pos hsl hh).mp h2, rfl⟩
  rw [if_neg h2]
  rw [le_iff_pos hpl ha] at h1
  rw [ge_iff_pos hsl hh] at h2
  right
  set start := max b.sequence a with hstart
  set stop := min b.endSequence high with hstop
  have hps : distanceTo o start = Max.max (distanceTo o b.sequence) (distanceTo o a) :=
    max_pos hsl ha
  have hpt : distanceTo o stop = Min.min (distanceTo o b.endSequence) (distanceTo o high) :=
    min_pos hpl hh
  have hstartlt : Behind o start := by omega
  have hstoplt : Behind o stop := by omega
  by_cases h3 : ge start stop = true
  · rw [if_pos h3]
    rw [ge_iff_pos hstartlt hstoplt] at h3
    exact ⟨pending, holes, rfl, hf.tail, fun n => (or_iff_left (by omega)).symm⟩
  rw [if_neg h3]
  rw [ge_iff_pos hstartlt hstoplt] at h3
  have hne : distanceTo o start < distanceTo o stop := by omega
  have hafter : ∀ c ∈ bs, distanceTo o stop ≤ distanceTo o c.sequence := by
    intro c hc
    have := hnext c hc
    omega
  have hadds (n : ℕ) : (distanceTo o start ≤ n ∧ n < distanceTo o stop) ↔
      distanceTo o a ≤ n ∧ n < distanceTo o high ∧
        distanceTo o b.sequence ≤ n ∧ n < distanceTo o b.sequence + b.bytes := by omega
  simp only [← hadds]
  cases pending with
  | none =>
    refine ⟨_, _, rfl, hf.start_hole hne hstoplt hafter, ?_⟩
    simp [holePositions, pendingPositions, Covers]
  | some hole =>
    have hle : distanceTo o hole.2 ≤ distanceTo o start := by
      have := (hf.before (distanceTo o hole.1, distanceTo o hole.2)
        (by simp [pendingPositions])).2 b (by simp)
      omega
    simp only
    split
    · next h4 =>
      rw [le_iff_pos hstartlt (hf.pending_lt hole rfl)] at h4
      exact ⟨_, _, rfl, hf.extend hne hstoplt hafter (le_antisymm h4 hle)⟩
    · next h4 =>
      rw [le_iff_pos hstartlt (hf.pending_lt hole rfl)] at h4
      exact ⟨_, _, rfl, hf.push hne hstoplt hafter (by omega)⟩

theorem holeLoop_spec :
    ∀ (bs : List TcpSentSample) (pending : Option (TcpSeq × TcpSeq))
      (holes : List (TcpSeq × TcpScoreboardHole)),
      (∀ b ∈ bs, b.endSequence = advance b.sequence b.bytes ∧
        distanceTo o b.sequence + b.bytes < 2147483648) →
      bs.Pairwise (fun b c => distanceTo o b.sequence + b.bytes ≤ distanceTo o c.sequence) →
      Found o bs holes pending →
      Separated (holePositions o (holeLoop a high bs pending holes)) ∧
      ∀ n, Covers (holePositions o (holeLoop a high bs pending holes)) n ↔
        Covers (holePositions o holes ++ pendingPositions o pending) n ∨
          distanceTo o a ≤ n ∧ n < distanceTo o high ∧ Covers (samplePositions o bs) n := by
  intro bs
  induction bs with
  | nil =>
    intro pending holes _ _ hf
    unfold holeLoop
    rw [finishHole_positions hf.separated hf.pending_lt]
    exact ⟨hf.separated, fun n => by simp [samplePositions, not_covers_nil]⟩
  | cons b bs ih =>
    intro pending holes hbs hasc hf
    obtain ⟨hend, hlt⟩ := hbs b (by simp)
    obtain ⟨hnext, hasc'⟩ := pairwise_cons.mp hasc
    rcases hf.turn ha hh hend hlt hnext with ⟨hhigh, heq⟩ | ⟨pending', holes', heq, hf', hadds⟩
    · -- this sample and all later ones lie beyond `high`
      rw [heq, finishHole_positions hf.separated hf.pending_lt]
      refine ⟨hf.separated, fun n => (or_iff_left ?_).symm⟩
      rintro ⟨-, hn, r, hr, hr1, -⟩
      obtain ⟨c, hc, rfl⟩ := mem_map.mp hr
      rcases mem_cons.mp hc with rfl | hc
      · omega
      · have := hnext c hc
        omega
    · obtain ⟨hsep, hcov⟩ := ih pending' holes' (fun c hc => hbs c (by simp [hc])) hasc' hf'
      rw [heq]
      refine ⟨hsep, fun n => ?_⟩
      rw [hcov, hadds, or_assoc, samplePositions_cons, covers_cons, ← and_or_left, ← and_or_left]

end Walk

end Found

theorem trimLow_positions (ha : Behind o a) {top : ℕ} :
    ∀ es : List (ℕ × TcpSentSample), Ranges o top es →
      samplePositions o ((trimLow a es).map Prod.snd) =
        cutBelow (distanceTo o a) (samplePositions o (es.map Prod.snd)) := by
  intro es
  induction es with
  | nil => exact fun _ => rfl
  | cons e es ih =>
    obtain ⟨i, b⟩ := e
    intro r
    obtain ⟨hpos, hend⟩ := r.sized (i, b) (by simp)
    have hbound := r.bounded (i, b) (by simp)
    have hhalf := r.half
    simp only at hpos hend hbound
    have hpend : distanceTo o b.endSequence = distanceTo o b.sequence + b.bytes := by
      rw [hend]
      exact distanceTo_advance_origin (by omega)
    simp only [map_cons, samplePositions_cons]
    unfold trimLow cutBelow
    by_cases h1 : le a b.sequence = true
    · rw [if_pos h1]
      rw [le_iff_pos ha (by omega)] at h1
      rw [if_neg (by omega), max_eq_left h1]
      rfl
    rw [if_neg h1]
    by_cases h2 : ge a b.endSequence = true
    · rw [if_pos h2]
      rw [ge_iff_pos ha (by omega)] at h2
      rw [if_pos (by omega)]
      exact ih (r.sublist (sublist_cons_self _ _))
    rw [if_neg h2]
    cases hs : b.split a with
    | none => simp [TcpSentSample.split, h1, h2] at hs
    | some p =>
      obtain ⟨pre, suffix⟩ := p
      obtain ⟨d, hd, hdb, hcut, -, hsuf⟩ := split_spec (by omega) hend hs
      have hseq : suffix.sequence = a := by rw [hsuf]
      have hbytes : suffix.bytes = b.bytes - d := by rw [hsuf]
      have hpa : distanceTo o a = distanceTo o b.sequence + d := by
        rw [hcut]
        exact distanceTo_advance_origin (by omega)
      rw [if_neg (by omega), max_eq_right (by omega)]
      show samplePositions o (suffix :: es.map Prod.snd) = _
      rw [samplePositions_cons, hseq, hbytes,
        show distanceTo o a + (b.bytes - d) = distanceTo o b.sequence + b.bytes by omega]

/-- The lowest position that can be outstanding together with `snd_nxt`. -/
def windowFloor (sndNxt : TcpSeq) : TcpSeq := sndNxt - 2147483647#32

/-- The positions above it that the samples take. -/
def Outstanding (sndNxt : TcpSeq) (es : List (ℕ × TcpSentSample)) (n : ℕ) : Prop :=
  Covers (samplePositions (windowFloor sndNxt) (es.map Prod.snd)) n

variable {m : TcpSeq}

theorem windowFloor_pos (h : Behind x m) :
    distanceTo (windowFloor m) x + distanceTo x m = 2147483647 := by
  unfold Behind distanceTo windowFloor at *
  bv_omega

theorem windowFloor_lt (h : Behind x m) :
    Behind (windowFloor m) x := by
  have := windowFloor_pos h
  omega

theorem Books.behind (b : Books s o total es) :
    ∀ e ∈ es, distanceTo e.2.sequence s.sndNxt < 2147483648 := by
  intro e he
  have h1 := b.ranges.bounded e he
  have h2 := b.ranges.half
  rw [distanceTo_origin o]
  omega

theorem Books.rebase (b : Books s o total es) (hn : Behind o' s.sndNxt)
    (h : ∀ e ∈ es, distanceTo o' e.2.sequence < 2147483648) : Books s o' total es :=
  ⟨b.tracks, b.ranges.rebase h hn, b.inFlight, b.recorded, b.delivered⟩

theorem Books.window (b : Books s o total es) : Books s (windowFloor s.sndNxt) total es :=
  b.rebase (windowFloor_lt (by simp [Behind, distanceTo_self])) fun e he =>
    windowFloor_lt (b.behind e he)

/-- The holes are the maximal intervals of outstanding positions below `high_sacked`. -/
structure Aligned (s : TcpRecoveryState) (es : List (ℕ × TcpSentSample)) : Prop where
  high : distanceTo s.scoreboard.highSacked s.sndNxt < 2147483648
  separated : Separated (holePositions (windowFloor s.sndNxt) s.scoreboard.holes)
  covers : ∀ n, Covers (holePositions (windowFloor s.sndNxt) s.scoreboard.holes) n ↔
    n < distanceTo (windowFloor s.sndNxt) s.scoreboard.highSacked ∧ Outstanding s.sndNxt es n

theorem mem_holePositions (o : TcpSeq) {hole : TcpSeq × TcpScoreboardHole} (h : hole ∈ holes) :
    (distanceTo o hole.1, distanceTo o hole.2.endSeq) ∈ holePositions o holes :=
  mem_map.mpr ⟨hole, h, rfl⟩

theorem holePositions_eq (o : TcpSeq) (s : TcpRecoveryState) : holePositions o s.scoreboard.holes =
      (holeRanges s).map fun r => (distanceTo o r.1, distanceTo o r.2) := by
  unfold holePositions holeRanges
  rw [map_map]
  rfl

theorem Alike.outstanding (h : Alike es es') : Outstanding m es' = Outstanding m es := by
  have hr (o : TcpSeq) (l : List (ℕ × TcpSentSample)) : samplePositions o (l.map Prod.snd) =
      (l.map rangeOf).map fun q => (distanceTo o q.2.1, distanceTo o q.2.1 + q.2.2.2) := by
    unfold samplePositions
    rw [map_map, map_map]
    rfl
  unfold Outstanding
  rw [hr, hr, h]

theorem Aligned.keeps (h : Aligned s es) (hk : Keeps s s') (ha : Alike es es') :
    Aligned s' es' := by
  have hpos : holePositions (windowFloor s'.sndNxt) s'.scoreboard.holes =
      holePositions (windowFloor s.sndNxt) s.scoreboard.holes := by
    rw [holePositions_eq, holePositions_eq, hk.holes, hk.sndNxt]
  refine ⟨?_, ?_, fun n => ?_⟩
  · rw [hk.highSacked, hk.sndNxt]
    exact h.high
  · rw [hpos]
    exact h.separated
  · rw [hpos, h.covers, hk.highSacked, hk.sndNxt, ha.outstanding]

theorem Aligned.unique (h : Aligned s es) (h' : Aligned s' es) (hn : s'.sndNxt = s.sndNxt)
    (hh : s'.scoreboard.highSacked = s.scoreboard.highSacked) : holeRanges s = holeRanges s' := by
  have hpos : holePositions (windowFloor s.sndNxt) s.scoreboard.holes =
      holePositions (windowFloor s.sndNxt) s'.scoreboard.holes := by
    refine h.separated.unique (hn ▸ h'.separated) fun n => ?_
    rw [h.covers, ← hh, ← hn, h'.covers]
  rw [holePositions_eq, holePositions_eq] at hpos
  refine map_injective_iff.mpr (fun p q hpq => ?_) hpos
  simp only [Prod.mk.injEq] at hpq
  exact Prod.ext (distanceTo_injective hpq.1) (distanceTo_injective hpq.2)

theorem Aligned.end_le (h : Aligned s es) : ∀ hole ∈ s.scoreboard.holes,
    distanceTo (windowFloor s.sndNxt) hole.2.endSeq ≤
      distanceTo (windowFloor s.sndNxt) s.scoreboard.highSacked := by
  intro hole hm
  have hmem := mem_holePositions (windowFloor s.sndNxt) hm
  have hne := h.separated.nonempty _ hmem
  have := ((h.covers (distanceTo (windowFloor s.sndNxt) hole.2.endSeq - 1)).mp
    ⟨_, hmem, by omega, by omega⟩).1
  omega

theorem max_behind {n : TcpSeq} (hx : Behind x n)
    (hy : Behind y n) : Behind (max x y) n := by
  have : max x y = if lt y x then x else y := rfl
  rw [this]
  split
  · exact hx
  · exact hy

theorem head_isNone_iff {f : Flight} (t : Tracks f es) : f.sampleHead.isNone = true ↔ es = [] := by
  rw [t.head_eq]
  cases es <;> simp

theorem aligned_withHoles {high : TcpSeq} (t : Tracks s.flight es)
    (ha : Behind a s.sndNxt) (hh : Behind high s.sndNxt)
    (hlow : ∀ n, Outstanding s.sndNxt es n → distanceTo (windowFloor s.sndNxt) a ≤ n)
    (hsep : Separated (holePositions (windowFloor s.sndNxt) holes))
    (hcov : distanceTo (windowFloor s.sndNxt) a < distanceTo (windowFloor s.sndNxt) (max high a) →
      ∀ n, Covers (holePositions (windowFloor s.sndNxt) holes) n ↔
        n < distanceTo (windowFloor s.sndNxt) (max high a) ∧ Outstanding s.sndNxt es n) :
    Aligned (withHoles s (if s.flight.sampleHead.isNone || le (max high a) a then [] else holes)
      (max high a)) es := by
  have hhigh := max_behind hh ha
  have hle := le_iff_pos (windowFloor_lt hhigh) (windowFloor_lt ha)
  split
  · next hempty =>
    refine ⟨hhigh, separated_nil, fun n => ⟨fun h => absurd h not_covers_nil, ?_⟩⟩
    rintro ⟨hlt, hc⟩
    rw [Bool.or_eq_true, hle] at hempty
    rcases hempty with hnone | hempty
    · obtain rfl := (head_isNone_iff t).mp hnone
      exact absurd hc not_covers_nil
    · -- everything left is at or above the acknowledgment
      exact absurd (hempty.trans (hlow n hc)) (not_le.mpr hlt)
  · next hempty =>
    rw [Bool.or_eq_true, not_or, hle, not_le] at hempty
    exact ⟨hhigh, hsep, hcov hempty.2⟩

theorem advanced_aligned (h : Aligned s es) (hb : s'.scoreboard = s.scoreboard)
    (hn : s'.sndNxt = s.sndNxt) (t : Tracks s'.flight es') (ha : Behind a s.sndNxt)
    (hc : ∀ n, Outstanding s.sndNxt es' n ↔
      Outstanding s.sndNxt es n ∧ distanceTo (windowFloor s.sndNxt) a ≤ n) :
    Aligned (withHoles s' (advancedHoles s' a) (max s'.scoreboard.highSacked a)) es' := by
  have hp := windowFloor_lt ha
  have hq := windowFloor_lt h.high
  have htrim := trimHoles_positions hp _ h.separated fun hole hm =>
    lt_of_le_of_lt (h.end_le hole hm) hq
  unfold advancedHoles
  rw [hb]
  refine aligned_withHoles t (hn ▸ ha) (hn ▸ h.high) ?_ ?_ ?_
  all_goals rw [hn]
  · exact fun n hcov => ((hc n).mp hcov).2
  · rw [htrim]
    exact h.separated.cutBelow
  · intro hlt n
    have hmax := max_pos hq hp
    rw [htrim, covers_cutBelow (h.separated.apart.imp le_of_lt), h.covers, hc, and_assoc]
    refine and_congr_left fun _ => ?_
    omega

theorem Books.samples_positions (b : Books s o total es) (o' : TcpSeq) :
    samplePositions o' s.flight.samples = samplePositions o' (es.map Prod.snd) := by
  rw [← b.tracks.samples_body]
  unfold samplePositions
  rw [map_map]
  rfl

theorem Books.samples_walk (b : Books s o total es) :
    (∀ x ∈ s.flight.samples, x.endSequence = advance x.sequence x.bytes ∧
      distanceTo o x.sequence + x.bytes < 2147483648) ∧
    s.flight.samples.Pairwise fun x y =>
      distanceTo o x.sequence + x.bytes ≤ distanceTo o y.sequence := by
  have hbody := b.tracks.samples_body
  constructor
  · intro x hx
    have hmem : x.body ∈ es.map Prod.snd := hbody ▸ mem_map_of_mem hx
    obtain ⟨e, he, hex⟩ := mem_map.mp hmem
    have h1 := (b.ranges.sized e he).2
    have h2 := b.ranges.bounded e he
    have h3 := b.ranges.half
    rw [hex] at h1 h2
    exact ⟨h1, lt_of_le_of_lt h2 h3⟩
  · have hasc : (es.map Prod.snd).Pairwise fun x y =>
        distanceTo o x.sequence + x.bytes ≤ distanceTo o y.sequence :=
      pairwise_map.mpr b.ranges.ascending
    rw [← hbody] at hasc
    exact pairwise_map.mp hasc

theorem rebuilt_aligned {a high : TcpSeq} (b : Books s o total es)
    (ha : Behind a s.sndNxt) (hh : Behind high s.sndNxt)
    (hlow : ∀ n, Outstanding s.sndNxt es n → distanceTo (windowFloor s.sndNxt) a ≤ n) :
    Aligned (withHoles s (rebuiltHoles s a high) (max high a)) es := by
  obtain ⟨hsized, hasc⟩ := b.window.samples_walk
  obtain ⟨hsep, hcov⟩ := holeLoop_spec (windowFloor_lt ha) (windowFloor_lt (max_behind hh ha))
    s.flight.samples none [] hsized hasc
    ⟨separated_nil, by simp [holePositions, pendingPositions], fun _ => rfl⟩
  refine aligned_withHoles b.tracks ha hh hlow hsep fun _ n => ?_
  rw [hcov, b.samples_positions]
  constructor
  · rintro (h | ⟨-, h2, h3⟩)
    · exact absurd h (by simp [holePositions, pendingPositions, not_covers_nil])
    · exact ⟨h2, h3⟩
  · rintro ⟨h1, h2⟩
    exact Or.inr ⟨hlow n h2, h1, h2⟩

/-- Ranges are recorded at or after `high_sacked`, and acknowledgments are not beyond `snd_nxt`,
each within half the sequence space. -/
def Ordered (s : TcpRecoveryState) : Op → Prop
  | .recordSent _ sequence endSequence bytes _ _ _ _ =>
    Recordable s sequence endSequence bytes ∧
      distanceTo s.scoreboard.highSacked sequence + bytes < 2147483648
  | .onAck ack => distanceTo ack.acknowledgment s.sndNxt < 2147483648
  | .onSackBlocks ack _ => distanceTo ack.acknowledgment s.sndNxt < 2147483648
  | _ => True

section Shift

/-! Counting from another origin. -/

def shift (k : ℕ) (r : ℕ × ℕ) : ℕ × ℕ := (r.1 + k, r.2 + k)

theorem covers_shift {k : ℕ} {l : List (ℕ × ℕ)} : Covers (l.map (shift k)) (n + k) ↔ Covers l n := by
  constructor
  · rintro ⟨r, hr, h1, h2⟩
    obtain ⟨q, hq, rfl⟩ := mem_map.mp hr
    unfold shift at h1 h2
    exact ⟨q, hq, by omega, by omega⟩
  · rintro ⟨q, hq, h1, h2⟩
    exact ⟨shift k q, mem_map_of_mem hq, by unfold shift; omega, by unfold shift; omega⟩

theorem separated_shift {k : ℕ} {l : List (ℕ × ℕ)} (h : Separated (l.map (shift k))) :
    Separated l := by
  refine ⟨fun r hr => ?_, ?_⟩
  · have := h.nonempty _ (mem_map_of_mem hr)
    unfold shift at this
    omega
  · refine (pairwise_map.mp h.apart).imp fun {r q} hrq => ?_
    unfold shift at hrq
    omega

end Shift

theorem windowFloor_behind (h : Behind (windowFloor m) x) :
    Behind x m := by
  unfold Behind distanceTo windowFloor at *
  bv_omega

theorem windowFloor_advance {k : ℕ} (h : distanceTo x m + k < 2147483648) :
    distanceTo (windowFloor (advance m k)) x + k = distanceTo (windowFloor m) x := by
  have h1 := windowFloor_pos (x := x) (m := m) (by omega)
  have h2 := distanceTo_advance_origin (o := x) (x := m) (n := k) (by omega)
  have h3 := windowFloor_pos (x := x) (m := advance m k) (by omega)
  omega

theorem Aligned.shifted {k : ℕ} (h : Aligned s es)
    (hes : ∀ e ∈ es, distanceTo e.2.sequence s.sndNxt + k < 2147483648) :
    Separated (holePositions (windowFloor (advance s.sndNxt k)) s.scoreboard.holes) ∧
    ∀ n, Covers (holePositions (windowFloor (advance s.sndNxt k)) s.scoreboard.holes) n ↔
      n + k < distanceTo (windowFloor s.sndNxt) s.scoreboard.highSacked ∧
        Outstanding (advance s.sndNxt k) es n := by
  have hq := windowFloor_lt h.high
  have hsamples : samplePositions (windowFloor s.sndNxt) (es.map Prod.snd) =
      (samplePositions (windowFloor (advance s.sndNxt k)) (es.map Prod.snd)).map (shift k) := by
    unfold samplePositions
    rw [map_map, map_map, map_map]
    apply map_congr_left
    intro e he
    have := windowFloor_advance (hes e he)
    simp only [Function.comp_apply, shift, Prod.mk.injEq]
    omega
  -- every end of a hole is at or above the start of a sample
  have habove : ∀ y, Behind (windowFloor s.sndNxt) y →
      (∃ n ≤ distanceTo (windowFloor s.sndNxt) y, Outstanding s.sndNxt es n) →
      distanceTo (windowFloor (advance s.sndNxt k)) y + k = distanceTo (windowFloor s.sndNxt) y := by
    rintro y hy ⟨n, hny, r, hr, hr1, -⟩
    obtain ⟨c, hc, rfl⟩ := mem_map.mp hr
    obtain ⟨e, he, rfl⟩ := mem_map.mp hc
    have h1 := hes e he
    have h2 := windowFloor_pos (x := e.2.sequence) (m := s.sndNxt) (by omega)
    have h3 := windowFloor_pos (windowFloor_behind hy)
    exact windowFloor_advance (by omega)
  have hholes : holePositions (windowFloor s.sndNxt) s.scoreboard.holes =
      (holePositions (windowFloor (advance s.sndNxt k)) s.scoreboard.holes).map (shift k) := by
    unfold holePositions
    rw [map_map]
    apply map_congr_left
    intro hole hm
    have hmem := mem_holePositions (windowFloor s.sndNxt) hm
    have hne := h.separated.nonempty _ hmem
    have hend := h.end_le hole hm
    have hcov := ((h.covers _).mp (h.separated.covers_start hmem)).2
    have h1 := habove hole.1 (by omega) ⟨_, le_rfl, hcov⟩
    have h2 := habove hole.2.endSeq (by omega) ⟨_, hne.le, hcov⟩
    simp only [Function.comp_apply, shift, Prod.mk.injEq]
    omega
  refine ⟨separated_shift (hholes ▸ h.separated), fun n => ?_⟩
  rw [← covers_shift, ← hholes, h.covers, Outstanding, hsamples, covers_shift]
  rfl

theorem Aligned.holes_nil (h : Aligned s []) : s.scoreboard.holes = [] := by
  have : holePositions (windowFloor s.sndNxt) s.scoreboard.holes = [] := by
    refine h.separated.unique separated_nil fun n => ?_
    rw [h.covers]
    exact ⟨fun hc => absurd hc.2 not_covers_nil, fun hc => absurd hc not_covers_nil⟩
  exact map_eq_nil_iff.mp this

theorem recordSent_aligned {sequence endSequence : TcpSeq} {bytes : ℕ} (b : Books s o total es)
    (h : Aligned s es) (hr : Recordable s sequence endSequence bytes)
    (hhigh : distanceTo s.scoreboard.highSacked sequence + bytes < 2147483648)
    (hn : s'.sndNxt = endSequence) (hboard : s'.scoreboard = s.scoreboard) {j total' : ℕ}
    {new : TcpSentSample} (hseq : new.sequence = sequence)
    (b' : Books s' o' total' (es ++ [(j, new)])) : Aligned s' (es ++ [(j, new)]) := by
  have hdist : distanceTo s.scoreboard.highSacked endSequence =
      distanceTo s.scoreboard.highSacked sequence + bytes := by
    rw [hr.size]
    exact distanceTo_advance_origin (by omega)
  have hself : distanceTo sequence endSequence = bytes := by
    rw [hr.size]
    exact distanceTo_advance (by omega)
  have hp := windowFloor_pos (x := s.scoreboard.highSacked) (m := endSequence) (by omega)
  have hq := windowFloor_pos (x := sequence) (m := endSequence) (by omega)
  have hbelow : ∀ n, n < distanceTo (windowFloor endSequence) s.scoreboard.highSacked →
      (Outstanding endSequence (es ++ [(j, new)]) n ↔ Outstanding endSequence es n) := by
    intro n hlt
    unfold Outstanding samplePositions
    rw [map_append, map_append, covers_append]
    simp only [map_cons, map_nil, covers_cons, not_covers_nil, or_false, hseq]
    constructor
    · rintro (hc | hc)
      · exact hc
      · omega
    · exact Or.inl
  have hmain : Separated (holePositions (windowFloor endSequence) s.scoreboard.holes) ∧
      ∀ n, Covers (holePositions (windowFloor endSequence) s.scoreboard.holes) n ↔
        n < distanceTo (windowFloor endSequence) s.scoreboard.highSacked ∧
          Outstanding endSequence es n := by
    by_cases hne : es = []
    · subst hne
      rw [h.holes_nil]
      exact ⟨separated_nil, fun n => ⟨fun hc => absurd hc not_covers_nil,
        fun hc => absurd hc.2 not_covers_nil⟩⟩
    · have hstart : sequence = s.sndNxt := hr.start fun hnil => hne (b.samples_nil.mp hnil)
      have hes : ∀ e ∈ es, distanceTo e.2.sequence s.sndNxt + bytes < 2147483648 := by
        intro e he
        have h1 := b.behind e he
        have h2 := b'.behind e (by simp [he])
        rw [hn, hr.size, hstart, distanceTo_advance_origin (by omega)] at h2
        exact h2
      obtain ⟨h1, h2⟩ := h.shifted hes
      rw [← hstart, ← hr.size] at h1 h2
      refine ⟨h1, fun n => ?_⟩
      rw [h2, hstart]
      have hk := windowFloor_advance (x := s.scoreboard.highSacked) (m := sequence) hhigh
      rw [← hr.size, hstart] at hk
      refine and_congr_left fun _ => ?_
      omega
  refine ⟨?_, ?_, fun n => ?_⟩
  · rw [hboard, hn, hdist]
    exact hhigh
  · rw [hboard, hn]
    exact hmain.1
  · rw [hboard, hn, hmain.2]
    exact and_congr_right fun hlt => (hbelow n hlt).symm

theorem Books.floor_covers (b : Books s a total es) (ha : Behind a s.sndNxt) :
    ∀ n, Outstanding s.sndNxt es n → distanceTo (windowFloor s.sndNxt) a ≤ n := by
  rintro n ⟨r, hr, hr1, -⟩
  obtain ⟨c, hc, rfl⟩ := mem_map.mp hr
  obtain ⟨e, he, rfl⟩ := mem_map.mp hc
  have h1 := b.ranges.bounded e he
  have h2 := distanceTo_origin a e.2.sequence s.sndNxt
  have h3 := windowFloor_pos ha
  have h4 := windowFloor_pos (b.behind e he)
  omega

theorem Books.trimmed (b : Books s o total es) (ha : Behind a s.sndNxt)
    (hlow : ∀ n, Outstanding s.sndNxt es n → distanceTo (windowFloor s.sndNxt) a ≤ n) :
    Books s a total es := by
  refine b.rebase ha fun e he => ?_
  have hpos := (b.ranges.sized e he).1
  have h1 := hlow (distanceTo (windowFloor s.sndNxt) e.2.sequence)
    ⟨_, mem_map_of_mem (mem_map_of_mem he), le_rfl, by omega⟩
  have h2 := b.window.ranges.pos_lt he
  rw [distanceTo_origin (windowFloor s.sndNxt)]
  omega

/-- The scoreboard and the samples it was made from. -/
def AlignedBooks (s : TcpRecoveryState) (total : ℕ) : Prop :=
  ∃ o es, Books s o total es ∧ Aligned s es

theorem alignedBooks_new : AlignedBooks .new 0 := by
  obtain ⟨⟨o, es, b⟩, -⟩ := balanced_new
  obtain rfl : es = [] := b.samples_nil.mp rfl
  refine ⟨o, [], b, by decide, separated_nil, fun n => ?_⟩
  exact ⟨fun h => absurd h not_covers_nil, fun h => absurd h.2 not_covers_nil⟩

theorem ackPhase_covers {ack : TcpRecoveryAck} (b : Books s o total es)
    (ha : Behind ack.acknowledgment s.sndNxt) :
    ∀ n, Outstanding s.sndNxt (trimLow ack.acknowledgment es) n ↔
      Outstanding s.sndNxt es n ∧ distanceTo (windowFloor s.sndNxt) ack.acknowledgment ≤ n := by
  intro n
  rw [Outstanding, trimLow_positions (windowFloor_lt ha) es b.window.ranges]
  exact covers_cutBelow (pairwise_map.mpr (pairwise_map.mpr b.window.ranges.ascending))

theorem step_aligned {x y : TcpRecoveryState × C} {op : Op} (h : AlignedBooks x.1 total)
    (hok : Ordered x.1 op) (he : apply x op = some y) :
    AlignedBooks y.1 (total + op.recorded) := by
  obtain ⟨o, es, b, ha⟩ := h
  by_cases hop : op.moves = false
  · obtain ⟨hk, -⟩ := apply_keeps he hop
    obtain ⟨es', b', hal⟩ := b.keeps hk
    have hz : op.recorded = 0 := by
      cases op <;> first | rfl | simp [Op.moves] at hop
    rw [hz]
    exact ⟨o, es', b', ha.keeps hk hal⟩
  cases op with
  | recordSent p q e n m k t l =>
    obtain rfl := Option.some.inj he
    by_cases hn : n = 0
    · rw [hn]
      exact ⟨o, es, b, ha⟩
    · obtain ⟨o', j, b'⟩ := recordSent_books b hok.1 (Nat.pos_of_ne_zero hn) p m k t l
      have hsnd : (recordSent x.1 p q e n m k t l).sndNxt = e := by
        rw [recordSent, if_neg hn]
        rfl
      exact ⟨o', _, b', recordSent_aligned b ha hok.1 hok.2 hsnd recordSent_frame.1 rfl b'⟩
  | onAck ack =>
    obtain rfl := Option.some.inj he
    have hack : Behind ack.acknowledgment x.1.sndNxt := hok
    obtain ⟨b', hboard, hsnd⟩ := ackPhase_spec b ack
    have ha' := advanced_aligned ha hboard hsnd b'.tracks hack (ackPhase_covers b hack)
    obtain ⟨hk, -⟩ := onAck_keeps x.1 x.2 ack
    obtain ⟨es', b'', hal⟩ := (b'.withHoles _ _).keeps hk
    exact ⟨o, es', b'', ha'.keeps hk hal⟩
  | onSackBlocks ack blocks =>
    obtain rfl := Option.some.inj he
    have hack : Behind ack.acknowledgment x.1.sndNxt := hok
    obtain ⟨b', hboard, hsnd⟩ := ackPhase_spec b ack
    rw [← hsnd] at hack
    have b1 : Books _ ack.acknowledgment _ _ := b'.trimmed hack fun n hn => by
      rw [hsnd] at hn ⊢
      exact ((ackPhase_covers b (hsnd ▸ hack) n).mp hn).2
    have hhigh : distanceTo (max (ackPhase x.1 ack).1.scoreboard.highSacked
        ack.acknowledgment) (ackPhase x.1 ack).1.sndNxt < 2147483648 := by
      refine max_behind ?_ hack
      rw [hboard, hsnd]
      exact ha.high
    obtain ⟨⟨es2, b2⟩, hsnd2, hbehind⟩ := sackLoop_spec ack
      (ordinaryBlocks blocks ack.acknowledgment) _ (ackPhase x.1 ack) ⟨_, b1⟩
    have hright := hbehind hack hhigh
    rw [← hsnd2] at hack hright
    have ha' := rebuilt_aligned b2 hack hright (b2.floor_covers hack)
    obtain ⟨hk, -⟩ := onSackBlocks_keeps x.1 x.2 ack blocks
    obtain ⟨es', b'', hal⟩ := Books.keeps (Books.withHoles b2 _ _) hk
    exact ⟨_, es', b'', ha'.keeps hk hal⟩
  | _ => simp [Op.moves] at hop

theorem reaches_aligned {c₀ : C} {ops : List Op} {x : TcpRecoveryState × C}
    (h : Reaches Ordered c₀ ops x) : AlignedBooks x.1 (recorded ops) := by
  induction h with
  | new => exact alignedBooks_new
  | step _ hok he ih =>
    have := step_aligned ih hok he
    simpa [recorded] using this

/-- In every state of a run in order, advancing the scoreboard for an acknowledgment gives the
holes and the `high_sacked` of a rebuild from the samples that are left. -/
theorem advance_scoreboard_eq_rebuild (c₀ : C) (ops : List Op) (x : TcpRecoveryState × C)
    (h : Reaches Ordered c₀ ops x) (ack : TcpRecoveryAck)
    (hack : distanceTo ack.acknowledgment x.1.sndNxt < 2147483648) (size : ℕ) :
    let s := (processAck { x.1 with ackFloor := ack.acknowledgment } x.2 ack).1
    holeRanges (advanceScoreboardForAck s ack.acknowledgment size) =
      holeRanges (rebuildScoreboard s ack.acknowledgment s.scoreboard.highSacked size) ∧
    (advanceScoreboardForAck s ack.acknowledgment size).scoreboard.highSacked =
      (rebuildScoreboard s ack.acknowledgment
        s.scoreboard.highSacked size).scoreboard.highSacked := by
  intro s
  obtain ⟨o, es, b, ha⟩ := reaches_aligned h
  obtain ⟨b', hboard, hsnd⟩ := ackPhase_spec b ack
  have hs : s = (ackPhase x.1 ack).1 := rfl
  rw [← hs] at b' hboard hsnd
  have hcov := ackPhase_covers b hack
  have hadv := advanced_aligned ha hboard hsnd b'.tracks hack hcov
  have hreb : Aligned (withHoles s (rebuiltHoles s ack.acknowledgment s.scoreboard.highSacked)
      (TcpSeq.max s.scoreboard.highSacked ack.acknowledgment))
      (trimLow ack.acknowledgment es) := by
    refine rebuilt_aligned b' (by rw [hsnd]; exact hack) (by rw [hboard, hsnd]; exact ha.high) ?_
    intro n hn
    rw [hsnd] at hn ⊢
    exact ((hcov n).mp hn).2
  obtain ⟨hk1, -⟩ := advanceScoreboardForAck_keeps s ack.acknowledgment size
  obtain ⟨hk2, -⟩ := rebuildScoreboard_keeps s ack.acknowledgment s.scoreboard.highSacked size
  refine ⟨?_, hk1.highSacked.trans hk2.highSacked.symm⟩
  rw [hk1.holes, hk2.holes]
  exact hadv.unique hreb rfl rfl

/-- One block is reported, and the next acknowledgment cuts the hole below it. -/
theorem advance_scoreboard_eq_rebuild_below_block :
    ∃ x : TcpRecoveryState × Unit,
      Reaches Ordered () [.recordSent 0 0 0x400 0x400 0x400 0 0 false,
        .onSackBlocks (plainAck 0) [⟨0x100, 0x200⟩]] x ∧
      distanceTo 0x80 x.1.sndNxt < 2147483648 ∧
      let s := (processAck { x.1 with ackFloor := 0x80 } x.2 (plainAck 0x80)).1
      holeRanges (advanceScoreboardForAck s 0x80 1460) = [(0x80, 0x100)] ∧
      holeRanges (advanceScoreboardForAck s 0x80 1460) =
        holeRanges (rebuildScoreboard s 0x80 s.scoreboard.highSacked 1460) ∧
      (advanceScoreboardForAck s 0x80 1460).scoreboard.highSacked =
        (rebuildScoreboard s 0x80 s.scoreboard.highSacked 1460).scoreboard.highSacked := by
  have h1 : Reaches Ordered () [.recordSent 0 0 0x400 0x400 0x400 0 0 false]
      (recordSent .new 0 0 0x400 0x400 0x400 0 0 false, ()) :=
    Reaches.step .new ⟨recordable_first rfl (by decide) (by decide), by decide⟩ rfl
  have h2 : Reaches Ordered () _ _ :=
    h1.step (show Ordered _ (.onSackBlocks (plainAck 0) [⟨0x100, 0x200⟩]) from
      (by decide : distanceTo (0 : TcpSeq) 0x400 < 2147483648)) rfl
  exact ⟨_, h2, by decide, by decide,
    advance_scoreboard_eq_rebuild () _ _ h2 (plainAck 0x80) (by decide) 1460⟩

/-- The initial `high_sacked` is the sequence number zero. A connection whose numbers start in
the upper half of the space finds it ahead of all its data, and the rebuild fills it with a hole
that the incremental update does not have. -/
theorem initial_high_sacked_ahead :
    ∃ x : TcpRecoveryState × Unit,
      Reaches Admissible () [.recordSent 0 0x90000000 0x90000100 0x100 0x100 0 0 false] x ∧
      let s := (processAck { x.1 with ackFloor := 0x90000080 } x.2 (plainAck 0x90000080)).1
      holeRanges (advanceScoreboardForAck s 0x90000080 1460) = [] ∧
      holeRanges (rebuildScoreboard s 0x90000080 s.scoreboard.highSacked 1460) =
        [(0x90000080, 0x90000100)] := by
  have h1 : Reaches Admissible () [.recordSent 0 0x90000000 0x90000100 0x100 0x100 0 0 false]
      (recordSent .new 0 0x90000000 0x90000100 0x100 0x100 0 0 false, ()) :=
    Reaches.step .new (recordable_first rfl (by decide) (by decide)) rfl
  exact ⟨_, h1, by decide, by decide⟩

end Recovery
