import Hammer.RecoveryState

/-! # Loss marking by SACKed bytes

`update_scoreboard_loss` walks the holes from the highest to the lowest and decides each before it
has added the SACKed run right above it. Every hole but the highest is therefore judged by what is
SACKed above the next higher hole.
-/
namespace Recovery

open TcpSeq Flight

abbrev Holes := List (TcpSeq × TcpScoreboardHole)

/-- The limits of a pass. One block is never enough to declare a hole lost. -/
structure LossRule where
  reorderLimit : ℕ
  byteThreshold : ℕ
  highSacked : TcpSeq
  one_lt_limit : 1 < reorderLimit

def TcpScoreboard.lossRule (b : TcpScoreboard) (maxDatagramSize : ℕ) : LossRule where
  reorderLimit := Max.max b.reorder TCP_DUPACK_THRESHOLD
  byteThreshold := satMul U32_MAX (Max.max b.reorder TCP_DUPACK_THRESHOLD - 1)
    (Max.max maxDatagramSize 1)
  highSacked := b.highSacked
  one_lt_limit := lt_max_of_lt_right (by decide)

namespace LossRule

variable (r : LossRule)

/-- The bytes SACKed above the first hole: the runs up to the next holes and the trailing one. -/
def sackedAbove : Holes → ℕ
  | [] => 0
  | [hole] => distanceTo hole.2.endSeq r.highSacked
  | hole :: next :: rest => distanceTo hole.2.endSeq next.1 + sackedAbove (next :: rest)

def blocksAbove : Holes → ℕ
  | [] => 0
  | [hole] => if distanceTo hole.2.endSeq r.highSacked = 0 then 0 else 1
  | _ :: next :: rest => blocksAbove (next :: rest) + 1

/-- The SACKed run above the highest hole. -/
def trailingSacked (holes : Holes) : ℕ :=
  match holes.getLast? with
  | some hole => distanceTo hole.2.endSeq r.highSacked
  | none => 0

/-- The rule of the comment, for the first hole of the list. -/
def Lost (holes : Holes) : Prop :=
  r.reorderLimit ≤ r.blocksAbove holes ∨ r.byteThreshold < r.sackedAbove holes

def Marked (holes marked : Holes) : Prop :=
  ∀ i hole, marked[i]? = some hole → (hole.2.lost = true ↔ r.Lost (holes.drop i))

/-- The test of the walk, whose sums saturate. -/
def passes (holes : Holes) : Bool :=
  decide (r.reorderLimit ≤ Min.min (r.blocksAbove holes) U32_MAX) ||
    decide (r.byteThreshold < Min.min (r.sackedAbove holes) U32_MAX)

/-- What the walk decides about the first hole. -/
def judged : Holes → Bool
  | [] => false
  | [hole] => r.passes [hole]
  | _ :: next :: rest => r.passes (next :: rest)

def judgedHoles : Holes → Holes
  | [] => []
  | hole :: rest =>
    (hole.1, { hole.2 with lost := r.judged (hole :: rest) }) :: judgedHoles rest

variable {r} {hole hole' : TcpSeq × TcpScoreboardHole} {holes rest marked : Holes}

theorem Lost.below (h : r.Lost rest) : r.Lost (hole :: rest) := by
  cases rest with
  | nil => exact Or.inl ((h.resolve_right (Nat.not_lt_zero _)).trans (Nat.zero_le _))
  | cons next rest =>
    unfold Lost blocksAbove sackedAbove
    exact h.imp (fun h => by omega) fun h => by omega

theorem marked_cons : r.Marked (hole :: rest) (hole' :: marked) ↔
    (hole'.2.lost = true ↔ r.Lost (hole :: rest)) ∧ r.Marked rest marked := by
  constructor
  · exact fun h => ⟨h 0 hole' rfl, fun i x hx => h (i + 1) x hx⟩
  · rintro ⟨h0, h⟩ i x hx
    cases i with
    | zero => exact Option.some.inj hx ▸ h0
    | succ i => exact h i x hx

theorem trailingSacked_le : r.trailingSacked holes ≤ r.sackedAbove holes := by
  induction holes with
  | nil => exact le_rfl
  | cons hole rest ih =>
    cases rest with
    | nil => exact le_rfl
    | cons next rest => exact ih.trans (Nat.le_add_left _ _)

theorem Lost.of_passes (h : r.passes holes = true) : r.Lost holes := by
  simp only [passes, Bool.or_eq_true, decide_eq_true_eq] at h
  exact h.imp (fun h => by omega) fun h => by omega

theorem passes_of_trailing (h : r.byteThreshold < r.trailingSacked holes) :
    r.passes holes = true := by
  have hlt : r.trailingSacked holes ≤ U32_MAX := by
    unfold trailingSacked
    split
    · exact Nat.le_of_lt_succ (distanceTo_lt ..)
    · exact Nat.zero_le _
  have hle : r.trailingSacked holes ≤ r.sackedAbove holes := trailingSacked_le
  exact Bool.or_eq_true_iff.mpr (Or.inr (decide_eq_true (by omega)))

theorem lost_single : r.Lost [hole] ↔ r.byteThreshold < r.trailingSacked [hole] := by
  have hlimit := r.one_lt_limit
  have hb : r.blocksAbove [hole] ≤ 1 := by
    unfold blocksAbove
    split <;> omega
  exact ⟨fun h => h.resolve_left (by omega), fun h => .of_passes (passes_of_trailing h)⟩

theorem lossPass_spec (flight : Flight) (init : LossScan) : ∀ holes, holes ≠ [] →
    init = ⟨flight, [], r.trailingSacked holes, if r.trailingSacked holes = 0 then 0 else 1, none⟩ →
    let scan := holes.foldr (lossStep r.reorderLimit r.byteThreshold) init
    scan.holes = r.judgedHoles holes ∧ scan.sackedAhead = Min.min (r.sackedAbove holes) U32_MAX ∧
      scan.blocksAhead = Min.min (r.blocksAbove holes) U32_MAX ∧
      scan.higherStart = holes.head?.map Prod.fst := by
  intro holes
  induction holes with
  | nil => exact fun hne _ => absurd rfl hne
  | cons hole rest ih =>
    intro _ hinit
    cases rest with
    | nil =>
      have hlt := distanceTo_lt hole.2.endSeq r.highSacked
      have hb : Min.min (r.blocksAbove [hole]) U32_MAX = r.blocksAbove [hole] :=
        Nat.min_eq_left (by unfold blocksAbove; split <;> decide)
      have hs : Min.min (r.sackedAbove [hole]) U32_MAX = r.sackedAbove [hole] :=
        Nat.min_eq_left (by unfold sackedAbove U32_MAX; omega)
      subst hinit
      refine ⟨?_, hs.symm, hb.symm, rfl⟩
      simp only [judgedHoles, judged, passes, hb, hs]
      rfl
    | cons next rest =>
      obtain ⟨h1, h2, h3, h4⟩ := ih (List.cons_ne_nil _ _) hinit
      rw [List.foldr_cons]
      simp only [lossStep, h1, h2, h3, h4, List.head?_cons, Option.map_some, satAdd]
      refine ⟨rfl, ?_, ?_, trivial⟩
      · rw [sackedAbove]
        omega
      · rw [blocksAbove]
        omega

/-- The walk agrees with the rule just when all holes get the verdict of the highest one. -/
theorem judgedHoles_iff : ∀ holes, holes ≠ [] → (r.Marked holes (r.judgedHoles holes) ↔
    r.byteThreshold < r.trailingSacked holes ∨ ¬ r.Lost holes) := by
  intro holes
  induction holes with
  | nil => exact fun hne => absurd rfl hne
  | cons hole rest ih =>
    intro _
    rw [judgedHoles, marked_cons]
    cases rest with
    | nil =>
      refine iff_of_true ⟨⟨.of_passes, fun h => passes_of_trailing (lost_single.mp h)⟩, ?_⟩ ?_
      · exact fun i x hx => absurd hx (by simp [judgedHoles])
      · rw [lost_single]
        exact Decidable.em _
    | cons next rest =>
      have hsub := ih (List.cons_ne_nil _ _)
      constructor
      · rintro ⟨h0, h⟩
        exact (hsub.mp h).imp_right fun hno hyes => hno (.of_passes (h0.mpr hyes))
      · rintro (ht | hno)
        · have hnext : r.passes (next :: rest) = true := passes_of_trailing ht
          exact ⟨iff_of_true hnext (.below (.of_passes hnext)), hsub.mpr (Or.inl ht)⟩
        · have hno' := fun h => hno (Lost.below h)
          exact ⟨iff_of_false (fun h => hno' (.of_passes h)) hno, hsub.mpr (Or.inr hno')⟩

end LossRule

/-- The walk marks the holes by the rule exactly if the trailing run alone is above the byte
threshold, or all that is SACKed above the lowest hole is below both limits. -/
theorem loss_marked_by_rule_iff (s : TcpRecoveryState) (maxDatagramSize : ℕ) :
    let r := s.scoreboard.lossRule maxDatagramSize
    r.Marked s.scoreboard.holes (updateScoreboardLoss s maxDatagramSize).scoreboard.holes ↔
      s.scoreboard.holes = [] ∨ r.byteThreshold < r.trailingSacked s.scoreboard.holes ∨
        ¬ r.Lost s.scoreboard.holes := by
  intro r
  by_cases hnil : s.scoreboard.holes = []
  · refine iff_of_true (fun i hole h => ?_) (Or.inl hnil)
    simp [updateScoreboardLoss, refreshLostBytes, hnil] at h
  · rw [or_iff_right hnil, ← LossRule.judgedHoles_iff _ hnil,
      ← (LossRule.lossPass_spec s.flight _ _ hnil rfl).1]
    rfl

/-- With a datagram size of 1000, the 3500 bytes SACKed above the lower hole are more than the
threshold of 2000, but the walk has counted only the 500 above the higher hole. -/
theorem lower_hole_not_marked :
    let s : TcpRecoveryState := { TcpRecoveryState.new with
      scoreboard := { TcpScoreboard.new with
        holes := [(0, ⟨1000, false⟩), (4000, ⟨5000, false⟩)]
        highSacked := 5500 } }
    let r := s.scoreboard.lossRule 1000
    r.byteThreshold = 2000 ∧ r.sackedAbove s.scoreboard.holes = 3500 ∧
      (updateScoreboardLoss s 1000).scoreboard.holes = s.scoreboard.holes ∧
      ¬ r.Marked s.scoreboard.holes (updateScoreboardLoss s 1000).scoreboard.holes := by
  refine ⟨by decide, by decide, by decide, fun h => ?_⟩
  exact absurd ((h 0 (0, ⟨1000, false⟩) (by decide)).mpr (Or.inr (by decide))) (by decide)

end Recovery
