import Hammer.TcpConnection
import Mathlib.Data.List.Chain

/-! # Local timestamps

The timestamps a connection sends and the round-trip times it reads off their echoes, from
`transport/tcp/src/connection.rs`. Where the clock has not passed the last timestamp, the next one
is the number after it, so that a burst runs ahead of the clock.
-/

namespace Tcp

open Recovery
open TcpConnection (MILLISECOND)

/-- The local part of `TcpTimestampState`. -/
structure LocalTimestamps where
  localOrigin : Option Instant
  lastLocal : TcpSeq

namespace LocalTimestamps

def positive (x : TcpSeq) : TcpSeq := if x = 0 then 1 else x

def millisSince (origin now : Instant) : ℕ := (now - origin) / MILLISECOND

variable (s : LocalTimestamps) (now : Instant)

def origin : Instant := s.localOrigin.getD now

def clock : TcpSeq := BitVec.ofNat 32 (millisSince (s.origin now) now)

def localTimestampValue : LocalTimestamps × TcpSeq :=
  let tsval := positive (s.clock now)
  ({ s with localOrigin := some (s.origin now) },
    if tsval.le s.lastLocal then positive (s.lastLocal + 1) else tsval)

/-- The echo that the timestamp carries besides is left out. -/
def nextLocalTimestamp (enabled : Bool) : LocalTimestamps × Option TcpSeq :=
  if !enabled then (s, none)
  else
    let r := s.localTimestampValue now
    ({ r.1 with lastLocal := r.2 }, some r.2)

/-- `tsecr` is the echo in the timestamp of a packet that has one. -/
def timestampRttSample (timestamps : Bool) (tsecr : Option TcpSeq) :
    LocalTimestamps × Option Duration :=
  if !timestamps then (s, none)
  else match tsecr with
    | none => (s, none)
    | some tsecr =>
      if tsecr = 0 then (s, none)
      else
        let r := s.localTimestampValue now
        if tsecr.gt r.2 then (r.1, none)
        else (r.1, some (max (r.2 - tsecr).toNat 1 * MILLISECOND))

/-- The clock is ahead of the last timestamp, or has reached it and the number after it is not
zero. -/
def Current : Prop :=
  (positive (s.clock now)).gt s.lastLocal = true ∨
    s.clock now = s.lastLocal ∧ s.lastLocal ≠ 0 ∧ s.lastLocal + 1 ≠ 0

def Passed : Prop := s.clock now ≠ 0 ∧ (s.clock now).gt s.lastLocal = true

/-- A connection with the segments it sent, the newest first, and the time of its last call. -/
inductive Reaches (ok : LocalTimestamps → Instant → Prop) :
    LocalTimestamps → List (Instant × TcpSeq) → Instant → Prop
  | new (start : Instant) : Reaches ok ⟨none, 0⟩ [] start
  | send {s s' sent last now tsval} (h : Reaches ok s sent last) (hle : last ≤ now)
      (hok : ok s now) (hs : s.nextLocalTimestamp now true = (s', some tsval)) :
      Reaches ok s' ((now, tsval) :: sent) now
  | receive {s sent last now} (tsecr : Option TcpSeq) (h : Reaches ok s sent last)
      (hle : last ≤ now) : Reaches ok (s.timestampRttSample now true tsecr).1 sent now

variable {s now} {sent : List (Instant × TcpSeq)} {last o : Instant} {n : ℕ} {x y : TcpSeq}

theorem gt_iff_not_le : x.gt y = true ↔ ¬x.le y = true := by
  rw [TcpSeq.gt_eq_not_le, Bool.not_eq_true', Bool.not_eq_true]

theorem gt_iff : x.gt y = true ↔ 0 < y.distanceTo x ∧ y.distanceTo x < 2147483648 := by
  rw [gt_iff_not_le, TcpSeq.le_iff]
  omega

theorem positive_of_ne (h : x ≠ 0) : positive x = x := if_neg h

theorem localTimestampValue_gt : (s.localTimestampValue now).2.gt s.lastLocal = true := by
  simp only [localTimestampValue]
  split_ifs with h
  · rw [gt_iff, positive]
    unfold TcpSeq.distanceTo
    split_ifs <;> bv_omega
  · exact gt_iff_not_le.mpr h

theorem timestampRttSample_state (s : LocalTimestamps) (now : Instant) (tsecr : Option TcpSeq) :
    (s.timestampRttSample now true tsecr).1 = s ∨
      (s.timestampRttSample now true tsecr).1 = { s with localOrigin := some (s.origin now) } := by
  cases tsecr with
  | none => exact .inl rfl
  | some tsecr =>
    simp only [timestampRttSample, Bool.not_true, Bool.false_eq_true, if_false]
    split_ifs
    · exact .inl rfl
    · exact .inr rfl
    · exact .inr rfl

/-- The sample of a connection whose packet comes with what its local timestamps read off. -/
theorem timestampRttSample_connection {C : Type} (c : TcpConnection C) (p : TcpPacket)
    (tsecr : TcpSeq) (hstamped : p.timestamp.isSome = true)
    (hsample : p.timestampRtt = (s.timestampRttSample now true (some tsecr)).2) :
    c.timestampRttSample p =
      (s.timestampRttSample now c.negotiatedOptions.timestamps (some tsecr)).2 := by
  rw [TcpConnection.timestampRttSample, hstamped, hsample, Bool.and_true]
  cases c.negotiatedOptions.timestamps <;> rfl

theorem Reaches.increasing {ok : LocalTimestamps → Instant → Prop} (h : Reaches ok s sent last) :
    (sent.IsChain fun p q => p.2.gt q.2 = true) ∧ ∀ p ∈ sent.head?, p.2 = s.lastLocal := by
  induction h with
  | new => exact ⟨.nil, by simp⟩
  | @send s s' sent last now tsval _ _ _ hs ih =>
    obtain ⟨rfl, rfl⟩ : _ = s' ∧ _ = tsval := by simpa [nextLocalTimestamp] using hs
    refine ⟨ih.1.cons fun q hq => ?_, by simp⟩
    rw [ih.2 q hq]
    exact localTimestampValue_gt
  | @receive s sent last now tsecr _ _ ih =>
    rcases timestampRttSample_state s now tsecr with h | h
    · rw [h]
      exact ih
    · rw [h]
      exact ih

/-- At `now` the last timestamp is `n`. No timestamp was ahead of the clock by more than one. -/
structure Tracks (s : LocalTimestamps) (sent : List (Instant × TcpSeq)) (now o : Instant) (n : ℕ) :
    Prop where
  origin : s.origin now = o
  started : o ≤ now
  last : s.lastLocal = BitVec.ofNat 32 n
  lead : n ≤ millisSince o now + 1
  sent : ∀ p ∈ sent, o ≤ p.1 ∧ p.1 ≤ now ∧ p.2 ≠ 0 ∧ ∃ m ≤ n, p.2 = BitVec.ofNat 32 m ∧
    millisSince o p.1 ≤ m ∧ m ≤ millisSince o p.1 + 1

theorem Tracks.later {later : Instant} (h : Tracks s sent now o n) (hle : now ≤ later) :
    Tracks { s with localOrigin := some o } sent later o n where
  origin := rfl
  started := h.started.trans hle
  last := h.last
  lead := by
    have hmono : millisSince o now ≤ millisSince o later :=
      Nat.div_le_div_right (Nat.sub_le_sub_right hle o)
    exact h.lead.trans (by omega)
  sent p hp := by
    obtain ⟨h1, h2, h3⟩ := h.sent p hp
    exact ⟨h1, h2.trans hle, h3⟩

theorem distanceTo_ofNat {m : ℕ} (hle : m ≤ n) (hlt : n - m < 4294967296) :
    TcpSeq.distanceTo (BitVec.ofNat 32 m) (BitVec.ofNat 32 n) = n - m := by
  unfold TcpSeq.distanceTo
  bv_omega

theorem Tracks.lt_of_gt (h : Tracks s sent now o n) (hgt : (s.clock now).gt s.lastLocal = true) :
    n < millisSince o now := by
  have hlead := h.lead
  rw [clock, h.origin, h.last, gt_iff] at hgt
  unfold TcpSeq.distanceTo at hgt
  bv_omega

theorem Tracks.send (h : Tracks s sent now o n) (hc : s.Current now) :
    ∃ m, Tracks ⟨some o, (s.localTimestampValue now).2⟩
      ((now, (s.localTimestampValue now).2) :: sent) now o m := by
  have hclock : s.clock now = BitVec.ofNat 32 (millisSince o now) := by rw [clock, h.origin]
  obtain ⟨m, hm, hv, hlo, hhi, hne⟩ : ∃ m, n ≤ m ∧
      (s.localTimestampValue now).2 = BitVec.ofNat 32 m ∧ millisSince o now ≤ m ∧
      m ≤ millisSince o now + 1 ∧ (s.localTimestampValue now).2 ≠ 0 := by
    have hlead := h.lead
    simp only [localTimestampValue]
    rcases hc with hgt | ⟨heq, hzero, hnext⟩
    · rw [if_neg (gt_iff_not_le.mp hgt)]
      by_cases hc : s.clock now = 0
      · refine ⟨millisSince o now + 1, hlead, ?_, by omega, le_rfl, by rw [hc]; decide⟩
        rw [BitVec.ofNat_add, ← hclock, hc]
        rfl
      · rw [positive_of_ne hc] at hgt ⊢
        exact ⟨_, (h.lt_of_gt hgt).le, hclock, le_rfl, by omega, hc⟩
    · have hle : (positive (s.clock now)).le s.lastLocal = true := by
        rw [positive_of_ne (heq ▸ hzero), heq, TcpSeq.le_iff]
        exact .inl (TcpSeq.distanceTo_self _)
      rw [if_pos hle, positive_of_ne hnext]
      refine ⟨millisSince o now + 1, hlead, ?_, by omega, le_rfl, hnext⟩
      rw [BitVec.ofNat_add, ← hclock, heq]
      rfl
  refine ⟨m, rfl, h.started, hv, hhi, fun p hp => ?_⟩
  rcases List.mem_cons.mp hp with rfl | hp
  · exact ⟨h.started, le_rfl, hne, m, le_rfl, hv, hlo, hhi⟩
  · obtain ⟨h1, h2, h3, k, hk, h4⟩ := h.sent p hp
    exact ⟨h1, h2, h3, k, hk.trans hm, h4⟩

theorem Reaches.tracks (h : Reaches Current s sent last) :
    ∀ now, last ≤ now → ∃ o n, Tracks s sent now o n := by
  induction h with
  | new => exact fun now _ => ⟨now, 0, rfl, le_rfl, rfl, Nat.zero_le _, by simp⟩
  | @send s s' sent last now tsval _ hle hok hs ih =>
    intro later hlater
    obtain ⟨rfl, rfl⟩ : _ = s' ∧ _ = tsval := by simpa [nextLocalTimestamp] using hs
    obtain ⟨o, n, ht⟩ := ih now hle
    obtain ⟨m, hm⟩ := ht.send hok
    exact ⟨o, m, ht.origin ▸ hm.later hlater⟩
  | @receive s sent last now tsecr _ hle ih =>
    intro later hlater
    rcases timestampRttSample_state s now tsecr with h | h
    · rw [h]
      exact ih later (hle.trans hlater)
    · obtain ⟨o, n, ht⟩ := ih now hle
      rw [h, ht.origin]
      exact ⟨o, n, ht.later hlater⟩

/-- Two spans of time lose a millisecond at most to rounding. -/
theorem millisSince_split {o t now : ℕ} (h1 : o ≤ t) (h2 : t ≤ now) :
    millisSince o t + millisSince t now ≤ millisSince o now ∧
      millisSince o now ≤ millisSince o t + millisSince t now + 1 := by
  unfold millisSince MILLISECOND
  omega

theorem Tracks.sample (h : Tracks s sent now o n) (hc : s.Passed now) {p : Instant × TcpSeq}
    (hp : p ∈ sent) (hage : millisSince p.1 now < 2147483647) :
    ∃ ms : ℕ, (s.timestampRttSample now true (some p.2)).2 = some (ms * MILLISECOND) ∧ 1 ≤ ms ∧
      ms ≤ millisSince p.1 now + 1 ∧ millisSince p.1 now ≤ ms + 1 := by
  obtain ⟨hzero, hgt⟩ := hc
  obtain ⟨h1, h2, h3, m, hm, hv, hlo, hhi⟩ := h.sent p hp
  have hlt := h.lt_of_gt hgt
  have hclock : s.clock now = BitVec.ofNat 32 (millisSince o now) := by rw [clock, h.origin]
  have hvalue : (s.localTimestampValue now).2 = s.clock now := by
    simp only [localTimestampValue]
    rw [positive_of_ne hzero, if_neg (gt_iff_not_le.mp hgt)]
  have hspan := millisSince_split h1 h2
  have hdist : p.2.distanceTo (s.clock now) = millisSince o now - m := by
    rw [hv, hclock]
    exact distanceTo_ofNat (by omega) (by omega)
  have hecho : ¬p.2.gt (s.clock now) = true := by
    rw [gt_iff]
    unfold TcpSeq.distanceTo at *
    bv_omega
  refine ⟨millisSince o now - m, ?_, by omega, by omega, by omega⟩
  simp only [timestampRttSample, Bool.not_true, Bool.false_eq_true, if_false]
  rw [if_neg h3, hvalue, if_neg hecho, show (s.clock now - p.2).toNat = _ from hdist,
    max_eq_left (by omega)]

/-- Every timestamp is ahead of the one before. As long as no segment is sent before the clock has
come up to the last timestamp, an echo that arrives after it has passed the last one gives the
milliseconds since the segment was sent, up to one. -/
theorem timestamp_samples_measure_time (s : LocalTimestamps) (sent : List (Instant × TcpSeq))
    (last : Instant) :
    (Reaches (fun _ _ => True) s sent last → sent.IsChain fun p q => p.2.gt q.2 = true) ∧
    (Reaches Current s sent last → ∀ p ∈ sent, ∀ now, last ≤ now → s.Passed now →
      millisSince p.1 now < 2147483647 →
      ∃ ms : ℕ, (s.timestampRttSample now true (some p.2)).2 = some (ms * MILLISECOND) ∧ 1 ≤ ms ∧
        ms ≤ millisSince p.1 now + 1 ∧ millisSince p.1 now ≤ ms + 1) := by
  refine ⟨fun h => h.increasing.1, fun h p hp now hle hpassed hage => ?_⟩
  obtain ⟨o, n, ht⟩ := h.tracks now hle
  exact ht.sample hpassed hp hage

theorem timestamp_samples_measure_time_ten_millis :
    ∃ ms : ℕ, (timestampRttSample ⟨some 0, 1⟩ 10000000 true (some 1)).2 = some (ms * MILLISECOND) ∧
      1 ≤ ms ∧ ms ≤ millisSince 0 10000000 + 1 ∧ millisSince 0 10000000 ≤ ms + 1 :=
  (timestamp_samples_measure_time ⟨some 0, 1⟩ [(0, 1)] 0).2
    (.send (.new 0) le_rfl (.inl (by decide)) rfl) (0, 1) (List.mem_singleton_self _) 10000000
    (Nat.zero_le _) ⟨by decide, by decide⟩ (by decide)

/-- The last of three segments sent at once is acknowledged after 50 milliseconds. -/
theorem burst_sample_too_short :
    Reaches (fun _ _ => True) ⟨some 0, 3⟩ [(0, 3), (0, 2), (0, 1)] 0 ∧
    millisSince 0 50000000 = 50 ∧
    (timestampRttSample ⟨some 0, 3⟩ 50000000 true (some 3)).2 = some (47 * MILLISECOND) := by
  refine ⟨?_, by decide, by decide⟩
  have h1 : Reaches (fun _ _ => True) ⟨some 0, 1⟩ [(0, 1)] 0 :=
    .send (.new 0) le_rfl trivial rfl
  have h2 : Reaches (fun _ _ => True) ⟨some 0, 2⟩ [(0, 2), (0, 1)] 0 :=
    .send h1 le_rfl trivial rfl
  exact .send h2 le_rfl trivial rfl

end LocalTimestamps

end Tcp
