import Hammer.IntervalSet
import Hammer.StreamFifo

/-! # The out-of-order segments of a FIFO

`svm/fifo.rs` lists the segments written past the tail, in order and merged where they touch. The
linked pool is a list here and a segment its start and end. The positions of a FIFO of at most
`2 ^ 31` bytes compare as they do unwrapped.
-/
namespace StreamFifo

open IntervalSet List

abbrev OooSegment := ℕ × ℕ

/-- The loop that takes in the segments the one before them has reached. -/
def mergeFollowing (segment : OooSegment) : List OooSegment → List OooSegment
  | [] => [segment]
  | following :: rest =>
    if segment.2 < following.1 then segment :: following :: rest
    else mergeFollowing (segment.1, max segment.2 following.2) rest

/-- The walk stops at the first segment that reaches `start` or lies beyond it. -/
def insertOooSegment (start finish : ℕ) : List OooSegment → List OooSegment × Option OooSegment
  | [] => ([(start, finish)], some (start, finish))
  | segment :: rest =>
    if segment.2 < start then
      let (rest, newest) := insertOooSegment start finish rest
      (segment :: rest, newest)
    else if segment.1 ≤ start ∧ finish ≤ segment.2 then (segment :: rest, none)
    else
      -- a segment inserted before one it does not touch stays apart from it
      let merged := mergeFollowing (min start segment.1, finish) (segment :: rest)
      (merged, merged.head?)

/-- The segments after a write, and the one it made or extended. -/
def addOooSegment (start length : ℕ) (segments : List OooSegment) :
    List OooSegment × Option OooSegment :=
  if length = 0 then (segments, none) else insertOooSegment start (start + length) segments

def promoteContiguousFrom (tail : ℕ) : List OooSegment → ℕ × List OooSegment
  | [] => (tail, [])
  | segment :: rest =>
    if tail < segment.1 then (tail, segment :: rest)
    else promoteContiguousFrom (max tail segment.2) rest

theorem mergeFollowing_spec (segment : OooSegment) (rest : List OooSegment)
    (hne : segment.1 < segment.2) (hrest : Separated rest)
    (hle : ∀ s ∈ rest, segment.1 ≤ s.1) :
    ∃ finish later, mergeFollowing segment rest = (segment.1, finish) :: later ∧
      segment.2 ≤ finish ∧ Separated ((segment.1, finish) :: later) ∧
      ∀ i, Covers ((segment.1, finish) :: later) i ↔ Covers (segment :: rest) i := by
  induction rest generalizing segment with
  | nil => exact ⟨_, _, rfl, le_rfl, separated_singleton.mpr hne, fun _ => Iff.rfl⟩
  | cons s rest ih =>
    obtain ⟨hs, hafter, hrest'⟩ := separated_cons.mp hrest
    have hstart := hle s (by simp)
    unfold mergeFollowing
    split
    · next hgap =>
      refine ⟨_, _, rfl, le_rfl, separated_cons.mpr ⟨hne, fun t ht => ?_, hrest⟩, fun _ => Iff.rfl⟩
      rcases mem_cons.mp ht with rfl | ht
      · exact hgap
      · have := hafter t ht
        omega
    · obtain ⟨finish, later, hm, hfinish, hsep, hcov⟩ := ih (segment.1, max segment.2 s.2)
        (by dsimp only; omega) hrest' fun t ht => hle t (by simp [ht])
      refine ⟨finish, later, hm, by dsimp only at hfinish; omega, hsep, fun i => ?_⟩
      rw [hcov, covers_cons, covers_cons, covers_cons, ← or_assoc]
      refine or_congr_left ?_
      dsimp only
      omega

/-- What a write leaves of the segments. -/
structure Added (start finish : ℕ) (segments : List OooSegment)
    (r : List OooSegment × Option OooSegment) : Prop where
  separated : Separated r.1
  covers : ∀ i, Covers r.1 i ↔ start ≤ i ∧ i < finish ∨ Covers segments i
  newest : ∀ s ∈ r.2, s ∈ r.1 ∧ s.1 ≤ start ∧ finish ≤ s.2
  none : r.2 = none ↔ ∀ i, start ≤ i → i < finish → Covers segments i

theorem insertOooSegment_added {start finish : ℕ} (hne : start < finish)
    {segments : List OooSegment} (h : Separated segments) :
    Added start finish segments (insertOooSegment start finish segments) := by
  induction segments with
  | nil =>
    refine ⟨separated_singleton.mpr hne, fun i => by simp [insertOooSegment, covers_cons, not_covers_nil],
      by simp [insertOooSegment], ?_⟩
    exact iff_of_false (by simp [insertOooSegment]) fun hc => not_covers_nil (hc start le_rfl hne)
  | cons s rest ih =>
    obtain ⟨hs, hafter, hrest⟩ := separated_cons.mp h
    unfold insertOooSegment
    split_ifs with hbefore hin
    · have r := ih hrest
      refine ⟨separated_cons.mpr ⟨hs, fun t ht => ?_, r.separated⟩, fun i => ?_, fun t ht => ?_, ?_⟩
      · rcases (r.covers t.1).mp (r.separated.covers_start ht) with hi | hi
        · omega
        · exact (h.covers_tail.mp hi).2
      · rw [covers_cons, r.covers, covers_cons, or_left_comm]
      · obtain ⟨hmem, hle⟩ := r.newest t ht
        exact ⟨mem_cons_of_mem _ hmem, hle⟩
      · refine r.none.trans (forall₃_congr fun i hi _ => ?_)
        rw [covers_cons, or_iff_right (by omega)]
    · have hall (i : ℕ) (h1 : start ≤ i) (h2 : i < finish) : Covers (s :: rest) i :=
        covers_cons.mpr (Or.inl ⟨by omega, by omega⟩)
      exact ⟨h, fun i => ⟨Or.inr, fun hi => hi.elim (fun hi => hall i hi.1 hi.2) id⟩, by simp,
        iff_of_true rfl hall⟩
    · obtain ⟨e, later, hm, he, hsep, hcov⟩ := mergeFollowing_spec (min start s.1, finish)
        (s :: rest) (by dsimp only; omega) h
        fun t ht => (min_le_right ..).trans (h.least (h.covers_start ht))
      simp only [hm]
      refine ⟨hsep, fun i => ?_, by simp; omega, iff_of_false (by simp) fun hc => ?_⟩
      · rw [hcov, covers_cons, covers_cons, ← or_assoc, ← or_assoc]
        exact or_congr_left (by dsimp only; omega)
      · by_cases hstart : s.1 ≤ start
        · exact h.not_covers_end (hc s.2 (by omega) (by omega))
        · have := h.least (hc start le_rfl hne)
          omega

theorem addOooSegment_added (start length : ℕ) {segments : List OooSegment}
    (h : Separated segments) :
    Added start (start + length) segments (addOooSegment start length segments) := by
  unfold addOooSegment
  split
  · exact ⟨h, fun i => (or_iff_right (by omega)).symm, by simp, iff_of_true rfl fun i _ _ => by omega⟩
  · exact insertOooSegment_added (by omega) h

/-- What promotion from `tail` leaves of the segments. -/
structure Promoted (tail : ℕ) (segments : List OooSegment) (r : ℕ × List OooSegment) : Prop where
  le : tail ≤ r.1
  separated : Separated r.2
  covers : ∀ i, Covers r.2 i ↔ r.1 ≤ i ∧ Covers segments i
  passed : ∀ i, tail ≤ i → i < r.1 → Covers segments i
  gap : ¬Covers segments r.1

theorem promoteContiguousFrom_promoted (tail : ℕ) {segments : List OooSegment}
    (h : Separated segments) : Promoted tail segments (promoteContiguousFrom tail segments) := by
  induction segments generalizing tail with
  | nil =>
    exact ⟨le_rfl, h, fun i => iff_of_false not_covers_nil fun hc => not_covers_nil hc.2,
      fun i h1 h2 => absurd h1 (Nat.not_le.mpr h2), not_covers_nil⟩
  | cons s rest ih =>
    unfold promoteContiguousFrom
    split
    · next hlt =>
      have hbeyond {i : ℕ} (hc : Covers (s :: rest) i) : tail < i := hlt.trans_le (h.least hc)
      exact ⟨le_rfl, h, fun i => ⟨fun hc => ⟨(hbeyond hc).le, hc⟩, And.right⟩,
        fun i h1 h2 => absurd h1 (Nat.not_le.mpr h2), fun hc => (hbeyond hc).ne rfl⟩
    · next hle =>
      have r := ih (max tail s.2) (separated_cons.mp h).2.2
      have hmax := r.le
      refine ⟨by omega, r.separated, fun i => ?_, fun i h1 h2 => ?_, fun hc => r.gap ?_⟩
      · rw [r.covers, covers_cons]
        refine and_congr_right fun hi => (or_iff_right ?_).symm
        omega
      · by_cases hi : i < max tail s.2
        · exact covers_cons.mpr (Or.inl (by omega))
        · exact covers_cons.mpr (Or.inr (r.passed i (by omega) h2))
      · exact (covers_cons.mp hc).resolve_left (by omega)

/-- A position next to a segment is in it or in none. -/
theorem covers_near {segments : List OooSegment} (h : Separated segments) {s : OooSegment}
    (hs : s ∈ segments) {i : ℕ} (hc : Covers segments i) (h1 : s.1 ≤ i + 1) (h2 : i ≤ s.2) :
    s.1 ≤ i ∧ i < s.2 := by
  obtain ⟨t, ht, hi⟩ := hc
  by_cases hts : t = s
  · exact hts ▸ hi
  · have hpair : segments.Pairwise fun t s => t.2 < s.1 ∨ s.2 < t.1 := h.apart.imp Or.inl
    have : Std.Symm fun t s : OooSegment => t.2 < s.1 ∨ s.2 < t.1 := ⟨fun _ _ => Or.symm⟩
    have := hpair.forall ht hs hts
    omega

variable {α : Type*}

theorem runStart_eq {cell : ℕ → Option α} {first i : ℕ} (hle : first < i)
    (hfilled : ∀ j, first < j → j < i → (cell j).isSome) (hgap : ¬(cell first).isSome) :
    runStart cell i = first + 1 := by
  induction i with
  | zero => omega
  | succ i ih =>
    unfold runStart
    split
    · next hi =>
      have hne : first ≠ i := fun e => hgap (e ▸ hi)
      exact ih (by omega) fun j h1 h2 => hfilled j h1 (by omega)
    · next hi =>
      by_contra hne
      exact hi (hfilled i (by omega) (by omega))

theorem runEnd_eq {cell : ℕ → Option α} {fuel i last : ℕ} (hle : i ≤ last)
    (hfilled : ∀ j, i ≤ j → j < last → (cell j).isSome) (hgap : ¬(cell last).isSome)
    (hend : cell (i + fuel) = none) : runEnd cell fuel i = last := by
  rcases lt_trichotomy (runEnd cell fuel i) last with hlt | heq | hlt
  · have := hfilled _ (le_runEnd cell fuel i) hlt
    rw [gap_runEnd cell hend] at this
    cases this
  · exact heq
  · exact absurd (filled_of_lt_runEnd cell hle hlt) hgap

/-- `fifo.rs` with its segments; the bytes of the chunks are found by position. -/
structure SvmFifo (α : Type*) where
  size : ℕ
  head : ℕ
  tail : ℕ
  byte : ℕ → Option α
  oooSegments : List OooSegment

namespace SvmFifo

def maxEnqueue (c : SvmFifo α) : ℕ := c.size - (c.tail - c.head)

def enqueueInOrder (c : SvmFifo α) (backed : ℕ) (bytes : List α) : SvmFifo α × ℕ × ℕ :=
  let toWrite := min (min bytes.length c.maxEnqueue) backed
  if toWrite = 0 then (c, 0, 0)
  else
    let newTail := c.tail + toWrite
    let (finalTail, segments) := promoteContiguousFrom newTail c.oooSegments
    ({ c with
      tail := finalTail
      byte := fill c.byte c.tail (bytes.take toWrite)
      oooSegments := segments }, toWrite, finalTail - newTail)

def enqueueOoo (c : SvmFifo α) (backed offset : ℕ) (bytes : List α) :
    Except FifoError (SvmFifo α × OooResult) :=
  if offset = 0 then
    let (c, accepted, delivered) := c.enqueueInOrder backed bytes
    .ok (c, ⟨accepted, delivered, none⟩)
  else if offset + bytes.length ≤ c.maxEnqueue then
    if offset + bytes.length ≤ backed then
      let start := c.tail + offset
      let (segments, newest) := addOooSegment start bytes.length c.oooSegments
      .ok ({ c with byte := fill c.byte start bytes, oooSegments := segments },
        ⟨bytes.length, 0, newest.map fun s => (s.1 - c.tail, s.2 - s.1)⟩)
    else .error .segmentExhausted
  else .error .outOfOrderCapacityExceeded

def dropDequeue (c : SvmFifo α) (length : ℕ) : SvmFifo α :=
  { c with head := c.head + min length (c.tail - c.head) }

end SvmFifo

/-- The segments list what is filled from the tail on. -/
structure Refines (c : SvmFifo α) (f : StreamFifo α) : Prop where
  size : c.size = f.size
  head : c.head = f.head
  tail : c.tail = f.tail
  byte : c.byte = f.cell
  separated : Separated c.oooSegments
  covers : ∀ i, Covers c.oooSegments i ↔ f.tail ≤ i ∧ (f.cell i).isSome

variable {c : SvmFifo α} {f : StreamFifo α} {bytes : List α}

theorem Refines.maxEnqueue (h : Refines c f) : c.maxEnqueue = f.maxEnqueue := by
  rw [SvmFifo.maxEnqueue, h.size, h.tail, h.head]
  rfl

theorem Promoted.append {newTail : ℕ} {r : ℕ × List OooSegment} (h : Refines c f)
    (bytes : List α) (hb : bytes.length ≤ f.maxEnqueue) (hnew : newTail = f.tail + bytes.length)
    (p : Promoted newTail c.oooSegments r) :
    r.1 = (f.append bytes hb).tail ∧
      Refines ⟨c.size, c.head, r.1, fill c.byte c.tail bytes, r.2⟩ (f.append bytes hb) := by
  subst hnew
  have hle := p.le
  have hcell {i : ℕ} (hi : f.tail + bytes.length ≤ i) : (f.append bytes hb).cell i = f.cell i :=
    fill_outside (by omega)
  have htail : (f.append bytes hb).tail = r.1 := by
    have hroom := f.tail_add_maxEnqueue
    refine runEnd_eq hle (fun i h1 h2 => ?_) (fun hsome => p.gap ?_) ?_
    · exact fill_isSome ((h.covers i).mp (p.passed i h1 h2)).2
    · rw [fill_outside (by omega)] at hsome
      exact (h.covers _).mpr ⟨by omega, hsome⟩
    · rw [fill_outside (by omega)]
      exact f.bounded _ (by omega)
  refine ⟨htail.symm, h.size, h.head, htail.symm, ?_, p.separated, fun i => ?_⟩
  · rw [h.byte, h.tail]
    rfl
  · rw [p.covers, h.covers, htail]
    refine and_congr_right fun hi => ?_
    rw [hcell (by omega), and_iff_right (by omega)]

theorem Refines.enqueueInOrder (h : Refines c f) (backed : ℕ) (bytes : List α) :
    Refines (c.enqueueInOrder backed bytes).1 (f.enqueueInOrder backed bytes).1 ∧
      (c.enqueueInOrder backed bytes).2 = (f.enqueueInOrder backed bytes).2 := by
  unfold SvmFifo.enqueueInOrder StreamFifo.enqueueInOrder
  rw [h.maxEnqueue]
  dsimp only
  split
  · exact ⟨h, rfl⟩
  · have p := promoteContiguousFrom_promoted
      (c.tail + min (min bytes.length f.maxEnqueue) backed) h.separated
    obtain ⟨htail, hr⟩ := p.append h (bytes.take (min (min bytes.length f.maxEnqueue) backed))
      (by rw [length_take]; omega) (by rw [h.tail, length_take]; omega)
    exact ⟨hr, by rw [htail, h.tail]⟩

theorem Refines.place (h : Refines c f) {offset : ℕ} (h0 : offset ≠ 0)
    (hb : offset + bytes.length ≤ f.maxEnqueue) {r : List OooSegment × Option OooSegment}
    (a : Added (c.tail + offset) (c.tail + offset + bytes.length) c.oooSegments r) :
    Refines { c with
      byte := fill c.byte (c.tail + offset) bytes
      oooSegments := r.1 } (f.place offset bytes h0 hb) := by
  refine ⟨h.size, h.head, h.tail, ?_, a.separated, fun i => ?_⟩
  · rw [h.byte, h.tail]
    rfl
  · change _ ↔ f.tail ≤ i ∧ (fill f.cell (f.tail + offset) bytes i).isSome
    rw [a.covers, h.covers, h.tail]
    by_cases hin : f.tail + offset ≤ i ∧ i < f.tail + offset + bytes.length
    · exact iff_of_true (Or.inl hin) ⟨by omega, fill_isSome_inside hin.1 hin.2⟩
    · rw [or_iff_right hin, fill_outside (by omega)]

/-- A segment is a whole run of filled cells. -/
theorem Refines.runs (h : Refines c f) {s : OooSegment} (hs : s ∈ c.oooSegments) {i fuel : ℕ}
    (h1 : s.1 ≤ i) (h2 : i ≤ s.2) (hend : f.cell (i + fuel) = none) :
    runStart f.cell i = s.1 ∧ runEnd f.cell fuel i = s.2 := by
  have hfilled (j : ℕ) (hj : s.1 ≤ j) (hj' : j < s.2) : f.tail ≤ j ∧ (f.cell j).isSome :=
    (h.covers j).mp ⟨s, hs, hj, hj'⟩
  have hgap (j : ℕ) (hj : f.tail ≤ j) (hout : j + 1 = s.1 ∨ j = s.2) : ¬(f.cell j).isSome := by
    intro hsome
    have := covers_near h.separated hs ((h.covers j).mpr ⟨hj, hsome⟩) (by omega) (by omega)
    omega
  obtain ⟨htail, hfirst⟩ := hfilled s.1 le_rfl (h.separated.nonempty s hs)
  have hne : f.tail ≠ s.1 := by
    intro e
    rw [← e, f.gap] at hfirst
    cases hfirst
  obtain ⟨a, ha⟩ : ∃ a, s.1 = a + 1 := ⟨s.1 - 1, by omega⟩
  constructor
  · rw [ha]
    exact runStart_eq (by omega) (fun j h1 h2 => (hfilled j (by omega) (by omega)).2)
      (hgap a (by omega) (Or.inl ha.symm))
  · exact runEnd_eq h2 (fun j h1 h2 => (hfilled j (by omega) h2).2)
      (hgap s.2 (by omega) (Or.inr rfl)) hend

theorem Refines.newest (h : Refines c f) {offset : ℕ} (h0 : offset ≠ 0)
    (hb : offset + bytes.length ≤ f.maxEnqueue) {r : List OooSegment × Option OooSegment}
    (a : Added (c.tail + offset) (c.tail + offset + bytes.length) c.oooSegments r)
    (hr : Refines { c with
      byte := fill c.byte (c.tail + offset) bytes
      oooSegments := r.1 } (f.place offset bytes h0 hb)) :
    r.2.map (fun s => (s.1 - c.tail, s.2 - s.1)) =
      f.newestAfter offset bytes.length (f.place offset bytes h0 hb).cell := by
  rw [h.tail] at a
  have hall : ((range' (f.tail + offset) bytes.length).all fun i => (f.cell i).isSome) = true ↔
      r.2 = none := by
    rw [a.none, all_eq_true]
    refine forall_congr' fun i => ?_
    rw [mem_range'_1, h.covers]
    exact ⟨fun hi h1 h2 => ⟨by omega, hi ⟨h1, h2⟩⟩, fun hi hin => (hi hin.1 hin.2).2⟩
  unfold newestAfter
  cases hs : r.2 with
  | none =>
    rw [if_pos (hall.mpr hs)]
    rfl
  | some s =>
    obtain ⟨hmem, hle, hge⟩ := a.newest s hs
    have hroom := f.tail_add_maxEnqueue
    obtain ⟨hstart, hend⟩ := hr.runs hmem hle (by omega) ((f.place offset bytes h0 hb).bounded
      (f.tail + offset + (f.maxEnqueue - offset)) (show f.head + f.size ≤ _ by omega))
    rw [if_neg (by rw [hall, hs]; nofun), hstart, hend, h.tail]
    rfl

theorem Refines.enqueueOoo (h : Refines c f) (backed offset : ℕ) (bytes : List α) :
    (∃ error, c.enqueueOoo backed offset bytes = .error error ∧
      f.enqueueOoo backed offset bytes = .error error) ∨
    ∃ c' f' r, c.enqueueOoo backed offset bytes = .ok (c', r) ∧
      f.enqueueOoo backed offset bytes = .ok (f', r) ∧ Refines c' f' := by
  unfold SvmFifo.enqueueOoo StreamFifo.enqueueOoo
  rw [h.maxEnqueue]
  split
  · obtain ⟨hr, heq⟩ := h.enqueueInOrder backed bytes
    rcases hc : c.enqueueInOrder backed bytes with ⟨c', accepted, delivered⟩
    rcases hf : f.enqueueInOrder backed bytes with ⟨f', x⟩
    rw [hc, hf] at hr heq
    subst heq
    exact Or.inr ⟨c', f', _, rfl, rfl, hr⟩
  · next h0 =>
    split
    · next hb =>
      split
      · have a := addOooSegment_added (c.tail + offset) bytes.length h.separated
        have hr := h.place h0 hb a
        refine Or.inr ⟨_, _, _, rfl, ?_, hr⟩
        dsimp only
        rw [← h.newest h0 hb a hr]
        rfl
      · exact Or.inl ⟨_, rfl, rfl⟩
    · exact Or.inl ⟨_, rfl, rfl⟩

theorem Refines.dropDequeue (h : Refines c f) (length : ℕ) :
    Refines (c.dropDequeue length) (f.dropDequeue length) := by
  refine { h with head := ?_ }
  simp only [SvmFifo.dropDequeue, h.head, h.tail]
  rfl

/-- The states of a FIFO of this size; a call that fails changes nothing. -/
inductive SvmFifo.Reached (size : ℕ) : SvmFifo α → Prop
  | new : Reached size ⟨size, 0, 0, fun _ => none, []⟩
  | enqueueOoo {c c' : SvmFifo α} {backed offset : ℕ} {bytes : List α} {r : OooResult}
      (h : Reached size c) (ok : c.enqueueOoo backed offset bytes = .ok (c', r)) : Reached size c'
  | dropDequeue {c : SvmFifo α} (h : Reached size c) (length : ℕ) :
      Reached size (c.dropDequeue length)

theorem SvmFifo.Reached.refines {size : ℕ} (h : Reached size c) :
    ∃ f : StreamFifo α, Refines c f := by
  induction h with
  | new =>
    refine ⟨empty size, rfl, rfl, rfl, rfl, separated_nil, fun i => ?_⟩
    exact iff_of_false not_covers_nil fun hi => Bool.false_ne_true hi.2
  | @enqueueOoo c c' backed offset bytes r _ ok ih =>
    obtain ⟨f, hf⟩ := ih
    rcases hf.enqueueOoo backed offset bytes with ⟨_, he, -⟩ | ⟨_, f', _, he, -, hr⟩ <;>
      rw [he] at ok <;> cases ok
    exact ⟨f', hr⟩
  | dropDequeue _ length ih =>
    obtain ⟨f, hf⟩ := ih
    exact ⟨_, hf.dropDequeue length⟩

end StreamFifo
