import Hammer.SackLedger

/-! # Runs of the SACK receiver

Histories are lists of reports, the latest first. The blocks of the state are the reported
positions that are neither delivered nor forgotten.
-/
namespace SackState

open LinkedRing OrderedMap TcpSeq List

def Report.wrap (c : Report ℤ) : Report TcpSeq :=
  ⟨TcpSeq.wrap c.rcvNxt, TcpSeq.wrap c.left, TcpSeq.wrap c.right⟩

def run : List (Report TcpSeq) → TcpSackState
  | [] => .default
  | c :: older => updateRange (run older) true c.rcvNxt c.left c.right

/-- The blocks after a history, most recently updated first. -/
def ledger : List (Report ℤ) → List Block
  | [] => []
  | c :: older => (merge older.length (ledger older) c).take TCP_MAX_SACK_BLOCKS

/-- The blocks given up, each with the number of the report that made it go. -/
def dropped : List (Report ℤ) → List (ℕ × Block)
  | [] => []
  | c :: older => ((merge older.length (ledger older) c).drop TCP_MAX_SACK_BLOCKS).map
      (older.length, ·) ++ dropped older

def Block.Holds (b : Block) (x : ℤ) : Prop := b.left ≤ x ∧ x < b.right

def Covers (bs : List Block) (x : ℤ) : Prop := ∃ b ∈ bs, b.Holds x

/-- Report number `i` of the history, counted from the oldest. -/
def reportAt (history : List (Report ℤ)) (i : ℕ) : Option (Report ℤ) := history.reverse[i]?

/-- `rcv_nxt` never goes backwards and every report lies in one half of the space with it. -/
def Tracks : List (Report ℤ) → Prop
  | [] => True
  | [c] => InWindow c.rcvNxt c
  | c :: d :: older => InWindow d.rcvNxt c ∧ Tracks (d :: older)

variable {c : Report ℤ}

theorem Tracks.tail {older : List (Report ℤ)} (h : Tracks (c :: older)) : Tracks older := by
  cases older with
  | nil => trivial
  | cons d older => exact h.2

theorem ledger_length_le (history : List (Report ℤ)) : (ledger history).length ≤ 255 := by
  cases history with
  | nil => simp [ledger]
  | cons c older => exact length_take_le _ _

theorem default_represents (base : ℤ) : Represents base TcpSackState.default [] :=
  ⟨ring_nil.mpr ⟨rfl, rfl⟩, List.Pairwise.nil, List.Perm.refl _, by simp, List.Pairwise.nil⟩

/-- The run lemma: the state after a history represents its ledger. -/
theorem run_represents {older : List (Report ℤ)} (h : Tracks (c :: older)) :
    (merge older.length (ledger older) c).Pairwise Block.Apart ∧
      Represents c.rcvNxt (run ((c :: older).map Report.wrap)) (ledger (c :: older)) := by
  induction older generalizing c with
  | nil => exact updateRange_spec 0 (default_represents c.rcvNxt) (Nat.zero_le _) h
  | cons d older ih =>
    exact updateRange_spec (d :: older).length (ih h.tail).2 (ledger_length_le _) h.1

variable {history : List (Report ℤ)}

theorem ledger_nonempty (h : Tracks history) : ∀ b ∈ ledger history, b.left < b.right := by
  cases history with
  | nil => simp [ledger]
  | cons c older => exact fun b hb => ((run_represents h).2.window b hb).2.1

section Merge

variable {n : ℕ} {bs : List Block} {c : Report ℤ} {x : ℤ}

/-- Strictly decreasing stamps, all below `n`. -/
def Stamped (n : ℕ) (bs : List Block) : Prop :=
  bs.Pairwise (fun b c => c.stamp < b.stamp) ∧ ∀ b ∈ bs, b.stamp < n

theorem Stamped.sublist {bs' : List Block} (h : Stamped n bs) (hs : bs'.Sublist bs) :
    Stamped n bs' := ⟨h.1.sublist hs, fun b hb => h.2 b (hs.subset hb)⟩

theorem clip_eq_some {r : ℤ} {b b' : Block} :
    b.clip r = some b' ↔ r < b.right ∧ b' = { b with left := Max.max b.left r } := by
  unfold Block.clip
  split
  · simp; omega
  · simp only [Option.some.injEq]
    exact ⟨fun e => ⟨by omega, e.symm⟩, fun e => e.2.symm⟩

theorem Stamped.kept (h : Stamped n bs) (r : ℤ) : Stamped n (bs.filterMap (Block.clip r)) := by
  constructor
  · refine h.1.filterMap _ fun b c hlt b' hb' c' hc' => ?_
    rw [(clip_eq_some.mp hb').2, (clip_eq_some.mp hc').2]
    exact hlt
  · intro b' hb'
    obtain ⟨b, hb, e⟩ := mem_filterMap.mp hb'
    rw [(clip_eq_some.mp e).2]
    exact h.2 b hb

theorem hull_foldl_stamp (hits : List Block) (m : Block) :
    (hits.foldl Block.hull m).stamp = m.stamp := by
  induction hits generalizing m with
  | nil => rfl
  | cons b hits ih => exact ih (m.hull b)

theorem Stamped.merge (h : Stamped n bs) : Stamped (n + 1) (merge n bs c) := by
  have hk := h.kept c.rcvNxt
  unfold SackState.merge
  simp only
  split
  · exact ⟨hk.1, fun b hb => (hk.2 b hb).trans (Nat.lt_succ_self n)⟩
  · have hf := hk.sublist (filter_sublist
      (p := fun b => !(⟨Max.max c.left c.rcvNxt, c.right, n⟩ : Block).touches b))
    refine ⟨pairwise_cons.mpr ⟨fun b hb => ?_, hf.1⟩, fun b hb => ?_⟩
    · rw [hull_foldl_stamp]
      exact hf.2 b hb
    · rcases mem_cons.mp hb with rfl | hb
      · rw [hull_foldl_stamp]
        exact Nat.lt_succ_self n
      · exact (hf.2 b hb).trans (Nat.lt_succ_self n)

theorem covers_kept {r : ℤ} : Covers (bs.filterMap (Block.clip r)) x ↔ r ≤ x ∧ Covers bs x := by
  constructor
  · rintro ⟨b', hb', h1, h2⟩
    obtain ⟨b, hb, e⟩ := mem_filterMap.mp hb'
    obtain ⟨hr, rfl⟩ := clip_eq_some.mp e
    simp only at h1 h2
    exact ⟨by omega, b, hb, by omega, h2⟩
  · rintro ⟨hr, b, hb, h1, h2⟩
    refine ⟨_, mem_filterMap.mpr ⟨b, hb, clip_eq_some.mpr ⟨by omega, rfl⟩⟩, ?_, h2⟩
    simp only
    omega

theorem hull_foldl_holds {hits : List Block} {m : Block} (hm : m.left < m.right)
    (hb : ∀ b ∈ hits, b.left < b.right) (ht : ∀ b ∈ hits, m.touches b = true) :
    (hits.foldl Block.hull m).Holds x ↔ m.Holds x ∨ Covers hits x := by
  induction hits generalizing m with
  | nil => simp [Covers]
  | cons b hits ih =>
    have ht0 := ht b (by simp)
    simp only [Block.touches, Bool.and_eq_true, decide_eq_true_eq] at ht0
    have hgrow : ∀ d ∈ hits, (m.hull b).touches d = true := by
      intro d hd
      have := ht d (by simp [hd])
      simp only [Block.touches, Bool.and_eq_true, decide_eq_true_eq] at this ⊢
      simp only [Block.hull]
      omega
    have hhull : (m.hull b).Holds x ↔ m.Holds x ∨ b.Holds x := by
      simp only [Block.Holds, Block.hull]
      omega
    rw [foldl_cons, ih (by simp only [Block.hull]; omega)
      (fun d hd => hb d (by simp [hd])) hgrow, hhull]
    simp [Covers, or_assoc]

theorem covers_merge (hb : ∀ b ∈ bs, b.left < b.right) :
    Covers (merge n bs c) x ↔ c.rcvNxt ≤ x ∧ (Covers bs x ∨ (c.left ≤ x ∧ x < c.right)) := by
  have hkept : ∀ b ∈ bs.filterMap (Block.clip c.rcvNxt), b.left < b.right := by
    intro b' hb'
    obtain ⟨b, hm, e⟩ := mem_filterMap.mp hb'
    obtain ⟨hr, rfl⟩ := clip_eq_some.mp e
    have := hb b hm
    simp only
    omega
  unfold SackState.merge
  simp only
  split
  · rw [covers_kept]
    refine and_congr_right fun hx => ⟨Or.inl, fun h => ?_⟩
    rcases h with h | h
    · exact h
    · omega
  · rename_i hempty
    set kept := bs.filterMap (Block.clip c.rcvNxt)
    set new : Block := ⟨Max.max c.left c.rcvNxt, c.right, n⟩ with hnew
    have hsplit : Covers ((kept.filter new.touches).foldl Block.hull new ::
        kept.filter fun b => !new.touches b) x ↔ new.Holds x ∨ Covers kept x := by
      have hcons : ∀ (m : Block) (l : List Block), Covers (m :: l) x ↔ m.Holds x ∨ Covers l x := by
        simp [Covers]
      rw [hcons, hull_foldl_holds (not_le.mp hempty) (fun b hb => hkept b (mem_filter.mp hb).1)
        (fun b hb => (mem_filter.mp hb).2), or_assoc]
      refine or_congr_right ?_
      constructor
      · rintro (⟨b, hb, hx⟩ | ⟨b, hb, hx⟩)
        · exact ⟨b, (mem_filter.mp hb).1, hx⟩
        · exact ⟨b, (mem_filter.mp hb).1, hx⟩
      · rintro ⟨b, hb, hx⟩
        cases ht : new.touches b with
        | true => exact Or.inl ⟨b, mem_filter.mpr ⟨hb, ht⟩, hx⟩
        | false => exact Or.inr ⟨b, mem_filter.mpr ⟨hb, by simp [ht]⟩, hx⟩
    rw [hsplit, covers_kept]
    simp only [Block.Holds, hnew]
    constructor
    · rintro (h | h)
      · exact ⟨by omega, Or.inr (by omega)⟩
      · exact ⟨h.1, Or.inl h.2⟩
    · rintro ⟨hx, h | h⟩
      · exact Or.inr ⟨hx, h⟩
      · exact Or.inl (by omega)

end Merge

theorem ledger_stamped (history : List (Report ℤ)) : Stamped history.length (ledger history) := by
  induction history with
  | nil => exact ⟨List.Pairwise.nil, by simp [ledger]⟩
  | cons c older ih => exact ih.merge.sublist (take_sublist _ _)

theorem covers_take {bs : List Block} {x : ℤ} (k : ℕ) (h : bs.Pairwise Block.Apart) :
    Covers (bs.take k) x ↔ Covers bs x ∧ ¬ Covers (bs.drop k) x := by
  have hap := h
  rw [← take_append_drop k bs, pairwise_append] at hap
  have hall : Covers bs x ↔ Covers (bs.take k) x ∨ Covers (bs.drop k) x := by
    have hmem : ∀ b, b ∈ bs ↔ b ∈ bs.take k ∨ b ∈ bs.drop k := fun b => by
      rw [← mem_append, take_append_drop]
    constructor
    · rintro ⟨b, hm, hx⟩
      rcases (hmem b).mp hm with hm | hm
      · exact Or.inl ⟨b, hm, hx⟩
      · exact Or.inr ⟨b, hm, hx⟩
    · rintro (⟨b, hm, hx⟩ | ⟨b, hm, hx⟩)
      · exact ⟨b, (hmem b).mpr (Or.inl hm), hx⟩
      · exact ⟨b, (hmem b).mpr (Or.inr hm), hx⟩
  rw [hall]
  constructor
  · rintro ⟨b, hm, hx⟩
    refine ⟨Or.inl ⟨b, hm, hx⟩, ?_⟩
    rintro ⟨d, hd, hx'⟩
    have := hap.2.2 b hm d hd
    unfold Block.Apart at this
    unfold Block.Holds at hx hx'
    omega
  · rintro ⟨h | h, hn⟩
    · exact h
    · exact absurd h hn

theorem reportAt_cons (c : Report ℤ) (older : List (Report ℤ)) (i : ℕ) :
    reportAt (c :: older) i = if i = older.length then some c else reportAt older i := by
  unfold reportAt
  rw [reverse_cons]
  rcases lt_trichotomy i older.length with h | h | h
  · rw [getElem?_append_left (by simpa using h), if_neg (by omega)]
  · subst h
    simp
  · rw [getElem?_append_right (by simpa using h.le), if_neg (by omega)]
    have h1 : ([c] : List (Report ℤ))[i - older.reverse.length]? = none := by
      simp
      omega
    rw [h1]
    simpa using h.le

theorem dropped_lt (history : List (Report ℤ)) : ∀ d ∈ dropped history, d.1 < history.length := by
  induction history with
  | nil => simp [dropped]
  | cons c older ih =>
    intro d hd
    rcases mem_append.mp hd with hd | hd
    · obtain ⟨b, _, rfl⟩ := mem_map.mp hd
      simp
    · have := ih d hd
      simp only [length_cons]
      omega

theorem lt_of_reportAt {i : ℕ} (h : reportAt history i = some c) : i < history.length := by
  have := List.getElem?_eq_some_iff.mp h
  simpa using this.1

/-- A position is held iff it is not delivered and some report of it came after every loss
of a block that held it. -/
theorem covers_ledger (h : Tracks history) (x : ℤ) :
    Covers (ledger history) x ↔ (∀ c ∈ history.head?, c.rcvNxt ≤ x) ∧
      ∃ i c, reportAt history i = some c ∧ (c.left ≤ x ∧ x < c.right) ∧
        ∀ d ∈ dropped history, i ≤ d.1 → ¬ d.2.Holds x := by
  induction history with
  | nil => simp [ledger, Covers, reportAt]
  | cons c older ih =>
    have hne := ledger_nonempty h.tail
    have hap := (run_represents h).1
    have hhead : c.rcvNxt ≤ x → ∀ d ∈ older.head?, d.rcvNxt ≤ x := by
      intro hx d hd
      cases older with
      | nil => simp at hd
      | cons e older =>
        obtain rfl : e = d := by simpa using hd
        exact h.1.forward.trans hx
    have hdrop : ¬ Covers ((merge older.length (ledger older) c).drop TCP_MAX_SACK_BLOCKS) x ↔
        ∀ d ∈ ((merge older.length (ledger older) c).drop TCP_MAX_SACK_BLOCKS).map
          (older.length, ·), ¬ d.2.Holds x := by
      simp only [Covers, not_exists, not_and, mem_map]
      constructor
      · rintro hn d ⟨b, hb, rfl⟩; exact hn b hb
      · intro hn b hb; exact hn _ ⟨b, hb, rfl⟩
    rw [ledger, covers_take _ hap, covers_merge hne, ih h.tail, hdrop, dropped]
    simp only [head?_cons, Option.mem_def, Option.some.injEq, forall_eq', reportAt_cons, mem_append]
    constructor
    · rintro ⟨⟨hx, hold | hnew⟩, hnd⟩
      · obtain ⟨_, i, c', hc', hr, hd⟩ := hold
        have hi := lt_of_reportAt hc'
        refine ⟨hx, i, c', by rw [if_neg (by omega)]; exact hc', hr, ?_⟩
        rintro d (hm | hm) hid
        · exact hnd d hm
        · exact hd d hm hid
      · refine ⟨hx, older.length, c, by simp, hnew, ?_⟩
        rintro d (hm | hm) hid
        · exact hnd d hm
        · have := dropped_lt older d hm
          omega
    · rintro ⟨hx, i, c', hc', hr, hd⟩
      have hnd : ∀ d ∈ ((merge older.length (ledger older) c).drop TCP_MAX_SACK_BLOCKS).map
          (older.length, ·), ¬ d.2.Holds x := by
        intro d hm
        refine hd d (Or.inl hm) ?_
        obtain ⟨b, _, rfl⟩ := mem_map.mp hm
        split at hc'
        · omega
        · exact (lt_of_reportAt hc').le
      refine ⟨⟨hx, ?_⟩, hnd⟩
      split at hc'
      · obtain rfl := Option.some.inj hc'
        exact Or.inr hr
      · exact Or.inl ⟨hhead hx, i, c', hc', hr, fun d hm hid => hd d (Or.inr hm) hid⟩

/-- A block goes when there are 255 others, all updated after it. -/
theorem dropped_least_recent :
    ∀ d ∈ dropped history, ∃ newer c older, history = newer ++ c :: older ∧
      older.length = d.1 ∧ (ledger (c :: older)).length = 255 ∧
      ∀ b ∈ ledger (c :: older), d.2.stamp < b.stamp := by
  induction history with
  | nil => simp [dropped]
  | cons c older ih =>
    intro d hd
    rcases mem_append.mp hd with hd | hd
    · obtain ⟨b, hb, rfl⟩ := mem_map.mp hd
      refine ⟨[], c, older, rfl, rfl, ?_, ?_⟩
      · rw [ledger, length_take]
        have := length_pos_of_mem hb
        simp only [length_drop, TCP_MAX_SACK_BLOCKS] at this ⊢
        omega
      · have hs := ((ledger_stamped older).merge (c := c)).1
        rw [← take_append_drop TCP_MAX_SACK_BLOCKS (merge _ _ _), pairwise_append] at hs
        exact fun b' hb' => hs.2.2 b' hb' b hb
    · obtain ⟨newer, c', older', e, h1, h2, h3⟩ := ih d hd
      exact ⟨c :: newer, c', older', by rw [e]; rfl, h1, h2, h3⟩

/-- All three numbers of a report lie in one half of the sequence space. -/
def Report.InHalfSpace (c : Report TcpSeq) : Prop :=
  ∃ origin : TcpSeq, (c.rcvNxt - origin).toNat < 2 ^ 31 ∧ (c.left - origin).toNat < 2 ^ 31 ∧
    (c.right - origin).toNat < 2 ^ 31

def Windowed : List (Report TcpSeq) → Prop
  | [] => True
  | [c] => c.InHalfSpace
  | c :: d :: older => c.InHalfSpace ∧ (c.rcvNxt - d.rcvNxt).toNat < 2 ^ 31 ∧ Windowed (d :: older)

theorem wrap_toNat (x : TcpSeq) : TcpSeq.wrap x.toNat = x := by
  simp [TcpSeq.wrap, Serial.wrap]

theorem Report.InHalfSpace.unwrap {c : Report TcpSeq} (h : c.InHalfSpace) {r : ℤ}
    (hr : TcpSeq.wrap r = c.rcvNxt) :
    ∃ p : Report ℤ, p.wrap = c ∧ p.rcvNxt = r ∧ Near p.left p.rcvNxt ∧ Near p.right p.rcvNxt ∧
      Near p.right p.left := by
  obtain ⟨o, h1, h2, h3⟩ := h
  have hpos : ∀ x : TcpSeq, TcpSeq.wrap (r + ((x - o).toNat - (c.rcvNxt - o).toNat)) = x := by
    intro x
    have hadd : ∀ a b : ℤ, TcpSeq.wrap (a + b) = TcpSeq.wrap a + TcpSeq.wrap b := Serial.wrap_add
    have hsub : ∀ a b : ℤ, TcpSeq.wrap (a - b) = TcpSeq.wrap a - TcpSeq.wrap b := fun a b =>
      (Serial.wrap_sub a b).symm
    rw [hadd, hsub, hr, wrap_toNat, wrap_toNat]
    ring
  refine ⟨⟨r, r + ((c.left - o).toNat - (c.rcvNxt - o).toNat),
    r + ((c.right - o).toNat - (c.rcvNxt - o).toNat)⟩, ?_, rfl, ?_, ?_, ?_⟩
  · simp only [Report.wrap, hr, hpos]
  · rw [near_iff]; simp only; omega
  · rw [near_iff]; simp only; omega
  · rw [near_iff]; simp only; omega

theorem exists_tracks {history : List (Report TcpSeq)} (h : Windowed history) :
    ∃ ps : List (Report ℤ), ps.map Report.wrap = history ∧ Tracks ps := by
  induction history with
  | nil => exact ⟨[], rfl, trivial⟩
  | cons c older ih =>
    cases older with
    | nil =>
      obtain ⟨p, hp, e, h1, h2, h3⟩ := Report.InHalfSpace.unwrap h (wrap_toNat c.rcvNxt)
      exact ⟨[p], by simp [hp], le_rfl, by omega, h1, h2, h3⟩
    | cons d older =>
      obtain ⟨hc, hfwd, hold⟩ := h
      obtain ⟨ps, hps, ht⟩ := ih hold
      cases ps with
      | nil => simp at hps
      | cons q ps =>
        obtain ⟨hq, hps'⟩ := cons.inj hps
        have hr : TcpSeq.wrap (q.rcvNxt + (c.rcvNxt - d.rcvNxt).toNat) = c.rcvNxt := by
          have hadd : ∀ a b : ℤ, TcpSeq.wrap (a + b) = TcpSeq.wrap a + TcpSeq.wrap b :=
            Serial.wrap_add
          have hqd : TcpSeq.wrap q.rcvNxt = d.rcvNxt := congrArg Report.rcvNxt hq
          rw [hadd, wrap_toNat, hqd]
          ring
        obtain ⟨p, hp, e, h1, h2, h3⟩ := hc.unwrap hr
        refine ⟨p :: q :: ps, by simp [hp, hq, hps'], ⟨?_, ?_, h1, h2, h3⟩, ht⟩
        · omega
        · omega

/-- What the SACK state of a receiver is after the reports `ps`. -/
structure Receives (ps : List (Report ℤ)) (s : TcpSackState) : Prop where
  /-- The recency list runs through all blocks once, in both directions. -/
  recent : Ring (nextOf s) (prevOf s) none ((ledger ps).map fun b => some (wrap b.left))
  blocks : (ranges s).Perm ((ledger ps).map fun b => (wrap b.left, wrap b.right))
  /-- The stamp of a block is the number of the report that last updated it. -/
  order : (ledger ps).Pairwise fun b c => c.stamp < b.stamp
  nonempty : ∀ b ∈ ledger ps, b.left < b.right
  apart : (ledger ps).Pairwise Block.Apart
  count : s.blocks.length ≤ 255
  covers : ∀ x, Covers (ledger ps) x ↔ (∀ c ∈ ps.head?, c.rcvNxt ≤ x) ∧
    ∃ i c, reportAt ps i = some c ∧ (c.left ≤ x ∧ x < c.right) ∧
      ∀ d ∈ dropped ps, i ≤ d.1 → ¬ d.2.Holds x
  lru : ∀ d ∈ dropped ps, ∃ newer c older, ps = newer ++ c :: older ∧ older.length = d.1 ∧
    (ledger (c :: older)).length = 255 ∧ ∀ b ∈ ledger (c :: older), d.2.stamp < b.stamp

theorem sack_state_receives {history : List (Report TcpSeq)} (h : Windowed history) :
    ∃ ps : List (Report ℤ), ps.map Report.wrap = history ∧ Tracks ps ∧
      Receives ps (run history) := by
  obtain ⟨ps, rfl, ht⟩ := exists_tracks h
  refine ⟨ps, rfl, ht, ?_⟩
  have hrepr : ∃ base, Represents base (run (ps.map Report.wrap)) (ledger ps) := by
    cases ps with
    | nil => exact ⟨0, default_represents 0⟩
    | cons c older => exact ⟨c.rcvNxt, (run_represents ht).2⟩
  obtain ⟨base, hr⟩ := hrepr
  exact ⟨hr.ring, hr.content, (ledger_stamped ps).1, fun b hb => (hr.window b hb).2.1, hr.apart,
    by rw [hr.length]; exact ledger_length_le ps, covers_ledger ht, dropped_least_recent⟩

/-- Two gaps around the wrap of the sequence space, and the segment that closes one. -/
theorem sack_state_receives_across_wrap :
    ∃ ps : List (Report ℤ), ps.map Report.wrap =
        [⟨0xFFFFFFF0, 0xFFFFFFF8, 4⟩, ⟨0xFFFFFFF0, 4, 8⟩, ⟨0xFFFFFFF0, 0xFFFFFFF4, 0xFFFFFFF8⟩] ∧
      Tracks ps ∧ Receives ps
        (run [⟨0xFFFFFFF0, 0xFFFFFFF8, 4⟩, ⟨0xFFFFFFF0, 4, 8⟩,
          ⟨0xFFFFFFF0, 0xFFFFFFF4, 0xFFFFFFF8⟩]) :=
  sack_state_receives ⟨⟨0xFFFFFFF0, by decide⟩, by decide, ⟨0xFFFFFFF0, by decide⟩, by decide,
    ⟨0xFFFFFFF0, by decide⟩⟩

end SackState
