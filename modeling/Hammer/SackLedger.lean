import Hammer.SackBlocks

/-! # The ledger of reported ranges

What the SACK state is for, in unwrapped positions: cut off what was delivered, merge the
report with the blocks it touches, and forget the least recently updated block when there
are too many. `update_range` computes exactly this.
-/
namespace SackState

open LinkedRing OrderedMap TcpSeq List Block

structure Report (α : Type) where
  rcvNxt : α
  left : α
  right : α
  deriving DecidableEq

def Block.clip (rcvNxt : ℤ) (b : Block) : Option Block :=
  if b.right ≤ rcvNxt then none else some { b with left := Max.max b.left rcvNxt }

def Block.touches (m b : Block) : Bool := b.left ≤ m.right && m.left ≤ b.right

def Block.hull (m b : Block) : Block :=
  ⟨Min.min m.left b.left, Max.max m.right b.right, m.stamp⟩

/-- The blocks after report number `n`, before the limit on their number. -/
def merge (n : ℕ) (bs : List Block) (c : Report ℤ) : List Block :=
  let kept := bs.filterMap (Block.clip c.rcvNxt)
  let new : Block := ⟨Max.max c.left c.rcvNxt, c.right, n⟩
  if new.right ≤ new.left then kept
  else (kept.filter new.touches).foldl Block.hull new :: kept.filter fun b => !new.touches b

variable {base rcvNxt : ℤ} {s : TcpSackState} {bs : List Block} {b : Block}

theorem near_of_window (base : ℤ) {a b : ℤ} (ha : base ≤ a ∧ a < base + 2147483648)
    (hb : base ≤ b ∧ b < base + 2147483648) : Near a b := near_iff.mpr (by omega)

theorem Represents.first_block (h : Represents base s bs) {e : TcpSeq × TcpSackBlockState}
    (he : s.blocks.head? = some e) :
    ∃ b ∈ bs, wrap b.left = e.1 ∧ wrap b.right = e.2.right ∧ ∀ c ∈ bs, b.left ≤ c.left := by
  obtain ⟨hm, hmin⟩ := first_spec h.sorted he
  obtain ⟨b, hb, h1, h2⟩ := h.block_of_mem hm
  refine ⟨b, hb, h1, h2, fun c hc => ?_⟩
  obtain ⟨st, hst, _⟩ := h.get_of_mem hc
  have hle := hmin _ ((get_eq_some_iff cmp_eq_iff h.sorted.keys_nodup).mp hst)
  have hwb := h.window b hb
  have hwc := h.window c hc
  rw [← h1, unwrap_wrap (by omega) (by omega), unwrap_wrap (by omega) (by omega)] at hle
  exact hle

theorem Represents.apart_of_ne {xs ys : List Block} {c : Block}
    (h : Represents base s (xs ++ b :: ys)) (hc : c ∈ xs ++ ys) : Block.Apart b c := by
  have hap := h.apart
  rw [pairwise_append, pairwise_cons] at hap
  rcases mem_append.mp hc with hc | hc
  · exact (hap.2.2 c hc b (by simp)).symm
  · exact hap.2.1.1 c hc

theorem clip_of_le (h1 : rcvNxt ≤ b.left) (h2 : b.left < b.right) : b.clip rcvNxt = some b := by
  rw [clip, if_neg (by omega), max_eq_left h1]

/-- `prune_delivered`: induction on the rounds, the first block is the only one cut. -/
theorem pruneLoop_spec (lo : base ≤ rcvNxt) (hi : rcvNxt < base + 2147483648) :
    ∀ (fuel : ℕ) (s : TcpSackState) (bs : List Block), Represents base s bs → bs.length < fuel →
      Represents rcvNxt (pruneLoop (wrap rcvNxt) fuel s) (bs.filterMap (clip rcvNxt)) := by
  intro fuel
  induction fuel with
  | zero => omega
  | succ fuel ih =>
    intro s bs h hlen
    rw [pruneLoop]
    cases he : s.blocks.head? with
    | none =>
      have hnil : bs = [] := by
        have hb : s.blocks = [] := head?_eq_none_iff.mp he
        have := h.length
        rw [hb] at this
        exact length_eq_zero_iff.mp this.symm
      subst hnil
      exact h.rebase (by simp)
    | some e =>
      obtain ⟨b, hb, h1, h2, hmin⟩ := h.first_block he
      obtain ⟨xs, ys, rfl⟩ := append_of_mem hb
      have hwb := h.window b hb
      have hother : ∀ c ∈ xs ++ ys, b.right < c.left := by
        intro c hc
        have hcm : c ∈ xs ++ b :: ys := mem_middle.mpr (Or.inr hc)
        have := h.apart_of_ne hc
        have := hmin c hcm
        have := h.window c hcm
        unfold Block.Apart at *
        omega
      have hnear : Near b.right rcvNxt := near_of_window base (by omega) ⟨lo, hi⟩
      have hnear' : Near b.left rcvNxt := near_of_window base (by omega) ⟨lo, hi⟩
      simp only
      rw [← h1, ← h2]
      by_cases hr : b.right ≤ rcvNxt
      · rw [if_pos ((le_wrap hnear).mpr hr)]
        obtain ⟨s', e', hs'⟩ := removeBlock_spec h
        rw [e']
        have := ih s' (xs ++ ys) hs' (by simp at hlen ⊢; omega)
        rw [filterMap_append, filterMap_cons_none (by rw [clip, if_pos hr]), ← filterMap_append]
        exact this
      · rw [if_neg (mt (le_wrap hnear).mp hr)]
        have hkeep : ∀ c ∈ xs ++ ys, c.clip rcvNxt = some c := by
          intro c hc
          have hcm : c ∈ xs ++ b :: ys := mem_middle.mpr (Or.inr hc)
          exact clip_of_le (by have := hother c hc; omega) (h.window c hcm).2.1
        have hid : ∀ zs : List Block, (∀ c ∈ zs, c ∈ xs ++ ys) →
            zs.filterMap (clip rcvNxt) = zs := by
          intro zs hz
          rw [filterMap_congr (g := some) fun c hc => hkeep c (hz c hc), filterMap_some]
        have hlist : (xs ++ b :: ys).filterMap (clip rcvNxt) =
            xs ++ { b with left := Max.max b.left rcvNxt } :: ys := by
          rw [filterMap_append, filterMap_cons_some (by rw [clip, if_neg hr]),
            hid xs (by simp +contextual), hid ys (by simp +contextual)]
        rw [hlist]
        by_cases hl : b.left < rcvNxt
        · rw [if_pos ((lt_wrap hnear').mpr hl), max_eq_right hl.le]
          refine (renameBlockLeft_spec h hl (by omega)).rebase fun c hc => ?_
          rcases mem_middle.mp hc with rfl | hc'
          · exact ⟨le_rfl, by simp; omega⟩
          · have := hother c hc'
            have := h.window c (mem_middle.mpr (Or.inr hc'))
            omega
        · rw [if_neg (mt (lt_wrap hnear').mp hl), max_eq_left (by omega)]
          refine h.rebase fun c hc => ?_
          have := hmin c hc
          have := h.window c hc
          omega

theorem pruneDelivered_spec (h : Represents base s bs) (lo : base ≤ rcvNxt)
    (hi : rcvNxt < base + 2147483648) :
    Represents rcvNxt (pruneDelivered s (wrap rcvNxt)) (bs.filterMap (clip rcvNxt)) :=
  pruneLoop_spec lo hi _ s bs h (by rw [h.length]; omega)

/-- Half-way through the merge: `removed` has gone into `m`, `cur` is left. A block left
touches what `m` has grown to only if it touched the report itself. -/
structure Absorbing (base : ℤ) (kept : List Block) (new : Block) (s : TcpSackState)
    (cur removed : List Block) (m : Block) : Prop where
  repr : Represents base s cur
  sublist : cur.Sublist kept
  perm : kept.Perm (removed ++ cur)
  hull : m = removed.foldl Block.hull new
  window : base ≤ m.left ∧ m.left < m.right ∧ m.right < base + 2147483648
  touches : ∀ b ∈ cur, m.touches b = new.touches b
  hit : ∀ b ∈ removed, new.touches b = true

variable {kept cur removed : List Block} {new m : Block}

theorem rangesOverlapOrTouch_wrap
    (hm : base ≤ m.left ∧ m.left < m.right ∧ m.right < base + 2147483648)
    (hb : base ≤ b.left ∧ b.left < b.right ∧ b.right < base + 2147483648) :
    rangesOverlapOrTouch ⟨wrap m.left, wrap m.right⟩ ⟨wrap b.left, wrap b.right⟩ = m.touches b := by
  rw [Bool.eq_iff_iff]
  simp only [rangesOverlapOrTouch, touches, Bool.and_eq_true, decide_eq_true_eq]
  rw [ge_wrap (near_of_window base (by omega) (by omega)),
    ge_wrap (near_of_window base (by omega) (by omega))]

theorem absorb_spec {xs ys : List Block} (h : Absorbing base kept new s (xs ++ b :: ys) removed m)
    (ht : m.touches b = true) : ∃ s', absorb s ⟨wrap m.left, wrap m.right⟩ (wrap b.left) =
        (s', some ⟨wrap (m.hull b).left, wrap (m.hull b).right⟩) ∧
      Absorbing base kept new s' (xs ++ ys) (removed ++ [b]) (m.hull b) := by
  obtain ⟨s', e, hr⟩ := removeBlock_spec h.repr
  have hwb := h.repr.window b (by simp)
  have hwm := h.window
  refine ⟨s', ?_, hr, ?_, ?_, ?_, ?_, ?_, ?_⟩
  · rw [absorb, e]
    simp only [hull]
    rw [min_wrap (near_of_window base (by omega) (by omega)),
      max_wrap (near_of_window base (by omega) (by omega))]
  · exact (show (xs ++ ys).Sublist (xs ++ b :: ys) by simp).trans h.sublist
  · refine h.perm.trans ?_
    rw [append_assoc]
    exact perm_middle.append_left removed
  · rw [foldl_append, ← h.hull]
    rfl
  · simp only [hull]
    omega
  · intro c hc
    have hcm : c ∈ xs ++ b :: ys := mem_middle.mpr (Or.inr hc)
    rw [← h.touches c hcm, Bool.eq_iff_iff]
    have hap := h.repr.apart_of_ne hc
    have hwc := h.repr.window c hcm
    simp only [touches, Bool.and_eq_true, decide_eq_true_eq] at ht ⊢
    simp only [hull]
    unfold Block.Apart at hap
    omega
  · intro c hc
    rcases mem_append.mp hc with hc | hc
    · exact h.hit c hc
    · obtain rfl := mem_singleton.mp hc
      rw [← h.touches c (by simp)]
      exact ht

theorem absorbExisting_spec (h : Absorbing base kept new s cur removed m) :
    ∃ s' cur' removed' m', absorbExisting s ⟨wrap m.left, wrap m.right⟩ =
        (s', some ⟨wrap m'.left, wrap m'.right⟩) ∧
      Absorbing base kept new s' cur' removed' m' ∧ ∀ b ∈ cur', b.left ≠ m'.left := by
  have hwm := h.window
  unfold absorbExisting
  cases hg : s.get (wrap m.left) with
  | none =>
    refine ⟨s, cur, removed, m, rfl, h, fun b hb e => ?_⟩
    obtain ⟨st, hst, _⟩ := h.repr.get_of_mem hb
    rw [e, hg] at hst
    cases hst
  | some st =>
    obtain ⟨b, hb, h1, h2⟩ := h.repr.block_of_mem
      ((get_eq_some_iff cmp_eq_iff h.repr.sorted.keys_nodup).mp hg)
    have hwb := h.repr.window b hb
    have hbl : b.left = m.left :=
      (wrap_inj (near_of_window base (by omega) (by omega))).mp h1
    have ht : m.touches b = true := by
      simp only [touches, Bool.and_eq_true, decide_eq_true_eq]
      omega
    obtain ⟨xs, ys, rfl⟩ := append_of_mem hb
    obtain ⟨s', e, ha⟩ := absorb_spec h ht
    have hcond : rangesOverlapOrTouch ⟨wrap m.left, wrap m.right⟩ ⟨wrap m.left, st.right⟩ =
        true := by
      rw [← ht, ← rangesOverlapOrTouch_wrap hwm hwb, hbl, h2]
    refine ⟨s', _, _, _, ?_, ha, fun c hc e => ?_⟩
    · simp only [hcond, if_true]
      rw [← hbl] at e ⊢
      exact e
    · have hap := h.repr.apart_of_ne hc
      have hwc := ha.repr.window c hc
      simp only [hull] at e
      unfold Block.Apart at hap
      omega

theorem Represents.entry_of_mem (h : Represents base s bs) (hb : b ∈ bs) :
    ∃ st, (wrap b.left, st) ∈ s.blocks := by
  obtain ⟨st, hst, _⟩ := h.get_of_mem hb
  exact ⟨st, (get_eq_some_iff cmp_eq_iff h.sorted.keys_nodup).mp hst⟩

theorem Represents.unwrap_left (h : Represents base s bs) (hb : b ∈ bs) :
    unwrap base (wrap b.left) = b.left := by
  have := h.window b hb
  exact unwrap_wrap (by omega) (by omega)

theorem Absorbing.touches_entry {e : TcpSeq × TcpSackBlockState}
    (h : Absorbing base kept new s cur removed m) (hb : b ∈ cur) (h1 : wrap b.left = e.1)
    (h2 : wrap b.right = e.2.right) :
    rangesOverlapOrTouch ⟨wrap m.left, wrap m.right⟩ ⟨e.1, e.2.right⟩ = m.touches b := by
  rw [← h1, ← h2]
  exact rangesOverlapOrTouch_wrap h.window (h.repr.window b hb)

theorem absorbPredecessor_spec (h : Absorbing base kept new s cur removed m)
    (hne : ∀ b ∈ cur, b.left ≠ m.left) :
    ∃ s' cur' removed' m', absorbPredecessor s ⟨wrap m.left, wrap m.right⟩ =
        (s', some ⟨wrap m'.left, wrap m'.right⟩) ∧
      Absorbing base kept new s' cur' removed' m' ∧
      ∀ b ∈ cur', b.left ≤ m'.left → b.right < m'.left := by
  have hwm := h.window
  have hranks := h.repr.ranks hwm.1 (by omega : m.left < base + 2147483648)
  have hrm : unwrap base (wrap m.left) = m.left := unwrap_wrap (by omega) (by omega)
  unfold absorbPredecessor
  cases hp : predecessor TcpSeq.cmp (wrap m.left) s.blocks with
  | none =>
    refine ⟨s, cur, removed, m, rfl, h, fun b hb hle => ?_⟩
    obtain ⟨st, hst⟩ := h.repr.entry_of_mem hb
    have hge := predecessor_eq_none hranks hp _ hst
    simp only [hrm, h.repr.unwrap_left hb] at hge
    exact absurd (le_antisymm hle hge) (hne b hb)
  | some e =>
    obtain ⟨hem, hlt, hmax⟩ := predecessor_eq_some h.repr.sorted hranks hp
    obtain ⟨b, hb, h1, h2⟩ := h.repr.block_of_mem hem
    rw [← h1, h.repr.unwrap_left hb] at hlt
    have hmax' : ∀ c ∈ cur, c.left < m.left → c.left ≤ b.left := by
      intro c hc hlt'
      obtain ⟨st, hst⟩ := h.repr.entry_of_mem hc
      have := hmax _ hst
      simp only [hrm, h.repr.unwrap_left hc, ← h1, h.repr.unwrap_left hb] at this
      exact this hlt'
    have hwb := h.repr.window b hb
    simp only [h.touches_entry hb h1 h2]
    obtain ⟨xs, ys, rfl⟩ := append_of_mem hb
    cases ht : m.touches b with
    | true =>
      obtain ⟨s', e', ha⟩ := absorb_spec h ht
      refine ⟨s', _, _, _, by simpa [← h1] using e', ha, fun c hc hle => ?_⟩
      have hap := h.repr.apart_of_ne hc
      simp only [hull] at hle ⊢
      unfold Block.Apart at hap
      omega
    | false =>
      refine ⟨s, _, removed, m, by simp, h, fun c hc hle => ?_⟩
      have hcl : c.left < m.left := lt_of_le_of_ne hle (hne c hc)
      have hcb := hmax' c hc hcl
      have hbr : b.right < m.left := by
        simp only [touches, Bool.and_eq_false_iff, decide_eq_false_iff_not] at ht
        omega
      rcases mem_middle.mp hc with rfl | hc'
      · exact hbr
      · have hap := h.repr.apart_of_ne hc'
        unfold Block.Apart at hap
        omega

theorem absorbSuccessors_spec : ∀ (fuel : ℕ) {s : TcpSackState} {cur removed : List Block}
    {m : Block}, Absorbing base kept new s cur removed m → cur.length < fuel →
    (∀ b ∈ cur, b.left ≤ m.left → b.right < m.left) →
    ∃ s' cur' removed' m', absorbSuccessors fuel s ⟨wrap m.left, wrap m.right⟩ =
        (s', some ⟨wrap m'.left, wrap m'.right⟩) ∧
      Absorbing base kept new s' cur' removed' m' ∧ ∀ b ∈ cur', m'.touches b = false := by
  intro fuel
  induction fuel with
  | zero => omega
  | succ fuel ih =>
    intro s cur removed m h hlen hleft
    have hwm := h.window
    have hranks := h.repr.ranks hwm.1 (by omega : m.left < base + 2147483648)
    have hrm : unwrap base (wrap m.left) = m.left := unwrap_wrap (by omega) (by omega)
    have hno : ∀ b ∈ cur, b.left ≤ m.left → m.touches b = false := by
      intro b hb hle
      have := hleft b hb hle
      simp only [touches, Bool.and_eq_false_iff, decide_eq_false_iff_not]
      omega
    rw [absorbSuccessors]
    cases hp : successor TcpSeq.cmp (wrap m.left) s.blocks with
    | none =>
      refine ⟨s, cur, removed, m, rfl, h, fun b hb => hno b hb ?_⟩
      obtain ⟨st, hst⟩ := h.repr.entry_of_mem hb
      have hle := successor_eq_none hranks hp _ hst
      simpa only [hrm, h.repr.unwrap_left hb] using hle
    | some e =>
      obtain ⟨hem, hlt, hmin⟩ := successor_eq_some h.repr.sorted hranks hp
      obtain ⟨b, hb, h1, h2⟩ := h.repr.block_of_mem hem
      rw [← h1, h.repr.unwrap_left hb] at hlt
      have hmin' : ∀ c ∈ cur, m.left < c.left → b.left ≤ c.left := by
        intro c hc hlt'
        obtain ⟨st, hst⟩ := h.repr.entry_of_mem hc
        have := hmin _ hst
        simp only [hrm, h.repr.unwrap_left hc, ← h1, h.repr.unwrap_left hb] at this
        exact this hlt'
      have hwb := h.repr.window b hb
      simp only [h.touches_entry hb h1 h2]
      cases ht : m.touches b with
      | true =>
        obtain ⟨xs, ys, rfl⟩ := append_of_mem hb
        obtain ⟨s', e', ha⟩ := absorb_spec h ht
        have hleft' : ∀ c ∈ xs ++ ys, c.left ≤ (m.hull b).left → c.right < (m.hull b).left := by
          intro c hc hle
          have hcm : c ∈ xs ++ b :: ys := mem_middle.mpr (Or.inr hc)
          have := hleft c hcm
          simp only [hull] at hle ⊢
          omega
        obtain ⟨s'', cur', removed', m', e'', ha', hno'⟩ := ih ha (by simp at hlen ⊢; omega) hleft'
        refine ⟨s'', cur', removed', m', ?_, ha', hno'⟩
        rw [← h1, e']
        exact e''
      | false =>
        refine ⟨s, cur, removed, m, by simp, h, fun c hc => ?_⟩
        by_cases hle : c.left ≤ m.left
        · exact hno c hc hle
        · have := hmin' c hc (by omega)
          simp only [touches, Bool.and_eq_false_iff, decide_eq_false_iff_not] at ht ⊢
          omega

theorem hull_rightComm : RightCommutative hull := ⟨fun m b c => by
  simp only [hull, mk.injEq, and_true]
  omega⟩

/-- At the end of the merge everything the report touched has been absorbed. -/
theorem Absorbing.result (h : Absorbing base kept new s cur removed m)
    (hend : ∀ b ∈ cur, m.touches b = false) :
    m = (kept.filter new.touches).foldl Block.hull new ∧
      cur = kept.filter fun b => !new.touches b := by
  have hcur : ∀ b ∈ cur, new.touches b = false := fun b hb => by
    rw [← h.touches b hb]; exact hend b hb
  have hhit : (removed ++ cur).filter new.touches = removed := by
    rw [filter_append, filter_eq_self.mpr h.hit,
      filter_eq_nil_iff.mpr fun b hb => by simp [hcur b hb], append_nil]
  have hmiss : (removed ++ cur).filter (fun b => !new.touches b) = cur := by
    rw [filter_append, filter_eq_nil_iff.mpr fun b hb => by simp [h.hit b hb],
      filter_eq_self.mpr fun b hb => by simp [hcur b hb], nil_append]
  constructor
  · have hperm := h.perm.filter new.touches
    rw [hhit] at hperm
    have := hull_rightComm
    rw [h.hull]
    exact (hperm.foldl_eq new).symm
  · have hsub := h.sublist.filter fun b => !new.touches b
    rw [filter_eq_self.mpr fun b hb => by simp [hcur b hb]] at hsub
    refine hsub.eq_of_length ?_
    have := (h.perm.filter fun b => !new.touches b).length_eq
    rw [hmiss] at this
    exact this.symm

/-- The premises under which all comparisons of one call are meaningful. -/
structure InWindow (base : ℤ) (c : Report ℤ) : Prop where
  forward : base ≤ c.rcvNxt
  jump : c.rcvNxt < base + 2147483648
  left : Near c.left c.rcvNxt
  right : Near c.right c.rcvNxt
  length : Near c.right c.left

theorem updateRange_spec {c : Report ℤ} (n : ℕ) (h : Represents base s bs)
    (hlen : bs.length ≤ 255) (hw : InWindow base c) :
    (merge n bs c).Pairwise Block.Apart ∧
    Represents c.rcvNxt (updateRange s true (wrap c.rcvNxt) (wrap c.left) (wrap c.right))
      ((merge n bs c).take 255) := by
  have hp := pruneDelivered_spec h hw.forward hw.jump
  have hklen : (bs.filterMap (Block.clip c.rcvNxt)).length ≤ 255 :=
    (length_filterMap_le _ _).trans hlen
  have hr := near_iff.mp hw.right
  simp only [updateRange, merge, Bool.not_true, Bool.false_eq_true, if_false]
  set kept := bs.filterMap (Block.clip c.rcvNxt) with hkept
  by_cases hrl : c.right ≤ c.left
  · rw [if_pos ((le_wrap hw.length).mpr hrl), if_pos (hrl.trans (le_max_left _ _)),
      take_of_length_le hklen]
    exact ⟨hp.apart, hp⟩
  · rw [if_neg (mt (le_wrap hw.length).mp hrl), max_wrap hw.left]
    have hnear : Near c.right (Max.max c.left c.rcvNxt) := by
      rcases max_choice c.left c.rcvNxt with e | e <;> rw [e]
      · exact hw.length
      · exact hw.right
    by_cases hempty : c.right ≤ Max.max c.left c.rcvNxt
    · rw [if_pos ((le_wrap hnear).mpr hempty), if_pos hempty, take_of_length_le hklen]
      exact ⟨hp.apart, hp⟩
    · rw [if_neg (mt (le_wrap hnear).mp hempty), if_neg hempty]
      set new : Block := ⟨Max.max c.left c.rcvNxt, c.right, n⟩ with hnew
      have hab : Absorbing c.rcvNxt kept new (pruneDelivered s (wrap c.rcvNxt)) kept [] new :=
        ⟨hp, List.Sublist.refl _, List.Perm.refl _, rfl,
          ⟨le_max_right _ _, not_le.mp hempty, by simp [hnew]; omega⟩,
          fun _ _ => rfl, by simp⟩
      obtain ⟨s1, cur1, rem1, m1, e1, hab1, hne⟩ := absorbExisting_spec hab
      obtain ⟨s2, cur2, rem2, m2, e2, hab2, hleft⟩ := absorbPredecessor_spec hab1 hne
      obtain ⟨s3, cur3, rem3, m3, e3, hab3, hend⟩ := absorbSuccessors_spec
        (s2.blocks.length + 1) hab2 (by rw [hab2.repr.length]; omega) hleft
      obtain ⟨hm3, hcur3⟩ := hab3.result hend
      have hins := insertBlock_spec m3.stamp hab3.repr hab3.window.1 hab3.window.2.1
        hab3.window.2.2 fun b hb => by
          have := hend b hb
          simp only [Block.touches, Bool.and_eq_false_iff, decide_eq_false_iff_not] at this
          simp only [Block.Apart]
          omega
      have hlist : m3 :: cur3 = (kept.filter new.touches).foldl Block.hull new ::
          kept.filter fun b => !new.touches b := by rw [← hm3, ← hcur3]
      rw [← hlist]
      refine ⟨hins.apart, ?_⟩
      have htrim := trimBlockCapacity_spec hins (by
        have := hab3.sublist.length_le
        simp only [length_cons]
        omega)
      simp only [hnew] at e1
      simp only [e1, e2, e3]
      exact htrim

end SackState
