import Hammer.LinkedRing
import Hammer.SackState

/-! # The blocks behind the SACK state

The ghost value of a state is the list of its blocks in unwrapped positions, most recently updated
first.
-/
namespace SackState

open LinkedRing OrderedMap TcpSeq Function List

def nextOf (s : TcpSackState) : Option TcpSeq → Option TcpSeq :=
  link s.recentHead s.get (·.nextRecent)

def prevOf (s : TcpSackState) : Option TcpSeq → Option TcpSeq :=
  link s.recentTail s.get (·.prevRecent)

def ranges (s : TcpSackState) : List (TcpSeq × TcpSeq) :=
  s.blocks.map fun e => (e.1, e.2.right)

/-- `[left, right)`, last updated by call number `stamp`. -/
structure Block where
  left : ℤ
  right : ℤ
  stamp : ℕ
  deriving DecidableEq

def Block.Apart (b c : Block) : Prop := b.right < c.left ∨ c.right < b.left

/-- The position in the window of `base` that has the number `x`. -/
def unwrap (base : ℤ) (x : TcpSeq) : ℤ := base + (x - wrap base).toNat

theorem unwrap_wrap {base a : ℤ} (lo : base ≤ a) (hi : a < base + 2147483648) :
    unwrap base (wrap a) = a := by
  have h : (wrap a - wrap base : TcpSeq) = wrap (a - base) := Serial.wrap_sub a base
  rw [unwrap, h, show ((wrap (a - base)).toNat : ℤ) = a - base from
    Serial.toNat_wrap (by omega) (by omega)]
  omega

structure Represents (base : ℤ) (s : TcpSackState) (bs : List Block) : Prop where
  ring : Ring (nextOf s) (prevOf s) none (bs.map fun b => some (wrap b.left))
  sorted : Sorted (unwrap base) s.blocks
  content : (ranges s).Perm (bs.map fun b => (wrap b.left, wrap b.right))
  window : ∀ b ∈ bs, base ≤ b.left ∧ b.left < b.right ∧ b.right < base + 2147483648
  apart : bs.Pairwise Block.Apart

section Pointers

variable {s : TcpSackState} {node value : Option TcpSeq}

theorem get_modify (s : TcpSackState) (k j : TcpSeq) (f : TcpSackBlockState → TcpSackBlockState) :
    (s.modify k f).get j = if k = j then (s.get j).map f else s.get j := by
  simp only [TcpSackState.get, TcpSackState.modify, OrderedMap.get_modify cmp_eq_iff, eq_comm]

theorem nextOf_setNextRecent (h : ∀ k, node = some k → (s.get k).isSome) :
    nextOf (setNextRecent s node value) = update (nextOf s) node value := by
  cases node with
  | none => exact link_start
  | some k => exact link_node (h k rfl) (fun j => get_modify s k j _) fun _ => rfl

theorem prevOf_setNextRecent : prevOf (setNextRecent s node value) = prevOf s := by
  cases node with
  | none => rfl
  | some k => exact link_other (fun j => get_modify s k j _) fun _ => rfl

theorem prevOf_setPrevRecent (h : ∀ k, node = some k → (s.get k).isSome) :
    prevOf (setPrevRecent s node value) = update (prevOf s) node value := by
  cases node with
  | none => exact link_start
  | some k => exact link_node (h k rfl) (fun j => get_modify s k j _) fun _ => rfl

theorem nextOf_setPrevRecent : nextOf (setPrevRecent s node value) = nextOf s := by
  cases node with
  | none => rfl
  | some k => exact link_other (fun j => get_modify s k j _) fun _ => rfl

end Pointers

/-- Two states with the same keys and right edges in the same order. -/
structure SameRanges (s s' : TcpSackState) : Prop where
  ranges : ranges s' = ranges s
  keys : keys s'.blocks = keys s.blocks
  isSome : ∀ k, (s'.get k).isSome = (s.get k).isSome
  right : ∀ k, (s'.get k).map (·.right) = (s.get k).map (·.right)

theorem SameRanges.trans {s s' s'' : TcpSackState} (h : SameRanges s s')
    (h' : SameRanges s' s'') : SameRanges s s'' :=
  ⟨h'.ranges.trans h.ranges, h'.keys.trans h.keys, fun k => (h'.isSome k).trans (h.isSome k),
    fun k => (h'.right k).trans (h.right k)⟩

theorem SameRanges.sorted {s s' : TcpSackState} {base : ℤ} (h : SameRanges s s')
    (hs : Sorted (unwrap base) s.blocks) : Sorted (unwrap base) s'.blocks := by
  have hmap : ∀ m : List (TcpSeq × TcpSackBlockState), Sorted (unwrap base) m ↔
      (OrderedMap.keys m).Pairwise fun a b => unwrap base a < unwrap base b := by
    intro m
    rw [OrderedMap.keys, pairwise_map]
    rfl
  rw [hmap] at hs ⊢
  rwa [h.keys]

theorem sameRanges_modify (s : TcpSackState) (k : TcpSeq)
    {f : TcpSackBlockState → TcpSackBlockState} (hf : ∀ st, (f st).right = st.right) :
    SameRanges s (s.modify k f) := by
  refine ⟨?_, keys_modify _ _ _, fun k' => ?_, fun k' => ?_⟩
  · simp only [ranges, TcpSackState.modify, OrderedMap.modify, map_map]
    refine map_congr_left fun e _ => ?_
    simp only [comp_apply]
    split <;> simp [hf]
  · rw [get_modify]
    split <;> simp
  · rw [get_modify]
    split
    · cases s.get k' <;> simp [hf]
    · rfl

theorem sameRanges_setNextRecent (s : TcpSackState) (node value : Option TcpSeq) :
    SameRanges s (setNextRecent s node value) := by
  cases node with
  | none => exact ⟨rfl, rfl, fun _ => rfl, fun _ => rfl⟩
  | some k => exact sameRanges_modify s k fun _ => rfl

theorem sameRanges_setPrevRecent (s : TcpSackState) (node value : Option TcpSeq) :
    SameRanges s (setPrevRecent s node value) := by
  cases node with
  | none => exact ⟨rfl, rfl, fun _ => rfl, fun _ => rfl⟩
  | some k => exact sameRanges_modify s k fun _ => rfl

/-- Two neighbours are linked to a new node, or to each other. -/
theorem relink {s : TcpSackState} {p n : Option TcpSeq} (v w : Option TcpSeq)
    (hp : ∀ k, p = some k → (s.get k).isSome) (hn : ∀ k, n = some k → (s.get k).isSome) :
    let s' := setPrevRecent (setNextRecent s p v) n w
    SameRanges s s' ∧ nextOf s' = update (nextOf s) p v ∧ prevOf s' = update (prevOf s) n w := by
  have hsame := sameRanges_setNextRecent s p v
  refine ⟨hsame.trans (sameRanges_setPrevRecent _ _ _), ?_, ?_⟩
  · rw [nextOf_setPrevRecent]
    exact nextOf_setNextRecent hp
  · rw [prevOf_setPrevRecent fun k hk => (hsame.isSome k).trans (hn k hk), prevOf_setNextRecent]

theorem clampOutputPos_eq (s : TcpSackState) :
    ∃ p, clampOutputPos s = { s with outputPos := p } := by
  unfold clampOutputPos
  split
  · exact ⟨0, rfl⟩
  · exact ⟨s.outputPos, rfl⟩

variable {base : ℤ} {s : TcpSackState} {bs : List Block}

theorem Represents.outputPos (h : Represents base s bs) (p : ℕ) :
    Represents base { s with outputPos := p } bs := { h with }

variable {b : Block}

theorem Represents.get_of_mem (h : Represents base s bs) (hb : b ∈ bs) :
    ∃ st, s.get (wrap b.left) = some st ∧ st.right = wrap b.right := by
  have hm : (wrap b.left, wrap b.right) ∈ ranges s :=
    h.content.symm.subset (mem_map.mpr ⟨b, hb, rfl⟩)
  obtain ⟨e, he, heq⟩ := mem_map.mp hm
  obtain ⟨h1, h2⟩ := Prod.mk.inj heq
  refine ⟨e.2, ?_, h2⟩
  rw [← h1]
  exact (get_eq_some_iff cmp_eq_iff h.sorted.keys_nodup).mpr he

theorem Represents.block_of_mem (h : Represents base s bs) {e : TcpSeq × TcpSackBlockState}
    (he : e ∈ s.blocks) : ∃ b ∈ bs, wrap b.left = e.1 ∧ wrap b.right = e.2.right := by
  have hm : (e.1, e.2.right) ∈ ranges s := mem_map.mpr ⟨e, he, rfl⟩
  obtain ⟨b, hb, heq⟩ := mem_map.mp (h.content.subset hm)
  obtain ⟨h1, h2⟩ := Prod.mk.inj heq
  exact ⟨b, hb, h1, h2⟩

theorem Represents.length (h : Represents base s bs) : s.blocks.length = bs.length := by
  have := h.content.length_eq
  simpa [ranges] using this

theorem ranks_of_window {ks : List TcpSeq}
    (h : ∀ k ∈ ks, ∃ a, k = wrap a ∧ base ≤ a ∧ a < base + 2147483648) :
    Ranks (unwrap base) TcpSeq.cmp ks := by
  intro x hx y hy
  obtain ⟨a, rfl, ha, ha'⟩ := h x hx
  obtain ⟨b, rfl, hb, hb'⟩ := h y hy
  rw [unwrap_wrap ha ha', unwrap_wrap hb hb', cmp_wrap (near_iff.mpr (by omega))]

theorem Represents.ranks (h : Represents base s bs) {m : ℤ} (lo : base ≤ m)
    (hi : m < base + 2147483648) :
    Ranks (unwrap base) TcpSeq.cmp (wrap m :: keys s.blocks) := by
  refine ranks_of_window fun k hk => ?_
  rcases mem_cons.mp hk with rfl | hk
  · exact ⟨m, rfl, lo, hi⟩
  · obtain ⟨e, he, rfl⟩ := mem_map.mp hk
    obtain ⟨b, hb, h1, _⟩ := h.block_of_mem he
    have := h.window b hb
    exact ⟨b.left, h1.symm, by omega, by omega⟩

variable {xs ys : List Block}

theorem mem_middle {b c : Block} : c ∈ xs ++ b :: ys ↔ c = b ∨ c ∈ xs ++ ys := by
  simp only [mem_append, mem_cons]
  tauto

theorem Represents.neighbour
    (h : Represents base s (xs ++ b :: ys)) {p : Option TcpSeq} {k : TcpSeq}
    (hp : p ∈ none :: ((xs.map fun c => some (wrap c.left)) ++ ys.map fun c => some (wrap c.left)))
    (hk : p = some k) : (s.get k).isSome ∧ k ≠ wrap b.left := by
  subst hk
  simp only [mem_cons, reduceCtorEq, mem_append, mem_map, Option.some.injEq, false_or] at hp
  have hc : ∃ c ∈ xs ++ ys, wrap c.left = k := by
    rcases hp with ⟨c, hc, rfl⟩ | ⟨c, hc, rfl⟩
    · exact ⟨c, by simp [hc], rfl⟩
    · exact ⟨c, by simp [hc], rfl⟩
  obtain ⟨c, hc, rfl⟩ := hc
  obtain ⟨st, hst, _⟩ := h.get_of_mem (mem_middle.mpr (Or.inr hc))
  refine ⟨by simp [hst], fun e => ?_⟩
  have hnd := h.ring.2
  simp only [map_append, map_cons, nodup_cons, nodup_append, mem_map, mem_cons] at hnd
  rcases mem_append.mp hc with hc | hc
  · exact hnd.2.2.2 _ ⟨c, hc, rfl⟩ _ (Or.inl rfl) (by rw [e])
  · exact hnd.2.2.1.1 ⟨c, hc, by rw [e]⟩

theorem ranges_erase (k : TcpSeq) (m : List (TcpSeq × TcpSackBlockState)) :
    (erase TcpSeq.cmp k m).map (fun e => (e.1, e.2.right)) =
      (m.map fun e => (e.1, e.2.right)).filter fun x => TcpSeq.cmp k x.1 != .eq := by
  simp only [erase, filter_map]
  rfl

theorem Represents.erase_content (h : Represents base s (xs ++ b :: ys)) :
    ((erase TcpSeq.cmp (wrap b.left) s.blocks).map fun e => (e.1, e.2.right)).Perm
      ((xs ++ ys).map fun b => (wrap b.left, wrap b.right)) := by
  rw [ranges_erase]
  refine (h.content.filter _).trans (List.Perm.of_eq ?_)
  have hb : (TcpSeq.cmp (wrap b.left) (wrap b.left) != .eq) = false := by
    simp [(cmp_eq_iff _ _).mpr]
  rw [filter_map, filter_append, filter_cons]
  simp only [comp_apply, hb, Bool.false_eq_true, if_false]
  rw [← filter_append, filter_eq_self.mpr]
  intro c hc
  have hne : wrap c.left ≠ wrap b.left := (h.neighbour (k := wrap c.left) (p := some _) (by
    rcases mem_append.mp hc with hc | hc
    · simp only [mem_cons, mem_append, mem_map]
      exact Or.inr (Or.inl ⟨c, hc, rfl⟩)
    · simp only [mem_cons, mem_append, mem_map]
      exact Or.inr (Or.inr ⟨c, hc, rfl⟩)) rfl).2
  simpa [cmp_eq_iff] using Ne.symm hne

/-- A block's entry, its place on the ring, and its neighbours there. -/
theorem Represents.node (h : Represents base s (xs ++ b :: ys)) :
    ∃ st, s.get (wrap b.left) = some st ∧ st.right = wrap b.right ∧
      nextOf s (some (wrap b.left)) = st.nextRecent ∧
      prevOf s (some (wrap b.left)) = st.prevRecent ∧
      (∀ k, st.nextRecent = some k → (s.get k).isSome ∧ k ≠ wrap b.left) ∧
      ∀ k, st.prevRecent = some k → (s.get k).isSome ∧ k ≠ wrap b.left := by
  obtain ⟨st, hst, hright⟩ := h.get_of_mem (show b ∈ xs ++ b :: ys by simp)
  have hring := h.ring
  rw [map_append, map_cons] at hring
  obtain ⟨hnx, hpv⟩ := hring.neighbours
  have e1 : nextOf s (some (wrap b.left)) = st.nextRecent := by simp [nextOf, link, hst]
  have e2 : prevOf s (some (wrap b.left)) = st.prevRecent := by simp [prevOf, link, hst]
  rw [e1] at hnx
  rw [e2] at hpv
  exact ⟨st, hst, hright, e1, e2, fun k hk => h.neighbour hnx hk, fun k hk => h.neighbour hpv hk⟩

theorem removeBlock_spec (h : Represents base s (xs ++ b :: ys)) :
    ∃ s', removeBlock s (wrap b.left) = (s', some ⟨wrap b.left, wrap b.right⟩) ∧
      Represents base s' (xs ++ ys) := by
  obtain ⟨st, hst, hright, e1, e2, hnx, hpv⟩ := h.node
  obtain ⟨hsame, hnext, hprev⟩ := relink st.nextRecent st.prevRecent
    (fun k hk => (hpv k hk).1) (fun k hk => (hnx k hk).1)
  set s2 := setPrevRecent (setNextRecent s st.prevRecent st.nextRecent) st.nextRecent
    st.prevRecent with hs2
  obtain ⟨p, hs3⟩ := clampOutputPos_eq s2
  obtain ⟨st', hst', hright'⟩ :
      ∃ st', s2.get (wrap b.left) = some st' ∧ st'.right = wrap b.right := by
    have := hsame.right (wrap b.left)
    rw [hst] at this
    obtain ⟨st', e, hr⟩ := Option.map_eq_some_iff.mp this
    exact ⟨st', e, hr.trans hright⟩
  have hget : ∀ k, TcpSackState.get { s2 with
      blocks := erase TcpSeq.cmp (wrap b.left) s2.blocks, outputPos := p } k =
      if k = wrap b.left then none else s2.get k := fun k => get_erase cmp_eq_iff _ _ _
  refine ⟨{ s2 with blocks := erase TcpSeq.cmp (wrap b.left) s2.blocks, outputPos := p },
    ?_, ?_, (hsame.sorted h.sorted).erase _, ?_, ?_, ?_⟩
  · have hd : detachRecent s st = { s2 with outputPos := p } := hs3
    have hg : TcpSackState.get { s2 with outputPos := p } (wrap b.left) = some st' := hst'
    simp only [removeBlock, hst, hd, hg, hright']
  · -- the erased node is not on the ring any more
    have hring := h.ring
    rw [map_append, map_cons] at hring
    have herase := hring.erase
    rw [e1, e2, ← hnext, ← hprev, ← map_append] at herase
    have hkept {x : Option TcpSeq} (hx : x ∈ none :: (xs ++ ys).map fun c => some (wrap c.left))
        {start : Option TcpSeq} {field : TcpSackBlockState → Option TcpSeq} :
        link start (TcpSackState.get { s2 with
          blocks := erase TcpSeq.cmp (wrap b.left) s2.blocks, outputPos := p }) field x =
          link start s2.get field x := by
      cases x with
      | none => rfl
      | some k =>
        rw [map_append] at hx
        simp only [link, hget, if_neg (h.neighbour hx rfl).2]
    exact herase.congr (fun x hx => hkept hx) (fun x hx => hkept hx)
  · refine (List.Perm.of_eq ?_).trans h.erase_content
    simp only [ranges, ranges_erase]
    exact congrArg _ hsame.ranges
  · intro c hc
    exact h.window c (mem_middle.mpr (Or.inr hc))
  · exact h.apart.sublist (by simp)

/-- A smaller base serves as well when no block is lost from its window, and a larger one
when none starts before it. -/
theorem Represents.rebase (h : Represents base s bs) {base' : ℤ}
    (hw : ∀ b ∈ bs, base' ≤ b.left ∧ b.right < base' + 2147483648) : Represents base' s bs := by
  refine ⟨h.ring, ?_, h.content, fun b hb => ?_, h.apart⟩
  · refine h.sorted.imp_of_mem fun {e f} he hf hlt => ?_
    obtain ⟨b, hb, eb, _⟩ := h.block_of_mem he
    obtain ⟨c, hc, ec, _⟩ := h.block_of_mem hf
    have h1 := h.window b hb
    have h2 := h.window c hc
    have h3 := hw b hb
    have h4 := hw c hc
    rw [← eb, ← ec, unwrap_wrap (by omega) (by omega), unwrap_wrap (by omega) (by omega)] at hlt ⊢
    exact hlt
  · have := h.window b hb
    have := hw b hb
    omega

/-- No block starts inside another one. -/
theorem Represents.fresh_inside {new : ℤ} (h : Represents base s (xs ++ b :: ys))
    (hlo : b.left < new) (hhi : new < b.right) : ∀ c ∈ xs ++ b :: ys, wrap c.left ≠ wrap new := by
  intro c hc e
  have hwb := h.window b (by simp)
  have hwc := h.window c hc
  have hcl : c.left = new := (wrap_inj (near_iff.mpr (by omega))).mp e
  have hap := h.apart
  rw [pairwise_append, pairwise_cons] at hap
  have hapart : c ∈ xs ++ ys → Block.Apart c b ∨ Block.Apart b c := fun hd =>
    (mem_append.mp hd).imp (fun hd => hap.2.2 c hd b (by simp)) (fun hd => hap.2.1.1 c hd)
  rcases mem_middle.mp hc with rfl | hcb
  · omega
  · rcases hapart hcb with h | h <;> unfold Block.Apart at h <;> omega

theorem Represents.not_mem_keys (h : Represents base s bs) {k : TcpSeq}
    (hfresh : ∀ c ∈ bs, wrap c.left ≠ k) : k ∉ keys s.blocks := by
  intro hk
  obtain ⟨e, he, hek⟩ := mem_map.mp hk
  obtain ⟨c, hc, hce, _⟩ := h.block_of_mem he
  exact hfresh c hc (hce.trans hek)

theorem Represents.apart_inside {new : ℤ} (h : Represents base s (xs ++ b :: ys))
    (hlo : b.left < new) : (xs ++ { b with left := new } :: ys).Pairwise Block.Apart := by
  have hap := h.apart
  rw [pairwise_append, pairwise_cons] at hap ⊢
  refine ⟨hap.1, ⟨fun c hc => ?_, hap.2.1.2⟩, fun c hc d hd => ?_⟩
  · have := hap.2.1.1 c hc
    unfold Block.Apart at this ⊢
    simp only
    omega
  · rcases mem_cons.mp hd with rfl | hd
    · have := hap.2.2 c hc b (by simp)
      unfold Block.Apart at this ⊢
      simp only
      omega
    · exact hap.2.2 c hc d (by simp [hd])

theorem renameBlockLeft_spec {new : ℤ}
    (h : Represents base s (xs ++ b :: ys)) (hlo : b.left < new) (hhi : new < b.right) :
    Represents base (renameBlockLeft s (wrap b.left) (wrap new))
      (xs ++ { b with left := new } :: ys) := by
  obtain ⟨st, hst, hright, e1, e2, hnx, hpv⟩ := h.node
  have hwb := h.window b (by simp)
  have hfresh := h.fresh_inside hlo hhi
  have hnone := h.not_mem_keys hfresh
  rw [← get_eq_none_iff cmp_eq_iff] at hnone
  have hge : TcpSeq.ge (wrap b.left) (wrap new) = false := by
    rw [Bool.eq_false_iff, ne_eq, ge_wrap (near_iff.mpr (by omega))]
    omega
  set rest := erase TcpSeq.cmp (wrap b.left) s.blocks with hrest
  set s0 : TcpSackState := { s with blocks := insert TcpSeq.cmp (wrap new) st rest }
    with hs0
  have hget0 : ∀ k, s0.get k = if k = wrap new then some st else
      if k = wrap b.left then none else s.get k := by
    intro k
    simp only [hs0, hrest, TcpSackState.get, get_insert cmp_eq_iff, get_erase cmp_eq_iff]
  have hsome {k : TcpSeq} (hk : (s.get k).isSome ∧ k ≠ wrap b.left) : (s0.get k).isSome := by
    rw [hget0]
    by_cases hkn : k = wrap new
    · simp [hkn]
    · rw [if_neg hkn, if_neg hk.2]
      exact hk.1
  obtain ⟨hsame, hnext, hprev⟩ := relink (s := s0) (some (wrap new)) (some (wrap new))
    (fun k hk => hsome (hpv k hk)) (fun k hk => hsome (hnx k hk))
  have hren : renameBlockLeft s (wrap b.left) (wrap new) =
      setPrevRecent (setNextRecent s0 st.prevRecent (some (wrap new))) st.nextRecent
        (some (wrap new)) := by
    simp only [renameBlockLeft, hge, containsKey, hnone, Option.isSome_none, Bool.or_self,
      Bool.false_eq_true, if_false, hst]
    rfl
  have hkeys : wrap new ∉ keys rest := by
    rw [hrest, ← get_eq_none_iff cmp_eq_iff, get_erase cmp_eq_iff]
    split
    · rfl
    · exact hnone
  rw [hren]
  refine ⟨?_, hsame.sorted ?_, ?_, ?_, h.apart_inside hlo⟩
  · have hring := h.ring
    rw [map_append, map_cons] at hring
    have hnew : some (wrap new) ∉ none :: ((xs.map fun c => some (wrap c.left)) ++
        some (wrap b.left) :: ys.map fun c => some (wrap c.left)) := by
      simp only [mem_cons, reduceCtorEq, mem_append, mem_map, Option.some.injEq,
        false_or, not_or, not_exists, not_and]
      exact ⟨fun c hc => hfresh c (by simp [hc]), fun e => hfresh b (by simp) e.symm,
        fun c hc => hfresh c (by simp [hc])⟩
    have hr := hring.rename hnew
    rw [e1, e2] at hr
    rw [map_append, map_cons, hnext, hprev]
    -- the old key is not on the new ring
    have hnode {x : Option TcpSeq} (hx : x ∈ none :: ((xs.map fun c => some (wrap c.left)) ++
        some (wrap new) :: ys.map fun c => some (wrap c.left))) {j : TcpSeq} (hj : x = some j) :
        s0.get j = if j = wrap new then some st else s.get j := by
      subst hj
      rw [hget0]
      by_cases hjn : j = wrap new
      · rw [if_pos hjn, if_pos hjn]
      · rw [if_neg hjn, if_neg hjn, if_neg]
        refine (h.neighbour (p := some j) ?_ rfl).2
        simp only [mem_cons, mem_append, Option.some.injEq] at hx ⊢
        tauto
    refine hr.congr (fun x hx => ?_) (fun x hx => ?_)
    · rw [update_apply, update_apply]
      split
      · rfl
      · exact link_inserted fun j => hnode hx
    · rw [update_apply, update_apply]
      split
      · rfl
      · exact link_inserted fun j => hnode hx
  · refine (h.sorted.erase _).insert (ranks_of_window fun k hk => ?_)
    rcases mem_cons.mp hk with rfl | hk
    · exact ⟨new, rfl, by omega, by omega⟩
    · obtain ⟨e, he, rfl⟩ := mem_map.mp hk
      obtain ⟨c, hc, hce, _⟩ := h.block_of_mem ((mem_erase cmp_eq_iff).mp he).1
      have := h.window c hc
      exact ⟨c.left, hce.symm, by omega, by omega⟩
  · rw [hsame.ranges]
    have hins := (insert_perm cmp_eq_iff (v := st) hkeys).map fun e => (e.1, e.2.right)
    refine hins.trans (((h.erase_content).cons _).trans ?_)
    simp only [hright, map_append, map_cons]
    exact perm_middle.symm
  · intro c hc
    rcases mem_middle.mp hc with rfl | hc
    · exact ⟨by simp; omega, by omega, hwb.2.2⟩
    · exact h.window c (mem_middle.mpr (Or.inr hc))

theorem insertBlock_spec {m r : ℤ} (stamp : ℕ) (h : Represents base s bs)
    (hlo : base ≤ m) (hmr : m < r) (hhi : r < base + 2147483648)
    (hap : ∀ b ∈ bs, Block.Apart ⟨m, r, stamp⟩ b) :
    Represents base (insertBlockAsMostRecent s ⟨wrap m, wrap r⟩) (⟨m, r, stamp⟩ :: bs) := by
  have hfresh : ∀ c ∈ bs, wrap c.left ≠ wrap m := by
    intro c hc e
    have hwc := h.window c hc
    have hcl : c.left = m := (wrap_inj (near_iff.mpr (by omega))).mp e
    have := hap c hc
    simp only [Block.Apart] at this
    omega
  have hkeys := h.not_mem_keys hfresh
  set st : TcpSackBlockState := ⟨wrap r, none, s.recentHead⟩ with hst
  set s0 : TcpSackState := { s with blocks := insert TcpSeq.cmp (wrap m) st s.blocks }
    with hs0
  set s1 := setPrevRecent s0 s.recentHead (some (wrap m)) with hs1
  have hget0 : ∀ k, s0.get k = if k = wrap m then some st else s.get k := fun k =>
    get_insert cmp_eq_iff _ _ _ _
  have hsame : SameRanges s0 s1 := sameRanges_setPrevRecent _ _ _
  have hhead : s.recentHead ∈ none :: bs.map fun c => some (wrap c.left) := h.ring.next_mem
  have hprev : prevOf s1 = update (prevOf s0) s.recentHead (some (wrap m)) := by
    refine prevOf_setPrevRecent fun k hk => ?_
    rw [hk] at hhead
    simp only [mem_cons, reduceCtorEq, mem_map, Option.some.injEq, false_or] at hhead
    obtain ⟨c, hc, rfl⟩ := hhead
    obtain ⟨st', hst', _⟩ := h.get_of_mem hc
    rw [hget0, if_neg (hfresh c hc), hst']
    rfl
  have hnext : nextOf s1 = nextOf s0 := nextOf_setPrevRecent
  refine ⟨?_, hsame.sorted (h.sorted.insert (h.ranks hlo (by omega))), ?_, ?_, ?_⟩
  · have hnew : some (wrap m) ∉ none :: bs.map fun c => some (wrap c.left) := by
      simp only [mem_cons, reduceCtorEq, mem_map, Option.some.injEq, false_or, not_exists, not_and]
      exact hfresh
    have hr := h.ring.insert hnew
    refine hr.congr (fun x hx => ?_) (fun x hx => ?_)
    · cases x with
      | none => simp [nextOf, link, insertBlockAsMostRecent]
      | some k =>
        rw [update_of_ne (by simp)]
        exact (congrFun hnext (some k)).trans (link_inserted fun j _ => hget0 j)
    · have h1 : prevOf (insertBlockAsMostRecent s ⟨wrap m, wrap r⟩) x = prevOf s1 x := rfl
      rw [h1, hprev, show nextOf s none = s.recentHead from rfl, update_apply, update_apply]
      split
      · rfl
      · exact link_inserted fun j _ => hget0 j
  · have h1 : ranges (insertBlockAsMostRecent s ⟨wrap m, wrap r⟩) = ranges s0 := hsame.ranges
    rw [h1]
    exact ((insert_perm cmp_eq_iff (v := st) hkeys).map _).trans (h.content.cons _)
  · intro c hc
    rcases mem_cons.mp hc with rfl | hc
    · exact ⟨hlo, hmr, hhi⟩
    · exact h.window c hc
  · exact pairwise_cons.mpr ⟨hap, h.apart⟩

theorem trimBlockCapacity_spec (h : Represents base s bs) (hlen : bs.length ≤ 256) :
    Represents base (trimBlockCapacity s) (bs.take 255) := by
  have hl := h.length
  have hloop : Represents base (trimLoop s.blocks.length s) (bs.take 255) := by
    by_cases hgt : bs.length = 256
    · rcases bs.eq_nil_or_concat with rfl | ⟨xs, b, rfl⟩
      · simp at hgt
      · rw [concat_eq_append] at *
        have hring := h.ring
        rw [map_append] at hring
        have htail : s.recentTail = some (wrap b.left) := hring.prev_head
        obtain ⟨s', e, hr⟩ := removeBlock_spec h
        have hxs : xs.length = 255 := by simpa using hgt
        rw [append_nil] at hr
        have hl' := hr.length
        rw [hl, hgt]
        rw [take_left' hxs]
        have h256 : s.blocks.length > TCP_MAX_SACK_BLOCKS := by
          rw [hl, hgt]; decide
        have h255 : ¬ s'.blocks.length > TCP_MAX_SACK_BLOCKS := by
          rw [hl', hxs]; decide
        rw [trimLoop, if_pos h256, htail]
        simp only [e]
        rw [trimLoop, if_neg h255]
        exact hr
    · have hle : ¬ s.blocks.length > TCP_MAX_SACK_BLOCKS := by
        rw [TCP_MAX_SACK_BLOCKS]; omega
      rw [take_of_length_le (by omega)]
      cases hn : s.blocks.length with
      | zero => exact h
      | succ n =>
        rw [trimLoop, if_neg hle]
        exact h
  obtain ⟨p, hp⟩ := clampOutputPos_eq (trimLoop s.blocks.length s)
  rw [trimBlockCapacity, hp]
  exact hloop.outputPos p

end SackState
