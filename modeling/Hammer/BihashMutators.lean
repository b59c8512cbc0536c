import Hammer.BihashBuckets

/-! # The mutators

One specification for each operation, in terms of the live pairs of the key's bucket. A mutator
panics only if it cannot get a block.
-/
namespace Bihash

open Bucket List

variable {K : Type} {g : Layout K} {h : Table K} {idx : ℕ}

variable {kv : Kv K}

variable {slot : Slot}

theorem OnTarget.modifySlot {log2 : ℕ} {pages : List (ValuePage K)} {f : Kv K → Kv K}
    (ht : OnTarget g h log2 pages) (hs : SlotIs pages slot kv)
    (hf : (f kv).isFree = false → targetPage g h log2 (f kv).key = slot.1) :
    OnTarget g h log2 (modifySlot pages slot f) := by
  intro p page hp x hx hxf
  obtain ⟨page0, h₁, h2⟩ := hs
  rw [Bihash.modifySlot, getElem?_modify] at hp
  obtain ⟨q, hq, hpage⟩ := Option.map_eq_some_iff.mp hp
  split at hpage
  · next hpe =>
    rw [← hpe, h₁] at hq
    obtain rfl : page0 = q := by simpa using hq
    obtain ⟨i, hi⟩ := mem_iff_getElem?.mp hx
    rw [← hpage, getElem?_modify] at hi
    obtain ⟨y, hy, hyx⟩ := Option.map_eq_some_iff.mp hi
    split at hyx
    · next hie =>
      rw [← hie, h2] at hy
      obtain rfl : kv = y := by simpa using hy
      rw [← hyx] at hxf ⊢
      rw [hf hxf, hpe]
    · exact hyx ▸ hpe ▸ ht slot.1 page0 h₁ y (mem_of_getElem? hy) (hyx ▸ hxf)
  · exact ht p page (hpage ▸ hq) x hx hxf

variable {h' : Table K} {ps : List (K × ℕ)} {rs : List (ℕ × ℕ)} {P : Shared K → Prop} {s t : Shared K}

theorem Changes.perm {ps' : List (K × ℕ)} (c : Changes g P h idx ps t) (hp : ps.Perm ps') :
    Changes g P h idx ps' t :=
  ⟨c.quiet, c.edits, c.pairs.trans hp, c.supply⟩

section

variable {locked : ℕ → Prop} (l : Inv g h rs locked) (hidx : idx < h.nbuckets)
  (he : (h.buckets idx).isEmpty = false)
include l hidx he

theorem Inv.shape : Shape g (h.buckets idx).log2Pages (h.blocks (h.buckets idx).offset).pages := by
  have hr := l.sound.parts.owned_range hidx he
  rw [← (l.holds idx hidx).cls he]
  exact l.sound.parts.shape _ hr.1 hr.2

theorem Inv.log2Pages_le : (h.buckets idx).log2Pages ≤ MAX_LOG2_PAGES := by
  have hr := l.sound.parts.owned_range hidx he
  rw [← (l.holds idx hidx).cls he]
  exact l.sound.parts.class_le _ hr.1 hr.2

end

/-- There is room for one more pair in a block of the largest class, and its count fits. -/
def Room (g : Layout K) (h : Table K) (idx : ℕ) : Prop :=
  (contents h idx).length + 1 ≤ 2 ^ MAX_LOG2_PAGES * g.kvp ∧ (contents h idx).length + 1 < 2 ^ 16

/-- What `inspect_locked` tells about a bucket. -/
structure Inspected (g : Layout K) (h : Table K) (idx : ℕ) (key : K)
    (r : Option (Slot × ℕ) × Option Slot) : Prop where
  found : ∀ slot v, r.1 = some (slot, v) →
    SlotIs (h.blocks (h.buckets idx).offset).pages slot ⟨key, v⟩ ∧ v ≠ FREE_U64
  absent : r.1 = none → ∀ v, (key, v) ∉ contents h idx
  free : ∀ slot, r.2 = some slot →
    ∃ kv, SlotIs (h.blocks (h.buckets idx).offset).pages slot kv ∧ kv.isFree = true ∧
      InRegion g h (h.buckets idx).log2Pages (h.buckets idx).isLinearSearch key slot.1

variable {key : K} {v c : ℕ}

theorem Inspected.mem {r : Option (Slot × ℕ) × Option Slot} (i : Inspected g h idx key r)
    (he : (h.buckets idx).isEmpty = false) (hr : r.1 = some (slot, v)) :
    (key, v) ∈ contents h idx := by
  obtain ⟨hs, hv⟩ := i.found slot v hr
  rw [contents_live he]
  exact mem_live_iff.mpr ⟨hv, slot, hs⟩

section Inspect

variable [DecidableEq K]

theorem inspectLocked_inspected
    (hr : 1 ≤ (h.buckets idx).offset ∧ (h.buckets idx).offset ≤ h.blocksLen)
    (hs : Shape g (h.buckets idx).log2Pages (h.blocks (h.buckets idx).offset).pages)
    (hp : (h.buckets idx).isLinearSearch = false →
      OnTarget g h (h.buckets idx).log2Pages (h.blocks (h.buckets idx).offset).pages)
    (he : (h.buckets idx).isEmpty = false) (key : K) :
    ∃ r, inspectLocked g h (h.buckets idx) key = some r ∧ Inspected g h idx key r := by
  have hspec := scanPages_spec (g := g) h hs.1 (h.buckets idx).isLinearSearch key
  refine ⟨scanPages g h (h.blocks (h.buckets idx).offset).pages (h.buckets idx).log2Pages
    (h.buckets idx).isLinearSearch key, ?_, ⟨fun slot v e => ?_, fun e => ?_, fun slot e => ?_⟩⟩
  · rw [inspectLocked, livePages, if_neg (by omega), Option.map_some]
  · obtain ⟨hc, hv⟩ := hspec.found slot v e
    exact ⟨hc.1, hv⟩
  · rw [contents_live he]
    exact scanPages_absent hs.1 hp e
  · rcases hspec.free slot e with h' | ⟨kv, hc, hf⟩
    · cases h'
    · exact ⟨kv, hc.1, hf, hc.2⟩

theorem inspectLocked_spec {locked : ℕ → Prop} (l : Inv g h rs locked) (hidx : idx < h.nbuckets)
    (he : (h.buckets idx).isEmpty = false) (key : K) :
    ∃ r, inspectLocked g h (h.buckets idx) key = some r ∧ Inspected g h idx key r :=
  inspectLocked_inspected (l.sound.parts.owned_range hidx he) (l.shape hidx he)
    ((l.holds idx hidx).placed he) he key

end Inspect

theorem filter_live_length (kvs : List (Kv K)) :
    (kvs.filter fun kv => !kv.isFree).length = (kvs.filterMap Kv.pair).length := by
  induction kvs with
  | nil => rfl
  | cons kv kvs ih =>
    cases hf : kv.isFree with
    | true => rw [filterMap_cons_none (pair_of_free hf)]; simpa [hf] using ih
    | false => rw [filterMap_cons_some (pair_of_not_free hf)]; simpa [hf] using ih

/-- What `rehash` returns: a held block with the old pairs and the new one. -/
structure Copied (g : Layout K) (P : Shared K → Prop) (h : Table K) (idx : ℕ) (kv : Kv K) (c : ℕ)
    (linear : Bool) (t : Shared K × Rehashed K) : Prop where
  sound : Sound g t.1.table t.1.retired [t.2.offset]
  frame : Frame h t.1.table
  cls : (t.1.table.blocks t.2.offset).log2Pages = c
  live : (live (t.1.table.blocks t.2.offset).pages).Perm ((kv.key, kv.value) :: contents h idx)
  refcnt : t.2.refcnt = (contents h idx).length + 1
  placed : t.2.displaced = false → linear = false →
    OnTarget g h c (t.1.table.blocks t.2.offset).pages
  supply : P t.1

theorem Inv.fits_added (l : Locked g h rs idx) (hidx : idx < h.nbuckets)
    (hk : bucketIdx g h kv.key = idx) (habs : ∀ v, (kv.key, v) ∉ contents h idx)
    {pages : List (ValuePage K)} (hlive : (live pages).Perm ((kv.key, kv.value) :: contents h idx))
    {b : Bucket} (hu : b.isLocked = false)
    (hp : b.isLinearSearch = false → OnTarget g h b.log2Pages pages)
    (hr : b.refcnt = ((contents h idx).length + 1) % 2 ^ 13) : Fits g h idx b pages := by
  refine ⟨hu, hp, by rw [hlive.length_eq, hr]; rfl, ?_, fun p hm => ?_⟩
  · rw [(hlive.map Prod.fst).nodup_iff, map_cons, nodup_cons]
    refine ⟨fun hm => ?_, (l.holds idx hidx).keys⟩
    obtain ⟨⟨k, v⟩, hm, rfl⟩ := mem_map.mp hm
    exact habs v hm
  · rcases mem_cons.mp (hlive.mem_iff.mp hm) with rfl | hm
    · exact hk
    · exact (l.holds idx hidx).home p hm

theorem filter_middle [DecidableEq K] {xs ys : List (K × ℕ)} (hne : ∀ p ∈ xs ++ ys, p.1 ≠ key) :
    (xs ++ (key, v) :: ys).filter (·.1 ≠ key) = xs ++ ys := by
  rw [filter_append, filter_cons_of_neg (by simp),
    ← filter_append, filter_eq_self.mpr (by simpa using hne)]

theorem Inv.contents_length_le (l : Locked g h rs idx) (hidx : idx < h.nbuckets) :
    (contents h idx).length ≤ h.len := by
  obtain ⟨rest, hp, _⟩ := (Edits.setLen h idx h.len).entries_perm hidx
  rw [l.len, hp.length_eq, length_append]
  omega

theorem Inv.split_at (l : Locked g h rs idx) (hidx : idx < h.nbuckets)
    (he : (h.buckets idx).isEmpty = false)
    (hs : SlotIs (h.blocks (h.buckets idx).offset).pages slot ⟨key, v⟩)
    (hv : v ≠ FREE_U64) : ∃ xs ys, contents h idx = xs ++ (key, v) :: ys ∧
      (∀ f, live (modifySlot (h.blocks (h.buckets idx).offset).pages slot f) =
        xs ++ (f ⟨key, v⟩).pair.toList ++ ys) ∧ ∀ p ∈ xs ++ ys, p.1 ≠ key := by
  obtain ⟨xs, ys, e1, e2⟩ := live_modifySlot hs
  have hc : contents h idx = xs ++ (key, v) :: ys := by
    rw [contents_live he, e1, pair_of_value hv]
    simp
  refine ⟨xs, ys, hc, e2, fun p hp hk => ?_⟩
  have hnd := (l.holds idx hidx).keys
  rw [hc, (perm_middle.map _).nodup_iff, map_cons, nodup_cons] at hnd
  exact hnd.1 (mem_map.mpr ⟨p, hp, hk⟩)

section Bucket

variable [Inhabited K] {hz : Hazards} {e : Prop} {B : ℕ → Shared K → Prop} {n : ℕ}

/-- A rehash into the block that `allocate` gives, which has room for the old pairs and the new
one. -/
theorem rehash_eq {h₁ : Table K} {o : ℕ} (hal : allocate g h' c = some (h₁, o)) (fr : Frame h h₁)
    (hfresh : h₁.blocks o = ⟨freshPages g c, c⟩) (hidx : idx < h.nbuckets)
    (he : (h.buckets idx).isEmpty = false) (hv : kv.isFree = false) (linear : Bool)
    (hroom : (contents h idx).length + 1 ≤ 2 ^ c * g.kvp) : ∃ pages displaced, Shape g c pages ∧
      (live pages).Perm ((kv.key, kv.value) :: contents h idx) ∧
      (displaced = false → linear = false → OnTarget g h c pages) ∧
      rehash g h' (h.buckets idx) kv c linear =
        if 2 ^ 16 ≤ (contents h idx).length + 1 then none
        else some ⟨setPages h₁ o pages, o, (contents h idx).length + 1, displaced⟩ := by
  have hpairs : (h₁.blocks (h.buckets idx).offset).pages.flatten.filterMap Kv.pair =
      contents h idx := by
    rw [fr.blocks idx hidx he, contents_live he]
    rfl
  obtain ⟨s, r, e1, e2, hs, hlive, ht⟩ := placeAll_fresh (g := g) h₁ c linear
    (h₁.blocks (h.buckets idx).offset).pages.flatten hv (by rw [hpairs]; exact hroom)
  rw [hpairs] at hlive
  refine ⟨r.1, s.2 || !r.2, hs, hlive, fun hd hl => ?_, ?_⟩
  · exact (Edits.of_frame idx fr).onTarget.mp (ht hd hl)
  · simp only [rehash, hal, hfresh, e1, e2]
    rw [filter_live_length, hpairs]

variable (S : Supply g hz e B)
include S

/-- The attempts of a split work on tables that differ from `h` in held and free blocks. -/
theorem rehash_spec (f : Frame h s.table) (sd : Sound g s.table s.retired []) (hB : B (n + 1) s)
    (hidx : idx < h.nbuckets) (he : (h.buckets idx).isEmpty = false) (hv : kv.isFree = false)
    (hc : c ≤ MAX_LOG2_PAGES) (linear : Bool)
    (hroom : (contents h idx).length + 1 ≤ 2 ^ c * g.kvp)
    (hsmall : (contents h idx).length + 1 < 2 ^ 16) :
    Unless e (Copied g (B n) h idx kv c linear)
      (Shared.rehash g hz s (h.buckets idx) kv c linear) := by
  have hal := S.allocate hB sd hc
  unfold Shared.rehash
  cases hr : allocate g (Shared.collectRetired hz s).table c with
  | none =>
    rw [hr] at hal
    simp only [rehash, hr]
    exact hal
  | some r =>
    rw [hr] at hal
    obtain ⟨fr, hfresh, hheld⟩ := allocate_sound sd hr
    obtain ⟨pages, d, hs, hlive, ht, heq⟩ :=
      rehash_eq hr (f.trans fr) hfresh hidx he hv linear hroom
    obtain ⟨sd₁, fr₁, hpages⟩ := hheld pages hs
    dsimp only
    rw [heq, if_neg (by omega)]
    refine ⟨sd₁, f.trans fr₁, ?_, ?_, rfl, ?_, S.same hal rfl (census_setPages ..)⟩
    all_goals simp only [hpages]
    · exact hlive
    · exact ht

theorem Copied.retired {linear : Bool} {t : Shared K × Rehashed K}
    (k : Copied g (B n) h idx kv c linear t) :
    Sound g (t.1.retire hz t.2.offset c).table (t.1.retire hz t.2.offset c).retired [] ∧
      Frame h (t.1.retire hz t.2.offset c).table ∧ B n (t.1.retire hz t.2.offset c) := by
  obtain ⟨f, hf⟩ := retire_table hz t.1 t.2.offset c
  refine ⟨k.sound.retire k.cls hz, ?_, S.retire _ _ k.supply⟩
  rw [hf]
  exact k.frame.trans (Frame.freelists ..)

section

variable {k : ℕ} (l : Locked g h rs idx) (hidx : idx < h.nbuckets)
include l hidx

theorem insertFirst_spec (hB : B (n + 1) ⟨h, rs, k⟩) (he : (h.buckets idx).isEmpty = true)
    (hv : kv.isFree = false) (hk : bucketIdx g h kv.key = idx) (hroom : Room g h idx) :
    Unless e (Changes g (B n) h idx ((kv.key, kv.value) :: contents h idx))
      (Shared.insertFirst g hz ⟨h, rs, k⟩ idx kv) := by
  have hkvp : 0 < g.kvp := Nat.pos_of_ne_zero fun h0 => by have := hroom.1; simp [h0] at this
  have hnil := contents_empty he
  have hal := S.allocate hB l.sound (Nat.zero_le _)
  unfold Shared.insertFirst insertFirst
  cases hr : allocate g (Shared.collectRetired hz ⟨h, rs, k⟩).table 0 with
  | none =>
    rw [hr] at hal
    simp only [hr]
    exact hal
  | some r =>
    rw [hr] at hal
    obtain ⟨-, hfresh, hheld⟩ := allocate_sound (s := ⟨h, rs, k⟩) l.sound hr
    obtain ⟨x, slots, hfirst, hshape, hlive, htgt⟩ := freshPages_first (g := g) hkvp hv
    obtain ⟨sd, fr, hpages⟩ := hheld [kv :: slots] hshape
    have hB₁ : B n { Shared.collectRetired hz ⟨h, rs, k⟩ with
      table := setPages r.1 r.2 [kv :: slots] } := S.same hal rfl (census_setPages ..)
    have hor := sd.parts.held_range (o := r.2) (by simp)
    have hbo : (pack r.2 0 1 0 false false).offset = r.2 := by
      rw [pack_offset, Nat.mod_eq_of_lt (hor.2.trans_lt (S.offset hB₁ sd))]
    have hperm : (live ((setPages r.1 r.2 [kv :: slots]).blocks r.2).pages).Perm
        ((kv.key, kv.value) :: contents h idx) := by
      rw [hpages, hlive, hnil]
    have hfit : Fits g h idx (pack r.2 0 1 0 false false)
        ((setPages r.1 r.2 [kv :: slots]).blocks r.2).pages := by
      refine l.fits_added hidx hk (by simp [hnil]) hperm (pack_isLocked ..) (fun _ => ?_) ?_
      · rw [pack_log2Pages, hpages]
        exact htgt h
      · rw [pack_refcnt, hnil]
        rfl
    have hlen : r.1.len = h.len := fr.len
    have := Inv.install S hidx l fr sd (m := r.1.len + 1) hbo (by rw [pack_log2Pages, hpages]; rfl)
      hfit (by rw [hperm.length_eq, hlen, length_cons]; omega) hB₁
    simp only [hr, hfresh, hfirst, Option.bind_some]
    simp only [he, if_true] at this
    exact this.perm hperm

theorem Inv.store_empty (hB : B n ⟨h, rs, k⟩) (he : (h.buckets idx).isEmpty = true) :
    Changes g (B n) h idx (contents h idx) ⟨storeBucket h idx .empty, rs, k⟩ := by
  have hb := storeBucket_self h idx .empty
  have hemp : ((storeBucket h idx .empty).buckets idx).isEmpty = true := by
    rw [hb]; exact isEmpty_empty
  have hc := contents_empty hemp
  have := l.finish (t := ⟨storeBucket h idx .empty, rs, k⟩) hidx (Edits.store ..)
    (l.sound.store hidx (by simp [owned, he, hemp])) (.of_empty hb)
    (by rw [hb]; exact isLocked_empty) (by rw [hc, contents_empty he]; rfl) (S.same hB rfl rfl)
  rwa [hc, ← contents_empty he] at this

section

variable (he : (h.buckets idx).isEmpty = false)
include he

section

variable (hB : B n ⟨h, rs, k⟩)
include hB

theorem Inv.fill {x : Kv K} (hv : kv.isFree = false) (hk : bucketIdx g h kv.key = idx)
    (habs : ∀ v, (kv.key, v) ∉ contents h idx)
    (hs : SlotIs (h.blocks (h.buckets idx).offset).pages slot x) (hx : x.isFree = true)
    (hreg : InRegion g h (h.buckets idx).log2Pages (h.buckets idx).isLinearSearch kv.key slot.1) :
    Changes g (B n) h idx ((kv.key, kv.value) :: contents h idx) (Shared.addLen
      ⟨publishUnlocked (writeSlot h (h.buckets idx).offset slot fun _ => kv) idx (h.buckets idx)
        ((h.buckets idx).refcnt + 1), rs, k⟩ (h.len + 1)) := by
  have hperm := live_fill hs hx hv
  rw [← contents_live he] at hperm
  have hfit := l.fits_added (b := pack (h.buckets idx).offset (h.buckets idx).log2Pages
      ((h.buckets idx).refcnt + 1) (h.buckets idx).generation (h.buckets idx).isLinearSearch false)
    hidx hk habs hperm (pack_isLocked ..) (fun hl => by
      rw [pack_isLinearSearch] at hl
      rw [pack_log2Pages_self]
      refine ((l.holds idx hidx).placed he hl).modifySlot hs fun _ => ?_
      rcases hreg with hr | hr
      · rw [hl] at hr; cases hr
      · exact hr.symm)
    (by rw [pack_refcnt, (l.holds idx hidx).refcnt, Nat.mod_add_mod])
  exact (Inv.rewrite S l hidx hB he ((l.shape hidx he).modifySlot slot _) (pack_offset_self ..)
    (pack_log2Pages_self ..) hfit (by rw [hperm.length_eq, length_cons]; omega)).perm hperm

variable [DecidableEq K]

theorem Inv.overwrite {value : ℕ}
    (hs : SlotIs (h.blocks (h.buckets idx).offset).pages slot ⟨key, v⟩) (hv : v ≠ FREE_U64)
    (hvalue : value ≠ FREE_U64) :
    Changes g (B n) h idx ((key, value) :: (contents h idx).filter (·.1 ≠ key)) ⟨unlockUnchanged
        (writeSlot h (h.buckets idx).offset slot fun kv => { kv with value := value })
        idx (h.buckets idx), rs, k⟩ := by
  obtain ⟨xs, ys, hc, hmod, hne⟩ := l.split_at hidx he hs hv
  have hlive := hmod fun kv => { kv with value := value }
  rw [pair_of_value hvalue] at hlive
  simp only [Option.toList_some, append_assoc, singleton_append] at hlive
  have hb := alike_pack (h.buckets idx) (h.buckets idx).generation false
  have hh := l.holds idx hidx
  have hfst : (xs ++ (key, value) :: ys).map Prod.fst = (xs ++ (key, v) :: ys).map Prod.fst := by
    simp
  have hfit : Fits g h idx (pack (h.buckets idx).offset (h.buckets idx).log2Pages
      (h.buckets idx).refcnt (h.buckets idx).generation (h.buckets idx).isLinearSearch false)
      (modifySlot (h.blocks (h.buckets idx).offset).pages slot
        fun kv => { kv with value := value }) := by
    refine ⟨pack_isLocked .., fun hl => ?_, ?_, ?_, fun p hp => ?_⟩
    · rw [hb.log2Pages]
      rw [hb.linear] at hl
      refine (hh.placed he hl).modifySlot hs fun _ => ?_
      obtain ⟨page, hp, hi⟩ := hs
      exact hh.placed he hl slot.1 page hp ⟨key, v⟩ (mem_of_getElem? hi)
        (isFree_of_value key hv)
    · rw [hlive, hb.refcnt, hh.refcnt, hc]
      simp
    · rw [hlive, hfst, ← hc]
      exact hh.keys
    · have hk : p.1 ∈ (contents h idx).map Prod.fst := by
        rw [hc, ← hfst, ← hlive]
        exact mem_map_of_mem hp
      obtain ⟨q, hq, hqp⟩ := mem_map.mp hk
      rw [← hqp]
      exact hh.home q hq
  have := Inv.rewrite S l hidx hB (m := h.len) he ((l.shape hidx he).modifySlot slot _) hb.offset
    hb.log2Pages hfit (by rw [hlive, hc]; simp)
  refine this.perm ?_
  rw [hlive, hc, filter_middle hne]
  exact perm_middle

theorem removeSlot_spec (hs : SlotIs (h.blocks (h.buckets idx).offset).pages slot ⟨key, v⟩)
    (hv : v ≠ FREE_U64) (hsmall : (contents h idx).length < 2 ^ 13) :
    ∃ t, Shared.removeSlot hz ⟨h, rs, k⟩ idx (h.buckets idx) slot = some t ∧
      Changes g (B n) h idx ((contents h idx).filter (·.1 ≠ key)) t := by
  obtain ⟨xs, ys, hc, hmod, hne⟩ := l.split_at hidx he hs hv
  have hlive := hmod Kv.markFree
  rw [pair_of_free (by simp [Kv.isFree, Kv.markFree])] at hlive
  simp only [Option.toList_none, append_nil] at hlive
  have hh := l.holds idx hidx
  have hlen : (contents h idx).length = (xs ++ ys).length + 1 := by
    rw [hc]; simp; omega
  have hrc : (h.buckets idx).refcnt = (xs ++ ys).length + 1 := by
    rw [hh.refcnt, Nat.mod_eq_of_lt hsmall, hlen]
  have hpos := l.contents_length_le hidx
  have hshape := (l.shape hidx he).modifySlot slot Kv.markFree
  have hfilter : (contents h idx).filter (·.1 ≠ key) = xs ++ ys := by rw [hc, filter_middle hne]
  unfold Shared.removeSlot
  simp only [hrc, Nat.add_eq_zero_iff, one_ne_zero, and_false, if_false]
  refine ⟨_, rfl, ?_⟩
  rw [hfilter]
  split
  · have hnil : xs ++ ys = [] := length_eq_zero_iff.mp (by omega)
    obtain ⟨f, hf⟩ := retire_table hz ⟨storeBucket (writeSlot h (h.buckets idx).offset slot
      Kv.markFree) idx .empty, rs, k⟩ (h.buckets idx).offset (h.buckets idx).log2Pages
    rw [hnil, hf]
    exact Inv.release S l hidx hB he hshape (m := h.len - 1) (by omega)
  · set b := pack (h.buckets idx).offset (h.buckets idx).log2Pages
      ((xs ++ ys).length + 1 - 1) (h.buckets idx).generation (h.buckets idx).isLinearSearch false
      with hb
    have hbo : b.offset = (h.buckets idx).offset := pack_offset_self ..
    have hbl : b.log2Pages = (h.buckets idx).log2Pages := pack_log2Pages_self ..
    have hsub : ∀ p ∈ xs ++ ys, p ∈ contents h idx := by
      intro p hp
      rw [hc]
      simp only [mem_append, mem_cons] at hp ⊢
      tauto
    have hfit : Fits g h idx b
        (modifySlot (h.blocks (h.buckets idx).offset).pages slot Kv.markFree) := by
      refine ⟨pack_isLocked .., fun hl => ?_, ?_, ?_, fun p hp => ?_⟩
      · rw [pack_isLinearSearch] at hl
        rw [hbl]
        exact (hh.placed he hl).modifySlot hs fun hf => by simp [Kv.isFree, Kv.markFree] at hf
      · rw [hlive, pack_refcnt]
        rfl
      · have hk := hh.keys
        rw [hc, (perm_middle.map _).nodup_iff, map_cons, nodup_cons] at hk
        rw [hlive]
        exact hk.2
      · exact hh.home p (hsub p (hlive ▸ hp))
    have := Inv.rewrite S l hidx hB he (m := h.len - 1) hshape hbo hbl hfit (by rw [hlive]; omega)
    rwa [hlive] at this

end

/-- The attempts of a split: twice with the pages chosen by the hash, then without. -/
theorem attempts_spec (hB : B 3 ⟨h, rs, k⟩) (hv : kv.isFree = false) (hroom : Room g h idx)
    (hc : c ≤ MAX_LOG2_PAGES) (hlen : (contents h idx).length + 1 ≤ 2 ^ c * g.kvp) :
    Unless e (fun x : (Shared K × Rehashed K) × ℕ × Bool => x.2.1 ≤ MAX_LOG2_PAGES ∧
        ∃ n linear, Copied g (B n) h idx kv x.2.1 linear x.1 ∧
          (x.2.2 = false → OnTarget g h x.2.1 (x.1.1.table.blocks x.1.2.offset).pages))
      ((Shared.rehash g hz ⟨h, rs, k⟩ (h.buckets idx) kv c false).bind fun t =>
        if !t.2.displaced then some (t, c, false)
        else (Shared.rehash g hz (t.1.retire hz t.2.offset c) (h.buckets idx) kv
            (min (c + 1) MAX_LOG2_PAGES) false).bind fun t =>
          if !t.2.displaced then some (t, min (c + 1) MAX_LOG2_PAGES, false)
          else (Shared.rehash g hz (t.1.retire hz t.2.offset (min (c + 1) MAX_LOG2_PAGES))
              (h.buckets idx) kv c true).map fun t => (t, c, true)) := by
  have hretry : min (c + 1) MAX_LOG2_PAGES ≤ MAX_LOG2_PAGES := Nat.min_le_right ..
  have hlen' : (contents h idx).length + 1 ≤ 2 ^ min (c + 1) MAX_LOG2_PAGES * g.kvp :=
    hlen.trans (Nat.mul_le_mul_right _ (Nat.pow_le_pow_right (by decide) (by omega)))
  refine (rehash_spec S (.refl h) l.sound hB hidx he hv hc false hlen hroom.2).bind fun t k => ?_
  cases hd : t.2.displaced with
  | false => exact ⟨hc, 2, false, k, fun _ => k.placed hd rfl⟩
  | true =>
    obtain ⟨sd₁, f₁, hB₁⟩ := k.retired S
    refine (rehash_spec S f₁ sd₁ hB₁ hidx he hv hretry false hlen' hroom.2).bind fun t k => ?_
    cases hd : t.2.displaced with
    | false => exact ⟨hretry, 1, false, k, fun _ => k.placed hd rfl⟩
    | true =>
      obtain ⟨sd₂, f₂, hB₂⟩ := k.retired S
      refine (rehash_spec S f₂ sd₂ hB₂ hidx he hv hc true hlen hroom.2).map fun t k => ?_
      exact ⟨hc, 0, true, k, by simp⟩

section

variable (hB : B 3 ⟨h, rs, k⟩) (hv : kv.isFree = false) (hk : bucketIdx g h kv.key = idx)
  (hroom : Room g h idx)
include hB hv hk hroom

theorem splitAndRehash_spec (habs : ∀ v, (kv.key, v) ∉ contents h idx) :
    Unless e (Changes g (B 0) h idx ((kv.key, kv.value) :: contents h idx))
      (Shared.splitAndRehash g hz ⟨h, rs, k⟩ idx (h.buckets idx) kv) := by
  have hlen : (contents h idx).length ≤ 2 ^ (h.buckets idx).log2Pages * g.kvp := by
    rw [contents_live he]
    exact live_length_le (l.shape hidx he)
  have hkvp : 0 < g.kvp := Nat.pos_of_ne_zero fun h0 => by have := hroom.1; simp [h0] at this
  refine Unless.map (P := fun x : (Shared K × Rehashed K) × ℕ × Bool => x.2.1 ≤ MAX_LOG2_PAGES ∧
    ∃ n linear, Copied g (B n) h idx kv x.2.1 linear x.1 ∧
      (x.2.2 = false → OnTarget g h x.2.1 (x.1.1.table.blocks x.1.2.offset).pages)) ?_ ?_
  · cases hcap : decide (MAX_LOG2_PAGES < (h.buckets idx).log2Pages + 1) with
    | false =>
      have hle : (h.buckets idx).log2Pages + 1 ≤ MAX_LOG2_PAGES := by simpa using hcap
      rw [Nat.min_eq_left hle]
      refine attempts_spec S l hidx he hB hv hroom hle ?_
      have := Nat.mul_pos (Nat.two_pow_pos (h.buckets idx).log2Pages) hkvp
      rw [pow_succ, Nat.mul_right_comm]
      omega
    | true =>
      have hle : MAX_LOG2_PAGES < (h.buckets idx).log2Pages + 1 := by simpa using hcap
      rw [Nat.min_eq_right hle.le]
      refine (rehash_spec S (.refl h) l.sound hB hidx he hv le_rfl true hroom.1 hroom.2).map
        fun t k => ?_
      exact ⟨le_rfl, 2, true, k, by simp⟩
  · rintro ⟨⟨t, r⟩, c, linear⟩ ⟨hc, n, lin, k, hp⟩
    simp only at hc k hp ⊢
    have hor := k.sound.parts.held_range (mem_append_right _ (mem_singleton_self _))
    have hc8 : c % 2 ^ 8 = c := Nat.mod_eq_of_lt (by rw [MAX_LOG2_PAGES] at hc; omega)
    set b := pack r.offset c r.refcnt (((h.buckets idx).generation + 1) % 32)
      (linear || decide (MAX_LOG2_PAGES < (h.buckets idx).log2Pages + 1)) false with hb
    have hbo : b.offset = r.offset := by
      rw [pack_offset, Nat.mod_eq_of_lt (hor.2.trans_lt (S.offset k.supply k.sound))]
    have hbl : b.log2Pages = c := by rw [pack_log2Pages, hc8]
    have hfit : Fits g h idx b (t.table.blocks r.offset).pages := by
      refine l.fits_added hidx hk habs k.live (pack_isLocked ..) (fun hl => ?_) ?_
      · rw [pack_isLinearSearch, Bool.or_eq_false_iff] at hl
        rw [hbl]
        exact hp hl.1
      · rw [pack_refcnt, k.refcnt]
    have := Inv.install S hidx l k.frame k.sound (m := t.table.len + 1) hbo
      (by rw [hbl]; exact k.cls) hfit (by rw [k.live.length_eq, k.frame.len, length_cons]; omega)
      (S.mono (Nat.zero_le _) k.supply)
    simp only [he, Bool.false_eq_true, if_false] at this
    obtain ⟨f, hf⟩ := retire_table hz { t with table := storeBucket t.table idx b }
      (h.buckets idx).offset (h.buckets idx).log2Pages
    rw [show t.table.len = (Shared.retire hz { t with table := storeBucket t.table idx b }
      (h.buckets idx).offset (h.buckets idx).log2Pages).table.len by rw [hf]; rfl] at this
    exact this.perm k.live

theorem insertAbsent_spec {r : Option (Slot × ℕ) × Option Slot}
    (hr : Inspected g h idx kv.key r) (hnone : r.1 = none) :
    Unless e (Changes g (B 0) h idx ((kv.key, kv.value) :: contents h idx))
      (Shared.insertAbsent g hz ⟨h, rs, k⟩ idx (h.buckets idx) r.2 kv) := by
  cases hfree : r.2 with
  | some slot =>
    obtain ⟨x, hs, hx, hreg⟩ := hr.free slot hfree
    exact Inv.fill S l hidx he (S.mono (Nat.zero_le _) hB) hv hk (hr.absent hnone) hs hx hreg
  | none => exact splitAndRehash_spec S l hidx he hB hv hk hroom (hr.absent hnone)

end

end

end

end Bucket

theorem Holds.value_unique (hh : Holds g h idx) {v' : ℕ} (h₁ : (key, v) ∈ contents h idx)
    (h2 : (key, v') ∈ contents h idx) : v = v' := by
  have := inj_on_of_nodup_map hh.keys h₁ h2 rfl
  simpa using this

theorem filter_of_absent [DecidableEq K] (h : ∀ v, (key, v) ∉ ps) : ps.filter (·.1 ≠ key) = ps := by
  rw [filter_eq_self]
  rintro ⟨k, v⟩ hm
  simp only [ne_eq, decide_not, Bool.not_eq_true', decide_eq_false_iff_not]
  rintro rfl
  exact h v hm

/-- `h₁` is the table with the bucket at `idx` locked. -/
structure Held (g : Layout K) (s : Shared K) (idx : ℕ) (h₁ : Table K) : Prop where
  bound : idx < h₁.nbuckets
  locked : Locked g h₁ s.retired idx
  edits : Edits s.table h₁ idx
  contents : contents h₁ idx = contents s.table idx
  census : census h₁ = census s.table

/-- `key` is in the slot of the locked bucket with the value `v`. -/
structure Found (g : Layout K) (s : Shared K) (idx : ℕ) (h₁ : Table K) (key : K) (slot : Slot)
    (v : ℕ) : Prop extends Held g s idx h₁ where
  filled : (h₁.buckets idx).isEmpty = false
  slot : SlotIs (h₁.blocks (h₁.buckets idx).offset).pages slot ⟨key, v⟩
  value : v ≠ FREE_U64
  mem : (key, v) ∈ Bihash.contents s.table idx

section OnKey

variable {h₁ : Table K} {value : ℕ}

theorem Held.changes (k : Held g s idx h₁) {f : List (K × ℕ) → List (K × ℕ)}
    (c : Changes g P h₁ idx (f (Bihash.contents h₁ idx)) t) :
    Changes g P s.table idx (f (Bihash.contents s.table idx)) t :=
  ⟨c.quiet, k.edits.trans c.edits, k.contents ▸ c.pairs, c.supply⟩

theorem Held.value_eq (k : Held g s idx h₁) {v' : ℕ} (h1 : (key, v) ∈ Bihash.contents s.table idx)
    (h2 : (key, v') ∈ Bihash.contents s.table idx) : v = v' := by
  rw [← k.contents] at h1 h2
  exact (k.locked.holds idx k.bound).value_unique h1 h2

theorem Inv.onKey [DecidableEq K] {α : Type} {e : Prop} {Q : α → Prop}
    {empty : Table K → ℕ → Bucket → Option α}
    {absent : Table K → ℕ → Bucket → Option Slot → Option α}
    {present : Table K → ℕ → Bucket → Slot → ℕ → Option α} (q : Quiet g s.table s.retired)
    (hk : bucketIdx g s.table key = idx)
    (hempty : ∀ h₁, Held g s idx h₁ → (h₁.buckets idx).isEmpty = true →
      (∀ v, (key, v) ∉ contents s.table idx) → Unless e Q (empty h₁ idx (h₁.buckets idx)))
    (habsent : ∀ h₁ free, Held g s idx h₁ → (h₁.buckets idx).isEmpty = false →
      Inspected g h₁ idx key (none, free) → (∀ v, (key, v) ∉ contents s.table idx) →
      Unless e Q (absent h₁ idx (h₁.buckets idx) free))
    (hpresent : ∀ h₁ slot v, Found g s idx h₁ key slot v →
      Unless e Q (present h₁ idx (h₁.buckets idx) slot v)) :
    Unless e Q (Bihash.onKey g s.table key empty absent present) := by
  have hidx : idx < s.table.nbuckets := hk ▸ Nat.mod_lt _ q.pos
  obtain ⟨h₁, hlock, l, ed, hc, hcensus, -⟩ := q.lock hidx
  have hidx₁ : idx < h₁.nbuckets := by rw [ed.nbuckets]; exact hidx
  have k : Held g s idx h₁ := ⟨hidx₁, l, ed, hc, hcensus⟩
  simp only [Bihash.onKey, hk, hlock, Option.bind_some]
  cases he : (h₁.buckets idx).isEmpty with
  | true => exact hempty h₁ k he (by simp [← hc, contents_empty he])
  | false =>
    obtain ⟨⟨found, free⟩, hr, hi⟩ := inspectLocked_spec l hidx₁ he key
    rw [hr]
    cases found with
    | none => exact habsent h₁ free k he hi (hc ▸ hi.absent rfl)
    | some s =>
      obtain ⟨hs, hv⟩ := hi.found s.1 s.2 rfl
      exact hpresent h₁ s.1 s.2 ⟨k, he, hs, hv, hc ▸ hi.mem he rfl⟩

variable [Inhabited K] {hz : Hazards} {e : Prop} {B : ℕ → Shared K → Prop} {n : ℕ}
  (S : Supply g hz e B)
include S

theorem Held.supply (k : Held g s idx h₁) (hB : B n s) : B n ⟨h₁, s.retired, s.looks⟩ :=
  S.same hB rfl k.census

section

variable (k : Held g s idx h₁) (hk : bucketIdx g s.table key = idx)
   (hv : value ≠ FREE_U64) (hroom : Room g s.table idx ∧ B 3 s)
include k hk hv hroom

theorem Held.insertFirst (he : (h₁.buckets idx).isEmpty = true) :
    Unless e (Changes g (B 0) s.table idx ((key, value) :: Bihash.contents s.table idx))
      (Shared.insertFirst g hz { s with table := h₁ } idx ⟨key, value⟩) := by
  rw [Room, ← k.contents] at hroom
  exact (insertFirst_spec S k.locked k.bound (S.mono (by decide) (k.supply S hroom.2)) he
    (isFree_of_value key hv) ((k.edits.bucketIdx_eq key).trans hk) hroom.1).mono id
    fun _ => k.changes

theorem Held.insertAbsent (he : (h₁.buckets idx).isEmpty = false) {free : Option Slot}
    (hi : Inspected g h₁ idx key (none, free)) :
    Unless e (Changes g (B 0) s.table idx ((key, value) :: Bihash.contents s.table idx))
      (Shared.insertAbsent g hz { s with table := h₁ } idx (h₁.buckets idx) free
        ⟨key, value⟩) := by
  rw [Room, ← k.contents] at hroom
  exact (insertAbsent_spec S k.locked k.bound he (k.supply S hroom.2) (isFree_of_value key hv)
    ((k.edits.bucketIdx_eq key).trans hk) hroom.1 hi rfl).mono id fun _ => k.changes

end

variable (hB : B 0 s)
include hB

theorem Held.unlock (k : Held g s idx h₁) : Changes g (B 0) s.table idx
    (Bihash.contents s.table idx) { s with table := unlockUnchanged h₁ idx (h₁.buckets idx) } :=
  k.changes (f := id) (k.locked.unlock S k.bound (k.supply S hB))

variable [DecidableEq K]

theorem Found.overwrite (k : Found g s idx h₁ key slot v) (hv : value ≠ FREE_U64) :
    Changes g (B 0) s.table idx ((key, value) :: (Bihash.contents s.table idx).filter (·.1 ≠ key))
      { s with table := unlockUnchanged (writeSlot h₁ (h₁.buckets idx).offset slot
        fun kv => { kv with value := value }) idx (h₁.buckets idx) } :=
  k.changes (f := fun ps => (key, value) :: ps.filter (·.1 ≠ key))
    (k.locked.overwrite S k.bound k.filled (k.supply S hB) k.slot k.value hv)

theorem Found.removeSlot (k : Found g s idx h₁ key slot v)
    (hsmall : (Bihash.contents s.table idx).length < 2 ^ 13) :
    ∃ t, Shared.removeSlot hz { s with table := h₁ } idx (h₁.buckets idx) slot = some t ∧
      Changes g (B 0) s.table idx ((Bihash.contents s.table idx).filter (·.1 ≠ key)) t := by
  rw [← k.contents] at hsmall
  obtain ⟨t, hrm, c⟩ := removeSlot_spec S k.locked k.bound k.filled (k.supply S hB) k.slot k.value
    hsmall
  exact ⟨t, hrm, k.changes (f := (·.filter (·.1 ≠ key))) c⟩

variable (q : Quiet g s.table s.retired) (hk : bucketIdx g s.table key = idx)
include q hk

section

variable (hv : value ≠ FREE_U64)
   (hroom : (∀ v, (key, v) ∉ contents s.table idx) → Room g s.table idx ∧ B 3 s)
include hv hroom

theorem insertIfAbsent_spec : Unless e (fun r =>
        (∃ v, (key, v) ∈ contents s.table idx ∧ r.2 = .error v ∧
          Changes g (B 0) s.table idx (contents s.table idx) r.1) ∨
        ((∀ v, (key, v) ∉ contents s.table idx) ∧ r.2 = .ok () ∧
          Changes g (B 0) s.table idx ((key, value) :: contents s.table idx) r.1))
      (Shared.insertIfAbsent g hz s key value) := by
  refine q.onKey hk (fun h₁ k he habs => ?_) (fun h₁ free k he hi habs => ?_)
    fun h₁ slot v k => ?_
  · exact (k.insertFirst S hk hv (hroom habs) he).map fun t c => Or.inr ⟨habs, rfl, c⟩
  · exact (k.insertAbsent S hk hv (hroom habs) he hi).map fun t c => Or.inr ⟨habs, rfl, c⟩
  · exact Or.inl ⟨v, k.mem, rfl, k.unlock S hB⟩

theorem insert_spec : Unless e (Changes g (B 0) s.table idx
        ((key, value) :: (contents s.table idx).filter (·.1 ≠ key)))
      (Shared.insert g hz s key value) := by
  refine q.onKey hk (fun h₁ k he habs => ?_) (fun h₁ free k he hi habs => ?_)
    fun h₁ slot v k => ?_
  · rw [filter_of_absent habs]
    exact k.insertFirst S hk hv (hroom habs) he
  · rw [filter_of_absent habs]
    exact k.insertAbsent S hk hv (hroom habs) he hi
  · exact k.overwrite S hB hv

end

theorem replaceIfCurrent_spec (oldValue : ℕ) (hv : value ≠ FREE_U64) :
    Unless False (fun r =>
        ((key, oldValue) ∈ contents s.table idx ∧ r.2 = true ∧ Changes g (B 0) s.table idx
            ((key, value) :: (contents s.table idx).filter (·.1 ≠ key)) r.1) ∨
        ((key, oldValue) ∉ contents s.table idx ∧ r.2 = false ∧
          Changes g (B 0) s.table idx (contents s.table idx) r.1))
      (Shared.replaceIfCurrent g s key oldValue value) := by
  refine Unless.map (q.onKey hk (fun h₁ k he habs => ?_) (fun h₁ free k he hi habs => ?_)
    fun h₁ slot v k => ?_) fun _ => id
  · exact Or.inr ⟨habs _, rfl, k.unlock S hB⟩
  · exact Or.inr ⟨habs _, rfl, k.unlock S hB⟩
  · split
    · next hne => exact Or.inr ⟨fun hm => hne (k.value_eq k.mem hm), rfl, k.unlock S hB⟩
    · next heq =>
      obtain rfl : v = oldValue := not_not.mp heq
      exact Or.inl ⟨k.mem, rfl, k.overwrite S hB hv⟩

variable (hsmall : (contents s.table idx).length < 2 ^ 13)
include hsmall

theorem remove_spec :
    Unless False (fun r =>
        ((∃ v, (key, v) ∈ contents s.table idx) ∧ r.2 = true ∧
          Changes g (B 0) s.table idx ((contents s.table idx).filter (·.1 ≠ key)) r.1) ∨
        ((∀ v, (key, v) ∉ contents s.table idx) ∧ r.2 = false ∧
          Changes g (B 0) s.table idx (contents s.table idx) r.1))
      (Shared.remove g hz s key) := by
  refine q.onKey hk (fun h₁ k he habs => ?_) (fun h₁ free k he hi habs => ?_)
    fun h₁ slot v k => ?_
  · exact Or.inr ⟨habs, rfl, k.changes (f := id)
      (k.locked.store_empty S k.bound (k.supply S hB) he)⟩
  · exact Or.inr ⟨habs, rfl, k.unlock S hB⟩
  · obtain ⟨t, hrm, c⟩ := k.removeSlot S hB hsmall
    rw [hrm]
    exact Or.inl ⟨⟨v, k.mem⟩, rfl, c⟩

theorem removeIfCurrent_spec (value : ℕ) :
    Unless False (fun r =>
        ((key, value) ∈ contents s.table idx ∧ r.2 = true ∧
          Changes g (B 0) s.table idx ((contents s.table idx).filter (·.1 ≠ key)) r.1) ∨
        ((key, value) ∉ contents s.table idx ∧ r.2 = false ∧
          Changes g (B 0) s.table idx (contents s.table idx) r.1))
      (Shared.removeIfCurrent g hz s key value) := by
  refine q.onKey hk (fun h₁ k he habs => ?_) (fun h₁ free k he hi habs => ?_)
    fun h₁ slot v k => ?_
  · exact Or.inr ⟨habs _, rfl, k.unlock S hB⟩
  · exact Or.inr ⟨habs _, rfl, k.unlock S hB⟩
  · split
    · next hne => exact Or.inr ⟨fun hm => hne (k.value_eq k.mem hm), rfl, k.unlock S hB⟩
    · next heq =>
      obtain rfl : v = value := not_not.mp heq
      obtain ⟨t, hrm, c⟩ := k.removeSlot S hB hsmall
      rw [hrm]
      exact Or.inl ⟨k.mem, rfl, c⟩

end OnKey

theorem lookup_spec [DecidableEq K] (q : Quiet g h rs) (key : K) :
    ∃ r, lookup g h key = some r ∧ ∀ v, r = some v ↔ (key, v) ∈ contents h (bucketIdx g h key) := by
  have hidx : bucketIdx g h key < h.nbuckets := Nat.mod_lt _ q.pos
  unfold lookup
  simp only [q.unlocked _ hidx not_false, Bool.false_eq_true, if_false]
  cases he : (h.buckets (bucketIdx g h key)).isEmpty with
  | true => exact ⟨none, rfl, by simp [contents_empty he]⟩
  | false =>
    obtain ⟨⟨found, free⟩, hr, hi⟩ := inspectLocked_spec q hidx he key
    rw [hr]
    refine ⟨found.map Prod.snd, rfl, fun v => ?_⟩
    cases found with
    | none => simpa using hi.absent rfl v
    | some s =>
      have hmem := hi.mem he rfl
      simp only [Option.map_some, Option.some.injEq]
      constructor
      · rintro rfl; exact hmem
      · intro hm; exact (q.holds _ hidx).value_unique hmem hm

section Clear

theorem Sound.retire_all (hz : Hazards) (rs : List (ℕ × ℕ)) : ∀ {s : Shared K},
    Sound g s.table s.retired (rs.map Prod.fst) →
    (∀ r ∈ rs, (s.table.blocks r.1).log2Pages = r.2) →
    let t := rs.foldl (fun s r => Shared.retire hz s r.1 r.2) s
    Sound g t.table t.retired [] ∧ ∃ f, t.table = { s.table with freelists := f } := by
  induction rs with
  | nil => exact fun h _ => ⟨h, _, rfl⟩
  | cons r rs ih =>
    intro s h hcls
    obtain ⟨hr, hrs⟩ := forall_mem_cons.mp hcls
    obtain ⟨f, hf⟩ := retire_table hz s r.1 r.2
    obtain ⟨h', f', hf'⟩ := ih (Sound.retire h hr hz) (by rw [hf]; exact hrs)
    refine ⟨h', f', hf'.trans ?_⟩
    rw [hf]

theorem clearedBlocks_fst (h : Table K) : (clearedBlocks h).map Prod.fst = ownedBlocks h := by
  unfold clearedBlocks ownedBlocks
  induction range h.nbuckets with
  | nil => rfl
  | cons i is ih =>
    have hb := alike_withLock (h.buckets i)
    rw [flatMap_cons, ← ih, owned]
    cases he : (h.buckets i).isEmpty with
    | true => rw [filterMap_cons_none (by simp [hb.isEmpty, he])]; simp
    | false =>
      rw [filterMap_cons_some (b := ((h.buckets i).offset, (h.buckets i).log2Pages))
        (by simp [hb.isEmpty, he, hb.offset, hb.log2Pages])]
      simp

theorem clearedBlocks_class (hcls : ∀ i < h.nbuckets, (h.buckets i).isEmpty = false →
      (h.blocks (h.buckets i).offset).log2Pages = (h.buckets i).log2Pages) :
    ∀ r ∈ clearedBlocks h, (h.blocks r.1).log2Pages = r.2 := by
  intro r hr
  obtain ⟨i, hi, hsome⟩ := mem_filterMap.mp hr
  have hb := alike_withLock (h.buckets i)
  simp only [hb.isEmpty, hb.offset, hb.log2Pages] at hsome
  cases he : (h.buckets i).isEmpty with
  | true => simp [he] at hsome
  | false =>
    simp only [he, Bool.false_eq_true, if_false, Option.some.injEq] at hsome
    rw [← hsome]
    exact hcls i (mem_range.mp hi) he

theorem ownedBlocks_cleared (h : Table K) : ownedBlocks { h with
    buckets := fun idx => if idx < h.nbuckets then .empty else h.buckets idx } = [] := by
  rw [ownedBlocks, flatMap_eq_nil_iff]
  intro i hi
  simp [owned, mem_range.mp hi, isEmpty_empty]

variable [Inhabited K] {hz : Hazards} {e : Prop} {B : ℕ → Shared K → Prop} {n : ℕ}

theorem clear_spec (S : Supply g hz e B) (hB : B n s) (q : Quiet g s.table s.retired) :
    ∃ t, Shared.clear hz s = some t ∧ Quiet g t.table t.retired ∧
      t.table.nbuckets = s.table.nbuckets ∧ t.table.memorySize = s.table.memorySize ∧
      (∀ i < s.table.nbuckets, contents t.table i = []) ∧ B n t := by
  have hlock : ((range s.table.nbuckets).any fun idx => (s.table.buckets idx).isLocked) = false := by
    rw [any_eq_false]
    intro i hi
    simp [q.unlocked i (mem_range.mp hi) not_false]
  set h₁ : Table K := { s.table with buckets := fun idx =>
    if idx < s.table.nbuckets then .empty else s.table.buckets idx } with hh₁
  have hbkt : ∀ i < s.table.nbuckets, h₁.buckets i = .empty := fun i hi => if_pos hi
  have sd₁ : Sound g h₁ s.retired ((clearedBlocks s.table).map Prod.fst) := by
    refine ⟨⟨?_, q.sound.parts.class_le, q.sound.parts.shape, q.sound.parts.free_class⟩,
      q.sound.classed⟩
    have hp := q.sound.parts.parted
    rw [append_nil, append_assoc] at hp
    refine List.Perm.trans ?_ hp
    rw [ownedBlocks_cleared, clearedBlocks_fst, append_nil]
    exact perm_append_comm.append_left _
  obtain ⟨sd₂, f, hf⟩ := Sound.retire_all (s := { s with table := h₁ }) hz (clearedBlocks s.table)
    sd₁ (clearedBlocks_class fun i hi => (q.holds i hi).cls)
  have hB₂ : B n ((clearedBlocks s.table).foldl (fun s r => Shared.retire hz s r.1 r.2)
      { s with table := h₁ }) := by
    have hB₁ : B n { s with table := h₁ } := S.same hB rfl rfl
    generalize ({ s with table := h₁ } : Shared K) = s₁ at hB₁
    induction clearedBlocks s.table generalizing s₁ with
    | nil => exact hB₁
    | cons r rs ih => exact ih _ (S.retire _ _ hB₁)
  refine ⟨_, by rw [Shared.clear, hlock]; rfl, ?_⟩
  generalize (clearedBlocks s.table).foldl (fun s r => Shared.retire hz s r.1 r.2)
    { s with table := h₁ } = t at *
  have hemp : ∀ i < s.table.nbuckets, t.table.buckets i = .empty := fun i hi => by
    rw [hf]
    exact hbkt i hi
  have hn : t.table.nbuckets = s.table.nbuckets := by rw [hf]
  have hcont : ∀ i < s.table.nbuckets, contents (t.addLen 0).table i = [] := fun i hi =>
    contents_empty (by rw [Shared.addLen, hemp i hi]; exact isEmpty_empty)
  refine ⟨⟨sd₂.setLen 0, hn ▸ q.pos, fun i hi => .of_empty (hemp i (hn ▸ hi)),
    fun i hi _ => by rw [Shared.addLen, hemp i (hn ▸ hi)]; exact isLocked_empty, ?_⟩, hn, by rw [Shared.addLen, hf], hcont,
    S.same hB₂ rfl rfl⟩
  have : entries (t.addLen 0).table = [] := by
    rw [entries, flatMap_eq_nil_iff]
    exact fun i hi => hcont i (hn ▸ mem_range.mp hi)
  rw [this]
  rfl

end Clear

end Bihash
