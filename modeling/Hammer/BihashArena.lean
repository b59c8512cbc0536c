import Hammer.BihashPages
import Mathlib.Algebra.Order.BigOperators.Group.Finset
import Mathlib.Data.Finset.Interval
import Mathlib.Order.Interval.Finset.Nat

/-! # How many blocks a table needs

Every block is on the free list of its class, belongs to one bucket or is held by the running
operation. A block is only allocated when no free one has its class, so without lookups in flight
the table needs at most one block of each class more than it has buckets.
-/
namespace Bihash

open Function List

namespace Bucket

variable (b : Bucket)

section

variable (o l r n : ℕ) (lin lk : Bool)
include o l r n lin lk

theorem pack_offset : (pack o l r n lin lk).offset = o % 2 ^ 36 := by
  cases lin <;> cases lk <;> simp [pack, offset] <;> omega

theorem pack_log2Pages : (pack o l r n lin lk).log2Pages = l % 2 ^ 8 := by
  cases lin <;> cases lk <;> simp [pack, log2Pages] <;>
    omega

theorem pack_refcnt : (pack o l r n lin lk).refcnt = r % 2 ^ 13 := by
  cases lin <;> cases lk <;> simp [pack, refcnt] <;> omega

theorem pack_isLinearSearch : (pack o l r n lin lk).isLinearSearch = lin := by
  have : (pack o l r n lin lk).raw / 2 ^ 26 % 2 = lin.toNat := by
    cases lin <;> cases lk <;> simp [pack] <;> omega
  rw [isLinearSearch, this]
  cases lin <;> rfl

theorem pack_isLocked : (pack o l r n lin lk).isLocked = lk := by
  have : (pack o l r n lin lk).raw / 2 ^ 27 % 2 = lk.toNat := by
    cases lin <;> cases lk <;> simp [pack] <;> omega
  rw [isLocked, this]
  cases lk <;> rfl

end

theorem isEmpty_empty : empty.isEmpty = true := by decide

theorem isEmpty_of_offset {b : Bucket} (h : b.offset ≠ 0) : b.isEmpty = false := by
  simp [isEmpty, h]

theorem isLocked_empty : empty.isLocked = false := by decide

/-- Two words that differ in the generation and the writer bit only. -/
structure Alike (b b' : Bucket) : Prop where
  offset : b'.offset = b.offset
  log2Pages : b'.log2Pages = b.log2Pages
  refcnt : b'.refcnt = b.refcnt
  linear : b'.isLinearSearch = b.isLinearSearch

theorem Alike.isEmpty {b b' : Bucket} (h : Alike b b') : b'.isEmpty = b.isEmpty := by
  rw [Bucket.isEmpty, Bucket.isEmpty, h.offset, h.log2Pages, h.refcnt]

theorem alike_withLock : Alike b b.withLock := by
  unfold withLock
  cases hb : b.isLocked with
  | true => exact ⟨rfl, rfl, rfl, rfl⟩
  | false =>
    have hbit : b.raw / 2 ^ 27 % 2 = 0 := by simpa [isLocked] using hb
    refine ⟨?_, ?_, ?_, ?_⟩ <;>
      simp only [Bool.false_eq_true, if_false, offset, log2Pages, refcnt, isLinearSearch]
    · omega
    · omega
    · omega
    · have : (b.raw + 2 ^ 27) / 2 ^ 26 % 2 = b.raw / 2 ^ 26 % 2 := by omega
      rw [this]

theorem pack_offset_self (l r n : ℕ) (lin lk : Bool) :
    (pack b.offset l r n lin lk).offset = b.offset := by
  rw [pack_offset, offset, Nat.mod_mod]

theorem pack_log2Pages_self (o r n : ℕ) (lin lk : Bool) :
    (pack o b.log2Pages r n lin lk).log2Pages = b.log2Pages := by
  rw [pack_log2Pages, log2Pages, Nat.mod_mod]

theorem alike_pack (n : ℕ) (lk : Bool) :
    Alike b (pack b.offset b.log2Pages b.refcnt n b.isLinearSearch lk) := by
  refine ⟨pack_offset_self .., pack_log2Pages_self .., ?_, pack_isLinearSearch ..⟩
  rw [pack_refcnt, refcnt, Nat.mod_mod]

theorem pack_isEmpty {o : ℕ} (ho : 0 < o) (hlt : o < 2 ^ 36) (l r n : ℕ) (lin lk : Bool) :
    (pack o l r n lin lk).isEmpty = false := by
  rw [isEmpty, pack_offset, Nat.mod_eq_of_lt hlt]
  simp [ho.ne']

end Bucket

/-- The value of a computation satisfies `P`, or it panics and `e` holds. -/
def Unless {α : Type} (e : Prop) (P : α → Prop) : Option α → Prop
  | none => e
  | some a => P a

section Unless

variable {α β : Type} {e : Prop} {P Q : α → Prop} {x : Option α}

theorem Unless.mono {e' : Prop} (h : Unless e P x) (he : e → e') (himp : ∀ a, P a → Q a) :
    Unless e' Q x := by
  cases x with
  | none => exact he h
  | some a => exact himp a h

theorem Unless.bind {R : β → Prop} {f : α → Option β} (h : Unless e P x)
    (hf : ∀ a, P a → Unless e R (f a)) : Unless e R (x.bind f) := by
  cases x with
  | none => exact h
  | some a => exact hf a h

theorem Unless.map {R : β → Prop} {f : α → β} (h : Unless e P x) (hf : ∀ a, P a → R (f a)) :
    Unless e R (x.map f) := by
  cases x with
  | none => exact h
  | some a => exact hf a h

end Unless

theorem flatMap_perm {α β : Type} [DecidableEq α] {l : List α} (hl : l.Nodup) {c : α} (hc : c ∈ l)
    (f f' : α → List β) (hf : ∀ x ∈ l, x ≠ c → f' x = f x) :
    ∃ rest, (l.flatMap f).Perm (f c ++ rest) ∧ (l.flatMap f').Perm (f' c ++ rest) := by
  refine ⟨(l.erase c).flatMap f, ?_, ?_⟩
  · exact (perm_cons_erase hc).flatMap_right f
  · refine ((perm_cons_erase hc).flatMap_right f').trans ?_
    have : (l.erase c).flatMap f' = (l.erase c).flatMap f := by
      refine flatMap_congr fun x hx => hf x (mem_of_mem_erase hx) ?_
      rintro rfl
      exact hl.not_mem_erase hx
    rw [flatMap_cons, this]

variable {K : Type} {g : Layout K} {i : ℕ} {h : Table K} {held : List ℕ}

def owned (h : Table K) (i : ℕ) : List ℕ :=
  if (h.buckets i).isEmpty then [] else [(h.buckets i).offset]

def freeBlocks (h : Table K) : List ℕ := (List.range (MAX_LOG2_PAGES + 1)).flatMap h.freelists
def ownedBlocks (h : Table K) : List ℕ := (List.range h.nbuckets).flatMap (owned h)

def classBlocks (h : Table K) (c : ℕ) : Finset ℕ :=
  (Finset.Icc 1 h.blocksLen).filter fun o => (h.blocks o).log2Pages = c

/-- Every block is on a free list, a bucket's or held, and has the pages of its class. -/
structure Parts (g : Layout K) (h : Table K) (held : List ℕ) : Prop where
  parted : (freeBlocks h ++ ownedBlocks h ++ held).Perm (List.range' 1 h.blocksLen)
  class_le : ∀ o, 1 ≤ o → o ≤ h.blocksLen → (h.blocks o).log2Pages ≤ MAX_LOG2_PAGES
  shape : ∀ o, 1 ≤ o → o ≤ h.blocksLen → Shape g (h.blocks o).log2Pages (h.blocks o).pages
  free_class : ∀ c ≤ MAX_LOG2_PAGES, ∀ o ∈ h.freelists c, (h.blocks o).log2Pages = c

/-- No class has more blocks than the buckets can need, and the bytes of all blocks are counted. -/
structure Budget (g : Layout K) (h : Table K) : Prop where
  nbuckets_le : h.nbuckets ≤ 2 ^ 31
  count : ∀ c, (classBlocks h c).card ≤ h.nbuckets + 1
  bytes : h.allocatedBytes ≤ h.blocksLen * (2 ^ MAX_LOG2_PAGES * g.pageBytes)

/-- The table's memory may be too small for the blocks it can need. -/
def Short (g : Layout K) (h : Table K) : Prop :=
  h.memorySize < 9 * (h.nbuckets + 1) * (2 ^ MAX_LOG2_PAGES * g.pageBytes)

theorem mem_owned (he : (h.buckets i).isEmpty = false) : (h.buckets i).offset ∈ owned h i := by
  simp [owned, he]

theorem mem_ownedBlocks (hi : i < h.nbuckets) (he : (h.buckets i).isEmpty = false) :
    (h.buckets i).offset ∈ ownedBlocks h :=
  mem_flatMap.mpr ⟨i, mem_range.mpr hi, mem_owned he⟩

theorem owned_store_self (h : Table K) (idx : ℕ) (b : Bucket) :
    owned (storeBucket h idx b) idx = if b.isEmpty then [] else [b.offset] := by
  simp [owned, storeBucket]

theorem setPages_log2Pages (h : Table K) (o : ℕ) (pages : List (ValuePage K)) (o' : ℕ) :
    ((setPages h o pages).blocks o').log2Pages = (h.blocks o').log2Pages := by
  by_cases ho : o' = o
  · subst ho; simp [setPages]
  · simp [setPages, update_of_ne ho]

namespace Parts

variable {h : Table K} {held : List ℕ}

section

variable (a : Parts g h held) {o : ℕ}
include a

theorem mem_range (ho : o ∈ freeBlocks h ++ ownedBlocks h ++ held) : 1 ≤ o ∧ o ≤ h.blocksLen := by
  have := a.parted.mem_iff.mp ho
  rw [mem_range'_1] at this
  omega

theorem nodup : (freeBlocks h ++ ownedBlocks h ++ held).Nodup :=
  a.parted.nodup_iff.mpr nodup_range'

theorem perm {held' : List ℕ} (hp : held'.Perm held) : Parts g h held' :=
  ⟨(hp.append_left _).trans a.parted, a.class_le, a.shape, a.free_class⟩

theorem owned_range (hi : i < h.nbuckets) (he : (h.buckets i).isEmpty = false) :
    1 ≤ (h.buckets i).offset ∧ (h.buckets i).offset ≤ h.blocksLen :=
  a.mem_range (by simp [mem_ownedBlocks hi he])

theorem held_range (ho : o ∈ held) : 1 ≤ o ∧ o ≤ h.blocksLen :=
  a.mem_range (by simp [ho])

theorem free_range {c : ℕ} (hc : c ≤ MAX_LOG2_PAGES) (ho : o ∈ h.freelists c) :
    1 ≤ o ∧ o ≤ h.blocksLen :=
  a.mem_range (List.mem_append_left _ (List.mem_append_left _
    (List.mem_flatMap.mpr ⟨c, List.mem_range.mpr (Nat.lt_succ_of_le hc), ho⟩)))

theorem owned_ne {j : ℕ} (hi : i < h.nbuckets) (hj : j < h.nbuckets)
    (hei : (h.buckets i).isEmpty = false) (hej : (h.buckets j).isEmpty = false) (hij : i ≠ j) :
    (h.buckets i).offset ≠ (h.buckets j).offset := by
  obtain ⟨_, hn, _⟩ := List.nodup_append.mp (List.nodup_append.mp a.nodup).1
  obtain ⟨rest, hp, -⟩ := flatMap_perm List.nodup_range (List.mem_range.mpr hi) (owned h) (owned h)
    fun _ _ _ => rfl
  have hmem : (h.buckets j).offset ∈ rest := by
    have hj' : (h.buckets j).offset ∈ ((List.range h.nbuckets).erase i).flatMap (owned h) :=
      List.mem_flatMap.mpr ⟨j, (List.mem_erase_of_ne hij.symm).mpr (List.mem_range.mpr hj),
        mem_owned hej⟩
    have hp' := (List.perm_cons_erase (List.mem_range.mpr hi)).flatMap_right (owned h)
    exact ((List.perm_append_left_iff _).mp (hp.symm.trans hp')).mem_iff.mpr hj'
  have hnd := hp.nodup_iff.mp hn
  intro e
  exact List.disjoint_of_nodup_append hnd (mem_owned hei) (e ▸ hmem)

theorem held_ne (hi : i < h.nbuckets) (he : (h.buckets i).isEmpty = false) (ho : o ∈ held) :
    (h.buckets i).offset ≠ o := by
  rintro rfl
  exact disjoint_of_nodup_append a.nodup (mem_append_right _ (mem_ownedBlocks hi he)) ho

theorem store {idx : ℕ} (hidx : idx < h.nbuckets) {b : Bucket}
    {r : List ℕ} (hmove : (owned (storeBucket h idx b) idx ++ r).Perm (owned h idx ++ held)) :
    Parts g (storeBucket h idx b) r := by
  refine ⟨?_, a.class_le, a.shape, a.free_class⟩
  obtain ⟨rest, hp, hp'⟩ := flatMap_perm List.nodup_range (List.mem_range.mpr hidx) (owned h)
    (owned (storeBucket h idx b)) (fun j _ hj => by
      simp [owned, storeBucket, update_of_ne hj])
  refine List.Perm.trans ?_ a.parted
  rw [List.append_assoc, List.append_assoc]
  refine List.Perm.append_left _ ?_
  calc (ownedBlocks (storeBucket h idx b) ++ r).Perm
        ((owned (storeBucket h idx b) idx ++ rest) ++ r) := hp'.append_right _
    _ |>.Perm (rest ++ (owned (storeBucket h idx b) idx ++ r)) := by
        rw [← List.append_assoc]
        exact List.perm_append_comm.append_right _
    _ |>.Perm (rest ++ (owned h idx ++ held)) := hmove.append_left _
    _ |>.Perm ((owned h idx ++ rest) ++ held) := by
        rw [← List.append_assoc]
        exact List.perm_append_comm.append_right _
    _ |>.Perm (ownedBlocks h ++ held) := hp.symm.append_right _

theorem store_alike {idx : ℕ} (hidx : idx < h.nbuckets) {b : Bucket}
    (hb : (h.buckets idx).Alike b) : Parts g (storeBucket h idx b) held := by
  refine a.store hidx ?_
  rw [owned_store_self, owned, hb.isEmpty, hb.offset]

theorem setPages (pages : List (ValuePage K)) (hs : Shape g (h.blocks o).log2Pages pages) :
    Parts g (setPages h o pages) held := by
  have hclass := setPages_log2Pages h o pages
  refine ⟨a.parted, fun o' => ?_, fun o' h1 h2 => ?_, fun c hc o' ho' => ?_⟩
  · rw [hclass]; exact a.class_le o'
  · by_cases ho : o' = o
    · subst ho; simpa [Bihash.setPages] using hs
    · simpa [Bihash.setPages, update_of_ne ho] using a.shape o' h1 h2
  · rw [hclass]; exact a.free_class c hc o' ho'

end

theorem retire {o : ℕ} (a : Parts g h (o :: held)) :
    Parts g (retire h o (h.blocks o).log2Pages) held := by
  have hor := a.held_range (List.mem_cons_self ..)
  have hc := a.class_le o hor.1 hor.2
  refine ⟨?_, a.class_le, a.shape, fun c hc' o' ho' => ?_⟩
  · obtain ⟨rest, hp, hp'⟩ := flatMap_perm (List.nodup_range (n := MAX_LOG2_PAGES + 1))
      (List.mem_range.mpr (Nat.lt_succ_of_le hc)) h.freelists
      (Bihash.retire h o (h.blocks o).log2Pages).freelists
      (fun c _ hne => by simp [Bihash.retire, update_of_ne hne])
    have hself : (Bihash.retire h o (h.blocks o).log2Pages).freelists (h.blocks o).log2Pages =
        o :: h.freelists (h.blocks o).log2Pages := by simp [Bihash.retire]
    rw [hself] at hp'
    refine List.Perm.trans ?_ a.parted
    have hfree : (freeBlocks (Bihash.retire h o (h.blocks o).log2Pages)).Perm
        (o :: freeBlocks h) := hp'.trans (hp.symm.cons o)
    refine ((hfree.append_right _).append_right _).trans ?_
    exact List.perm_middle.symm
  · simp only [Bihash.retire] at ho' ⊢
    by_cases hcc : c = (h.blocks o).log2Pages
    · subst hcc
      rw [update_self] at ho'
      rcases List.mem_cons.mp ho' with rfl | ho'
      · rfl
      · exact a.free_class _ hc' o' ho'
    · rw [update_of_ne hcc] at ho'
      exact a.free_class c hc' o' ho'

theorem pop (a : Parts g h held) {c o : ℕ} {rest : List ℕ} (hc : c ≤ MAX_LOG2_PAGES)
    (hf : h.freelists c = o :: rest) :
    Parts g { h with freelists := update h.freelists c rest } (o :: held) := by
  obtain ⟨others, hp, hp'⟩ := flatMap_perm (List.nodup_range (n := MAX_LOG2_PAGES + 1))
    (List.mem_range.mpr (Nat.lt_succ_of_le hc)) h.freelists
    (update h.freelists c rest) (fun c' _ hne => by simp [update_of_ne hne])
  rw [hf] at hp
  rw [update_self] at hp'
  refine ⟨?_, a.class_le, a.shape, fun c' hc' o' ho' => ?_⟩
  · refine List.Perm.trans ?_ a.parted
    have hfree : (o :: freeBlocks
        { h with freelists := update h.freelists c rest }).Perm (freeBlocks h) :=
      (hp'.cons o).trans hp.symm
    exact List.perm_middle.trans ((hfree.append_right _).append_right _)
  · by_cases hcc : c' = c
    · subst hcc
      simp only [update_self] at ho'
      exact a.free_class c' hc' o' (by simp [hf, ho'])
    · simp only [update_of_ne hcc] at ho'
      exact a.free_class c' hc' o' ho'

end Parts

theorem Parts.blocksLen_le (a : Parts g h held) (b : Budget g h) :
    h.blocksLen ≤ 9 * (h.nbuckets + 1) := by
  have himg : (Finset.Icc 1 h.blocksLen).image (fun o => (h.blocks o).log2Pages) ⊆
      Finset.range 9 := by
    intro c hc
    obtain ⟨o, ho, rfl⟩ := Finset.mem_image.mp hc
    rw [Finset.mem_Icc] at ho
    have := a.class_le o ho.1 ho.2
    rw [MAX_LOG2_PAGES] at this
    exact Finset.mem_range.mpr (by omega)
  have hcard := Finset.card_le_mul_card_image (f := fun o => (h.blocks o).log2Pages)
    (Finset.Icc 1 h.blocksLen) (h.nbuckets + 1) fun c _ => b.count c
  have h9 := Finset.card_le_card himg
  rw [Nat.card_Icc] at hcard
  calc h.blocksLen ≤ _ := hcard
    _ ≤ (h.nbuckets + 1) * 9 := Nat.mul_le_mul_left _ h9
    _ = 9 * (h.nbuckets + 1) := Nat.mul_comm ..

theorem Parts.blocksLen_lt (a : Parts g h held) (b : Budget g h) : h.blocksLen < 2 ^ 36 := by
  have hle := a.blocksLen_le b
  have := b.nbuckets_le
  omega

theorem ownedBlocks_length_le (h : Table K) : (ownedBlocks h).length ≤ h.nbuckets := by
  rw [ownedBlocks, length_flatMap]
  calc _ ≤ ((range h.nbuckets).map fun _ => 1).sum := by
        refine sum_le_sum fun i _ => ?_
        unfold owned
        split <;> simp
    _ = h.nbuckets := by simp

/-- What an operation on other blocks leaves alone. -/
structure Frame (h h' : Table K) : Prop where
  buckets : h'.buckets = h.buckets
  nbuckets : h'.nbuckets = h.nbuckets
  log2Nbuckets : h'.log2Nbuckets = h.log2Nbuckets
  len : h'.len = h.len
  memorySize : h'.memorySize = h.memorySize
  blocks : ∀ i < h.nbuckets, (h.buckets i).isEmpty = false →
    h'.blocks (h.buckets i).offset = h.blocks (h.buckets i).offset

theorem Frame.trans {h' h'' : Table K} (f : Frame h h') (f' : Frame h' h'') : Frame h h'' where
  buckets := f'.buckets.trans f.buckets
  nbuckets := f'.nbuckets.trans f.nbuckets
  log2Nbuckets := f'.log2Nbuckets.trans f.log2Nbuckets
  len := f'.len.trans f.len
  memorySize := f'.memorySize.trans f.memorySize
  blocks i hi he := by
    have := f'.blocks i (by rw [f.nbuckets]; exact hi) (by rw [f.buckets]; exact he)
    rw [f.buckets] at this
    rw [this, f.blocks i hi he]

theorem Frame.refl (h : Table K) : Frame h h := ⟨rfl, rfl, rfl, rfl, rfl, fun _ _ _ => rfl⟩

theorem Frame.freelists (h : Table K) (f : ℕ → List ℕ) : Frame h { h with freelists := f } :=
  ⟨rfl, rfl, rfl, rfl, rfl, fun _ _ _ => rfl⟩

theorem Frame.setPages {o : ℕ} (a : Parts g h held) (ho : o ∈ held) (pages : List (ValuePage K)) :
    Frame h (setPages h o pages) :=
  ⟨rfl, rfl, rfl, rfl, rfl, fun i hi he => by
    simp [Bihash.setPages, update_of_ne (a.held_ne hi he ho)]⟩

/-- A block of a class is only added when all blocks of the class are in use. -/
theorem Parts.count_allocate (a : Parts g h []) {c : ℕ} (hnil : h.freelists c = []) :
    (classBlocks h c).card ≤ h.nbuckets := by
  have hsub : classBlocks h c ⊆ (ownedBlocks h).toFinset := by
    intro o ho
    simp only [classBlocks, Finset.mem_filter, Finset.mem_Icc] at ho
    have hm := a.parted.mem_iff.mpr (mem_range'_1.mpr ⟨ho.1.1, by omega⟩)
    rw [append_nil, mem_append] at hm
    rcases hm with hm | hm
    · obtain ⟨c', hc', hm⟩ := mem_flatMap.mp hm
      have := a.free_class c' (Nat.le_of_lt_succ (List.mem_range.mp hc')) o hm
      rw [← this, ho.2, hnil] at hm
      cases hm
    · exact mem_toFinset.mpr hm
  exact (Finset.card_le_card hsub).trans ((toFinset_card_le _).trans (ownedBlocks_length_le h))

/-- What the allocator has handed out, and what it may. -/
def census (h : Table K) : (ℕ × ℕ) × (ℕ × ℕ) × (ℕ → ℕ) :=
  ((h.nbuckets, h.memorySize), (h.blocksLen, h.allocatedBytes), fun o => (h.blocks o).log2Pages)

theorem census_setPages (h : Table K) (o : ℕ) (pages : List (ValuePage K)) :
    census (setPages h o pages) = census h :=
  congrArg (Prod.mk _ <| Prod.mk _ ·) (funext (setPages_log2Pages h o pages))

theorem Budget.of_census {h' : Table K} (b : Budget g h) (hc : census h' = census h) :
    Budget g h' := by
  simp only [census, Prod.mk.injEq] at hc
  obtain ⟨⟨hn, -⟩, ⟨hl, hb⟩, hcls⟩ := hc
  refine ⟨hn ▸ b.nbuckets_le, fun c => ?_, by rw [hl, hb]; exact b.bytes⟩
  have := b.count c
  simp only [classBlocks, hl, hn, congrFun hcls] at this ⊢
  exact this

section Allocate

variable [Inhabited K] {h : Table K} {c : ℕ}

theorem Parts.push (a : Parts g h held) (hc : c ≤ MAX_LOG2_PAGES) (n : ℕ) : Parts g { h with
      blocks := update h.blocks (h.blocksLen + 1) ⟨freshPages g c, c⟩
      blocksLen := h.blocksLen + 1
      allocatedBytes := n } ((h.blocksLen + 1) :: held) := by
  have hne : ∀ o, o ≤ h.blocksLen → o ≠ h.blocksLen + 1 := fun o ho => by omega
  refine ⟨?_, fun o h1 h2 => ?_, fun o h1 h2 => ?_, fun c' hc' o ho => ?_⟩
  · simp only [range'_1_concat, Nat.add_comm 1]
    refine perm_middle.trans ?_
    exact (perm_append_singleton _ _).symm.trans (a.parted.append_right _)
  · by_cases ho : o = h.blocksLen + 1
    · simpa [ho] using hc
    · simpa [update_of_ne ho] using a.class_le o h1 (by simp only at h2; omega)
  · by_cases ho : o = h.blocksLen + 1
    · simpa [ho] using shape_freshPages c
    · simpa [update_of_ne ho] using a.shape o h1 (by simp only at h2; omega)
  · have hr := a.free_range hc' ho
    simpa [update_of_ne (hne o hr.2)] using a.free_class c' hc' o ho

theorem Budget.push (b : Budget g h) (a : Parts g h []) (hc : c ≤ MAX_LOG2_PAGES)
    (hnil : h.freelists c = []) : Budget g { h with
      blocks := update h.blocks (h.blocksLen + 1) ⟨freshPages g c, c⟩
      blocksLen := h.blocksLen + 1
      allocatedBytes := h.allocatedBytes + 2 ^ c * g.pageBytes } := by
  have hcount := a.count_allocate hnil
  refine ⟨b.nbuckets_le, fun c' => ?_, ?_⟩
  · have hsub : classBlocks { h with
        blocks := update h.blocks (h.blocksLen + 1) ⟨freshPages g c, c⟩
        blocksLen := h.blocksLen + 1
        allocatedBytes := h.allocatedBytes + 2 ^ c * g.pageBytes } c' ⊆
        if c' = c then Insert.insert (h.blocksLen + 1) (classBlocks h c) else classBlocks h c' := by
      intro o ho
      simp only [classBlocks, Finset.mem_filter, Finset.mem_Icc] at ho
      by_cases hoe : o = h.blocksLen + 1
      · have : c' = c := by rw [← ho.2, hoe]; simp
        simp [this, hoe]
      · rw [update_of_ne hoe] at ho
        have hm : o ∈ classBlocks h c' := by
          simp only [classBlocks, Finset.mem_filter, Finset.mem_Icc]
          exact ⟨⟨ho.1.1, by omega⟩, ho.2⟩
        split
        · rename_i hcc
          exact Finset.mem_insert_of_mem (hcc ▸ hm)
        · exact hm
    refine (Finset.card_le_card hsub).trans ?_
    split
    · exact (Finset.card_insert_le _ _).trans (Nat.succ_le_succ hcount)
    · exact b.count c'
  · have hpow : 2 ^ c * g.pageBytes ≤ 2 ^ MAX_LOG2_PAGES * g.pageBytes :=
      Nat.mul_le_mul_right _ (Nat.pow_le_pow_right (by decide) hc)
    simp only [Nat.succ_mul]
    exact Nat.add_le_add b.bytes hpow

/-- What `allocate` does to the blocks, with any blocks held beside the new one. -/
structure Allocated (g : Layout K) (h : Table K) (held : List ℕ) (c : ℕ) (r : Table K × ℕ) :
    Prop where
  parts : Parts g r.1 (r.2 :: held)
  frame : Frame h r.1
  others : ∀ o, o ≠ r.2 → r.1.blocks o = h.blocks o
  fresh : r.1.blocks r.2 = ⟨freshPages g c, c⟩
  blocksLen_le : r.1.blocksLen ≤ h.blocksLen + 1

theorem Parts.allocate (a : Parts g h held) {r : Table K × ℕ} (hr : allocate g h c = some r) :
    c ≤ MAX_LOG2_PAGES ∧ Allocated g h held c r := by
  unfold Bihash.allocate at hr
  split at hr
  · cases hr
  · rename_i hc
    have hc : c ≤ MAX_LOG2_PAGES := Nat.le_of_not_lt hc
    refine ⟨hc, ?_⟩
    split at hr
    · rename_i o rest hf
      obtain rfl := by simpa using hr
      have hclass : (h.blocks o).log2Pages = c := a.free_class c hc o (by simp [hf])
      have a' := a.pop hc hf
      refine ⟨a'.setPages _ ?_, ?_, fun o' ho' => update_of_ne ho' _ _, ?_, Nat.le_succ _⟩
      · rw [hclass]
        exact shape_freshPages c
      · exact (Frame.freelists ..).trans (Frame.setPages a' (mem_cons_self ..) _)
      · simp [Bihash.setPages, hclass]
    · dsimp only at hr
      split at hr
      · cases hr
      · obtain rfl := by simpa using hr
        refine ⟨a.push hc _, ⟨rfl, rfl, rfl, rfl, rfl, fun i hi he => ?_⟩,
          fun o' ho' => update_of_ne ho' _ _, by simp, le_rfl⟩
        have := (a.owned_range hi he).2
        exact update_of_ne (by omega) _ _

theorem Budget.allocate (b : Budget g h) (a : Parts g h []) (hc : c ≤ MAX_LOG2_PAGES) :
    Unless (Short g h) (fun r => Budget g r.1) (allocate g h c) := by
  unfold Bihash.allocate
  rw [if_neg (by omega)]
  cases hf : h.freelists c with
  | cons o rest => exact b.of_census (census_setPages ..)
  | nil =>
    have b' := b.push a hc hf
    dsimp only
    split
    · rename_i hmem
      -- the new block would still be one of those the bound allows for
      have hl := Nat.mul_le_mul_right (2 ^ MAX_LOG2_PAGES * g.pageBytes)
        ((a.push hc _).blocksLen_le b')
      exact lt_of_lt_of_le hmem (b'.bytes.trans hl)
    · exact b'

end Allocate

end Bihash
