import Hammer.BihashOwnership

/-! # The operations of one bucket

Every mutator locks the bucket of its key, works on that bucket's block and unlocks it again.
`Changes` says what it leaves behind: the bucket's live pairs and nothing of the others.
-/
namespace Bihash

variable {K : Type} {g : Layout K} {h : Table K} {i : ℕ}

def contents (h : Table K) (i : ℕ) : List (K × ℕ) :=
  if (h.buckets i).isEmpty then [] else live (h.blocks (h.buckets i).offset).pages

/-- The pairs of the table, bucket by bucket. -/
def entries (h : Table K) : List (K × ℕ) := (List.range h.nbuckets).flatMap (contents h)

theorem contents_empty (he : (h.buckets i).isEmpty = true) : contents h i = [] := if_pos he

theorem contents_live (he : (h.buckets i).isEmpty = false) :
    contents h i = live (h.blocks (h.buckets i).offset).pages := by
  simp [contents, he]

/-- The state of a bucket, locked or not. -/
structure Holds (g : Layout K) (h : Table K) (i : ℕ) : Prop where
  keys : ((contents h i).map Prod.fst).Nodup
  home : ∀ p ∈ contents h i, bucketIdx g h p.1 = i
  cls : (h.buckets i).isEmpty = false →
    (h.blocks (h.buckets i).offset).log2Pages = (h.buckets i).log2Pages
  placed : (h.buckets i).isEmpty = false → (h.buckets i).isLinearSearch = false →
    OnTarget g h (h.buckets i).log2Pages (h.blocks (h.buckets i).offset).pages
  refcnt : (h.buckets i).refcnt = (contents h i).length % 2 ^ 13

theorem Holds.of_empty (hb : h.buckets i = .empty) : Holds g h i := by
  have he : (h.buckets i).isEmpty = true := by rw [hb]; exact Bucket.isEmpty_empty
  have hc := contents_empty he
  refine ⟨by simp [hc], by simp [hc], by simp [he], by simp [he], ?_⟩
  rw [hc, hb]
  rfl

/-- The table while no writer bit is set, except perhaps that of the buckets in `locked`, and the
blocks in `rs` are retired. -/
structure Inv (g : Layout K) (h : Table K) (rs : List (ℕ × ℕ)) (locked : ℕ → Prop) : Prop where
  sound : Sound g h rs []
  pos : 0 < h.nbuckets
  holds : ∀ i < h.nbuckets, Holds g h i
  unlocked : ∀ i < h.nbuckets, ¬ locked i → (h.buckets i).isLocked = false
  len : h.len = (entries h).length

/-- Between operations. -/
abbrev Quiet (g : Layout K) (h : Table K) (rs : List (ℕ × ℕ)) : Prop := Inv g h rs fun _ => False

/-- While the writer bit of `idx` is held. -/
abbrev Locked (g : Layout K) (h : Table K) (rs : List (ℕ × ℕ)) (idx : ℕ) : Prop :=
  Inv g h rs (· = idx)

/-- Only the bucket `idx` and its block may differ. -/
structure Edits (h h' : Table K) (idx : ℕ) : Prop where
  nbuckets : h'.nbuckets = h.nbuckets
  log2Nbuckets : h'.log2Nbuckets = h.log2Nbuckets
  memorySize : h'.memorySize = h.memorySize
  buckets : ∀ j, j ≠ idx → h'.buckets j = h.buckets j
  blocks : ∀ j < h.nbuckets, j ≠ idx → (h.buckets j).isEmpty = false →
    h'.blocks (h.buckets j).offset = h.blocks (h.buckets j).offset

variable {pages : List (ValuePage K)}

namespace Edits

variable {h h' h'' : Table K} {idx : ℕ}

theorem trans (e : Edits h h' idx) (e' : Edits h' h'' idx) : Edits h h'' idx where
  nbuckets := e'.nbuckets.trans e.nbuckets
  log2Nbuckets := e'.log2Nbuckets.trans e.log2Nbuckets
  memorySize := e'.memorySize.trans e.memorySize
  buckets j hj := (e'.buckets j hj).trans (e.buckets j hj)
  blocks j hj hne he := by
    have := e'.blocks j (by rw [e.nbuckets]; exact hj) hne (by rw [e.buckets j hne]; exact he)
    rw [e.buckets j hne] at this
    rw [this, e.blocks j hj hne he]

theorem of_frame (idx : ℕ) (f : Frame h h') : Edits h h' idx where
  nbuckets := f.nbuckets
  log2Nbuckets := f.log2Nbuckets
  memorySize := f.memorySize
  buckets j _ := congrFun f.buckets j
  blocks j hj _ := f.blocks j hj

theorem store (h : Table K) (idx : ℕ) (b : Bucket) : Edits h (storeBucket h idx b) idx :=
  ⟨rfl, rfl, rfl, fun _ hj => Function.update_of_ne hj _ _, fun _ _ _ _ => rfl⟩

theorem setLen (h : Table K) (idx n : ℕ) : Edits h { h with len := n } idx :=
  ⟨rfl, rfl, rfl, fun _ _ => rfl, fun _ _ _ _ => rfl⟩

theorem setPages {held : List ℕ} (a : Parts g h held) (hidx : idx < h.nbuckets)
    (he : (h.buckets idx).isEmpty = false) (pages : List (ValuePage K)) :
    Edits h (setPages h (h.buckets idx).offset pages) idx :=
  ⟨rfl, rfl, rfl, fun _ _ => rfl, fun _ hj hne hej => Function.update_of_ne
    (a.owned_ne hj hidx hej he hne) _ _⟩

section

variable (e : Edits h h' idx)
include e

theorem bucketIdx_eq (key : K) : bucketIdx g h' key = bucketIdx g h key := by
  rw [bucketIdx, bucketIdx, e.nbuckets]

theorem onTarget {log2 : ℕ} : OnTarget g h' log2 pages ↔ OnTarget g h log2 pages := by
  simp only [OnTarget, targetPage, e.log2Nbuckets]

theorem contents_eq {j : ℕ} (hj : j < h.nbuckets) (hne : j ≠ idx) :
    contents h' j = contents h j := by
  unfold contents
  rw [e.buckets j hne]
  split
  · rfl
  · rename_i he
    rw [e.blocks j hj hne (by simpa using he)]

theorem holds {j : ℕ} (hj : j < h.nbuckets) (hne : j ≠ idx) (hh : Holds g h j) : Holds g h' j := by
  have hc := e.contents_eq hj hne
  refine ⟨?_, ?_, fun he => ?_, fun he hl => ?_, ?_⟩
  · rw [hc]; exact hh.keys
  · rw [hc]
    intro p hp
    rw [e.bucketIdx_eq, hh.home p hp]
  · rw [e.buckets j hne] at he ⊢
    rw [e.blocks j hj hne he]
    exact hh.cls he
  · rw [e.buckets j hne] at he hl ⊢
    rw [e.onTarget, e.blocks j hj hne he]
    exact hh.placed he hl
  · rw [e.buckets j hne, hc]
    exact hh.refcnt

theorem entries_perm (hidx : idx < h.nbuckets) : ∃ rest, (entries h).Perm (contents h idx ++ rest) ∧
      (entries h').Perm (contents h' idx ++ rest) := by
  obtain ⟨rest, h1, h2⟩ := flatMap_perm List.nodup_range (List.mem_range.mpr hidx) (contents h)
    (contents h') fun j hj hne => e.contents_eq (List.mem_range.mp hj) hne
  refine ⟨rest, h1, ?_⟩
  rw [entries, e.nbuckets]
  exact h2

end

end Edits

/-- `t` is quiet, and only bucket `idx` changed: it holds the pairs `ps`. -/
structure Changes (g : Layout K) (P : Shared K → Prop) (h : Table K) (idx : ℕ) (ps : List (K × ℕ))
    (t : Shared K) : Prop where
  quiet : Quiet g t.table t.retired
  edits : Edits h t.table idx
  pairs : (contents t.table idx).Perm ps
  supply : P t

section Finish

variable {h h' : Table K} {rs : List (ℕ × ℕ)} {idx : ℕ} {s t : Shared K} {P : Shared K → Prop}

/-- How an operation ends: its bucket is in order again and unlocked. -/
theorem Inv.finish (l : Locked g h rs idx) (hidx : idx < h.nbuckets) (e : Edits h t.table idx)
    (sd : Sound g t.table t.retired []) (hh : Holds g t.table idx)
    (hu : (t.table.buckets idx).isLocked = false)
    (hn : t.table.len + (contents h idx).length = h.len + (contents t.table idx).length)
    (hP : P t) : Changes g P h idx (contents t.table idx) t := by
  refine ⟨⟨sd, by rw [e.nbuckets]; exact l.pos, fun i hi => ?_, fun i hi _ => ?_, ?_⟩, e,
    List.Perm.refl _, hP⟩
  · rw [e.nbuckets] at hi
    by_cases hne : i = idx
    · exact hne ▸ hh
    · exact e.holds hi hne (l.holds i hi)
  · rw [e.nbuckets] at hi
    by_cases hne : i = idx
    · exact hne ▸ hu
    · rw [e.buckets i hne]
      exact l.unlocked i hi hne
  · obtain ⟨rest, h1, h2⟩ := e.entries_perm hidx
    have h1 := h1.length_eq
    have h2 := h2.length_eq
    have := l.len
    rw [List.length_append] at h1 h2
    omega

theorem storeBucket_self (h : Table K) (idx : ℕ) (b : Bucket) :
    (storeBucket h idx b).buckets idx = b := Function.update_self ..

variable {b : Bucket}

theorem contents_alike (hb : (h.buckets idx).Alike b) :
    contents (storeBucket h idx b) idx = contents h idx := by
  rw [contents, storeBucket_self, hb.isEmpty, hb.offset]
  rfl

theorem Holds.alike (hh : Holds g h idx) (hb : (h.buckets idx).Alike b) :
    Holds g (storeBucket h idx b) idx := by
  have hself := storeBucket_self h idx b
  have hc := contents_alike hb
  refine ⟨by rw [hc]; exact hh.keys, by rw [hc]; exact hh.home, ?_, ?_, ?_⟩ <;> rw [hself]
  · rw [hb.isEmpty, hb.offset, hb.log2Pages]
    exact hh.cls
  · rw [hb.isEmpty, hb.offset, hb.log2Pages, hb.linear]
    exact hh.placed
  · rw [hb.refcnt, hc]
    exact hh.refcnt

theorem Inv.lock (q : Quiet g h rs) (hidx : idx < h.nbuckets) :
    ∃ h1, lockBucket h idx = some (h1, h1.buckets idx) ∧ Locked g h1 rs idx ∧ Edits h h1 idx ∧
      contents h1 idx = contents h idx ∧ census h1 = census h ∧
      (h.buckets idx).Alike (h1.buckets idx) := by
  have hb := Bucket.alike_withLock (h.buckets idx)
  have e := Edits.store h idx (h.buckets idx).withLock
  have hc := contents_alike hb
  have hself := storeBucket_self h idx (h.buckets idx).withLock
  refine ⟨storeBucket h idx (h.buckets idx).withLock, ?_, ?_, e, hc, rfl, by rw [hself]; exact hb⟩
  · rw [lockBucket, if_neg (by simp [q.unlocked idx hidx not_false]), hself]
  · refine ⟨q.sound.store_alike hidx hb, q.pos, fun i hi => ?_, fun i hi hne => ?_, ?_⟩
    · by_cases hne : i = idx
      · exact hne ▸ (q.holds idx hidx).alike hb
      · exact e.holds hi hne (q.holds i hi)
    · rw [e.buckets i hne]
      exact q.unlocked i hi not_false
    · obtain ⟨rest, h1, h2⟩ := e.entries_perm hidx
      rw [hc] at h2
      rw [(h2.trans h1.symm).length_eq]
      exact q.len

/-- What must hold of the pages and the word a bucket is given. -/
structure Fits (g : Layout K) (h : Table K) (idx : ℕ) (b : Bucket) (pages : List (ValuePage K)) :
    Prop where
  unlocked : b.isLocked = false
  placed : b.isLinearSearch = false → OnTarget g h b.log2Pages pages
  refcnt : b.refcnt = (live pages).length % 2 ^ 13
  keys : ((live pages).map Prod.fst).Nodup
  home : ∀ p ∈ live pages, bucketIdx g h p.1 = idx

theorem Fits.holds (f : Fits g h idx b pages)
    (e : Edits h h' idx) (hb : h'.buckets idx = b) (hne : b.isEmpty = false)
    (hp : (h'.blocks b.offset).pages = pages)
    (hcls : (h'.blocks b.offset).log2Pages = b.log2Pages) :
    Holds g h' idx ∧ contents h' idx = live pages := by
  have hc : contents h' idx = live pages := by rw [contents_live (by rw [hb, hne]), hb, hp]
  refine ⟨⟨?_, ?_, ?_, ?_, ?_⟩, hc⟩
  · rw [hc]; exact f.keys
  · rw [hc]
    intro p hm
    rw [e.bucketIdx_eq]
    exact f.home p hm
  all_goals rw [hb]
  · exact fun _ => hcls
  · rw [e.onTarget, hp]
    exact fun _ => f.placed
  · rw [hc]
    exact f.refcnt

theorem Inv.publish (l : Locked g h rs idx) (hidx : idx < h.nbuckets)
    (f : Fits g h idx b pages) (e : Edits h t.table idx) (sd : Sound g t.table t.retired [])
    (hb : t.table.buckets idx = b) (hne : b.isEmpty = false)
    (hp : (t.table.blocks b.offset).pages = pages)
    (hcls : (t.table.blocks b.offset).log2Pages = b.log2Pages)
    (hn : t.table.len + (contents h idx).length = h.len + (live pages).length) (hP : P t) :
    Changes g P h idx (live pages) t := by
  obtain ⟨hh, hc⟩ := f.holds e hb hne hp hcls
  have := l.finish hidx e sd hh (by rw [hb]; exact f.unlocked) (by rw [hc]; exact hn) hP
  rwa [hc] at this

section

variable [Inhabited K] {hz : Hazards} {e : Prop} {B : ℕ → Shared K → Prop} {n m : ℕ}
  (S : Supply g hz e B) (hidx : idx < h.nbuckets)
include S hidx

/-- The bucket takes over a block that the mutation holds, and gives its old one up. -/
theorem Inv.install (l : Locked g h rs idx) (fr : Frame h s.table) {o : ℕ}
    (sd : Sound g s.table s.retired [o]) (ho : b.offset = o)
    (hcls : (s.table.blocks o).log2Pages = b.log2Pages)
    (f : Fits g h idx b (s.table.blocks o).pages)
    (hn : m + (contents h idx).length = h.len + (live (s.table.blocks o).pages).length)
    (hB : B n s) :
    let s₁ : Shared K := { s with table := storeBucket s.table idx b }
    Changes g (B n) h idx (live (s.table.blocks o).pages)
      ((if (h.buckets idx).isEmpty then s₁
        else s₁.retire hz (h.buckets idx).offset (h.buckets idx).log2Pages).addLen m) := by
  intro s₁
  have hor := sd.parts.held_range (o := o) (by simp)
  have hne : b.isEmpty = false := Bucket.isEmpty_of_offset (by omega)
  have howned : owned s.table idx = owned h idx := by rw [owned, owned, fr.buckets]
  have sd₁ : Sound g s₁.table s₁.retired (owned h idx) := by
    refine sd.store (by rw [fr.nbuckets]; exact hidx) ?_
    rw [owned_store_self, hne, howned, ho]
    exact List.perm_append_comm
  have e₁ : Edits h s₁.table idx := (Edits.of_frame idx fr).trans (Edits.store ..)
  -- the free lists and the retired list are all that is left to change
  have hdone (s₂ : Shared K) (ht : ∃ f, s₂.table = { s₁.table with freelists := f })
      (sd₂ : Sound g s₂.table s₂.retired []) (hB₂ : B n s₂) :
      Changes g (B n) h idx (live (s.table.blocks o).pages) (s₂.addLen m) := by
    obtain ⟨_, _, _⟩ := s₂
    obtain ⟨f', rfl⟩ := ht
    exact l.publish hidx f ((e₁.trans (Edits.of_frame idx (Frame.freelists ..))).trans
      (Edits.setLen ..)) (sd₂.setLen m) (storeBucket_self ..) hne (by simp [Shared.addLen, s₁,
      storeBucket, ho]) (by simp [Shared.addLen, s₁, storeBucket, ho, hcls]) hn
      (S.same hB₂ rfl rfl)
  have hB₁ : B n s₁ := S.same hB rfl rfl
  cases he : (h.buckets idx).isEmpty with
  | true =>
    rw [show owned h idx = [] by simp [owned, he]] at sd₁
    exact hdone s₁ ⟨_, rfl⟩ sd₁ hB₁
  | false =>
    rw [show owned h idx = [(h.buckets idx).offset] by simp [owned, he]] at sd₁
    refine hdone _ (retire_table ..) (sd₁.retire ?_ hz) (S.retire _ _ hB₁)
    show (s.table.blocks _).log2Pages = _
    rw [fr.blocks idx hidx he, (l.holds idx hidx).cls he]

end

section

variable [Inhabited K] {hz : Hazards} {e : Prop} {B : ℕ → Shared K → Prop} {n m k : ℕ}
  (S : Supply g hz e B) (l : Locked g h rs idx) (hidx : idx < h.nbuckets) (hB : B n ⟨h, rs, k⟩)
include S l hidx hB

theorem Inv.unlock : Changes g (B n) h idx (contents h idx)
    ⟨unlockUnchanged h idx (h.buckets idx), rs, k⟩ := by
  have hb := Bucket.alike_pack (h.buckets idx) (h.buckets idx).generation false
  have hc := contents_alike hb
  have := l.finish (t := ⟨unlockUnchanged h idx (h.buckets idx), rs, k⟩)
    hidx (Edits.store ..) (l.sound.store_alike hidx hb) ((l.holds idx hidx).alike hb)
    (by simp [unlockUnchanged, publishUnlocked, storeBucket, Bucket.pack_isLocked])
    (congrArg (h.len + ·.length) hc.symm) (S.same hB rfl rfl)
  exact ⟨this.quiet, this.edits, hc ▸ this.pairs, this.supply⟩

theorem Inv.rewrite (he : (h.buckets idx).isEmpty = false)
    (hs : Shape g (h.buckets idx).log2Pages pages) (ho : b.offset = (h.buckets idx).offset)
    (hl : b.log2Pages = (h.buckets idx).log2Pages) (f : Fits g h idx b pages)
    (hn : m + (contents h idx).length = h.len + (live pages).length) :
    Changes g (B n) h idx (live pages) (Shared.addLen
      ⟨storeBucket (setPages h (h.buckets idx).offset pages) idx b, rs, k⟩ m) := by
  have hcls := (l.holds idx hidx).cls he
  have hne : b.isEmpty = false := by
    have := (l.sound.parts.owned_range hidx he).1
    exact Bucket.isEmpty_of_offset (by omega)
  have sd₁ := l.sound.setPages (o := (h.buckets idx).offset) pages (by rwa [hcls])
  have sd₂ := sd₁.store (b := b) (r := []) hidx (by
    rw [owned_store_self, hne, owned]
    simp [setPages, he, ho])
  exact l.publish hidx f
    (((Edits.setPages l.sound.parts hidx he pages).trans (Edits.store ..)).trans (Edits.setLen ..))
    (sd₂.setLen m) (storeBucket_self ..) hne (by simp [Shared.addLen, storeBucket, setPages, ho])
    (by simp [Shared.addLen, storeBucket, setPages, ho, hl, hcls]) hn
    (S.same hB rfl (census_setPages h _ pages))

theorem Inv.release (he : (h.buckets idx).isEmpty = false)
    (hs : Shape g (h.buckets idx).log2Pages pages) (hn : m + (contents h idx).length = h.len) :
    Changes g (B n) h idx [] (Shared.addLen (Shared.retire hz
      ⟨storeBucket (setPages h (h.buckets idx).offset pages) idx .empty, rs, k⟩
      (h.buckets idx).offset (h.buckets idx).log2Pages) m) := by
  have hcls := (l.holds idx hidx).cls he
  have sd := l.sound.setPages (o := (h.buckets idx).offset) pages (by rwa [hcls])
  set s₁ : Shared K := ⟨storeBucket (setPages h (h.buckets idx).offset pages) idx .empty, rs, k⟩
    with hs₁
  have sd₁ : Sound g s₁.table s₁.retired [(h.buckets idx).offset] := by
    refine sd.store hidx ?_
    rw [owned_store_self, Bucket.isEmpty_empty, owned]
    simp [setPages, he]
  have sd₂ := sd₁.retire (c := (h.buckets idx).log2Pages)
    (by simp [hs₁, storeBucket, setPages, hcls]) hz
  have hB₁ : B n s₁ := S.same hB rfl (census_setPages h _ pages)
  have hB₂ := S.retire (h.buckets idx).offset (h.buckets idx).log2Pages hB₁
  obtain ⟨f, hf⟩ := retire_table hz s₁ (h.buckets idx).offset (h.buckets idx).log2Pages
  generalize s₁.retire hz (h.buckets idx).offset (h.buckets idx).log2Pages = t at *
  have hb : (t.addLen m).table.buckets idx = .empty := by
    rw [Shared.addLen, hf]
    exact storeBucket_self ..
  have hemp : ((t.addLen m).table.buckets idx).isEmpty = true := by
    rw [hb]; exact Bucket.isEmpty_empty
  have ed : Edits h (t.addLen m).table idx := by
    rw [Shared.addLen, hf]
    exact (((Edits.setPages l.sound.parts hidx he pages).trans (Edits.store ..)).trans
      (Edits.of_frame idx (Frame.freelists ..))).trans (Edits.setLen ..)
  have hc := contents_empty hemp
  have := l.finish hidx ed (sd₂.setLen m) (.of_empty hb) (by rw [hb]; exact Bucket.isLocked_empty)
    (by rw [hc]; exact hn) (S.same hB₂ rfl rfl)
  rwa [hc] at this

end

end Finish

end Bihash
