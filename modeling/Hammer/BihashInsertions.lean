import Hammer.BihashRefinement

/-! # Insertions that are reported and stored

In a bucket whose largest block is full, `place_linear` gives up silently: the pair is counted,
reported and lost.
-/
namespace Bihash

variable {K : Type} {g : Layout K} {h : Table K} {idx : ℕ}

section Stored

variable [DecidableEq K]

theorem Admissible.last {n : ℕ} {op : Op K} (ops : List (Op K)) : ∀ {m : Map K}, Loaded g n m →
    Admissible g n m (ops ++ [op]) → Admissible g n m ops ∧ Loaded g n (specRun m ops).1 ∧
      (∀ v ∈ op.stores, v ≠ FREE_U64) ∧ Loaded g n (op.spec (specRun m ops).1).1 := by
  induction ops with
  | nil => exact fun hl h => ⟨trivial, hl, h.1, h.2.1⟩
  | cons op' ops ih =>
    intro m _ h
    obtain ⟨h1, h2, h3, h4⟩ := ih h.2.1 h.2.2
    exact ⟨⟨h.1, h.2.1, h1⟩, h2, h3, h4⟩

variable [Inhabited K]

/-- In every run in which each call leaves all buckets with room for their keys, a new pair that
`insert` or `insert_if_absent` reports is found by the next lookup. -/
theorem reported_insertion_stored (g : Layout K) (capacity memorySize : ℕ) (h₀ h h' : Table K)
    (ops : List (Op K)) (op : Op K) (key : K) (value : ℕ) (replies : List Reply) (reply : Reply)
    (hnew : withCapacityIn capacity memorySize = some h₀)
    (hadm : Admissible g h₀.nbuckets ∅ (ops ++ [op])) (hrun : run g h₀ ops = some (h, replies))
    (hop : op = .insert key value ∨ op = .insertIfAbsent key value)
    (hstep : op.run g h = some (h', reply))
    (hrep : reply = .inserted (.ok ()) ∨ reply = .done ∧ lookup g h key = some none) :
    lookup g h' key = some (some value) ∧ (∀ k, k ≠ key → lookup g h' k = lookup g h k) ∧
      h'.len = h.len + 1 := by
  obtain ⟨r0, -⟩ := refines_new (g := g) hnew
  obtain ⟨h1, h2, h3, h4⟩ := hadm.last ops (loaded_of_card (by simp) (by simp))
  have hr := run_refines ops r0 (loaded_of_card (by simp) (by simp)) h1
  rw [hrun] at hr
  obtain ⟨-, r, hn⟩ := hr
  rw [← hn] at h2 h4
  have hs := step_refines r h2 op h3 h4
  rw [hstep] at hs
  set m := (specRun ∅ ops : Map K × List Reply).1 with hm
  obtain ⟨hnone, hspec⟩ : m.lookup key = none ∧ (op.spec m).1 = m.insert key value := by
    have hreply := hs.reply
    rcases hop with rfl | rfl
    · rcases hrep with rfl | ⟨-, hl⟩
      · cases hreply
      · exact ⟨Option.some.inj ((r.lookup_eq key).symm.trans hl), rfl⟩
    · simp only [Op.spec] at hreply ⊢
      cases hk : m.lookup key with
      | none => exact ⟨rfl, rfl⟩
      | some existing =>
        simp only [hk] at hreply
        rcases hrep with rfl | ⟨rfl, -⟩ <;> cases hreply
  have r' : Refines g h' (m.insert key value) := hspec ▸ hs.refines
  refine ⟨?_, fun k hk => ?_, ?_⟩
  · rw [r'.lookup_eq, Finmap.lookup_insert]
  · rw [r'.lookup_eq, r.lookup_eq, Finmap.lookup_insert_of_ne _ hk]
  · rw [r'.len_eq, r.len_eq, keys_insert, Finset.card_insert_of_notMem]
    rwa [Finmap.mem_keys, ← Finmap.lookup_eq_none]

end Stored

theorem reported_insertion_stored_narrow : ∃ h₀ h h', withCapacityIn 1 (2 ^ 20) = some h₀ ∧
    run narrow h₀ [.insert 3 5] = some (h, [.done]) ∧
    insertIfAbsent narrow h 4 6 = some (h', .ok ()) ∧ lookup narrow h' 4 = some (some 6) := by
  refine ⟨_, _, _, rfl, rfl, rfl, ?_⟩
  refine (reported_insertion_stored narrow 1 (2 ^ 20) _ _ _ [.insert 3 5] (.insertIfAbsent 4 6) 4 6
    _ _ rfl ⟨?_, loaded_of_card ?_ ?_, ?_, loaded_of_card ?_ ?_, trivial⟩ rfl (.inr rfl) rfl
    (.inl rfl)).1
  all_goals decide

section Full

theorem placeLinear_cases (kv : Kv K) (pages : List (ValuePage K)) :
    Adds kv pages (placeLinear kv pages).1 ∨ placeLinear kv pages = (pages, false) := by
  induction pages with
  | nil => exact Or.inr rfl
  | cons page pages ih =>
    rw [placeLinear]
    cases hp : placeInPage kv page with
    | some page' => exact Or.inl (Adds.head hp)
    | none =>
      rcases ih with ih | ih
      · exact Or.inl (ih.cons page)
      · exact Or.inr (by simp only [ih])

/-- `place_linear` gives up silently when there is no free slot. -/
theorem placeLinear_full {kv : Kv K} (hv : kv.isFree = false) {pages : List (ValuePage K)}
    {log2 : ℕ} (hs : Shape g log2 pages) (hfull : (live pages).length = 2 ^ log2 * g.kvp) :
    placeLinear kv pages = (pages, false) := by
  rcases placeLinear_cases kv pages with ha | h
  · have hle := live_length_le (ha.shape hs)
    rw [ha.live.length_eq, pair_of_not_free hv, List.length_append, hfull] at hle
    simp at hle
  · exact h

theorem free_slot_room {log2 : ℕ} {pages : List (ValuePage K)} {slot : Slot} {x kv : Kv K}
    (hs : Shape g log2 pages) (hslot : SlotIs pages slot x) (hx : x.isFree = true)
    (hv : kv.isFree = false) : (live pages).length < 2 ^ log2 * g.kvp := by
  have hle := live_length_le (hs.modifySlot slot fun _ => kv)
  rwa [(live_fill hslot hx hv).length_eq] at hle

variable [DecidableEq K]

theorem lookup_linear_absent {key : K} (hidx : bucketIdx g h key = idx)
    (he : (h.buckets idx).isEmpty = false) (hlock : (h.buckets idx).isLocked = false)
    (hlin : (h.buckets idx).isLinearSearch = true)
    (hr : 1 ≤ (h.buckets idx).offset ∧ (h.buckets idx).offset ≤ h.blocksLen)
    (hs : Shape g (h.buckets idx).log2Pages (h.blocks (h.buckets idx).offset).pages)
    (habs : ∀ v, (key, v) ∉ contents h idx) : lookup g h key = some none := by
  obtain ⟨⟨found, free⟩, hf, hi⟩ := inspectLocked_inspected hr hs
    (fun hl => absurd (hl.symm.trans hlin) (by decide)) he key
  cases found with
  | some x => exact absurd (hi.mem he rfl) (habs _)
  | none => simp [lookup, hidx, hlock, he, hf]

variable [Inhabited K]

/-- The split of a bucket whose largest block is full: the new pair is counted and not stored. -/
theorem splitAndRehash_full (l : Locked g h [] idx) (budget : Budget g h) (hidx : idx < h.nbuckets)
    (he : (h.buckets idx).isEmpty = false) (hmax : (h.buckets idx).log2Pages = MAX_LOG2_PAGES)
    (hfull : (contents h idx).length = 2 ^ MAX_LOG2_PAGES * g.kvp)
    (hcount : (contents h idx).length + 1 < 2 ^ 16) (hmem : ¬ Short g h) {kv : Kv K}
    (hv : kv.isFree = false) :
    ∃ h', splitAndRehash g h idx (h.buckets idx) kv = some h' ∧ h'.nbuckets = h.nbuckets ∧
      (contents h' idx).length = (contents h idx).length ∧
      (h'.buckets idx).refcnt = ((contents h idx).length + 1) % 2 ^ 13 ∧
      ∀ k, bucketIdx g h k = idx → (∀ v, (k, v) ∉ contents h idx) → lookup g h' k = some none := by
  have hal := budget.allocate l.sound.parts (le_refl MAX_LOG2_PAGES)
  cases hr : allocate g h MAX_LOG2_PAGES with
  | none => rw [hr] at hal; exact absurd hal hmem
  | some r =>
    obtain ⟨h1, o⟩ := r
    rw [hr] at hal
    obtain ⟨-, a1, fr, -, hblk, -⟩ := l.sound.parts.allocate hr
    simp only at a1 fr hblk
    have hpairs : (h1.blocks (h.buckets idx).offset).pages.flatten.filterMap Kv.pair =
        contents h idx := by
      rw [fr.blocks idx hidx he, contents_live he]
      rfl
    obtain ⟨pages, d, e1, hs, hp, -⟩ := placeAll_spec (g := g) (h := h1) true
      (h1.blocks (h.buckets idx).offset).pages.flatten (d := false)
      (shape_freshPages (g := g) (K := K) MAX_LOG2_PAGES) (by
        rw [live_freshPages, hpairs, hfull, List.length_nil, Nat.zero_add])
    rw [live_freshPages, List.append_nil, hpairs] at hp
    have hlin := placeLinear_full hv hs (hp.length_eq.trans hfull)
    have hre : rehash g h (h.buckets idx) kv MAX_LOG2_PAGES true =
        some ⟨setPages h1 o pages, o, (contents h idx).length + 1, d || !false⟩ := by
      simp only [rehash, hr, hblk, e1, placeMode, if_true, hlin]
      rw [filter_live_length, hpairs, if_neg (by omega)]
    have hor := a1.held_range (List.mem_singleton_self o)
    have hoff := hor.2.trans_lt (a1.blocksLen_lt hal)
    set b := Bucket.pack o MAX_LOG2_PAGES ((contents h idx).length + 1)
      (((h.buckets idx).generation + 1) % 32) true false with hb
    set h2 := storeBucket (setPages h1 o pages) idx b with hh2
    have hself : h2.buckets idx = b := storeBucket_self ..
    have hbo : b.offset = o := by rw [Bucket.pack_offset, Nat.mod_eq_of_lt hoff]
    have hne : b.isEmpty = false := Bucket.pack_isEmpty hor.1 hoff ..
    have hc : contents h2 idx = live pages := by
      rw [contents_live (by rw [hself, hne]), hself, hbo]
      simp [hh2, storeBucket, setPages]
    have heq : splitAndRehash g h idx (h.buckets idx) kv = some
        { retire h2 (h.buckets idx).offset MAX_LOG2_PAGES with len := h1.len + 1 } := by
      have hcap : decide (MAX_LOG2_PAGES < MAX_LOG2_PAGES + 1) = true := by decide
      simp only [splitAndRehash, hmax, hcap, Nat.min_eq_right (Nat.le_succ MAX_LOG2_PAGES), hre]
      rfl
    set h3 : Table K :=
      { retire h2 (h.buckets idx).offset MAX_LOG2_PAGES with len := h1.len + 1 } with hh3
    have hself3 : h3.buckets idx = b := hself
    refine ⟨h3, heq, fr.nbuckets, ?_, ?_, fun k hk habs => ?_⟩
    · rw [← hp.length_eq, ← hc]
      rfl
    · rw [hself3, Bucket.pack_refcnt]
    · refine lookup_linear_absent ((congrArg (_ % ·) fr.nbuckets).trans hk) ?_ ?_ ?_ ?_ ?_ ?_
      · rw [hself3, hne]
      · rw [hself3, Bucket.pack_isLocked]
      · rw [hself3, Bucket.pack_isLinearSearch]
      · rw [hself3, hbo]
        exact hor
      · rw [hself3, hbo, Bucket.pack_log2Pages]
        show Shape g MAX_LOG2_PAGES (h2.blocks o).pages
        simpa [hh2, storeBucket, setPages] using hs
      · exact fun v hv => habs v (hp.mem_iff.mp (hc ▸ hv))

/-- Both insertions of a new key come to the split. -/
theorem insertion_full (q : Quiet g h []) (budget : Budget g h) {key : K} (value : ℕ) (hv : value ≠ FREE_U64)
    (habs : ∀ v, (key, v) ∉ contents h (bucketIdx g h key)) (hkvp : 0 < g.kvp)
    (hfull : (contents h (bucketIdx g h key)).length = 2 ^ MAX_LOG2_PAGES * g.kvp)
    (hcount : (contents h (bucketIdx g h key)).length + 1 < 2 ^ 16) (hmem : ¬ Short g h) :
    ∃ h', insert g h key value = some h' ∧ insertIfAbsent g h key value = some (h', .ok ()) ∧
      h'.nbuckets = h.nbuckets ∧
      (contents h' (bucketIdx g h key)).length = (contents h (bucketIdx g h key)).length ∧
      (h'.buckets (bucketIdx g h key)).refcnt =
        ((contents h (bucketIdx g h key)).length + 1) % 2 ^ 13 ∧ lookup g h' key = some none := by
  have hidx := bucketIdx_lt q key
  have hfree := isFree_of_value key hv
  obtain ⟨h1, hlock, l, e, hc, hcensus, -⟩ := q.lock hidx
  have hidx1 : bucketIdx g h key < h1.nbuckets := by rw [e.nbuckets]; exact hidx
  rw [← hc] at hfull hcount habs ⊢
  have he : (h1.buckets (bucketIdx g h key)).isEmpty = false := by
    by_contra hne
    rw [contents_empty (by simpa using hne)] at hfull
    have := Nat.mul_pos (Nat.two_pow_pos MAX_LOG2_PAGES) hkvp
    simp only [List.length_nil] at hfull
    omega
  have hshape := l.shape hidx1 he
  have hlog := l.log2Pages_le hidx1 he
  have hmax : (h1.buckets (bucketIdx g h key)).log2Pages = MAX_LOG2_PAGES := by
    have hle := live_length_le hshape
    rw [← contents_live he, hfull] at hle
    exact le_antisymm hlog ((Nat.pow_le_pow_iff_right (by decide)).mp
      (Nat.le_of_mul_le_mul_right hle hkvp))
  obtain ⟨⟨found, free⟩, hr, hi⟩ := inspectLocked_spec l hidx1 he key
  obtain rfl : found = none := by
    cases found with
    | none => rfl
    | some s => exact absurd (hi.mem he rfl) (habs _)
  obtain rfl : free = none := by
    cases free with
    | none => rfl
    | some slot =>
      obtain ⟨x, hx, hxf, -⟩ := hi.free slot rfl
      have := free_slot_room hshape hx hxf hfree
      rw [← contents_live he, hmax, hfull] at this
      exact absurd this (lt_irrefl _)
  obtain ⟨h', hsplit, hn, hlen, href, hlook⟩ := splitAndRehash_full l (budget.of_census hcensus)
    hidx1 he hmax hfull hcount (by rwa [Short, e.nbuckets, e.memorySize]) hfree
  refine ⟨h', ?_, ?_, hn.trans e.nbuckets, hlen, href, hlook key ?_ habs⟩
  · simp [insert, onKey, hlock, he, hr, insertAbsent, hsplit]
  · simp [insertIfAbsent, onKey, hlock, he, hr, insertAbsent, hsplit]
  · exact congrArg (_ % ·) e.nbuckets

end Full

def single : Layout ℕ := ⟨id, 1, 16⟩

def fillBucket : List (Op ℕ) := (List.range 256).map (.insert · 0)

/-- The only bucket of a table with all slots of its largest block in use. -/
theorem fillBucket_full : ∃ h₀ h1 h2 replies, new 1 = some h₀ ∧
    run single h₀ fillBucket = some (h1, replies) ∧ insert single h1 256 0 = some h2 ∧
    insertIfAbsent single h1 256 0 = some (h2, .ok ()) ∧ h2.nbuckets = 1 ∧
    (contents h2 0).length = 256 ∧ (h2.buckets 0).refcnt = 257 ∧
    lookup single h2 256 = some none := by
  obtain ⟨h₀, h1, replies, f, hrun⟩ := exists_filled single 256 (by decide) (by decide) (by decide) []
  rw [List.append_nil] at hrun
  have hidx := f.bucketIdx_eq 256
  have habs : ∀ v, (256, v) ∉ contents h1 (bucketIdx single h1 256) := by
    rw [f.refines.absent_iff, f.lookup]
    rfl
  obtain ⟨h2, hins, hif, hn2, hlen2, href, hfind⟩ := insertion_full f.refines.quiet
    f.refines.budget 0 (by decide)
    habs (by decide) (by rw [hidx, f.length]; rfl) (by rw [hidx, f.length]; decide) f.enough
  rw [hidx, f.length] at hlen2 href
  exact ⟨h₀, h1, h2, _, f.new, hrun, hins, hif, hn2.trans f.nbuckets, hlen2, href, hfind⟩

/-- `insert_if_absent` reports that the 257th key of a bucket was stored, and the next lookup does
not find it. -/
theorem reported_insertion_lost : ∃ h₀ h h' replies, new 1 = some h₀ ∧
    run single h₀ fillBucket = some (h, replies) ∧
    insertIfAbsent single h 256 0 = some (h', .ok ()) ∧ lookup single h' 256 = some none := by
  obtain ⟨h₀, h, h', replies, hnew, hrun, -, hif, -, -, -, hfind⟩ := fillBucket_full
  exact ⟨h₀, h, h', replies, hnew, hrun, hif, hfind⟩

end Bihash
