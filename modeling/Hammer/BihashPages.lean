import Hammer.Bihash
import Mathlib.Data.List.Perm.Basic
import Mathlib.Tactic.Tauto

/-! # The live pairs of a value array

Pages are described by the list of their live pairs. Scanning finds a pair where it belongs,
placing adds one, and writing through a slot replaces one.
-/
namespace Bihash

open List

variable {K : Type} {g : Layout K}

def Kv.pair (kv : Kv K) : Option (K × ℕ) := if kv.isFree then none else some (kv.key, kv.value)

def pageLive (page : ValuePage K) : List (K × ℕ) := page.filterMap Kv.pair

def live (pages : List (ValuePage K)) : List (K × ℕ) := pages.flatten.filterMap Kv.pair

theorem live_cons (page : ValuePage K) (pages : List (ValuePage K)) :
    live (page :: pages) = pageLive page ++ live pages := by
  simp [live, pageLive]

variable {kv : Kv K}

theorem pair_of_not_free (h : kv.isFree = false) :
    kv.pair = some (kv.key, kv.value) := by simp [Kv.pair, h]

theorem pair_of_free (h : kv.isFree = true) : kv.pair = none := by simp [Kv.pair, h]

theorem isFree_of_value (key : K) {value : ℕ} (h : value ≠ FREE_U64) :
    (Kv.mk key value).isFree = false := by
  simpa [Kv.isFree] using h

theorem pair_of_value {key : K} {value : ℕ} (h : value ≠ FREE_U64) :
    (Kv.mk key value).pair = some (key, value) := by
  simp [Kv.pair, Kv.isFree, h]

variable {page : ValuePage K}

theorem mem_pageLive {k : K} {v : ℕ} :
    (k, v) ∈ pageLive page ↔ (⟨k, v⟩ : Kv K) ∈ page ∧ v ≠ FREE_U64 := by
  simp only [pageLive, mem_filterMap, Kv.pair, Kv.isFree]
  constructor
  · rintro ⟨kv, hm, e⟩
    by_cases hf : kv.value = FREE_U64
    · simp [hf] at e
    · obtain ⟨rfl, rfl⟩ : kv.key = k ∧ kv.value = v := by simpa [hf] using e
      exact ⟨hm, hf⟩
  · rintro ⟨hm, hv⟩
    exact ⟨_, hm, by simp [hv]⟩

def SlotIs (pages : List (ValuePage K)) (slot : Slot) (kv : Kv K) : Prop :=
  ∃ page, pages[slot.1]? = some page ∧ page[slot.2]? = some kv

theorem pageLive_modify {i : ℕ} (h : page[i]? = some kv) :
    ∃ xs ys, pageLive page = xs ++ kv.pair.toList ++ ys ∧
      ∀ f : Kv K → Kv K, pageLive (page.modify i f) = xs ++ (f kv).pair.toList ++ ys := by
  induction page generalizing i with
  | nil => simp at h
  | cons c page ih =>
    cases i with
    | zero =>
      obtain rfl : c = kv := by simpa using h
      refine ⟨[], pageLive page, ?_, fun f => ?_⟩
      · cases hc : c.pair <;> simp [pageLive, hc]
      · cases hc : (f c).pair <;> simp [pageLive, hc]
    | succ i =>
      obtain ⟨xs, ys, e1, e2⟩ := ih (by simpa using h)
      refine ⟨c.pair.toList ++ xs, ys, ?_, fun f => ?_⟩
      · have : pageLive (c :: page) = c.pair.toList ++ pageLive page := by
          cases hc : c.pair <;> simp [pageLive, hc]
        rw [this, e1]
        simp
      · have : pageLive ((c :: page).modify (i + 1) f) =
            c.pair.toList ++ pageLive (page.modify i f) := by
          cases hc : c.pair <;> simp [pageLive, hc]
        rw [this, e2 f]
        simp

variable {pages : List (ValuePage K)}

theorem live_modifySlot {slot : Slot} (h : SlotIs pages slot kv) :
    ∃ xs ys, live pages = xs ++ kv.pair.toList ++ ys ∧
      ∀ f : Kv K → Kv K, live (modifySlot pages slot f) = xs ++ (f kv).pair.toList ++ ys := by
  obtain ⟨p, i⟩ := slot
  obtain ⟨page, hp, hi⟩ := h
  simp only at hp hi
  induction pages generalizing p with
  | nil => simp at hp
  | cons c pages ih =>
    cases p with
    | zero =>
      obtain rfl : c = page := by simpa using hp
      obtain ⟨xs, ys, e1, e2⟩ := pageLive_modify hi
      refine ⟨xs, ys ++ live pages, ?_, fun f => ?_⟩
      · rw [live_cons, e1]; simp
      · have : modifySlot (c :: pages) (0, i) f = c.modify i f :: pages := rfl
        rw [this, live_cons, e2 f]; simp
    | succ p =>
      obtain ⟨xs, ys, e1, e2⟩ := ih p (by simpa using hp)
      refine ⟨pageLive c ++ xs, ys, ?_, fun f => ?_⟩
      · rw [live_cons, e1]; simp
      · have : modifySlot (c :: pages) (p + 1, i) f = c :: modifySlot pages (p, i) f := rfl
        rw [this, live_cons, e2 f]; simp

/-- A pair stored in a free slot is one more live pair. -/
theorem live_fill {slot : Slot} {x : Kv K} (hs : SlotIs pages slot x) (hx : x.isFree = true)
    (hv : kv.isFree = false) : (live (modifySlot pages slot fun _ => kv)).Perm
      ((kv.key, kv.value) :: live pages) := by
  obtain ⟨xs, ys, e1, e2⟩ := live_modifySlot hs
  rw [e2, e1, pair_of_free hx, pair_of_not_free hv]
  simp

theorem mem_live_iff {k : K} {v : ℕ} :
    (k, v) ∈ live pages ↔ v ≠ FREE_U64 ∧ ∃ slot, SlotIs pages slot ⟨k, v⟩ := by
  simp only [live, mem_filterMap, mem_flatten]
  constructor
  · rintro ⟨kv, ⟨page, hp, hk⟩, e⟩
    have hm : (k, v) ∈ pageLive page := mem_filterMap.mpr ⟨kv, hk, e⟩
    obtain ⟨hkv, hv⟩ := mem_pageLive.mp hm
    obtain ⟨p, hp⟩ := mem_iff_getElem?.mp hp
    obtain ⟨i, hi⟩ := mem_iff_getElem?.mp hkv
    exact ⟨hv, (p, i), page, hp, hi⟩
  · rintro ⟨hv, ⟨p, i⟩, page, hp, hi⟩
    exact ⟨_, ⟨page, mem_of_getElem? hp, mem_of_getElem? hi⟩, pair_of_value hv⟩

theorem targetPage_lt (h : Table K) (log2 : ℕ) (key : K) : targetPage g h log2 key < 2 ^ log2 :=
  Nat.mod_lt _ (Nat.two_pow_pos _)

section Scan

variable [DecidableEq K]

/-- What a scan reports about the slots `cell`, given in scanning order. -/
structure ScanSpec (key : K) (cell : Slot → Kv K → Prop) (free : Option Slot)
    (r : Option (Slot × ℕ) × Option Slot) : Prop where
  found : ∀ slot v, r.1 = some (slot, v) → cell slot ⟨key, v⟩ ∧ v ≠ FREE_U64
  absent : r.1 = none → ∀ slot kv, cell slot kv → kv.isFree = false → kv.key ≠ key
  free : ∀ slot, r.2 = some slot → free = some slot ∨ ∃ kv, cell slot kv ∧ kv.isFree = true

theorem scanSlots_spec (key : K) (p : ℕ) : ∀ (page : ValuePage K) (i : ℕ) (free : Option Slot),
    ScanSpec key (fun slot kv => slot.1 = p ∧ ∃ j, slot.2 = i + j ∧ page[j]? = some kv) free
      (scanSlots key p i page free) := by
  intro page
  induction page with
  | nil =>
    intro i free
    exact ⟨fun _ _ h => by simp [scanSlots] at h, fun _ _ _ h => by simp at h,
      fun slot h => Or.inl h⟩
  | cons c page ih =>
    intro i free
    rw [scanSlots]
    split
    · rename_i hc
      obtain ⟨h1, h2, h3⟩ := ih (i + 1) (free <|> some (p, i))
      refine ⟨fun slot v e => ?_, fun e slot kv hs hf => ?_, fun slot e => ?_⟩
      · obtain ⟨⟨hp, j, hj, hk⟩, hv⟩ := h1 slot v e
        exact ⟨⟨hp, j + 1, by omega, by simpa using hk⟩, hv⟩
      · obtain ⟨hp, j, hj, hk⟩ := hs
        cases j with
        | zero =>
          obtain rfl : c = kv := by simpa using hk
          simp [hc] at hf
        | succ j => exact h2 e slot kv ⟨hp, j, by omega, by simpa using hk⟩ hf
      · rcases h3 slot e with h | ⟨kv, ⟨hp, j, hj, hk⟩, hf⟩
        · cases free with
          | none =>
            have : slot = (p, i) := by simpa using h.symm
            subst this
            exact Or.inr ⟨c, ⟨rfl, 0, rfl, by simp⟩, hc⟩
          | some s => exact Or.inl h
        · exact Or.inr ⟨kv, ⟨hp, j + 1, by omega, by simpa using hk⟩, hf⟩
    · rename_i hc
      split
      · rename_i hk
        refine ⟨fun slot v e => ?_, fun e => by simp at e, fun slot e => Or.inl e⟩
        obtain ⟨rfl, rfl⟩ := by simpa using e
        exact ⟨⟨rfl, 0, rfl, by simp [← hk]⟩, by simpa [Kv.isFree] using hc⟩
      · rename_i hk
        obtain ⟨h1, h2, h3⟩ := ih (i + 1) free
        refine ⟨fun slot v e => ?_, fun e slot kv hs hf => ?_, fun slot e => ?_⟩
        · obtain ⟨⟨hp, j, hj, hk⟩, hv⟩ := h1 slot v e
          exact ⟨⟨hp, j + 1, by omega, by simpa using hk⟩, hv⟩
        · obtain ⟨hp, j, hj, hkv⟩ := hs
          cases j with
          | zero =>
            obtain rfl : c = kv := by simpa using hkv
            exact hk
          | succ j => exact h2 e slot kv ⟨hp, j, by omega, by simpa using hkv⟩ hf
        · rcases h3 slot e with h | ⟨kv, ⟨hp, j, hj, hk⟩, hf⟩
          · exact Or.inl h
          · exact Or.inr ⟨kv, ⟨hp, j + 1, by omega, by simpa using hk⟩, hf⟩

theorem scanPageList_spec (key : K) : ∀ (pages : List (ValuePage K)) (p : ℕ) (free : Option Slot),
    ScanSpec key (fun slot kv => ∃ q, slot.1 = p + q ∧ ∃ page, pages[q]? = some page ∧
      page[slot.2]? = some kv) free (scanPageList key p pages free) := by
  intro pages
  induction pages with
  | nil =>
    intro p free
    exact ⟨fun _ _ h => by simp [scanPageList] at h, fun _ _ _ h => by simp at h,
      fun slot h => Or.inl h⟩
  | cons page pages ih =>
    intro p free
    have hs := scanSlots_spec key p page 0 free
    rw [scanPageList]
    match hr : scanSlots key p 0 page free, hs with
    | (some f, free'), hs =>
      refine ⟨fun slot v e => ?_, fun e => by simp at e, fun slot e => ?_⟩
      · obtain ⟨⟨hp, j, hj, hk⟩, hv⟩ := hs.found slot v (by simpa using e)
        exact ⟨⟨0, hp, page, by simp, by rw [hj, Nat.zero_add]; exact hk⟩, hv⟩
      · rcases hs.free slot e with h | ⟨kv, ⟨hp, j, hj, hk⟩, hf⟩
        · exact Or.inl h
        · exact Or.inr ⟨kv, ⟨0, hp, page, by simp, by rw [hj, Nat.zero_add]; exact hk⟩, hf⟩
    | (none, free'), hs =>
      obtain ⟨h1, h2, h3⟩ := ih (p + 1) free'
      refine ⟨fun slot v e => ?_, fun e slot kv hc hf => ?_, fun slot e => ?_⟩
      · obtain ⟨⟨q, hq, pg, hpg, hk⟩, hv⟩ := h1 slot v e
        exact ⟨⟨q + 1, by omega, pg, by simpa using hpg, hk⟩, hv⟩
      · obtain ⟨q, hq, pg, hpg, hk⟩ := hc
        cases q with
        | zero =>
          obtain rfl : page = pg := by simpa using hpg
          exact hs.absent rfl slot kv ⟨hq, slot.2, by simp, hk⟩ hf
        | succ q => exact h2 e slot kv ⟨q, by omega, pg, by simpa using hpg, hk⟩ hf
      · rcases h3 slot e with h | ⟨kv, ⟨q, hq, pg, hpg, hk⟩, hf⟩
        · rcases hs.free slot h with h | ⟨kv, ⟨hp, j, hj, hk⟩, hf⟩
          · exact Or.inl h
          · exact Or.inr ⟨kv, ⟨0, hp, page, by simp, by rw [hj, Nat.zero_add]; exact hk⟩, hf⟩
        · exact Or.inr ⟨kv, ⟨q + 1, by omega, pg, by simpa using hpg, hk⟩, hf⟩

/-- Every live pair is on its target page. -/
def OnTarget (g : Layout K) (h : Table K) (log2 : ℕ) (pages : List (ValuePage K)) : Prop :=
  ∀ p page, pages[p]? = some page → ∀ kv ∈ page, kv.isFree = false →
    targetPage g h log2 kv.key = p

/-- The pages a key may be on. -/
def InRegion (g : Layout K) (h : Table K) (log2 : ℕ) (linear : Bool) (key : K) (p : ℕ) : Prop :=
  linear = true ∨ p = targetPage g h log2 key

/-- `scan_pages` looks exactly at the pages the key may be on. -/
theorem scanPages_spec (h : Table K) {log2 : ℕ}
    (hlen : pages.length = 2 ^ log2) (linear : Bool) (key : K) :
    ScanSpec key (fun slot kv => SlotIs pages slot kv ∧ InRegion g h log2 linear key slot.1) none
      (scanPages g h pages log2 linear key) := by
  have hspec := scanPageList_spec key
    ((pages.drop (if linear then 0 else targetPage g h log2 key)).take
      (if linear then 2 ^ log2 else 1)) (if linear then 0 else targetPage g h log2 key) none
  have hcell : ∀ slot kv, (∃ q, slot.1 = (if linear then 0 else targetPage g h log2 key) + q ∧
      ∃ page, ((pages.drop (if linear then 0 else targetPage g h log2 key)).take
        (if linear then 2 ^ log2 else 1))[q]? = some page ∧ page[slot.2]? = some kv) ↔
      SlotIs pages slot kv ∧ InRegion g h log2 linear key slot.1 := by
    intro slot kv
    cases linear with
    | true =>
      simp only [if_true, drop_zero, Nat.zero_add, InRegion, true_or, and_true, SlotIs]
      rw [take_of_length_le hlen.le]
      constructor
      · rintro ⟨q, rfl, page, h1, h2⟩; exact ⟨page, h1, h2⟩
      · rintro ⟨page, h1, h2⟩; exact ⟨_, rfl, page, h1, h2⟩
    | false =>
      simp only [Bool.false_eq_true, if_false, InRegion, false_or, SlotIs]
      constructor
      · rintro ⟨q, hq, page, h1, h2⟩
        rw [getElem?_take] at h1
        split at h1
        · obtain rfl : q = 0 := by omega
          rw [getElem?_drop] at h1
          exact ⟨⟨page, by rw [hq]; exact h1, h2⟩, hq⟩
        · cases h1
      · rintro ⟨⟨page, h1, h2⟩, hp⟩
        refine ⟨0, by omega, page, ?_, h2⟩
        rw [getElem?_take, getElem?_drop, ← hp]
        exact h1
  obtain ⟨h1, h2, h3⟩ := hspec
  refine ⟨fun slot v e => ?_, fun e slot kv hc hf => ?_, fun slot e => ?_⟩
  · obtain ⟨hc, hv⟩ := h1 slot v e
    exact ⟨(hcell _ _).mp hc, hv⟩
  · exact h2 e slot kv ((hcell _ _).mpr hc) hf
  · rcases h3 slot e with h | ⟨kv, hc, hf⟩
    · exact Or.inl h
    · exact Or.inr ⟨kv, (hcell _ _).mp hc, hf⟩

/-- A scan of a well-placed array answers for the whole array. -/
theorem scanPages_absent {h : Table K} {log2 : ℕ} {linear : Bool}
    {key : K} (hlen : pages.length = 2 ^ log2) (hplaced : linear = false → OnTarget g h log2 pages)
    (hnone : (scanPages g h pages log2 linear key).1 = none) : ∀ v, (key, v) ∉ live pages := by
  intro v hm
  obtain ⟨hv, slot, hs⟩ := mem_live_iff.mp hm
  refine (scanPages_spec h hlen linear key).absent hnone slot ⟨key, v⟩ ⟨hs, ?_⟩
    (isFree_of_value key hv) rfl
  cases hl : linear with
  | true => exact Or.inl rfl
  | false =>
    obtain ⟨page, hp, hi⟩ := hs
    exact Or.inr (hplaced hl slot.1 page hp _ (mem_of_getElem? hi)
      (isFree_of_value key hv)).symm

end Scan

section Place

/-- `2 ^ log2` pages of the layout's size. -/
def Shape (g : Layout K) (log2 : ℕ) (pages : List (ValuePage K)) : Prop :=
  pages.length = 2 ^ log2 ∧ ∀ page ∈ pages, page.length = g.kvp

variable {log2 : ℕ}

theorem Shape.modifySlot (h : Shape g log2 pages) (slot : Slot) (f : Kv K → Kv K) :
    Shape g log2 (modifySlot pages slot f) := by
  refine ⟨by simp [Bihash.modifySlot, h.1], fun page hp => ?_⟩
  obtain ⟨i, hi⟩ := mem_iff_getElem?.mp hp
  rw [Bihash.modifySlot, getElem?_modify] at hi
  obtain ⟨page', hp', e⟩ := Option.map_eq_some_iff.mp hi
  have := h.2 page' (mem_of_getElem? hp')
  split at e <;> simp [← e, this]

theorem Shape.flatten_length (h : Shape g log2 pages) :
    pages.flatten.length = 2 ^ log2 * g.kvp := by
  rw [length_flatten, map_congr_left (g := fun _ => g.kvp) fun p hp => h.2 p hp, ← h.1]
  simp

theorem live_length_le (h : Shape g log2 pages) : (live pages).length ≤ 2 ^ log2 * g.kvp := by
  rw [← h.flatten_length]
  exact length_filterMap_le _ _

variable {page' : ValuePage K}

theorem placeInPage_some (h : placeInPage kv page = some page') :
    (pageLive page').Perm (kv.pair.toList ++ pageLive page) ∧ page'.length = page.length ∧
      ∀ x ∈ page', x = kv ∨ x ∈ page := by
  induction page generalizing page' with
  | nil => simp [placeInPage] at h
  | cons c page ih =>
    have hcons : ∀ (c : Kv K) page, pageLive (c :: page) = c.pair.toList ++ pageLive page := by
      intro c page
      cases hc : c.pair <;> simp [pageLive, hc]
    rw [placeInPage] at h
    split at h
    · rename_i hc
      obtain rfl := by simpa using h
      refine ⟨?_, by simp, by simp; tauto⟩
      rw [hcons, hcons, pair_of_free hc]
      simp
    · obtain ⟨rest, hr, rfl⟩ := Option.map_eq_some_iff.mp h
      obtain ⟨h1, h2, h3⟩ := ih hr
      refine ⟨?_, by simp [h2], fun x hx => ?_⟩
      · rw [hcons, hcons]
        refine (h1.append_left _).trans ?_
        rw [← append_assoc, ← append_assoc]
        exact perm_append_comm.append_right _
      · rcases mem_cons.mp hx with rfl | hx
        · simp
        · rcases h3 x hx with h | h <;> simp [h]

theorem placeInPage_none (h : placeInPage kv page = none) :
    (pageLive page).length = page.length := by
  induction page with
  | nil => rfl
  | cons c page ih =>
    rw [placeInPage] at h
    split at h
    · cases h
    · rename_i hc
      have hr := Option.map_eq_none_iff.mp h
      have : pageLive (c :: page) = (c.key, c.value) :: pageLive page := by
        simp [pageLive, pair_of_not_free (by simpa using hc : c.isFree = false)]
      rw [this]
      simp [ih hr]

/-- What placing one pair does to the pages. -/
structure Adds (kv : Kv K) (pages pages' : List (ValuePage K)) : Prop where
  live : (live pages').Perm (kv.pair.toList ++ live pages)
  lengths : pages'.map List.length = pages.map List.length

theorem Adds.cons {pages' : List (ValuePage K)} (h : Adds kv pages pages')
    (page : ValuePage K) : Adds kv (page :: pages) (page :: pages') := by
  refine ⟨?_, by simp [h.lengths]⟩
  rw [live_cons, live_cons]
  refine (h.live.append_left _).trans ?_
  rw [← append_assoc, ← append_assoc]
  exact perm_append_comm.append_right _

theorem Adds.head (h : placeInPage kv page = some page') :
    Adds kv (page :: pages) (page' :: pages) := by
  obtain ⟨h1, h2, _⟩ := placeInPage_some h
  refine ⟨?_, by simp [h2]⟩
  rw [live_cons, live_cons, ← append_assoc]
  exact h1.append_right _

theorem Adds.shape {pages' : List (ValuePage K)} (h : Adds kv pages pages')
    (hs : Shape g log2 pages) : Shape g log2 pages' := by
  have hl := congrArg length h.lengths
  simp only [length_map] at hl
  refine ⟨hl.trans hs.1, fun page hp => ?_⟩
  have hm : page.length ∈ pages.map length := by
    rw [← h.lengths]
    exact mem_map_of_mem hp
  obtain ⟨p, hp', e⟩ := mem_map.mp hm
  rw [← e, hs.2 p hp']

theorem Adds.set {i : ℕ} (hi : pages[i]? = some page) (h : placeInPage kv page = some page') :
    Adds kv pages (pages.set i page') := by
  induction pages generalizing i with
  | nil => simp at hi
  | cons c pages ih =>
    cases i with
    | zero =>
      obtain rfl : c = page := by simpa using hi
      exact Adds.head h
    | succ i => exact (ih (by simpa using hi)).cons c

theorem placeInOthers_some {skip : ℕ} : ∀ {pages pages' : List (ValuePage K)} {i : ℕ},
    placeInOthers kv skip i pages = some pages' → Adds kv pages pages' := by
  intro pages
  induction pages with
  | nil => intro pages' i h; simp [placeInOthers] at h
  | cons c pages ih =>
    intro pages' i h
    rw [placeInOthers] at h
    split at h
    · obtain ⟨rest, hr, rfl⟩ := Option.map_eq_some_iff.mp h
      exact (ih hr).cons c
    · split at h
      · rename_i page' hp
        obtain rfl := by simpa using h
        exact Adds.head hp
      · obtain ⟨rest, hr, rfl⟩ := Option.map_eq_some_iff.mp h
        exact (ih hr).cons c

theorem placeInOthers_none {skip : ℕ} : ∀ {pages : List (ValuePage K)} {i : ℕ},
    placeInOthers kv skip i pages = none →
    ∀ j page, pages[j]? = some page → i + j ≠ skip → (pageLive page).length = page.length := by
  intro pages
  induction pages with
  | nil => intro i _ j page hj; simp at hj
  | cons c pages ih =>
    intro i h j page hj hne
    rw [placeInOthers] at h
    split at h
    · cases j with
      | zero => omega
      | succ j =>
        exact ih (Option.map_eq_none_iff.mp h) j page (by simpa using hj) (by omega)
    · split at h
      · cases h
      · rename_i hp
        cases j with
        | zero =>
          obtain rfl : c = page := by simpa using hj
          exact placeInPage_none hp
        | succ j =>
          exact ih (Option.map_eq_none_iff.mp h) j page (by simpa using hj) (by omega)

theorem live_full (h : ∀ page ∈ pages, (pageLive page).length = page.length) :
    (live pages).length = pages.flatten.length := by
  induction pages with
  | nil => rfl
  | cons c pages ih =>
    rw [live_cons, flatten_cons, length_append, length_append,
      h c (by simp), ih fun p hp => h p (by simp [hp])]

theorem placeLinear_adds (kv : Kv K) (hroom : (live pages).length < pages.flatten.length) :
    (placeLinear kv pages).2 = true ∧ Adds kv pages (placeLinear kv pages).1 := by
  induction pages with
  | nil => simp [live] at hroom
  | cons c pages ih =>
    rw [placeLinear]
    cases hp : placeInPage kv c with
    | some page' => exact ⟨rfl, Adds.head hp⟩
    | none =>
      have hfull := placeInPage_none hp
      rw [live_cons, flatten_cons, length_append, length_append] at hroom
      obtain ⟨h1, h2⟩ := ih (by omega)
      exact ⟨h1, h2.cons c⟩

variable {h : Table K} {log2 : ℕ}

theorem place_spec (kv : Kv K) (hs : Shape g log2 pages)
    (hroom : (live pages).length < 2 ^ log2 * g.kvp) :
    ∃ pages' ok, place g h pages log2 kv = some (pages', ok) ∧ Adds kv pages pages' ∧
      (ok = true → OnTarget g h log2 pages → OnTarget g h log2 pages') := by
  have hlt := targetPage_lt (g := g) h log2 kv.key
  obtain ⟨page, hpage⟩ : ∃ page, pages[targetPage g h log2 kv.key]? = some page :=
    ⟨_, getElem?_eq_getElem (by rw [hs.1]; exact hlt)⟩
  unfold place
  simp only [hpage, Option.bind_some]
  cases hp : placeInPage kv page with
  | some page' =>
    refine ⟨_, true, rfl, Adds.set hpage hp, fun _ ht p q hq x hx hf => ?_⟩
    rw [getElem?_set] at hq
    split at hq
    · rename_i hpt
      split at hq
      · obtain rfl := by simpa using hq
        rcases (placeInPage_some hp).2.2 x hx with rfl | hx
        · exact hpt
        · rw [← hpt]
          exact ht _ page hpage x hx hf
      · cases hq
    · exact ht p q hq x hx hf
  | none =>
    cases ho : placeInOthers kv (targetPage g h log2 kv.key) 0 pages with
    | some pages' => exact ⟨pages', false, rfl, placeInOthers_some ho, by simp⟩
    | none =>
      have hfull : ∀ page ∈ pages, (pageLive page).length = page.length := by
        intro q hq
        obtain ⟨j, hj⟩ := mem_iff_getElem?.mp hq
        by_cases hjt : j = targetPage g h log2 kv.key
        · rw [hjt, hpage] at hj
          obtain rfl := by simpa using hj
          exact placeInPage_none hp
        · exact placeInOthers_none ho j q hj (by omega)
      have := live_full hfull
      rw [hs.flatten_length] at this
      omega

theorem placeMode_spec (kv : Kv K) (linear : Bool)
    (hs : Shape g log2 pages) (hroom : (live pages).length < 2 ^ log2 * g.kvp) :
    ∃ pages' ok, placeMode g h log2 linear pages kv = some (pages', ok) ∧ Adds kv pages pages' ∧
      (linear = false → ok = true → OnTarget g h log2 pages → OnTarget g h log2 pages') := by
  cases linear with
  | true =>
    obtain ⟨-, ha⟩ := placeLinear_adds kv (by rw [hs.flatten_length]; exact hroom)
    exact ⟨_, _, rfl, ha, by simp⟩
  | false =>
    obtain ⟨pages', ok, e, ha, ht⟩ := place_spec kv hs hroom
    exact ⟨pages', ok, e, ha, fun _ => ht⟩

/-- The copy loop: induction on the slots of the old array. -/
theorem placeAll_spec (linear : Bool) : ∀ (kvs : List (Kv K)) {pages : List (ValuePage K)}
    {d : Bool}, Shape g log2 pages →
    (live pages).length + (kvs.filterMap Kv.pair).length ≤ 2 ^ log2 * g.kvp →
    ∃ pages' d', placeAll g h log2 linear kvs (pages, d) = some (pages', d') ∧
      Shape g log2 pages' ∧ (live pages').Perm (kvs.filterMap Kv.pair ++ live pages) ∧
      (linear = false → d' = false → d = false ∧
        (OnTarget g h log2 pages → OnTarget g h log2 pages')) := by
  intro kvs
  induction kvs with
  | nil =>
    intro pages d hs _
    exact ⟨pages, d, rfl, hs, by simp, fun _ hd => ⟨hd, id⟩⟩
  | cons kv kvs ih =>
    intro pages d hs hroom
    rw [placeAll]
    cases hf : kv.isFree with
    | true =>
      rw [filterMap_cons_none (pair_of_free hf)] at hroom ⊢
      exact ih hs hroom
    | false =>
      rw [filterMap_cons_some (pair_of_not_free hf)] at hroom ⊢
      simp only [length_cons] at hroom
      obtain ⟨pages1, ok, e1, ha, htgt⟩ := placeMode_spec (h := h) kv linear hs (by omega)
      have hlive : (live pages1).Perm ((kv.key, kv.value) :: live pages) := by
        have := ha.live
        rwa [pair_of_not_free hf] at this
      obtain ⟨pages2, d2, e2, hs2, hp2, ht2⟩ := ih (d := d || !ok) (ha.shape hs) (by
        rw [hlive.length_eq, length_cons]; omega)
      refine ⟨pages2, d2, ?_, hs2, ?_, fun hl hd => ?_⟩
      · simp only [Bool.false_eq_true, if_false, e1, Option.bind_some]
        exact e2
      · refine hp2.trans ((hlive.append_left _).trans ?_)
        exact perm_middle
      · obtain ⟨hd', ht'⟩ := ht2 hl hd
        simp only [Bool.or_eq_false_iff, Bool.not_eq_false'] at hd'
        exact ⟨hd'.1, fun ht => ht' (htgt hl hd'.2 ht)⟩

end Place

theorem onTarget_of_live_nil {h : Table K} {log2 : ℕ} (hl : live pages = []) :
    OnTarget g h log2 pages := by
  intro p page hp kv hkv hf
  rw [live, filterMap_eq_nil_iff] at hl
  have := hl kv (mem_flatten.mpr ⟨page, mem_of_getElem? hp, hkv⟩)
  rw [pair_of_not_free hf] at this
  cases this

section Fresh

variable [Inhabited K]

theorem shape_freshPages (log2 : ℕ) : Shape g log2 (freshPages g log2) := by
  refine ⟨by simp [freshPages], fun page hp => ?_⟩
  rw [freshPages, mem_replicate] at hp
  simp [hp.2]

theorem live_freshPages (log2 : ℕ) : live (freshPages g log2) = [] := by
  rw [live, filterMap_eq_nil_iff]
  intro kv hkv
  obtain ⟨page, hp, hk⟩ := mem_flatten.mp hkv
  rw [freshPages, mem_replicate] at hp
  rw [hp.2, mem_replicate] at hk
  rw [hk.2]
  exact pair_of_free (by simp [Kv.isFree])

/-- The two loops of `rehash` into a fresh block with room: all old pairs and the new one. -/
theorem placeAll_fresh (h : Table K) (c : ℕ) (linear : Bool) (kvs : List (Kv K))
    (hv : kv.isFree = false) (hroom : (kvs.filterMap Kv.pair).length + 1 ≤ 2 ^ c * g.kvp) :
    ∃ s r, placeAll g h c linear kvs (freshPages g c, false) = some s ∧
      placeMode g h c linear s.1 kv = some r ∧ Shape g c r.1 ∧
      (live r.1).Perm ((kv.key, kv.value) :: kvs.filterMap Kv.pair) ∧
      ((s.2 || !r.2) = false → linear = false → OnTarget g h c r.1) := by
  obtain ⟨pages1, d1, e1, hs1, hp1, ht1⟩ := placeAll_spec (h := h) linear kvs (d := false)
    (shape_freshPages (g := g) (K := K) c) (by rw [live_freshPages, length_nil]; omega)
  rw [live_freshPages, append_nil] at hp1
  obtain ⟨pages2, ok, e2, ha2, ht2⟩ := placeMode_spec (h := h) kv linear hs1 (by
    rw [hp1.length_eq]; omega)
  refine ⟨(pages1, d1), (pages2, ok), e1, e2, ha2.shape hs1, ?_, fun hd hl => ?_⟩
  · refine ha2.live.trans ?_
    rw [pair_of_not_free hv]
    exact hp1.cons _
  · simp only [Bool.or_eq_false_iff, Bool.not_eq_false'] at hd
    exact ht2 hl hd.2 ((ht1 hl hd.1).2 (onTarget_of_live_nil (live_freshPages c)))

theorem freshPages_first (hkvp : 0 < g.kvp) (hv : kv.isFree = false) :
    ∃ x slots, freshPages g 0 = [x :: slots] ∧ Shape g 0 [kv :: slots] ∧
      live [kv :: slots] = [(kv.key, kv.value)] ∧ ∀ h, OnTarget g h 0 [kv :: slots] := by
  obtain ⟨kvp, hkv⟩ : ∃ n, g.kvp = n + 1 := ⟨g.kvp - 1, by omega⟩
  refine ⟨⟨default, FREE_U64⟩, List.replicate kvp ⟨default, FREE_U64⟩, ?_, ⟨by simp, ?_⟩, ?_, ?_⟩
  · simp [freshPages, hkv, List.replicate_succ]
  · simp [hkv]
  · rw [live, List.flatten_singleton, List.filterMap_cons_some (pair_of_not_free hv)]
    congr 1
    rw [List.filterMap_eq_nil_iff]
    intro x hx
    rw [(List.mem_replicate.mp hx).2]
    exact pair_of_free (by simp [Kv.isFree])
  · intro h p page hp x _ _
    have hp0 := (List.getElem?_eq_some_iff.mp hp).1
    simp only [List.length_singleton] at hp0
    simp only [targetPage, pow_zero, Nat.mod_one]
    omega

end Fresh

end Bihash
