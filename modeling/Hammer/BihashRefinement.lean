import Hammer.BihashMutators
import Hammer.KeyIndex
import Mathlib.Data.Finmap

/-! # The table is a finite map

A quiet table refines a `Finmap`, and every mutator is a step of the map.
-/
namespace Bihash

open List

variable {K : Type} {g : Layout K} {h : Table K} {rs : List (ℕ × ℕ)}

section Iteration

/-- What is left of an array of pages, from a slot on. -/
def pagesRest (pages : List (ValuePage K)) (pageRel slotIdx : ℕ) : List (K × ℕ) :=
  match pages.drop pageRel with
  | [] => []
  | page :: rest => pageLive (page.drop slotIdx) ++ live rest

theorem pagesRest_zero (pages : List (ValuePage K)) : pagesRest pages 0 0 = live pages := by
  cases pages with
  | nil => rfl
  | cons page pages => simp [pagesRest, live_cons]

variable {pages : List (ValuePage K)}

theorem pagesRest_of_le {p i : ℕ} (hp : pages.length ≤ p) : pagesRest pages p i = [] := by
  rw [pagesRest, drop_eq_nil_of_le hp]

theorem pagesRest_of_lt {p i : ℕ} {page : ValuePage K} (hp : pages[p]? = some page) :
    pagesRest pages p i = pageLive (page.drop i) ++ pagesRest pages (p + 1) 0 := by
  obtain ⟨hlt, hpage⟩ := List.getElem?_eq_some_iff.mp hp
  rw [pagesRest, List.drop_eq_getElem_cons hlt, hpage]
  rw [pagesRest]
  cases pages.drop (p + 1) with
  | nil => rfl
  | cons q qs => simp [live_cons]

theorem nextSlot_spec (page : ValuePage K) : ∀ todo i, todo + i = page.length ∨
    (todo = 0 ∧ page.length ≤ i) →
    match nextSlot page todo i with
    | (none, _) => pageLive (page.drop i) = []
    | (some item, j) => pageLive (page.drop i) = item :: pageLive (page.drop j) := by
  intro todo
  induction todo with
  | zero =>
    intro i hi
    have : page.drop i = [] := drop_eq_nil_of_le (by omega)
    simp [nextSlot, this, pageLive]
  | succ todo ih =>
    intro i hi
    have hlt : i < page.length := by omega
    have hget : page[i]? = some page[i] := getElem?_eq_getElem hlt
    rw [nextSlot, hget, drop_eq_getElem_cons hlt]
    simp only
    cases hf : page[i].isFree with
    | true =>
      have hskip : pageLive (page[i] :: page.drop (i + 1)) = pageLive (page.drop (i + 1)) := by
        rw [pageLive, filterMap_cons_none (pair_of_free hf)]; rfl
      simp only [if_true, hskip]
      exact ih (i + 1) (by omega)
    | false =>
      rw [pageLive, filterMap_cons_some (pair_of_not_free hf)]
      rfl

theorem nextPage_spec (hlen : ∀ page ∈ pages, page.length = g.kvp) :
    ∀ todo p i, todo + p = pages.length ∨ (todo = 0 ∧ pages.length ≤ p) →
    match nextPage g pages todo p i with
    | none => pagesRest pages p i = []
    | some (item, q, j) => pagesRest pages p i = item :: pagesRest pages q j := by
  intro todo
  induction todo with
  | zero =>
    intro p i hp
    exact pagesRest_of_le (by omega)
  | succ todo ih =>
    intro p i hp
    have hlt : p < pages.length := by omega
    have hget : pages[p]? = some pages[p] := getElem?_eq_getElem hlt
    have hsz := hlen pages[p] (getElem_mem hlt)
    have hslot := nextSlot_spec pages[p] (g.kvp - i) i (by omega)
    rw [nextPage, hget, pagesRest_of_lt hget]
    simp only [Option.getD_some]
    cases hn : nextSlot pages[p] (g.kvp - i) i with
    | mk item j =>
      rw [hn] at hslot
      cases item with
      | some item =>
        simp only at hslot ⊢
        rw [pagesRest_of_lt hget, hslot]
        rfl
      | none =>
        rw [hslot]
        exact ih (p + 1) 0 (by omega)

/-- What an iteration has still to yield. -/
def rest (h : Table K) (it : Iter) : List (K × ℕ) :=
  if it.bucketIdx < h.nbuckets then
    (if (h.buckets it.bucketIdx).isEmpty then []
      else pagesRest (h.blocks (h.buckets it.bucketIdx).offset).pages it.pageRel it.slotIdx) ++
    (List.range' (it.bucketIdx + 1) (h.nbuckets - (it.bucketIdx + 1))).flatMap (contents h)
  else []

theorem rest_bucket (h : Table K) (i : ℕ) :
    rest h ⟨i, 0, 0⟩ = (range' i (h.nbuckets - i)).flatMap (contents h) := by
  unfold rest
  by_cases hi : i < h.nbuckets
  · obtain ⟨n, hn⟩ : ∃ n, h.nbuckets - i = n + 1 := ⟨h.nbuckets - i - 1, by omega⟩
    have hn' : h.nbuckets - (i + 1) = n := by omega
    rw [if_pos hi, hn, hn', range'_succ, flatMap_cons, contents, pagesRest_zero]
  · have : h.nbuckets - i = 0 := by omega
    rw [if_neg hi, this]
    rfl

theorem nextBucket_spec (q : Quiet g h rs) : ∀ todo it, todo + it.bucketIdx = h.nbuckets ∨
    (todo = 0 ∧ h.nbuckets ≤ it.bucketIdx) →
    (nextBucket g h todo it = some none ∧ rest h it = []) ∨
    ∃ item it', nextBucket g h todo it = some (some (item, it')) ∧
      rest h it = item :: rest h it' := by
  intro todo
  induction todo with
  | zero =>
    intro it hit
    exact Or.inl ⟨rfl, if_neg (by omega)⟩
  | succ todo ih =>
    intro it hit
    have hlt : it.bucketIdx < h.nbuckets := by omega
    have hstep := ih ⟨it.bucketIdx + 1, 0, 0⟩ (Or.inl (by simp only; omega))
    have hnext := rest_bucket h (it.bucketIdx + 1)
    have hunl := q.unlocked it.bucketIdx hlt not_false
    have hrest : rest h it = (if (h.buckets it.bucketIdx).isEmpty then []
        else pagesRest (h.blocks (h.buckets it.bucketIdx).offset).pages it.pageRel it.slotIdx) ++
        rest h ⟨it.bucketIdx + 1, 0, 0⟩ := by rw [hnext, rest, if_pos hlt]
    rw [nextBucket, hrest]
    simp only [hunl, Bool.false_eq_true, if_false]
    cases he : (h.buckets it.bucketIdx).isEmpty with
    | true => simpa using hstep
    | false =>
      have hs := q.shape hlt he
      have hpg := nextPage_spec hs.2 (2 ^ (h.buckets it.bucketIdx).log2Pages - it.pageRel)
        it.pageRel it.slotIdx (by rw [hs.1]; omega)
      cases hn : nextPage g (h.blocks (h.buckets it.bucketIdx).offset).pages
          (2 ^ (h.buckets it.bucketIdx).log2Pages - it.pageRel) it.pageRel it.slotIdx with
      | none =>
        rw [hn] at hpg
        rw [hpg]
        exact hstep
      | some r =>
        obtain ⟨item, p, i⟩ := r
        rw [hn] at hpg
        refine Or.inr ⟨item, ⟨it.bucketIdx, p, i⟩, rfl, ?_⟩
        rw [hpg, hnext]
        simp [rest, hlt, he]

/-- An iteration yields the pairs of the table in the order of the buckets, and then ends. -/
theorem collect_rest (q : Quiet g h rs) : ∀ n it, (rest h it).length ≤ n →
    collect g h n it = some (rest h it) := by
  intro n
  induction n with
  | zero =>
    intro it hn
    rw [length_eq_zero_iff.mp (Nat.le_zero.mp hn)]
    rfl
  | succ n ih =>
    intro it hn
    rw [collect, next]
    rcases nextBucket_spec q (h.nbuckets - it.bucketIdx) it (by omega) with
      ⟨hb, hr⟩ | ⟨item, it', hb, hr⟩
    · rw [hb, hr]
      rfl
    · rw [hr, length_cons] at hn
      rw [hb, hr]
      simp [ih it' (by omega)]

theorem collect_spec (q : Quiet g h rs) {n : ℕ} (hn : h.len ≤ n) :
    collect g h n ⟨0, 0, 0⟩ = some (entries h) := by
  have hr : rest h ⟨0, 0, 0⟩ = entries h := by
    rw [rest_bucket, Nat.sub_zero, entries, range_eq_range']
  rw [← hr]
  refine collect_rest q n _ ?_
  rw [hr, ← q.len]
  exact hn

end Iteration

theorem bucketIdx_lt (q : Quiet g h rs) (key : K) : bucketIdx g h key < h.nbuckets :=
  Nat.mod_lt _ q.pos

theorem mem_entries (q : Quiet g h rs) {k : K} {v : ℕ} :
    (k, v) ∈ entries h ↔ (k, v) ∈ contents h (bucketIdx g h k) := by
  rw [entries, mem_flatMap]
  constructor
  · rintro ⟨i, hi, hm⟩
    rwa [(q.holds i (mem_range.mp hi)).home _ hm]
  · exact fun hm => ⟨_, mem_range.mpr (bucketIdx_lt q k), hm⟩

theorem entries_keys_nodup (q : Quiet g h rs) : ((entries h).map Prod.fst).Nodup := by
  rw [entries, map_flatMap, nodup_flatMap]
  refine ⟨fun i hi => (q.holds i (mem_range.mp hi)).keys, ?_⟩
  refine nodup_range.imp_of_mem fun {i j} hi hj hij k hki hkj => hij ?_
  obtain ⟨p, hp, rfl⟩ := mem_map.mp hki
  obtain ⟨p', hp', hk⟩ := mem_map.mp hkj
  rw [← (q.holds i (mem_range.mp hi)).home p hp, ← (q.holds j (mem_range.mp hj)).home p' hp', hk]

/-- The map a table stands for. -/
abbrev Map (K : Type) := Finmap fun _ : K => ℕ

theorem keys_insert [DecidableEq K] (m : Map K) (key : K) (value : ℕ) :
    (m.insert key value).keys = Insert.insert key m.keys := by
  ext k
  simp [Finmap.mem_keys]

section Refinement

variable [DecidableEq K] {m : Map K}

structure Refines (g : Layout K) (h : Table K) (m : Map K) : Prop where
  quiet : Quiet g h []
  budget : Budget g h
  pairs : ∀ k v, (k, v) ∈ contents h (bucketIdx g h k) ↔ m.lookup k = some v

theorem Refines.len_eq (r : Refines g h m) : h.len = m.keys.card := by
  have hfin : ((entries h).map Prod.fst).toFinset = m.keys := by
    ext k
    rw [mem_toFinset, Finmap.mem_keys, Finmap.mem_iff]
    constructor
    · intro hk
      obtain ⟨⟨k, v⟩, hm, rfl⟩ := mem_map.mp hk
      exact ⟨v, (r.pairs k v).mp ((mem_entries r.quiet).mp hm)⟩
    · rintro ⟨v, hv⟩
      exact mem_map.mpr ⟨(k, v), (mem_entries r.quiet).mpr ((r.pairs k v).mpr hv), rfl⟩
  rw [r.quiet.len, ← hfin, toFinset_card_of_nodup (entries_keys_nodup r.quiet), length_map]

theorem Refines.lookup_eq (r : Refines g h m) (key : K) : lookup g h key = some (m.lookup key) := by
  obtain ⟨res, hres, hv⟩ := lookup_spec r.quiet key
  rw [hres]
  congr 1
  exact Option.ext fun v => (hv v).trans (r.pairs key v)

/-- The number of keys of the map that fall into a bucket, of `nbuckets`. -/
def load (g : Layout K) (nbuckets : ℕ) (m : Map K) (i : ℕ) : ℕ :=
  (m.keys.filter fun k => g.hash k % 2 ^ 32 % nbuckets = i).card

section

variable (r : Refines g h m)
include r

theorem Refines.load_eq {i : ℕ} (hi : i < h.nbuckets) :
    load g h.nbuckets m i = (contents h i).length := by
  have hfin : (m.keys.filter fun k => g.hash k % 2 ^ 32 % h.nbuckets = i) =
      ((contents h i).map Prod.fst).toFinset := by
    ext k
    rw [Finset.mem_filter, mem_toFinset, Finmap.mem_keys, Finmap.mem_iff]
    constructor
    · rintro ⟨⟨v, hv⟩, rfl⟩
      exact mem_map.mpr ⟨(k, v), (r.pairs k v).mpr hv, rfl⟩
    · intro hk
      obtain ⟨⟨k, v⟩, hm, rfl⟩ := mem_map.mp hk
      have hhome := (r.quiet.holds i hi).home _ hm
      exact ⟨⟨v, (r.pairs k v).mp (by rw [hhome]; exact hm)⟩, hhome⟩
  rw [load, hfin, toFinset_card_of_nodup (r.quiet.holds i hi).keys, length_map]

theorem Refines.budgeted : Budgeted g h ⟨h, [], 0⟩ := ⟨rfl, r.budget, rfl, rfl⟩

variable {t : Shared K} {key : K}

theorem Refines.changes {m' : Map K} {ps : List (K × ℕ)}
    (c : Changes g (Budgeted g h) h (bucketIdx g h key) ps t)
    (hps : ∀ k v, bucketIdx g h k = bucketIdx g h key → ((k, v) ∈ ps ↔ m'.lookup k = some v))
    (hother : ∀ k, k ≠ key → m'.lookup k = m.lookup k) : Refines g t.table m' := by
  refine ⟨c.supply.1 ▸ c.quiet, c.supply.2.1, fun k v => ?_⟩
  rw [c.edits.bucketIdx_eq]
  by_cases hk : bucketIdx g h k = bucketIdx g h key
  · rw [hk, c.pairs.mem_iff]
    exact hps k v hk
  · rw [c.edits.contents_eq (bucketIdx_lt r.quiet k) hk, r.pairs k v, hother k]
    rintro rfl
    exact hk rfl

theorem Refines.unchanged (c : Changes g (Budgeted g h) h (bucketIdx g h key)
    (contents h (bucketIdx g h key)) t) : Refines g t.table m :=
  r.changes c (fun k v hk => by rw [← hk]; exact r.pairs k v) fun _ _ => rfl

theorem Refines.put {value : ℕ} (c : Changes g (Budgeted g h) h (bucketIdx g h key)
      ((key, value) :: (contents h (bucketIdx g h key)).filter (·.1 ≠ key)) t) :
    Refines g t.table (m.insert key value) := by
  refine r.changes c (fun k v hk => ?_) fun k hk => Finmap.lookup_insert_of_ne _ hk
  by_cases hkk : k = key
  · subst hkk
    simp [Finmap.lookup_insert, eq_comm]
  · rw [Finmap.lookup_insert_of_ne _ hkk, ← r.pairs k v, hk]
    simp [hkk]

theorem Refines.delete (c : Changes g (Budgeted g h) h (bucketIdx g h key)
      ((contents h (bucketIdx g h key)).filter (·.1 ≠ key)) t) :
    Refines g t.table (m.erase key) := by
  refine r.changes c (fun k v hk => ?_) fun k hk => Finmap.lookup_erase_ne hk
  by_cases hkk : k = key
  · subst hkk
    simp [Finmap.lookup_erase]
  · rw [Finmap.lookup_erase_ne hkk, ← r.pairs k v, hk]
    simp [hkk]

theorem Refines.absent_iff (key : K) :
    (∀ v, (key, v) ∉ contents h (bucketIdx g h key)) ↔ m.lookup key = none := by
  simp only [r.pairs, Option.eq_none_iff_forall_ne_some]

theorem Refines.room (hnone : m.lookup key = none) {value : ℕ}
    (h1 : load g h.nbuckets (m.insert key value) (bucketIdx g h key) ≤ 2 ^ MAX_LOG2_PAGES * g.kvp)
    (h2 : load g h.nbuckets (m.insert key value) (bucketIdx g h key) < 2 ^ 16) :
    Room g h (bucketIdx g h key) := by
  have hself : g.hash key % 2 ^ 32 % h.nbuckets = bucketIdx g h key := rfl
  have hload : load g h.nbuckets (m.insert key value) (bucketIdx g h key) =
      (contents h (bucketIdx g h key)).length + 1 := by
    rw [← r.load_eq (bucketIdx_lt r.quiet key), load, load, keys_insert, Finset.filter_insert,
      if_pos hself, Finset.card_insert_of_notMem]
    rw [Finset.mem_filter, Finmap.mem_keys, Finmap.mem_iff]
    rintro ⟨⟨v, hv⟩, -⟩
    rw [hnone] at hv
    cases hv
  rw [hload] at h1 h2
  exact ⟨h1, h2⟩

end

inductive Op (K : Type) where
  | insert (key : K) (value : ℕ)
  | insertIfAbsent (key : K) (value : ℕ)
  | replaceIfCurrent (key : K) (oldValue newValue : ℕ)
  | remove (key : K)
  | removeIfCurrent (key : K) (value : ℕ)
  | clear

inductive Reply where
  | done
  | inserted (result : Except ℕ Unit)
  | flag (b : Bool)

def Op.stores : Op K → List ℕ
  | .insert _ value | .insertIfAbsent _ value | .replaceIfCurrent _ _ value => [value]
  | .remove _ | .removeIfCurrent _ _ | .clear => []

def Op.spec (m : Map K) : Op K → Map K × Reply
  | .insert key value => (m.insert key value, .done)
  | .insertIfAbsent key value =>
    match m.lookup key with
    | some existing => (m, .inserted (.error existing))
    | none => (m.insert key value, .inserted (.ok ()))
  | .replaceIfCurrent key oldValue newValue =>
    if m.lookup key = some oldValue then (m.insert key newValue, .flag true) else (m, .flag false)
  | .remove key => (m.erase key, .flag (m.lookup key).isSome)
  | .removeIfCurrent key value =>
    if m.lookup key = some value then (m.erase key, .flag true) else (m, .flag false)
  | .clear => (∅, .done)

/-- What one call does to the table and to the map. -/
structure Agrees (g : Layout K) (h : Table K) (m : Map K) (op : Op K) (r : Table K × Reply) :
    Prop where
  reply : r.2 = (op.spec m).2
  refines : Refines g r.1 (op.spec m).1
  nbuckets : r.1.nbuckets = h.nbuckets
  memorySize : r.1.memorySize = h.memorySize

theorem Agrees.of_changes {op : Op K} {h' : Table K} {n i : ℕ} {reply : Reply} {P : Shared K → Prop}
    {ps : List (K × ℕ)} (c : Changes g P h i ps (bare n h')) (hreply : reply = (op.spec m).2)
    (hr : Refines g h' (op.spec m).1) : Agrees g h m op (h', reply) :=
  ⟨hreply, hr, c.edits.nbuckets, c.edits.memorySize⟩

/-- The largest block, and the field that counts a bucket's keys, bound its load. -/
def Loaded (g : Layout K) (nbuckets : ℕ) (m : Map K) : Prop :=
  ∀ i, load g nbuckets m i ≤ 2 ^ MAX_LOG2_PAGES * g.kvp ∧ load g nbuckets m i < 2 ^ 13

variable [Inhabited K]

def Op.run (g : Layout K) (h : Table K) : Op K → Option (Table K × Reply)
  | .insert key value => (Bihash.insert g h key value).map (·, .done)
  | .insertIfAbsent key value =>
    (Bihash.insertIfAbsent g h key value).map fun r => (r.1, .inserted r.2)
  | .replaceIfCurrent key oldValue newValue =>
    (Bihash.replaceIfCurrent g h key oldValue newValue).map fun r => (r.1, .flag r.2)
  | .remove key => (Bihash.remove g h key).map fun r => (r.1, .flag r.2)
  | .removeIfCurrent key value =>
    (Bihash.removeIfCurrent g h key value).map fun r => (r.1, .flag r.2)
  | .clear => (Bihash.clear h).map (·, .done)

theorem insert_refines (r : Refines g h m) (key : K) {value : ℕ} (hv : value ≠ FREE_U64)
    (h1 : load g h.nbuckets (m.insert key value) (bucketIdx g h key) ≤ 2 ^ MAX_LOG2_PAGES * g.kvp)
    (h2 : load g h.nbuckets (m.insert key value) (bucketIdx g h key) < 2 ^ 16) :
    Unless (Short g h) (fun h' => Refines g h' (m.insert key value) ∧ h'.nbuckets = h.nbuckets ∧
      h'.memorySize = h.memorySize) (Bihash.insert g h key value) := by
  have hroom := fun habs => And.intro (r.room ((r.absent_iff key).mp habs) h1 h2) r.budgeted
  refine ((insert_idle h key value 0).unless (insert_spec (supply_idle g h) r.budgeted r.quiet rfl
    hv hroom)).mono id ?_
  exact fun h' ⟨n, c⟩ => ⟨r.put c, c.edits.nbuckets, c.edits.memorySize⟩

theorem step_refines (r : Refines g h m) (hload : Loaded g h.nbuckets m) (op : Op K)
    (hv : ∀ v ∈ op.stores, v ≠ FREE_U64) (hload' : Loaded g h.nbuckets (op.spec m).1) :
    Unless (Short g h) (Agrees g h m op) (op.run g h) := by
  have S := supply_idle g h
  have hsmall : ∀ key, (contents h (bucketIdx g h key)).length < 2 ^ 13 := fun key => by
    rw [← r.load_eq (bucketIdx_lt r.quiet key)]
    exact (hload _).2
  cases op with
  | insert key value =>
    obtain ⟨h1, h2⟩ := hload' (bucketIdx g h key)
    refine (insert_refines r key (hv value (by simp [Op.stores])) h1 (h2.trans (by decide))).map ?_
    exact fun h' c => ⟨rfl, c.1, c.2.1, c.2.2⟩
  | insertIfAbsent key value =>
    have hroom : (∀ v, (key, v) ∉ contents h (bucketIdx g h key)) →
        Room g h (bucketIdx g h key) ∧ Budgeted g h ⟨h, [], 0⟩ := fun habs => by
      have hnone := (r.absent_iff key).mp habs
      obtain ⟨h1, h2⟩ := hload' (bucketIdx g h key)
      simp only [Op.spec, hnone] at h1 h2
      exact ⟨r.room hnone h1 (by omega), r.budgeted⟩
    refine ((insertIfAbsent_idle h key value 0).unless (insertIfAbsent_spec S r.budgeted r.quiet rfl
      (hv value (by simp [Op.stores])) hroom)).map ?_
    rintro ⟨h', res⟩ ⟨n, ⟨v, hm, hres, c⟩ | ⟨habs, hres, c⟩⟩
    · have hl := (r.pairs key v).mp hm
      refine .of_changes c ?_ ?_ <;> simp only [Op.spec, hl]
      · rw [← hres]
      · exact r.unchanged c
    · have hl := (r.absent_iff key).mp habs
      refine .of_changes c ?_ ?_ <;> simp only [Op.spec, hl]
      · rw [← hres]
      · rw [← filter_of_absent habs] at c
        exact r.put c
  | replaceIfCurrent key oldValue newValue =>
    refine (((replaceIfCurrent_idle h key newValue 0 oldValue).unless (replaceIfCurrent_spec S
      r.budgeted r.quiet rfl oldValue (hv newValue (by simp [Op.stores])))).mono
      False.elim fun _ => id).map ?_
    rintro ⟨h', res⟩ ⟨n, ⟨hm, hres, c⟩ | ⟨hm, hres, c⟩⟩ <;> rw [r.pairs] at hm <;>
      refine .of_changes c ?_ ?_ <;> simp only [Op.spec, hm, if_true, if_false]
    · rw [← hres]
    · exact r.put c
    · rw [← hres]
    · exact r.unchanged c
  | remove key =>
    refine (((remove_idle h key 0).unless (remove_spec S r.budgeted r.quiet rfl
      (hsmall key))).mono False.elim fun _ => id).map ?_
    rintro ⟨h', res⟩ ⟨n, ⟨⟨v, hm⟩, hres, c⟩ | ⟨habs, hres, c⟩⟩
    · have hl := (r.pairs key v).mp hm
      exact .of_changes c (by simp [Op.spec, hl, ← hres]) (r.delete c)
    · have hl := (r.absent_iff key).mp habs
      refine .of_changes c (by simp [Op.spec, hl, ← hres]) ?_
      rw [← filter_of_absent habs] at c
      exact r.delete c
  | removeIfCurrent key value =>
    refine (((removeIfCurrent_idle h key value 0).unless (removeIfCurrent_spec S r.budgeted
      r.quiet rfl (hsmall key) value)).mono False.elim fun _ => id).map ?_
    rintro ⟨h', res⟩ ⟨n, ⟨hm, hres, c⟩ | ⟨hm, hres, c⟩⟩ <;> rw [r.pairs] at hm <;>
      refine .of_changes c ?_ ?_ <;> simp only [Op.spec, hm, if_true, if_false]
    · rw [← hres]
    · exact r.delete c
    · rw [← hres]
    · exact r.unchanged c
  | clear =>
    obtain ⟨t, hc, q, hn, hm, hnil, hB⟩ := clear_spec S (n := 0) r.budgeted r.quiet
    obtain ⟨n, hf⟩ := clear_idle h 0
    rw [hc] at hf
    obtain ⟨h', hr, rfl⟩ := Option.map_eq_some_iff.mp hf.symm
    show Unless _ _ ((Bihash.clear h).map _)
    rw [hr]
    refine ⟨rfl, ⟨q, hB.2.1, fun k v => ?_⟩, hn, hm⟩
    rw [hnil _ (hn ▸ bucketIdx_lt q k)]
    simp [Op.spec]

/-- A run of the writer, with all replies. -/
def run (g : Layout K) : Table K → List (Op K) → Option (Table K × List Reply)
  | h, [] => some (h, [])
  | h, op :: ops => (op.run g h).bind fun r => (run g r.1 ops).map fun s => (s.1, r.2 :: s.2)

def specRun : Map K → List (Op K) → Map K × List Reply
  | m, [] => (m, [])
  | m, op :: ops =>
    let r := op.spec m
    let s := specRun r.1 ops
    (s.1, r.2 :: s.2)

/-- No call stores the free marker, and no bucket is ever asked to hold too many keys. -/
def Admissible (g : Layout K) (nbuckets : ℕ) : Map K → List (Op K) → Prop
  | _, [] => True
  | m, op :: ops => (∀ v ∈ op.stores, v ≠ FREE_U64) ∧ Loaded g nbuckets (op.spec m).1 ∧
    Admissible g nbuckets (op.spec m).1 ops

theorem run_refines (ops : List (Op K)) : ∀ {h : Table K} {m : Map K}, Refines g h m →
    Loaded g h.nbuckets m → Admissible g h.nbuckets m ops →
    Unless (Short g h) (fun r => r.2 = (specRun m ops).2 ∧ Refines g r.1 (specRun m ops).1 ∧
      r.1.nbuckets = h.nbuckets) (run g h ops) := by
  induction ops with
  | nil => exact fun r _ _ => ⟨rfl, r, rfl⟩
  | cons op ops ih =>
    intro h m r hload ⟨hv, hload', hadm⟩
    refine (step_refines r hload op hv hload').bind fun s hs => ?_
    have hshort : Short g s.1 ↔ Short g h := by rw [Short, Short, hs.nbuckets, hs.memorySize]
    rw [← hs.nbuckets] at hload' hadm
    refine ((ih hs.refines hload' hadm).mono hshort.mp fun _ => id).map fun t ht => ?_
    exact ⟨by simp only [specRun, hs.reply, ht.1], ht.2.1, ht.2.2.trans hs.nbuckets⟩

end Refinement

theorem load_le_card [DecidableEq K] (g : Layout K) (n : ℕ) (m : Map K) (i : ℕ) :
    load g n m i ≤ m.keys.card := Finset.card_filter_le ..

theorem loaded_of_card [DecidableEq K] {n : ℕ} {m : Map K}
    (h1 : m.keys.card ≤ 2 ^ MAX_LOG2_PAGES * g.kvp) (h2 : m.keys.card < 2 ^ 13) :
    Loaded g n m := fun i =>
  ⟨(load_le_card g n m i).trans h1, (load_le_card g n m i).trans_lt h2⟩

theorem card_insert_le [DecidableEq K] (m : Map K) (key : K) (value : ℕ) :
    (m.insert key value).keys.card ≤ m.keys.card + 1 := by
  rw [keys_insert]
  exact Finset.card_insert_le ..

section Runs

variable [DecidableEq K]

theorem refines_new {capacity memorySize : ℕ} (hnew : withCapacityIn capacity memorySize = some h) :
    Refines g h ∅ ∧ h.memorySize = memorySize := by
  simp only [withCapacityIn] at hnew
  set n := if capacity = 0 then 1 else capacity with hn
  split at hnew
  · cases hnew
  · obtain rfl := by simpa using hnew
    set h : Table K := ⟨fun _ => .empty, 2 ^ Nat.clog 2 n, Nat.clog 2 n, fun _ => ⟨[], 0⟩, 0,
      fun _ => [], 0, memorySize, 0⟩
    have hclog : Nat.clog 2 n ≤ 31 := Nat.clog_le_of_le_pow (by omega)
    have hempty : ∀ i, (h.buckets i).isEmpty = true := fun _ => Bucket.isEmpty_empty
    have hcont : ∀ i, contents h i = [] := fun i => contents_empty (hempty i)
    refine ⟨⟨⟨⟨⟨?_, fun o h1 h2 => ?_, fun o h1 h2 => ?_, fun c _ o ho => ?_⟩, forall_mem_nil _⟩,
      Nat.two_pow_pos _, fun i _ => ?_, fun i _ _ => ?_, ?_⟩,
      ⟨Nat.pow_le_pow_right (by decide) hclog, fun c => ?_, ?_⟩, fun k v => ?_⟩, rfl⟩
    · have ho : ownedBlocks h = [] := by simp [ownedBlocks, owned, hempty]
      rw [ho]
      exact List.Perm.refl _
    · simp only [h] at h2; omega
    · simp only [h] at h2; omega
    · simp [h] at ho
    · exact .of_empty rfl
    · exact Bucket.isLocked_empty
    · simp [entries, hcont, h]
    · simp [classBlocks, h]
    · exact Nat.zero_le _
    · simp [hcont]

variable [Inhabited K]

/-- A single-writer table is a finite map: it answers every call as the map does, also `lookup`,
`len` and the iteration, and panics only if its memory is too small for its blocks. -/
theorem bihash_refines_map (g : Layout K) (capacity memorySize : ℕ) (h₀ : Table K)
    (ops : List (Op K)) (hnew : withCapacityIn capacity memorySize = some h₀)
    (hadm : Admissible g h₀.nbuckets ∅ ops) :
    (9 * (h₀.nbuckets + 1) * (2 ^ MAX_LOG2_PAGES * g.pageBytes) ≤ memorySize →
      (run g h₀ ops).isSome) ∧
    ∀ h replies, run g h₀ ops = some (h, replies) →
      replies = (specRun ∅ ops).2 ∧
      (∀ k, lookup g h k = some ((specRun ∅ ops).1.lookup k)) ∧
      h.len = (specRun ∅ ops).1.keys.card ∧
      ∀ n, h.len ≤ n → ∃ items, collect g h n ⟨0, 0, 0⟩ = some items ∧
        (items.map Prod.fst).Nodup ∧
        ∀ k v, (k, v) ∈ items ↔ (specRun ∅ ops).1.lookup k = some v := by
  obtain ⟨r0, hmem⟩ := refines_new (g := g) hnew
  have hrun := run_refines ops r0 (loaded_of_card (by simp) (by simp)) hadm
  constructor
  · intro hbudget
    cases hres : run g h₀ ops with
    | some r => rfl
    | none =>
      rw [hres] at hrun
      exact absurd hrun (not_lt.mpr (by rw [hmem]; exact hbudget))
  · intro h replies hres
    rw [hres] at hrun
    obtain ⟨hrep, r, -⟩ := hrun
    refine ⟨hrep, r.lookup_eq, r.len_eq, fun n hn => ⟨entries h, collect_spec r.quiet hn,
      entries_keys_nodup r.quiet, fun k v => ?_⟩⟩
    rw [mem_entries r.quiet]
    exact r.pairs k v

end Runs

def narrow : Layout ℕ := ⟨id, 2, 32⟩

/-- The only bucket is split twice, at the third key and at the fifth. -/
def narrowRun : List (Op ℕ) :=
  [.insert 0 5, .insert 1 6, .insert 2 7, .insertIfAbsent 2 8, .insert 3 9, .insert 4 10, .remove 1]

theorem bihash_refines_map_narrow :
    ∃ h₀, withCapacityIn 1 (2 ^ 20) = some h₀ ∧ (run narrow h₀ narrowRun).isSome ∧
      ∀ h replies, run narrow h₀ narrowRun = some (h, replies) →
        lookup narrow h 1 = some none ∧ lookup narrow h 2 = some (some 7) ∧ h.len = 4 := by
  obtain ⟨h₀, hnew, hn⟩ : ∃ h₀ : Table ℕ, withCapacityIn 1 (2 ^ 20) = some h₀ ∧ h₀.nbuckets = 1 :=
    ⟨_, rfl, by simp⟩
  have hadm : Admissible narrow h₀.nbuckets ∅ narrowRun := by
    have hload : ∀ m : Map ℕ, m.keys.card ≤ 7 → Loaded narrow h₀.nbuckets m := fun m hm =>
      loaded_of_card (hm.trans (by decide)) (hm.trans_lt (by decide))
    simp only [narrowRun, Admissible]
    refine ⟨?_, hload _ ?_, ?_, hload _ ?_, ?_, hload _ ?_, ?_, hload _ ?_, ?_, hload _ ?_, ?_,
      hload _ ?_, ?_, hload _ ?_, trivial⟩ <;> decide
  obtain ⟨hret, hres⟩ := bihash_refines_map narrow 1 (2 ^ 20) h₀ _ hnew hadm
  refine ⟨h₀, hnew, hret (by rw [hn]; decide), fun h replies hr => ?_⟩
  obtain ⟨-, hl, hlen, -⟩ := hres h replies hr
  exact ⟨by rw [hl]; decide, by rw [hl]; decide, by rw [hlen]; decide⟩

section Users

variable [DecidableEq K] {f : K → Option ℕ} {key : K}

/-- What a user sees of a table none of whose buckets has overflowed. -/
def Stores (g : Layout K) (h : Table K) (f : K → Option ℕ) : Prop :=
  ∃ m : Map K, Refines g h m ∧ Loaded g h.nbuckets m ∧ ∀ k, m.lookup k = f k

/-- The value can be told from a free slot, and the largest block of the bucket is not full. -/
def HasRoom (g : Layout K) (h : Table K) (key : K) (value : ℕ) : Prop :=
  value ≠ FREE_U64 ∧
    (contents h (bucketIdx g h key)).length < 2 ^ MAX_LOG2_PAGES * g.kvp

theorem load_insert_le (m : Map K) (n : ℕ) (key : K) (value i : ℕ) :
    load g n (m.insert key value) i ≤
      load g n m i + if g.hash key % 2 ^ 32 % n = i then 1 else 0 := by
  rw [load, load, keys_insert, Finset.filter_insert]
  split
  · exact Finset.card_insert_le ..
  · exact le_rfl

theorem load_erase_le (m : Map K) (n : ℕ) (key : K) (i : ℕ) :
    load g n (m.erase key) i ≤ load g n m i := by
  rw [load, load, Finmap.keys_erase]
  exact Finset.card_le_card (Finset.filter_subset_filter _ (Finset.erase_subset ..))

theorem Stores.lookup_eq (s : Stores g h f) (key : K) : lookup g h key = some (f key) := by
  obtain ⟨m, r, -, hf⟩ := s
  rw [r.lookup_eq, hf]

theorem stores_new {n : ℕ} (hnew : new n = some h) : Stores g h fun _ => none :=
  ⟨∅, (refines_new hnew).1, loaded_of_card (by simp) (by simp), fun k => by simp⟩

theorem hasRoom_new {n value : ℕ} (hnew : new n = some h) (hkvp : 0 < g.kvp)
    (hv : value ≠ FREE_U64) (key : K) : HasRoom g h key value := by
  obtain ⟨r, -⟩ := refines_new (g := g) hnew
  refine ⟨hv, ?_⟩
  rw [← r.load_eq (bucketIdx_lt r.quiet key)]
  simp [load, hkvp]

variable [Inhabited K] {h' : Table K}

theorem Stores.step {m : Map K} {reply : Reply} (op : Op K) (r : Refines g h m)
    (hload : Loaded g h.nbuckets m) (hv : ∀ v ∈ op.stores, v ≠ FREE_U64)
    (hload' : Loaded g h.nbuckets (op.spec m).1) (hrun : op.run g h = some (h', reply))
    (hf : ∀ k, (op.spec m).1.lookup k = f k) : Stores g h' f := by
  have ha := step_refines r hload op hv hload'
  rw [hrun] at ha
  refine ⟨_, ha.refines, ?_, hf⟩
  rw [ha.nbuckets]
  exact hload'

theorem Stores.insert (hkvp : g.kvp < 32) {value : ℕ} (s : Stores g h f)
    (hroom : HasRoom g h key value) (hins : insert g h key value = some h') :
    Stores g h' (Function.update f key (some value)) := by
  obtain ⟨m, r, hload, hf⟩ := s
  have hload' : Loaded g h.nbuckets (m.insert key value) := by
    intro i
    have hle := load_insert_le (g := g) m h.nbuckets key value i
    obtain ⟨h1, h2⟩ := hload i
    split at hle
    · rename_i hi
      subst hi
      have hroom := hroom.2
      rw [← r.load_eq (bucketIdx_lt r.quiet key)] at hroom
      simp only [MAX_LOG2_PAGES, bucketIdx] at hroom ⊢
      omega
    · exact ⟨hle.trans h1, hle.trans_lt h2⟩
  refine Stores.step (.insert key value) r hload
    (by simpa [Op.stores] using hroom.1) hload' (congrArg (Option.map _) hins) ?_
  intro k
  by_cases hk : k = key
  · subst hk
    simp [Op.spec, Finmap.lookup_insert]
  · simp [Op.spec, hk, hf, Finmap.lookup_insert_of_ne]

theorem Stores.remove {b : Bool} (s : Stores g h f) (hrem : remove g h key = some (h', b)) :
    Stores g h' (Function.update f key none) := by
  obtain ⟨m, r, hload, hf⟩ := s
  have hload' : Loaded g h.nbuckets (m.erase key) := fun i =>
    ⟨(load_erase_le ..).trans (hload i).1, (load_erase_le ..).trans_lt (hload i).2⟩
  refine Stores.step (.remove key) r hload (by simp [Op.stores]) hload'
    (congrArg (Option.map _) hrem) ?_
  intro k
  by_cases hk : k = key
  · subst hk
    simp [Op.spec, Finmap.lookup_erase]
  · simp [Op.spec, hk, hf, Finmap.lookup_erase_ne]

/-- A table as an index uses it. -/
def slots (g : Layout K) (hkvp : g.kvp < 32) : KeyIndex.Slots (Table K) K ℕ where
  lookup := lookup g
  insert := insert g
  remove h key := (remove g h key).map Prod.fst
  HasRoom := HasRoom g
  Stores := Stores g
  lookup_eq := Stores.lookup_eq
  insert_stores := Stores.insert hkvp
  remove_stores s hrem := by
    obtain ⟨r, hr, rfl⟩ := Option.map_eq_some_iff.mp hrem
    exact s.remove hr

end Users

section Overflow

variable [DecidableEq K]

/-- A removal trusts the bucket's count: at one the whole bucket is dropped, whatever it holds. -/
theorem remove_drops_bucket (q : Quiet g h rs) {key : K} {v : ℕ}
    (hmem : (key, v) ∈ contents h (bucketIdx g h key))
    (hone : (h.buckets (bucketIdx g h key)).refcnt = 1) :
    ∃ h', remove g h key = some (h', true) ∧ h'.nbuckets = h.nbuckets ∧
      h'.buckets (bucketIdx g h key) = .empty := by
  have hidx := bucketIdx_lt q key
  obtain ⟨h1, hlock, l, e, hc, -, halike⟩ := q.lock hidx
  have hidx1 : bucketIdx g h key < h1.nbuckets := by rw [e.nbuckets]; exact hidx
  have he : (h1.buckets (bucketIdx g h key)).isEmpty = false := by
    by_contra hne
    rw [← hc, contents_empty (by simpa using hne)] at hmem
    cases hmem
  obtain ⟨⟨found, free⟩, hr, hi⟩ := inspectLocked_spec l hidx1 he key
  cases found with
  | none => exact absurd (hc ▸ hmem) (hi.absent rfl v)
  | some s =>
    obtain ⟨h', hrm, hb, hn⟩ : ∃ h', removeSlot h1 (bucketIdx g h key)
        (h1.buckets (bucketIdx g h key)) s.1 = some h' ∧
        h'.buckets (bucketIdx g h key) = .empty ∧ h'.nbuckets = h1.nbuckets := by
      simp only [removeSlot, halike.refcnt, hone, one_ne_zero, if_false, if_true]
      exact ⟨_, rfl, storeBucket_self .., rfl⟩
    refine ⟨h', ?_, hn.trans e.nbuckets, hb⟩
    simp [remove, onKey, hlock, he, hr, hrm]

variable [Inhabited K]

theorem run_inserts (value : ℕ) (hv : value ≠ FREE_U64) (ops : List (Op K)) (ks : List K) :
    ∀ {h : Table K} {m : Map K}, Refines g h m → ¬ Short g h →
    m.keys.card + ks.length ≤ 2 ^ MAX_LOG2_PAGES * g.kvp → m.keys.card + ks.length < 2 ^ 16 →
    ∃ h' replies, Refines g h' (specRun m (ks.map (.insert · value))).1 ∧
      h'.nbuckets = h.nbuckets ∧ h'.memorySize = h.memorySize ∧
      run g h (ks.map (.insert · value) ++ ops) =
        (run g h' ops).map fun s => (s.1, replies ++ s.2) := by
  induction ks with
  | nil => exact fun {h m} r _ _ _ => ⟨h, [], r, rfl, rfl, by simp⟩
  | cons k ks ih =>
    intro h m r hmem h1 h2
    have hcard : (m.insert k value).keys.card ≤ m.keys.card + 1 := card_insert_le m k value
    rw [length_cons] at h1 h2
    have hload := load_le_card g h.nbuckets (m.insert k value) (bucketIdx g h k)
    have hins := insert_refines r k hv (by omega) (by omega)
    cases hr : Bihash.insert g h k value with
    | none => rw [hr] at hins; exact absurd hins hmem
    | some t =>
      rw [hr] at hins
      obtain ⟨rt, hn, hm⟩ := hins
      obtain ⟨h', replies, r', hn', hm', hrun⟩ := ih rt (by rwa [Short, hn, hm]) (by omega)
        (by omega)
      refine ⟨h', .done :: replies, r', hn'.trans hn, hm'.trans hm, ?_⟩
      simp only [map_cons, cons_append, run, Op.run, hr, Option.map_some,
        Option.bind_some, hrun, Option.map_map]
      rfl

end Overflow

theorem card_spec_le [DecidableEq K] (m : Map K) (op : Op K) :
    (op.spec m).1.keys.card ≤ m.keys.card + 1 := by
  have herase : ∀ key, (m.erase key).keys.card ≤ m.keys.card + 1 := fun key => by
    rw [Finmap.keys_erase]
    exact (Finset.card_erase_le).trans (Nat.le_succ _)
  cases op with
  | insert key value => exact card_insert_le m key value
  | insertIfAbsent key value =>
    simp only [Op.spec]
    split
    · exact Nat.le_succ _
    · exact card_insert_le m key value
  | replaceIfCurrent key oldValue newValue =>
    simp only [Op.spec]
    split
    · exact card_insert_le m key newValue
    · exact Nat.le_succ _
  | remove key => exact herase key
  | removeIfCurrent key value =>
    simp only [Op.spec]
    split
    · exact herase key
    · exact Nat.le_succ _
  | clear => simp [Op.spec]

theorem card_specRun_le [DecidableEq K] (ops : List (Op K)) : ∀ m : Map K,
    (specRun m ops).1.keys.card ≤ m.keys.card + ops.length := by
  induction ops with
  | nil => exact fun m => le_rfl
  | cons op ops ih =>
    intro m
    have h1 := card_spec_le m op
    have h2 := ih (op.spec m).1
    simp only [specRun, length_cons]
    omega

theorem specRun_append [DecidableEq K] (ops ops' : List (Op K)) : ∀ m : Map K,
    (specRun m (ops ++ ops')).1 = (specRun (specRun m ops).1 ops').1 := by
  induction ops with
  | nil => exact fun m => rfl
  | cons op ops ih => exact fun m => ih (op.spec m).1

theorem lookup_inserts (value : ℕ) (ks : List ℕ) : ∀ (m : Map ℕ) (k : ℕ),
    (specRun m (ks.map (.insert · value))).1.lookup k =
      if k ∈ ks then some value else m.lookup k := by
  induction ks with
  | nil => exact fun m k => by simp [specRun]
  | cons j ks ih =>
    intro m k
    simp only [map_cons, specRun, Op.spec, ih, mem_cons]
    by_cases hk : k ∈ ks
    · simp [hk]
    · by_cases hj : k = j
      · subst hj
        simp [hk, Finmap.lookup_insert]
      · simp [hk, hj, Finmap.lookup_insert_of_ne]

/-- A table of one bucket that holds the keys below `n`. -/
structure Filled (g : Layout ℕ) (n : ℕ) (h₀ h : Table ℕ) (m : Map ℕ) : Prop where
  new : new 1 = some h₀
  refines : Refines g h m
  nbuckets : h.nbuckets = 1
  enough : ¬ Short g h
  length : (contents h 0).length = n
  lookup : ∀ k, m.lookup k = if k < n then some 0 else none

theorem exists_filled (g : Layout ℕ) (n : ℕ) (hcap : n ≤ 2 ^ MAX_LOG2_PAGES * g.kvp)
    (hcount : n < 2 ^ 16) (hbytes : 18 * (2 ^ MAX_LOG2_PAGES * g.pageBytes) < 2 ^ 64)
    (ops : List (Op ℕ)) :
    ∃ h₀ h replies, Filled g n h₀ h (specRun ∅ ((range n).map (.insert · 0))).1 ∧
      run g h₀ ((range n).map (.insert · 0) ++ ops) =
        (run g h ops).map fun s => (s.1, replies ++ s.2) := by
  obtain ⟨h₀, hnew, hn⟩ : ∃ h₀ : Table ℕ, new 1 = some h₀ ∧ h₀.nbuckets = 1 := ⟨_, rfl, by simp⟩
  obtain ⟨r0, hmem⟩ := refines_new (g := g) hnew
  have hshort : ¬ Short g h₀ := by
    rw [Short, hn]
    omega
  obtain ⟨h, replies, r, hn1, hm1, hrun⟩ := run_inserts 0 (by decide) ops (range n) r0 hshort
    (by simpa using hcap) (by simpa using hcount)
  have hlook := lookup_inserts 0 (range n) ∅
  simp only [mem_range, Finmap.lookup_empty] at hlook
  refine ⟨h₀, h, replies, ⟨hnew, r, hn1.trans hn, by rwa [Short, hm1, hn1], ?_, hlook⟩, hrun⟩
  set m := (specRun ∅ ((range n).map (.insert · 0)) : Map ℕ × List Reply).1 with hm
  have hkeys : m.keys = Finset.range n := by
    ext k
    rw [Finmap.mem_keys, Finmap.mem_iff]
    simp [hlook]
  rw [← r.load_eq (by rw [hn1, hn]; decide), load, hn1, hn, hkeys]
  simp [Nat.mod_one]

theorem Filled.bucketIdx_eq {g : Layout ℕ} {n : ℕ} {h₀ h : Table ℕ} {m : Map ℕ}
    (f : Filled g n h₀ h m) (k : ℕ) : bucketIdx g h k = 0 := by
  rw [bucketIdx, f.nbuckets, Nat.mod_one]

/-- Pages of 33 slots: a block of 256 of them has room for 8448 keys. -/
def wide : Layout ℕ := ⟨id, 33, 528⟩

def fillAndRemove : List (Op ℕ) := (List.range 8193).map (.insert · 0) ++ [.remove 0]

/-- The count of 8193 keys is stored as one, so removing one of them drops the other 8192. -/
theorem refcnt_wraps_at_8192 :
    ∃ h₀ h replies, new 1 = some h₀ ∧
      (∀ ops, ops <+: fillAndRemove → ∀ i,
        load wide h₀.nbuckets (specRun ∅ ops).1 i ≤ 2 ^ MAX_LOG2_PAGES * wide.kvp) ∧
      run wide h₀ fillAndRemove = some (h, replies) ∧
      lookup wide h 1 = some none ∧ (specRun ∅ fillAndRemove).1.lookup 1 = some 0 := by
  obtain ⟨h₀, h1, replies, f, hrun⟩ := exists_filled wide 8193 (by decide) (by decide) (by decide)
    [.remove 0]
  have hmem1 : (0, 0) ∈ contents h1 (bucketIdx wide h1 0) :=
    (f.refines.pairs 0 0).mpr (by simp [f.lookup])
  have hone : (h1.buckets (bucketIdx wide h1 0)).refcnt = 1 := by
    rw [f.bucketIdx_eq, (f.refines.quiet.holds 0 (by rw [f.nbuckets]; decide)).refcnt, f.length]
    decide
  obtain ⟨h2, hrm, hn2, hb⟩ := remove_drops_bucket f.refines.quiet hmem1 hone
  refine ⟨h₀, h2, replies ++ [.flag true], f.new, fun ops hpre i => ?_, ?_, ?_, ?_⟩
  · refine (load_le_card ..).trans ((card_specRun_le ops ∅).trans ?_)
    have hl := hpre.length_le
    rw [fillAndRemove, List.length_append, List.length_map, List.length_range] at hl
    rw [Finmap.keys_empty, Finset.card_empty, Nat.zero_add]
    exact hl.trans (by decide)
  · rw [fillAndRemove, hrun]
    simp [run, Op.run, hrm]
  · rw [lookup, bucketIdx, hn2, f.nbuckets, Nat.mod_one]
    rw [f.bucketIdx_eq] at hb
    simp [hb, Bucket.isEmpty_empty, Bucket.isLocked_empty]
  · rw [fillAndRemove, specRun_append]
    simp only [specRun, Op.spec]
    rw [Finmap.lookup_erase_ne (by decide), f.lookup]
    rfl

end Bihash
