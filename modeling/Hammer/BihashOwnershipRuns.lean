import Hammer.BihashInsertions

/-! # Block ownership over whole runs

Runs of mutations in which no bucket is asked to take a key it has no room for.
-/
namespace Bihash

open List Option

variable {K : Type} {g : Layout K} {hz : Hazards} {s : Shared K}

/-- What a bucket needs to take one more key. -/
structure Spacious (g : Layout K) (h : Table K) (idx : ℕ) : Prop where
  slots : (contents h idx).length < 2 ^ MAX_LOG2_PAGES * g.kvp
  count : (contents h idx).length < 8191
  offsets : h.blocksLen + 3 < 2 ^ 36

/-- What a mutation that stores `value` under `key` must find. -/
def Owns.Fitting (g : Layout K) (s : Shared K) (key : K) (value : ℕ) : Prop :=
  value ≠ FREE_U64 ∧ ((∀ v, (key, v) ∉ contents s.table (bucketIdx g s.table key)) →
    Spacious g s.table (bucketIdx g s.table key))

/-- The table between mutations. -/
structure Owns (g : Layout K) (s : Shared K) : Prop where
  quiet : Quiet g s.table s.retired
  small : ∀ i < s.table.nbuckets, (contents s.table i).length < 2 ^ 13
  offsets : s.table.blocksLen < 2 ^ 36

namespace Owns

variable {s' : Shared K} {key : K} {value idx : ℕ}

theorem changes (o : Owns g s) {ps : List (K × ℕ)}
    (c : Changes g (fun t => t.table.blocksLen < 2 ^ 36) s.table idx ps s')
    (hps : ps.length < 2 ^ 13) : Owns g s' := by
  refine ⟨c.quiet, fun i hi => ?_, c.supply⟩
  by_cases hne : i = idx
  · rwa [hne, c.pairs.length_eq]
  · rw [c.edits.nbuckets] at hi
    rw [c.edits.contents_eq hi hne]
    exact o.small i hi

theorem bucket_small (o : Owns g s) (key : K) :
    (contents s.table (bucketIdx g s.table key)).length < 2 ^ 13 :=
  o.small _ (Nat.mod_lt _ o.quiet.pos)

theorem Fitting.room (hfit : Fitting g s key value)
    (habs : ∀ v, (key, v) ∉ contents s.table (bucketIdx g s.table key)) :
    Room g s.table (bucketIdx g s.table key) ∧ s.table.blocksLen + 3 < 2 ^ 36 := by
  obtain ⟨h1, h2, h3⟩ := hfit.2 habs
  exact ⟨⟨h1, by omega⟩, h3⟩

theorem put_small [DecidableEq K] (o : Owns g s) (hcount : (∀ v, (key, v) ∉ contents s.table
      (bucketIdx g s.table key)) → (contents s.table (bucketIdx g s.table key)).length < 8191) :
    ((key, value) :: (contents s.table (bucketIdx g s.table key)).filter (·.1 ≠ key)).length <
      2 ^ 13 := by
  have hsmall := o.bucket_small key
  rw [length_cons]
  by_cases habs : ∀ v, (key, v) ∉ contents s.table (bucketIdx g s.table key)
  · have := hcount habs
    rw [filter_of_absent habs]
    omega
  · push Not at habs
    obtain ⟨v, hv⟩ := habs
    have : ((contents s.table (bucketIdx g s.table key)).filter (·.1 ≠ key)).length < _ :=
      length_filter_lt_length_iff_exists.mpr ⟨(key, v), hv, by simp⟩
    omega

end Owns

/-- A call of a mutator, or a collection on its own. -/
inductive Mutation (K : Type) where
  | call (op : Op K)
  | collect

section Runs

variable [DecidableEq K] [Inhabited K]

def Mutation.run (g : Layout K) (hz : Hazards) (s : Shared K) : Mutation K → Option (Shared K)
  | .call (.insert key value) => Shared.insert g hz s key value
  | .call (.insertIfAbsent key value) => (Shared.insertIfAbsent g hz s key value).map Prod.fst
  | .call (.replaceIfCurrent key oldValue newValue) =>
    (Shared.replaceIfCurrent g s key oldValue newValue).map Prod.fst
  | .call (.remove key) => (Shared.remove g hz s key).map Prod.fst
  | .call (.removeIfCurrent key value) => (Shared.removeIfCurrent g hz s key value).map Prod.fst
  | .call .clear => Shared.clear hz s
  | .collect => some (Shared.collectRetired hz s)

def Shared.run (g : Layout K) (hz : Hazards) : Shared K → List (Mutation K) → Option (Shared K)
  | s, [] => some s
  | s, m :: ms => (m.run g hz s).bind fun s => Shared.run g hz s ms

/-- No value is the free marker, and a bucket that gets a new key has room for it. -/
def Mutation.Fits (g : Layout K) (s : Shared K) : Mutation K → Prop
  | .call (.insert key value) => Owns.Fitting g s key value
  | .call (.insertIfAbsent key value) => Owns.Fitting g s key value
  | .call (.replaceIfCurrent _ _ newValue) => newValue ≠ FREE_U64
  | _ => True

def FitsRun (g : Layout K) (hz : Hazards) : Shared K → List (Mutation K) → Prop
  | _, [] => True
  | s, m :: ms => m.Fits g s ∧ ∀ s', m.run g hz s = some s' → FitsRun g hz s' ms

namespace Owns

variable {s' : Shared K} {key : K} {value : ℕ}

theorem step (o : Owns g s) {m : Mutation K} (hfit : m.Fits g s)
    (hr : m.run g hz s = some s') : Owns g s' := by
  have S := supply_shared g hz
  match m with
  | .call (.insert key value) =>
    have c := insert_spec S o.offsets o.quiet rfl hfit.1 fun habs => Fitting.room hfit habs
    rw [show Shared.insert g hz s key value = _ from hr] at c
    exact o.changes c (o.put_small fun habs => (hfit.2 habs).count)
  | .call (.insertIfAbsent key value) =>
    obtain ⟨r, hr', rfl⟩ := map_eq_some_iff.mp hr
    have c := insertIfAbsent_spec S o.offsets o.quiet rfl hfit.1 fun habs => Fitting.room hfit habs
    rw [hr'] at c
    rcases c with ⟨v, -, -, c⟩ | ⟨habs, -, c⟩
    · exact o.changes c (o.bucket_small key)
    · exact o.changes c (Nat.succ_lt_succ (hfit.2 habs).count)
  | .call (.replaceIfCurrent key oldValue newValue) =>
    obtain ⟨r, hr', rfl⟩ := map_eq_some_iff.mp hr
    have c := replaceIfCurrent_spec S o.offsets o.quiet (rfl : bucketIdx g s.table key = _) oldValue
      hfit
    rw [hr'] at c
    rcases c with ⟨hm, -, c⟩ | ⟨-, -, c⟩
    · exact o.changes c (o.put_small fun habs => absurd hm (habs _))
    · exact o.changes c (o.bucket_small key)
  | .call (.remove key) =>
    obtain ⟨r, hr', rfl⟩ := map_eq_some_iff.mp hr
    have c := remove_spec S o.offsets o.quiet rfl (o.bucket_small key)
    rw [hr'] at c
    rcases c with ⟨-, -, c⟩ | ⟨-, -, c⟩
    · exact o.changes c ((length_filter_le ..).trans_lt (o.bucket_small key))
    · exact o.changes c (o.bucket_small key)
  | .call (.removeIfCurrent key value) =>
    obtain ⟨r, hr', rfl⟩ := map_eq_some_iff.mp hr
    have c := removeIfCurrent_spec S o.offsets o.quiet rfl (o.bucket_small key) value
    rw [hr'] at c
    rcases c with ⟨-, -, c⟩ | ⟨-, -, c⟩
    · exact o.changes c ((length_filter_le ..).trans_lt (o.bucket_small key))
    · exact o.changes c (o.bucket_small key)
  | .call .clear =>
    obtain ⟨t, ht, q, hn, -, hnil, hB⟩ := clear_spec S (n := 0) o.offsets o.quiet
    obtain rfl := some.inj (ht.symm.trans hr)
    exact ⟨q, fun i hi => by simp [hnil i (hn ▸ hi)], hB⟩
  | .collect =>
    obtain rfl := some.inj hr
    obtain ⟨f, hf⟩ := collectRetired_table hz s
    have sd := o.quiet.sound.collectRetired hz
    refine ⟨⟨sd, ?_, fun i hi => ?_, ?_, ?_⟩, ?_, ?_⟩
    all_goals rw [hf] at *
    · exact o.quiet.pos
    · have t := o.quiet.holds i hi
      exact { t with }
    · exact o.quiet.unlocked
    · exact o.quiet.len
    · exact o.small
    · exact o.offsets

end Owns

theorem Owns.run {ms : List (Mutation K)} : ∀ {s s' : Shared K}, Owns g s → FitsRun g hz s ms →
    Shared.run g hz s ms = some s' → Owns g s' := by
  induction ms with
  | nil =>
    intro s s' o _ hr
    exact some.inj hr ▸ o
  | cons m ms ih =>
    intro s s' o hfit hr
    obtain ⟨s1, h1, hr⟩ := bind_eq_some_iff.mp hr
    exact ih (o.step hfit.1 h1) (hfit.2 s1 h1) hr

end Runs

/-- Where a block can be. -/
inductive Place where
  | bucket (index : ℕ)
  | freelist (log2Pages : ℕ)
  | retired

def Place.blocks (s : Shared K) : Place → List ℕ
  | .bucket i => if i < s.table.nbuckets then owned s.table i else []
  | .freelist c => if c ≤ MAX_LOG2_PAGES then s.table.freelists c else []
  | .retired => s.retired.map Prod.fst

theorem flatMap_unique {α β : Type} {l : List α} {f : α → List β} (hn : (l.flatMap f).Nodup)
    {a b : α} (ha : a ∈ l) (hb : b ∈ l) {x : β} (hxa : x ∈ f a) (hxb : x ∈ f b) : a = b := by
  by_contra hne
  have : Std.Symm (Function.onFun List.Disjoint f) := ⟨fun _ _ h => h.symm⟩
  exact (nodup_flatMap.mp hn).2.forall ha hb hne hxa hxb

namespace Owns

theorem parts (o : Owns g s) : Parts g s.table (s.retired.map Prod.fst) :=
  o.quiet.sound.parts.perm (by simp)

variable {x : ℕ}

theorem mem_place (p : Place) (hx : x ∈ p.blocks s) :
    (∃ c, p = .freelist c ∧ c ∈ range (MAX_LOG2_PAGES + 1) ∧ x ∈ s.table.freelists c ∧
      x ∈ freeBlocks s.table) ∨
    (∃ i, p = .bucket i ∧ i ∈ range s.table.nbuckets ∧ x ∈ owned s.table i ∧
      x ∈ ownedBlocks s.table) ∨
    (p = .retired ∧ x ∈ s.retired.map Prod.fst) := by
  cases p with
  | bucket i =>
    simp only [Place.blocks] at hx
    split at hx
    · rename_i hi
      have hi := mem_range.mpr hi
      exact Or.inr (Or.inl ⟨i, rfl, hi, hx, mem_flatMap.mpr ⟨i, hi, hx⟩⟩)
    · cases hx
  | freelist c =>
    simp only [Place.blocks] at hx
    split at hx
    · rename_i hc
      have hc := mem_range.mpr (Nat.lt_succ_of_le hc)
      exact Or.inl ⟨c, rfl, hc, hx, mem_flatMap.mpr ⟨c, hc, hx⟩⟩
    · cases hx
  | retired => exact Or.inr (Or.inr ⟨rfl, hx⟩)

theorem place_unique (o : Owns g s) {p q : Place} (hp : x ∈ p.blocks s) (hq : x ∈ q.blocks s) :
    p = q := by
  obtain ⟨hfo, hr, hd⟩ := nodup_append.mp o.parts.nodup
  obtain ⟨hf, ho, hd'⟩ := nodup_append.mp hfo
  rcases mem_place p hp with ⟨c, rfl, hc, hxc, hxf⟩ | ⟨i, rfl, hi, hxi, hxo⟩ | ⟨rfl, hxr⟩ <;>
    rcases mem_place q hq with ⟨c', rfl, hc', hxc', hxf'⟩ | ⟨j, rfl, hj, hxj, hxo'⟩ | ⟨rfl, hxr'⟩
  · rw [flatMap_unique hf hc hc' hxc hxc']
  · exact absurd rfl (hd' x hxf x hxo')
  · exact absurd rfl (hd x (mem_append_left _ hxf) x hxr')
  · exact absurd rfl (hd' x hxf' x hxo)
  · rw [flatMap_unique ho hi hj hxi hxj]
  · exact absurd rfl (hd x (mem_append_right _ hxo) x hxr')
  · exact absurd rfl (hd x (mem_append_left _ hxf') x hxr)
  · exact absurd rfl (hd x (mem_append_right _ hxo') x hxr)
  · rfl

theorem place_exists (o : Owns g s) (h1 : 1 ≤ x) (h2 : x ≤ s.table.blocksLen) :
    ∃ p : Place, x ∈ p.blocks s := by
  have hm := o.parts.parted.mem_iff.mpr (mem_range'_1.mpr ⟨h1, by omega⟩)
  rw [mem_append, mem_append] at hm
  rcases hm with (hm | hm) | hm
  · obtain ⟨c, hc, hx⟩ := mem_flatMap.mp hm
    exact ⟨.freelist c, by
      rw [Place.blocks, if_pos (Nat.le_of_lt_succ (mem_range.mp hc))]; exact hx⟩
  · obtain ⟨i, hi, hx⟩ := mem_flatMap.mp hm
    exact ⟨.bucket i, by rw [Place.blocks, if_pos (mem_range.mp hi)]; exact hx⟩
  · exact ⟨.retired, hm⟩

theorem place_range (o : Owns g s) {p : Place} (hx : x ∈ p.blocks s) :
    1 ≤ x ∧ x ≤ s.table.blocksLen := by
  apply o.parts.mem_range
  rw [mem_append, mem_append]
  rcases mem_place p hx with ⟨_, _, _, _, h⟩ | ⟨_, _, _, _, h⟩ | ⟨_, h⟩
  · exact Or.inl (Or.inl h)
  · exact Or.inl (Or.inr h)
  · exact Or.inr h

theorem place_nodup (o : Owns g s) (p : Place) : (p.blocks s).Nodup := by
  obtain ⟨hfo, hr, -⟩ := nodup_append.mp o.parts.nodup
  obtain ⟨hf, ho, -⟩ := nodup_append.mp hfo
  cases p with
  | bucket i =>
    rw [Place.blocks]
    split
    · rename_i hi
      exact (nodup_flatMap.mp ho).1 i (mem_range.mpr hi)
    · exact nodup_nil
  | freelist c =>
    rw [Place.blocks]
    split
    · rename_i hc
      exact (nodup_flatMap.mp hf).1 c (mem_range.mpr (Nat.lt_succ_of_le hc))
    · exact nodup_nil
  | retired => exact hr

theorem freelist_class (o : Owns g s) {c : ℕ} (hx : x ∈ (Place.freelist c).blocks s) :
    (s.table.blocks x).log2Pages = c := by
  rw [Place.blocks] at hx
  split at hx
  · rename_i hc
    exact o.parts.free_class c hc x hx
  · cases hx

theorem refcnt_eq (o : Owns g s) {i : ℕ} (hi : i < s.table.nbuckets) :
    (s.table.buckets i).refcnt = (contents s.table i).length := by
  rw [(o.quiet.holds i hi).refcnt, Nat.mod_eq_of_lt (o.small i hi)]

end Owns

section Runs

variable [DecidableEq K]

theorem owns_new {capacity memorySize : ℕ} {h : Table K}
    (hnew : withCapacityIn capacity memorySize = some h) : Owns g ⟨h, [], 0⟩ := by
  obtain ⟨r, -⟩ := refines_new (g := g) hnew
  refine ⟨r.quiet, fun i hi => ?_, r.quiet.sound.parts.blocksLen_lt r.budget⟩
  rw [← r.load_eq hi]
  simp [load]

variable [Inhabited K]

/-- Every block ever allocated is in exactly one place, once, on a free list only of its class; no
two buckets share one; and every bucket counts its live slots. -/
theorem blocks_have_one_place (g : Layout K) (hz : Hazards) (capacity memorySize : ℕ)
    (h₀ : Table K) (ms : List (Mutation K)) (s : Shared K)
    (hnew : withCapacityIn capacity memorySize = some h₀) (hfit : FitsRun g hz ⟨h₀, [], 0⟩ ms)
    (hrun : Shared.run g hz ⟨h₀, [], 0⟩ ms = some s) :
    (∀ o, 1 ≤ o → o ≤ s.table.blocksLen → ∃! p : Place, o ∈ p.blocks s) ∧
    (∀ p : Place, (p.blocks s).Nodup ∧ ∀ o ∈ p.blocks s, 1 ≤ o ∧ o ≤ s.table.blocksLen) ∧
    (∀ c, ∀ o ∈ (Place.freelist c).blocks s, (s.table.blocks o).log2Pages = c) ∧
    (∀ i < s.table.nbuckets, ∀ j < s.table.nbuckets, (s.table.buckets i).isEmpty = false →
      (s.table.buckets j).isEmpty = false →
      (s.table.buckets i).offset = (s.table.buckets j).offset → i = j) ∧
    ∀ i < s.table.nbuckets, (s.table.buckets i).refcnt = (contents s.table i).length := by
  have o := (owns_new hnew).run hfit hrun
  refine ⟨fun x h1 h2 => ?_, fun p => ⟨o.place_nodup p, fun x => o.place_range⟩,
    fun c x => o.freelist_class, fun i hi j hj hei hej heq => ?_,
    fun i hi => o.refcnt_eq hi⟩
  · obtain ⟨p, hp⟩ := o.place_exists h1 h2
    exact ⟨p, hp, fun q hq => o.place_unique hq hp⟩
  · by_contra hne
    exact o.parts.owned_ne hi hj hei hej hne heq

end Runs

/-- A lookup protects the block of the only bucket while its last key is removed. -/
theorem blocks_have_one_place_protected :
    ∃ h₀ s, withCapacityIn 1 (2 ^ 20) = some h₀ ∧
      Shared.run narrow (fun _ _ => true) ⟨h₀, [], 0⟩
        [.call (.insert 3 5), .call (.remove 3), .collect] = some s ∧
      s.retired = [(1, 0)] ∧ ∃! p : Place, 1 ∈ p.blocks s := by
  refine ⟨_, _, rfl, rfl, rfl, ?_⟩
  refine (blocks_have_one_place narrow (fun _ _ => true) 1 (2 ^ 20) _
    [.call (.insert 3 5), .call (.remove 3), .collect] _ rfl ⟨?_, ?_⟩ rfl).1 1 le_rfl (by decide)
  · exact ⟨by decide, fun _ => ⟨by decide, by decide, by decide⟩⟩
  · exact fun _ _ => ⟨trivial, fun _ _ => ⟨trivial, fun _ _ => trivial⟩⟩

section Idle

variable [Inhabited K] [DecidableEq K]

/-- Without lookups in flight a call is that of the single-writer table. -/
theorem call_idle (op : Op K) (h : Table K) (t : ℕ) : Follows bare ((op.run g h).map Prod.fst)
    ((Mutation.call op).run g noHazards ⟨h, [], t⟩) := by
  cases op <;> simp only [Op.run, Option.map_map, Function.comp_def, Option.map_id']
  case insert key value => exact insert_idle h key value t
  case insertIfAbsent key value => exact (insertIfAbsent_idle h key value t).fst
  case replaceIfCurrent key oldValue newValue =>
    exact (replaceIfCurrent_idle h key newValue t oldValue).fst
  case remove key => exact (remove_idle h key t).fst
  case removeIfCurrent key value => exact (removeIfCurrent_idle h key value t).fst
  case clear => exact clear_idle h t

theorem run_idle (ops : List (Op K)) (ms : List (Mutation K)) : ∀ (h : Table K) (t : ℕ), ∃ n,
    Shared.run g noHazards ⟨h, [], t⟩ (ops.map .call ++ ms) =
      (run g h ops).bind fun r => Shared.run g noHazards ⟨r.1, [], n⟩ ms := by
  induction ops with
  | nil => exact fun h t => ⟨t, rfl⟩
  | cons op ops ih =>
    intro h t
    obtain ⟨n, hn⟩ := call_idle (g := g) op h t
    rw [map_cons, cons_append, Shared.run, hn, run]
    cases op.run g h with
    | none => exact ⟨t, rfl⟩
    | some r =>
      obtain ⟨m, hm⟩ := ih r.1 n
      exact ⟨m, by simpa [Option.bind_map, Function.comp_def] using hm⟩

end Idle

/-- The 257th key of a bucket is counted but not stored: its largest block has 256 slots. -/
theorem full_bucket_miscounts :
    ∃ h₀ s, new 1 = some h₀ ∧
      Shared.run single noHazards ⟨h₀, [], 0⟩
        ((List.range 257).map fun k => .call (.insert k 0)) = some s ∧
      0 < s.table.nbuckets ∧ (s.table.buckets 0).refcnt = 257 ∧
      (contents s.table 0).length = 256 := by
  obtain ⟨h₀, h1, h2, replies, hnew, hrun, hins, -, hn, hlen, href, -⟩ := fillBucket_full
  obtain ⟨n, hfill⟩ := run_idle fillBucket [.call (.insert 256 0)] h₀ 0
  obtain ⟨k, hlast⟩ := call_idle (g := single) (.insert 256 0) h1 n
  refine ⟨h₀, ⟨h2, [], k⟩, hnew, ?_, hn ▸ Nat.one_pos, href, hlen⟩
  rw [List.range_succ, List.map_append]
  rw [fillBucket, List.map_map] at hfill
  refine hfill.trans ?_
  rw [← fillBucket, hrun, Option.bind_some, Shared.run, hlast, Op.run, hins]
  rfl

end Bihash
