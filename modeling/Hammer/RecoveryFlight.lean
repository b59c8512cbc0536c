import Hammer.LinkedRing
import Hammer.RecoveryState

/-! # The samples behind the flight

The ghost value of a flight is the list of its samples in sending order, with their indices. Pool,
list and map are described by it.
-/
namespace Recovery

open LinkedRing TcpSeq List OrderedMap TcpSentSample

/-- A sample without its place in the list. -/
def TcpSentSample.body (x : TcpSentSample) : TcpSentSample := { x with prev := none, next := none }

namespace Flight

def nextOf (f : Flight) : Option ℕ → Option ℕ := link f.sampleHead f.sentSample (·.next)
def prevOf (f : Flight) : Option ℕ → Option ℕ := link f.sampleTail f.sentSample (·.prev)

/-- Pool, list and map hold the samples `es`, in this order. -/
structure Tracks (f : Flight) (es : List (ℕ × TcpSentSample)) : Prop where
  pool : ∀ i b, (f.sentSample i).map TcpSentSample.body = some b ↔ (i, b) ∈ es
  ring : Ring f.nextOf f.prevOf none (es.map fun e => some e.1)
  lookup : f.sampleLookup = es.map fun e => (e.2.sequence, e.1)

/-- The first number is less than half the sequence space before the second. -/
abbrev Behind (x y : TcpSeq) : Prop := distanceTo x y < 2147483648

/-- The ranges ascend from the origin `o` and end at `top`, within half the sequence space. -/
structure Ranges (o : TcpSeq) (top : ℕ) (es : List (ℕ × TcpSentSample)) : Prop where
  sized : ∀ e ∈ es, 0 < e.2.bytes ∧ e.2.endSequence = advance e.2.sequence e.2.bytes
  ascending : es.Pairwise fun a b =>
    distanceTo o a.2.sequence + a.2.bytes ≤ distanceTo o b.2.sequence
  bounded : ∀ e ∈ es, distanceTo o e.2.sequence + e.2.bytes ≤ top
  half : top < 2147483648

section Pointers

variable {f : Flight} {node value : Option ℕ}

theorem sentSample_updateSample (f : Flight) (i j : ℕ) (g : TcpSentSample → TcpSentSample) :
    (f.updateSample i g).sentSample j = if i = j then (f.sentSample j).map g else f.sentSample j :=
  Pool.get_modify ..

theorem nextOf_setNext (h : ∀ k, node = some k → (f.sentSample k).isSome) :
    (f.setNext node value).nextOf = Function.update f.nextOf node value := by
  cases node with
  | none => exact link_start
  | some k => exact link_node (h k rfl) (fun j => sentSample_updateSample f k j _) fun _ => rfl

theorem prevOf_setNext : (f.setNext node value).prevOf = f.prevOf := by
  cases node with
  | none => rfl
  | some k => exact link_other (fun j => sentSample_updateSample f k j _) fun _ => rfl

theorem prevOf_setPrev (h : ∀ k, node = some k → (f.sentSample k).isSome) :
    (f.setPrev node value).prevOf = Function.update f.prevOf node value := by
  cases node with
  | none => exact link_start
  | some k => exact link_node (h k rfl) (fun j => sentSample_updateSample f k j _) fun _ => rfl

theorem nextOf_setPrev : (f.setPrev node value).nextOf = f.nextOf := by
  cases node with
  | none => rfl
  | some k => exact link_other (fun j => sentSample_updateSample f k j _) fun _ => rfl

/-- Only links of the samples differ. -/
structure Relinked (f f' : Flight) : Prop where
  body : ∀ i, (f'.sentSample i).map body = (f.sentSample i).map body
  lookup : f'.sampleLookup = f.sampleLookup
  bytesInFlight : f'.bytesInFlight = f.bytesInFlight

theorem Relinked.isSome {f' : Flight} (h : Relinked f f') (i : ℕ) :
    (f'.sentSample i).isSome = (f.sentSample i).isSome := by
  simpa using congrArg Option.isSome (h.body i)

theorem relinked_updateSample (k : ℕ) {g : TcpSentSample → TcpSentSample}
    (hg : ∀ x, (g x).body = x.body) : Relinked f (f.updateSample k g) := by
  refine ⟨fun i => ?_, rfl, rfl⟩
  rw [sentSample_updateSample]
  split
  · cases f.sentSample i <;> simp [hg]
  · rfl

theorem relinked_setNext : Relinked f (f.setNext node value) := by
  cases node with
  | none => exact ⟨fun _ => rfl, rfl, rfl⟩
  | some k => exact relinked_updateSample k fun _ => rfl

theorem relinked_setPrev : Relinked f (f.setPrev node value) := by
  cases node with
  | none => exact ⟨fun _ => rfl, rfl, rfl⟩
  | some k => exact relinked_updateSample k fun _ => rfl

theorem relink {p n : Option ℕ} (v w : Option ℕ)
    (hp : ∀ k, p = some k → (f.sentSample k).isSome)
    (hn : ∀ k, n = some k → (f.sentSample k).isSome) :
    let f' := (f.setNext p v).setPrev n w
    Relinked f f' ∧ f'.nextOf = Function.update f.nextOf p v ∧
      f'.prevOf = Function.update f.prevOf n w := by
  have h : Relinked f (f.setNext p v) := relinked_setNext
  have h' : Relinked _ ((f.setNext p v).setPrev n w) := relinked_setPrev
  refine ⟨⟨fun i => (h'.body i).trans (h.body i), h'.lookup.trans h.lookup,
    h'.bytesInFlight.trans h.bytesInFlight⟩, ?_, ?_⟩
  · rw [nextOf_setPrev, nextOf_setNext hp]
  · rw [prevOf_setPrev fun k hk => (h.isSome k).trans (hn k hk), prevOf_setNext]

end Pointers

section Ghost

variable {f : Flight} {o : TcpSeq} {top : ℕ} {es xs ys : List (ℕ × TcpSentSample)}

variable {i : ℕ}

theorem Tracks.deadline (t : Tracks f es) (d : Option Instant) :
    Tracks { f with rackDeadline := d } es := ⟨t.pool, t.ring, t.lookup⟩

theorem Tracks.bytes (t : Tracks f es) (n : ℕ) : Tracks { f with bytesInFlight := n } es :=
  ⟨t.pool, t.ring, t.lookup⟩

variable {e : ℕ × TcpSentSample}

theorem Tracks.get (t : Tracks f es) (he : e ∈ es) :
    ∃ x, f.sentSample e.1 = some x ∧ x.body = e.2 :=
  Option.map_eq_some_iff.mp ((t.pool e.1 e.2).mpr he)

variable {x : TcpSentSample}

theorem Tracks.mem (t : Tracks f es) (h : f.sentSample i = some x) :
    (i, x.body) ∈ es := (t.pool i x.body).mp (by rw [h]; rfl)

theorem Tracks.indices_nodup (t : Tracks f es) : (es.map Prod.fst).Nodup := by
  have h := (nodup_cons.mp t.ring.2).2
  have hmap : es.map (fun e => some e.1) = (es.map Prod.fst).map some := by simp
  rw [hmap] at h
  exact List.Nodup.of_map _ h

variable {b : TcpSentSample}

theorem Tracks.unique (t : Tracks f es) {c : TcpSentSample} (hb : (i, b) ∈ es)
    (hc : (i, c) ∈ es) : b = c := by
  have h1 := (t.pool i b).mpr hb
  rw [(t.pool i c).mpr hc] at h1
  exact (Option.some.inj h1).symm

theorem Ranges.pos_lt (r : Ranges o top es) (he : e ∈ es) :
    Behind o e.2.sequence := by
  have := r.bounded e he
  have := r.half
  omega

theorem Ranges.sublist (r : Ranges o top es) (h : xs.Sublist es) : Ranges o top xs :=
  ⟨fun e he => r.sized e (h.subset he), r.ascending.sublist h,
    fun e he => r.bounded e (h.subset he), r.half⟩

theorem cmp_of_distance {x y : TcpSeq} (hx : Behind o x)
    (hy : Behind o y) :
    TcpSeq.cmp x y = compare (distanceTo o x) (distanceTo o y) := by
  rw [cmp_eq_ite, distanceTo_origin o y x]
  rcases lt_trichotomy (distanceTo o x) (distanceTo o y) with h | h | h
  · rw [Nat.compare_eq_lt.mpr h, if_neg (by omega), if_pos (by omega)]
  · rw [Nat.compare_eq_eq.mpr h, if_pos (by omega)]
  · rw [Nat.compare_eq_gt.mpr h, if_neg (by omega), if_neg (by omega)]

theorem Ranges.lookup_keys_nodup (r : Ranges o top es) :
    (keys (es.map fun e => (e.2.sequence, e.1))).Nodup := by
  rw [OrderedMap.keys, map_map, List.Nodup, pairwise_map]
  refine r.ascending.imp_of_mem fun {a b} ha hb hab e => ?_
  simp only [Function.comp_apply] at e
  have := (r.sized a ha).1
  rw [e] at hab
  omega

theorem Tracks.lookup_self (t : Tracks f es) (r : Ranges o top es) (h : f.sentSample i = some x) :
    OrderedMap.get TcpSeq.cmp x.sequence f.sampleLookup = some i := by
  rw [t.lookup, OrderedMap.get_eq_some_iff cmp_eq_iff r.lookup_keys_nodup]
  exact mem_map.mpr ⟨_, t.mem h, rfl⟩

theorem Ranges.erase_lookup (r : Ranges o top (xs ++ (i, b) :: ys)) :
    erase TcpSeq.cmp b.sequence ((xs ++ (i, b) :: ys).map fun e => (e.2.sequence, e.1)) =
      (xs ++ ys).map fun e => (e.2.sequence, e.1) := by
  have hnd := r.lookup_keys_nodup
  rw [map_append, map_cons, OrderedMap.keys, (perm_middle.map _).nodup_iff, map_cons,
    nodup_cons] at hnd
  rw [map_append, map_append]
  refine erase_append ((cmp_eq_iff _ _).mpr rfl) fun e he => ?_
  rw [ne_eq, cmp_eq_iff]
  exact fun h => hnd.1 (mem_map.mpr ⟨e, he, h.symm⟩)

theorem rackRescanEarliest_eq (f : Flight) :
    ∃ d, f.rackRescanEarliest = { f with rackDeadline := d } := ⟨_, rfl⟩

theorem rackInvalidateCleared_eq (f : Flight) (cleared : Option Instant) :
    ∃ d, f.rackInvalidateCleared cleared = { f with rackDeadline := d } := by
  unfold rackInvalidateCleared
  split
  · exact ⟨f.rackDeadline, rfl⟩
  · exact f.rackRescanEarliest_eq

theorem Tracks.others_ne (t : Tracks f (xs ++ (i, b) :: ys)) : ∀ e ∈ xs ++ ys, e.1 ≠ i := by
  intro e he hei
  have hnd := t.indices_nodup
  rw [(perm_middle.map _).nodup_iff, map_cons, nodup_cons] at hnd
  exact hnd.1 (mem_map.mpr ⟨e, he, hei⟩)

theorem Tracks.neighbours (t : Tracks f (xs ++ (i, b) :: ys)) (hx : f.sentSample i = some x) :
    (∀ k, x.prev = some k → (f.sentSample k).isSome ∧ k ≠ i) ∧
      ∀ k, x.next = some k → (f.sentSample k).isSome ∧ k ≠ i := by
  have hring := t.ring
  rw [map_append] at hring
  obtain ⟨hn, hp⟩ := hring.neighbours
  have hnext : f.nextOf (some i) = x.next := by simp [nextOf, link, hx]
  have hprev : f.prevOf (some i) = x.prev := by simp [prevOf, link, hx]
  have hmem : ∀ k, some k ∈ none :: (xs.map (fun e => some e.1) ++ ys.map fun e => some e.1) →
      (f.sentSample k).isSome ∧ k ≠ i := by
    intro k hk
    have hk' : some k ∈ (xs ++ ys).map fun e => some e.1 := by simpa using hk
    obtain ⟨e, he, hek⟩ := mem_map.mp hk'
    obtain rfl : e.1 = k := by simpa using hek
    obtain ⟨y, hy, -⟩ := t.get (e := e) (by
      simp only [mem_append, mem_cons] at he ⊢
      tauto)
    exact ⟨by simp [hy], t.others_ne e he⟩
  rw [hnext] at hn
  rw [hprev] at hp
  exact ⟨fun k hk => hmem k (hk ▸ hp), fun k hk => hmem k (hk ▸ hn)⟩

theorem missing_eq_false {node : Option ℕ} (h : ∀ k, node = some k → (f.sentSample k).isSome) :
    f.missing node = false := by
  cases node with
  | none => rfl
  | some k => simpa [missing] using h k rfl

theorem takeSent_spec (t : Tracks f (xs ++ (i, b) :: ys)) (r : Ranges o top (xs ++ (i, b) :: ys)) :
    ∃ f' x, f.takeSent i = some (f', x) ∧ x.body = b ∧ Tracks f' (xs ++ ys) ∧
      f'.bytesInFlight = f.bytesInFlight - b.bytes := by
  obtain ⟨x, hx, hxb⟩ := t.get (e := (i, b)) (by simp)
  simp only at hx hxb
  obtain ⟨hprev, hnext⟩ := t.neighbours hx
  have hlook := t.lookup_self r hx
  have hseq : x.sequence = b.sequence := by rw [← hxb]; rfl
  set f1 : Flight := { f with
    sampleLookup := OrderedMap.erase TcpSeq.cmp x.sequence f.sampleLookup } with hf1
  set f3 := (f1.setNext x.prev x.next).setPrev x.next x.prev with hf3
  obtain ⟨hsame, hnx, hpv⟩ : Relinked f1 f3 ∧
      f3.nextOf = Function.update f.nextOf x.prev x.next ∧
      f3.prevOf = Function.update f.prevOf x.next x.prev :=
    relink x.next x.prev (fun k hk => (hprev k hk).1) fun k hk => (hnext k hk).1
  have hbody : ∀ j, (f3.sentSample j).map body = (f.sentSample j).map body := hsame.body
  obtain ⟨x', hx', hxb'⟩ := Option.map_eq_some_iff.mp ((hbody i).trans (by rw [hx]; rfl))
  obtain ⟨pool, hrem, hget, -⟩ := Pool.remove_spec hx'
  obtain ⟨d, hd⟩ := rackInvalidateCleared_eq { f3 with
    sentSamples := pool
    bytesInFlight := f3.bytesInFlight - x'.bytes } x.rackDeadline
  have hbytes : x'.bytes = b.bytes := by
    have : x'.body.bytes = x.body.bytes := by rw [hxb']
    rw [← hxb]; exact this
  refine ⟨{ f3 with
    sentSamples := pool
    bytesInFlight := f3.bytesInFlight - x'.bytes
    rackDeadline := d }, x', ?_, hxb'.trans hxb, ⟨fun j c => ?_, ?_, ?_⟩, ?_⟩
  · unfold takeSent
    simp only [hx, hlook, ne_eq, not_true_eq_false, if_false,
      missing_eq_false fun k hk => (hprev k hk).1, missing_eq_false fun k hk => (hnext k hk).1,
      Bool.or_self, Bool.false_eq_true]
    rw [← hf3, hrem]
    simp only [hd]
  · have hj : ({ f3 with
        sentSamples := pool
        bytesInFlight := f3.bytesInFlight - x'.bytes
        rackDeadline := d } : Flight).sentSample j =
        if j = i then none else f3.sentSample j := hget j
    rw [hj]
    have hold := t.pool j c
    rw [← hbody j] at hold
    by_cases hji : j = i
    · subst hji
      simp only [if_true, Option.map_none, reduceCtorEq, false_iff]
      exact fun hc => t.others_ne _ hc rfl
    · rw [if_neg hji, hold]
      simp [hji]
  · have hring := t.ring
    rw [map_append, map_cons] at hring
    have her := hring.erase
    have e1 : f.nextOf (some i) = x.next := by simp [nextOf, link, hx]
    have e2 : f.prevOf (some i) = x.prev := by simp [prevOf, link, hx]
    rw [e1, e2, ← hnx, ← hpv] at her
    rw [map_append]
    have hni : some i ∉ (none : Option ℕ) ::
        (xs.map (fun e => some e.1) ++ ys.map fun e => some e.1) := by
      have := hring.2
      rw [(List.Perm.cons _ perm_middle).nodup_iff,
        (List.Perm.swap _ _ _).nodup_iff, nodup_cons] at this
      exact this.1
    refine her.congr (fun y hy => ?_) (fun y hy => ?_)
    all_goals
      cases y with
      | none => rfl
      | some j =>
        have hji : j ≠ i := fun e => hni (e ▸ hy)
        have hj := hget j
        rw [if_neg hji] at hj
        simp only [nextOf, prevOf, link, sentSample]
        rw [hj]
  · refine hsame.lookup.trans ?_
    show OrderedMap.erase TcpSeq.cmp x.sequence f.sampleLookup = _
    rw [t.lookup, hseq, r.erase_lookup]
  · rw [hbytes, hsame.bytesInFlight]

/-- Assignments that leave the place in the list alone. -/
structure Relabels (g : TcpSentSample → TcpSentSample) : Prop where
  next : ∀ x, (g x).next = x.next
  prev : ∀ x, (g x).prev = x.prev
  body : ∀ x, (g x).body = g x.body

theorem Tracks.modify {f' : Flight} {g : TcpSentSample → TcpSentSample}
    (t : Tracks f (xs ++ (i, b) :: ys)) (hg : Relabels g)
    (hs : ∀ j, f'.sentSample j = if i = j then (f.sentSample j).map g else f.sentSample j)
    (hh : f'.sampleHead = f.sampleHead) (ht : f'.sampleTail = f.sampleTail)
    (hl : f'.sampleLookup = (xs ++ (i, g b) :: ys).map fun e => (e.2.sequence, e.1)) :
    Tracks f' (xs ++ (i, g b) :: ys) := by
  have hnext : f'.nextOf = f.nextOf := by
    unfold nextOf
    rw [hh]
    exact link_other hs hg.next
  have hprev : f'.prevOf = f.prevOf := by
    unfold prevOf
    rw [ht]
    exact link_other hs hg.prev
  refine ⟨fun j c => ?_, ?_, hl⟩
  · have hold := t.pool j c
    rw [hs]
    by_cases hij : i = j
    · subst hij
      obtain ⟨x, hx, hxb⟩ := t.get (e := (i, b)) (by simp)
      simp only [if_true, hx, Option.map_some, Option.some.injEq, hg.body, hxb]
      constructor
      · rintro rfl
        simp
      · intro hc
        simp only [mem_append, mem_cons, Prod.mk.injEq, true_and] at hc
        rcases hc with hc | hc | hc
        · exact absurd rfl (t.others_ne (i, c) (mem_append_left _ hc))
        · exact hc.symm
        · exact absurd rfl (t.others_ne (i, c) (mem_append_right _ hc))
    · rw [if_neg hij, hold]
      simp [Ne.symm hij]
  · rw [hnext, hprev]
    simpa using t.ring

theorem Tracks.update {g : TcpSentSample → TcpSentSample}
    (t : Tracks f (xs ++ (i, b) :: ys)) (hg : Relabels g) (hseq : (g b).sequence = b.sequence) :
    Tracks (f.updateSample i g) (xs ++ (i, g b) :: ys) := by
  apply t.modify hg (sentSample_updateSample f i · g) rfl rfl
  have := t.lookup
  simp only [map_append, map_cons] at this ⊢
  rw [hseq]
  exact this

theorem Tracks.node_isSome (t : Tracks f es) {k : ℕ}
    (h : some k ∈ none :: es.map fun e => some e.1) : (f.sentSample k).isSome := by
  obtain ⟨e, he, hek⟩ := mem_map.mp ((mem_cons.mp h).resolve_left (by simp))
  obtain rfl : e.1 = k := by simpa using hek
  obtain ⟨x, hx, -⟩ := t.get he
  simp [hx]

theorem Tracks.insertBefore {j : ℕ}
    (t : Tracks f (xs ++ ys)) (lookup : List (TcpSeq × ℕ)) (hj : (f.sentSamples.insert x).2 = j)
    (hn : ((ys.map fun e : ℕ × TcpSentSample => some e.1) ++ [none]).head? = some x.next)
    (hp : x.prev = f.prevOf x.next)
    (hl : lookup = (xs ++ (j, x.body) :: ys).map fun e => (e.2.sequence, e.1)) :
    Tracks (({ f with
      sentSamples := (f.sentSamples.insert x).1
      sampleLookup := lookup }.setNext x.prev (some j)).setPrev x.next (some j))
      (xs ++ (j, x.body) :: ys) := by
  set f1 : Flight := { f with
    sentSamples := (f.sentSamples.insert x).1
    sampleLookup := lookup } with hf1
  have hfresh : f.sentSample j = none := by rw [← hj]; exact Pool.get_insert_index ..
  have hget : ∀ k, f1.sentSample k = if k = j then some x else f.sentSample k := by
    intro k
    by_cases hk : k = j
    · rw [if_pos hk, hk, ← hj]
      exact Pool.get_insert_self ..
    · rw [if_neg hk]
      exact Pool.get_insert_of_ne _ _ (by rw [hj]; exact hk)
  have hnew : some j ∉ (none : Option ℕ) :: (xs ++ ys).map fun e => some e.1 := by
    intro h
    have := t.node_isSome h
    simp [hfresh] at this
  have hsome : ∀ k, (f.sentSample k).isSome → (f1.sentSample k).isSome := by
    intro k hk
    rw [hget]
    split <;> simp [hk]
  have hnode : x.next ∈ (none : Option ℕ) :: (xs ++ ys).map fun e => some e.1 := by
    have := mem_of_mem_head? hn
    simp only
    [mem_append, mem_cons, not_mem_nil, or_false, map_append] at this ⊢
    tauto
  have hprev := t.ring.1.prev_mem _ hnode
  have hnx : f1.nextOf = Function.update f.nextOf (some j) x.next :=
    funext fun _ => link_inserted fun k _ => hget k
  have hpv : f1.prevOf = Function.update f.prevOf (some j) x.prev :=
    funext fun _ => link_inserted fun k _ => hget k
  rw [← hp] at hprev
  obtain ⟨hsame, hnext, hprev⟩ := relink (f := f1) (p := x.prev) (n := x.next) (some j) (some j)
    (fun k hk => hsome k (t.node_isSome (hk ▸ hprev)))
    (fun k hk => hsome k (t.node_isSome (hk ▸ hnode)))
  refine ⟨fun k c => ?_, ?_, hsame.lookup.trans hl⟩
  · rw [hsame.body, hget]
    have hold := t.pool k c
    simp only [mem_append, mem_cons, Prod.mk.injEq] at hold ⊢
    by_cases hk : k = j
    · subst hk
      rw [hfresh] at hold
      simp only [Option.map_none, reduceCtorEq, false_iff] at hold
      simp only [if_true, Option.map_some, Option.some.injEq, true_and]
      constructor
      · rintro rfl
        exact Or.inr (Or.inl rfl)
      · rintro (h | h | h)
        · exact absurd (Or.inl h) hold
        · exact h.symm
        · exact absurd (Or.inr h) hold
    · rw [if_neg hk, hold]
      simp [hk]
  · rw [hnext, hprev, hnx, hpv, hp]
    have hring := t.ring
    rw [map_append] at hring hnew
    rw [map_append]
    exact hring.insertBefore hn hnew

variable {pre suffix : TcpSentSample} {cut : TcpSeq}

theorem split_spec (hlt : x.bytes < 2147483648)
    (hend : x.endSequence = advance x.sequence x.bytes) (h : x.split cut = some (pre, suffix)) :
    ∃ d, 0 < d ∧ d < x.bytes ∧ cut = advance x.sequence d ∧
      pre = { x with endSequence := cut, bytes := d, payloadLen := pre.payloadLen } ∧
      suffix = { x with
        sequence := cut, bytes := x.bytes - d, payloadLen := suffix.payloadLen } := by
  unfold split at h
  split at h
  · simp at h
  · rename_i hc
    rw [Bool.or_eq_true, not_or, ge_eq_not_lt, Bool.not_eq_true', Bool.not_eq_false, lt_iff, le_iff,
      hend, distanceTo_origin x.sequence (advance x.sequence x.bytes) cut,
      distanceTo_advance (by omega)] at hc
    obtain ⟨rfl, rfl⟩ : _ = pre ∧ _ = suffix := by simpa using h
    exact ⟨distanceTo x.sequence cut, by omega, by omega, (advance_distanceTo ..).symm, rfl, rfl⟩

theorem Ranges.replace (r : Ranges o top (xs ++ e :: ys)) (ms : List (ℕ × TcpSentSample))
    (hsized : ∀ m ∈ ms, 0 < m.2.bytes ∧ m.2.endSequence = advance m.2.sequence m.2.bytes)
    (hin : ∀ m ∈ ms, distanceTo o e.2.sequence ≤ distanceTo o m.2.sequence ∧
      distanceTo o m.2.sequence + m.2.bytes ≤ distanceTo o e.2.sequence + e.2.bytes)
    (hasc : ms.Pairwise fun a b =>
      distanceTo o a.2.sequence + a.2.bytes ≤ distanceTo o b.2.sequence) :
    Ranges o top (xs ++ ms ++ ys) := by
  have hold := r.ascending
  rw [pairwise_append, pairwise_cons] at hold
  obtain ⟨hxs, ⟨hey, hys⟩, hxy⟩ := hold
  have hbound := r.bounded e (by simp)
  refine ⟨fun m hm => ?_, ?_, fun m hm => ?_, r.half⟩
  · simp only [mem_append] at hm
    rcases hm with (hm | hm) | hm
    · exact r.sized m (by simp [hm])
    · exact hsized m hm
    · exact r.sized m (by simp [hm])
  · rw [pairwise_append, pairwise_append]
    refine ⟨⟨hxs, hasc, fun a ha m hm => ?_⟩, hys, fun a ha b hb => ?_⟩
    · have := hxy a ha e (by simp)
      have := hin m hm
      omega
    · rcases mem_append.mp ha with ha | ha
      · exact hxy a ha b (by simp [hb])
      · have := hey b hb
        have := hin a ha
        omega
  · simp only [mem_append] at hm
    rcases hm with (hm | hm) | hm
    · exact r.bounded m (by simp [hm])
    · have := hin m hm
      omega
    · exact r.bounded m (by simp [hm])

/-- What a cut leaves: the two parts of the sample in its place. -/
structure Cut (o : TcpSeq) (b pre suffix : TcpSentSample) : Prop where
  bytes : pre.bytes + suffix.bytes = b.bytes
  preSized : 0 < pre.bytes ∧ pre.endSequence = advance pre.sequence pre.bytes
  suffixSized : 0 < suffix.bytes ∧ suffix.endSequence = advance suffix.sequence suffix.bytes
  start : pre.sequence = b.sequence
  place : distanceTo o suffix.sequence = distanceTo o b.sequence + pre.bytes

theorem Ranges.split (r : Ranges o top (xs ++ (i, b) :: ys)) (hxb : x.body = b)
    (h : x.split cut = some (pre, suffix)) :
    Cut o b pre.body suffix.body ∧ pre.body = { b with
      endSequence := cut, bytes := pre.bytes, payloadLen := pre.payloadLen } ∧
    suffix.body = { b with
      sequence := cut, bytes := suffix.bytes, payloadLen := suffix.payloadLen } := by
  subst hxb
  obtain ⟨hpos, hend⟩ := r.sized (i, x.body) (by simp)
  have hbound := r.bounded (i, x.body) (by simp)
  have hhalf := r.half
  simp only [body] at hpos hend hbound
  obtain ⟨d, hd, hdx, rfl, hpre, hsuf⟩ := split_spec (by omega) hend h
  have hpb : pre.bytes = d := by rw [hpre]
  have hsb : suffix.bytes = x.bytes - d := by rw [hsuf]
  refine ⟨⟨?_, ⟨?_, ?_⟩, ⟨?_, ?_⟩, ?_, ?_⟩, ?_, ?_⟩
  all_goals simp only [body, hpb, hsb]
  · omega
  · exact hd
  · rw [hpre]
  · omega
  · rw [hsuf]
    rw [hend]
    unfold advance
    rw [BitVec.add_assoc, ← BitVec.ofNat_add, Nat.add_sub_cancel' hdx.le]
  · rw [hpre]
  · rw [hsuf]
    exact distanceTo_advance_origin (by omega)
  · rw [hpre]
  · rw [hsuf]

theorem Cut.ranges_suffix (c : Cut o b pre suffix)
    (r : Ranges o top (xs ++ (i, b) :: ys)) : Ranges o top (xs ++ (i, suffix) :: ys) := by
  have hb := c.bytes
  have hp := c.place
  have := r.replace [(i, suffix)] (by simpa using c.suffixSized) (by simp; omega) (by simp)
  simpa using this

theorem Cut.ranges {j : ℕ} (c : Cut o b pre suffix) (r : Ranges o top (xs ++ (i, b) :: ys)) :
    Ranges o top (xs ++ (j, pre) :: (i, suffix) :: ys) := by
  have hb := c.bytes
  have hp := c.place
  have hs := c.start
  have := r.replace [(j, pre), (i, suffix)]
    (by simpa using ⟨c.preSized, c.suffixSized⟩) (by simp [hs]; omega) (by simp [hs]; omega)
  simpa using this

theorem Ranges.insert_lookup (r : Ranges o top (xs ++ (i, b) :: ys)) :
    OrderedMap.insert TcpSeq.cmp b.sequence i ((xs ++ ys).map fun e => (e.2.sequence, e.1)) =
      (xs ++ (i, b) :: ys).map fun e => (e.2.sequence, e.1) := by
  have hasc := r.ascending
  rw [pairwise_append, pairwise_cons] at hasc
  obtain ⟨-, ⟨hby, -⟩, hxy⟩ := hasc
  have hb := r.pos_lt (e := (i, b)) (by simp)
  rw [map_append, map_append]
  apply OrderedMap.insert_append
  · intro e he
    obtain ⟨a, ha, rfl⟩ := mem_map.mp he
    have h1 := hxy a ha (i, b) (by simp)
    have h2 := (r.sized a (by simp [ha])).1
    rw [cmp_of_distance hb (r.pos_lt (e := a) (by simp [ha])), Nat.compare_eq_gt]
    omega
  · intro e he
    obtain ⟨a, ha, rfl⟩ := mem_map.mp he
    have h1 := hby a ha
    have h2 := (r.sized (i, b) (by simp)).1
    rw [cmp_of_distance hb (r.pos_lt (e := a) (by simp [ha])), Nat.compare_eq_lt]
    omega

section

variable (t : Tracks f (xs ++ (i, b) :: ys)) (r : Ranges o top (xs ++ (i, b) :: ys))
include t r

theorem trimTo_spec (hxb : x.body = b) (h : x.split cut = some (pre, suffix)) :
    Tracks (f.trimTo i x suffix) (xs ++ (i, suffix.body) :: ys) := by
  obtain ⟨hc, -, hsuf⟩ := r.split hxb h
  set g : TcpSentSample → TcpSentSample := fun current => { current with
    sequence := suffix.sequence
    bytes := suffix.bytes
    payloadLen := suffix.payloadLen
    rackDeadline := x.rackDeadline } with hg
  have hgb : g b = suffix.body := by
    have hseq : suffix.sequence = cut := congrArg sequence hsuf
    rw [hsuf, hg]
    simp only [hseq]
    rw [← hxb]
    rfl
  have hlookup : (f.trimTo i x suffix).sampleLookup =
      (xs ++ (i, suffix.body) :: ys).map fun e => (e.2.sequence, e.1) := by
    show insert TcpSeq.cmp suffix.sequence i (erase TcpSeq.cmp x.sequence f.sampleLookup) = _
    have hseq : x.sequence = b.sequence := by rw [← hxb]; rfl
    rw [t.lookup, hseq, r.erase_lookup]
    exact (hc.ranges_suffix r).insert_lookup
  rw [← hgb] at hlookup ⊢
  exact t.modify ⟨fun _ => rfl, fun _ => rfl, fun _ => rfl⟩ (sentSample_updateSample _ i · g)
    rfl rfl hlookup

theorem takeSamplePrefix_spec (hx : f.sentSample i = some x)
    (h : x.split cut = some (pre, suffix)) :
    ∃ f', f.takeSamplePrefix i cut = some (f', pre) ∧ Tracks f' (xs ++ (i, suffix.body) :: ys) ∧
      f'.bytesInFlight = f.bytesInFlight - pre.bytes := by
  have hxb : x.body = b := t.unique (t.mem hx) (by simp)
  obtain ⟨d, hd⟩ := rackInvalidateCleared_eq { f.trimTo i x suffix with
    bytesInFlight := (f.trimTo i x suffix).bytesInFlight - pre.bytes } x.rackDeadline
  refine ⟨_, ?_, ((trimTo_spec t r hxb h).bytes _).deadline d, rfl⟩
  unfold takeSamplePrefix
  simp only [hx, h, t.lookup_self r hx, ne_eq, not_true_eq_false, if_false]
  rw [hd]
  rfl

end

theorem takeSamplePrefix_none (hx : f.sentSample i = some x) (h : x.split cut = none) :
    f.takeSamplePrefix i cut = none := by
  unfold takeSamplePrefix
  simp only [hx, h]

theorem insertSampleBefore_spec (t : Tracks f (xs ++ (i, b) :: ys))
    (r : ∀ j, Ranges o top (xs ++ (j, pre.body) :: (i, b) :: ys)) :
    ∃ f' j, f.insertSampleBefore i pre = (f', some j) ∧
      Tracks f' (xs ++ (j, pre.body) :: (i, b) :: ys) ∧ f'.bytesInFlight = f.bytesInFlight := by
  obtain ⟨x, hx, hxb⟩ := t.get (e := (i, b)) (by simp)
  obtain ⟨hprev, -⟩ := t.neighbours hx
  have hkey : containsKey TcpSeq.cmp pre.sequence f.sampleLookup = false := by
    have hnd := (r 0).lookup_keys_nodup
    rw [OrderedMap.keys, map_append, map_cons, (perm_middle.map _).nodup_iff, map_cons,
      nodup_cons] at hnd
    have hnone : get TcpSeq.cmp pre.sequence f.sampleLookup = none := by
      rw [get_eq_none_iff cmp_eq_iff, t.lookup, map_append]
      exact hnd.1
    rw [containsKey, hnone]
    rfl
  have hins := t.insertBefore (x := { pre with prev := x.prev, next := some i })
    (insert TcpSeq.cmp pre.sequence
      (f.sentSamples.insert { pre with prev := x.prev, next := some i }).2 f.sampleLookup)
    rfl (by simp) (by simp [prevOf, link, hx]) (by
      rw [t.lookup]
      exact (r _).insert_lookup)
  refine ⟨_, _, ?_, hins, ?_⟩
  · unfold insertSampleBefore
    simp [hx, hkey, missing_eq_false fun k hk => (hprev k hk).1]
  · exact relinked_setPrev.bytesInFlight.trans relinked_setNext.bytesInFlight

theorem splitSample_spec (t : Tracks f (xs ++ (i, b) :: ys)) (r : Ranges o top (xs ++ (i, b) :: ys))
    (hx : f.sentSample i = some x) (h : x.split cut = some (pre, suffix)) :
    ∃ f' j, f.splitSample i cut = (f', true) ∧
      Tracks f' (xs ++ (j, pre.body) :: (i, suffix.body) :: ys) ∧
      f'.bytesInFlight = f.bytesInFlight := by
  have hxb : x.body = b := t.unique (t.mem hx) (by simp)
  obtain ⟨hc, hpre, -⟩ := r.split hxb h
  obtain ⟨f', j, e, t', hbytes⟩ := insertSampleBefore_spec (trimTo_spec t r hxb h)
    fun j => hc.ranges (j := j) r
  have hrack : pre.rackDeadline = x.rackDeadline := by
    have := congrArg TcpSentSample.rackDeadline hpre
    rw [← hxb] at this
    exact this
  have hsame {deadline : Instant} (hd : x.rackDeadline = some deadline) :
      Tracks (f'.updateSample j fun s => { s with rackDeadline := some deadline })
        (xs ++ (j, pre.body) :: (i, suffix.body) :: ys) := by
    -- the new sample already has the deadline
    have hbody : ({ pre.body with rackDeadline := some deadline } : TcpSentSample) = pre.body := by
      rw [← hd, ← hrack]
      rfl
    have := t'.update (g := fun s => { s with rackDeadline := some deadline })
      ⟨fun _ => rfl, fun _ => rfl, fun _ => rfl⟩ rfl
    rwa [hbody] at this
  cases hd : x.rackDeadline with
  | none =>
    refine ⟨f', j, ?_, t', hbytes⟩
    unfold splitSample
    simp [hx, h, t.lookup_self r hx, e, hd]
  | some deadline =>
    cases hlost : x.txLost with
    | true =>
      refine ⟨f', j, ?_, t', hbytes⟩
      unfold splitSample
      simp [hx, h, t.lookup_self r hx, e, hd, hlost]
    | false =>
      refine ⟨(f'.updateSample j fun s => { s with rackDeadline := some deadline }).rackNoteDeadline
        deadline, j, ?_, Tracks.deadline (hsame hd) _, hbytes⟩
      unfold splitSample
      simp [hx, h, t.lookup_self r hx, e, hd, hlost]

section

variable (t : Tracks f es)
include t

theorem chain_of_linked : ∀ (n : ℕ) (a : Option ℕ) (ys : List (ℕ × TcpSentSample)),
    ys.length ≤ n → ys ⊆ es → Linked f.nextOf f.prevOf a (ys.map fun e => some e.1) none →
    chain f.sentSamples n (f.nextOf a) = ys.map Prod.fst := by
  intro n
  induction n with
  | zero =>
    intro a ys hlen _ _
    obtain rfl : ys = [] := length_eq_zero_iff.mp (by omega)
    rfl
  | succ n ih =>
    intro a ys hlen hsub hl
    cases ys with
    | nil =>
      have : f.nextOf a = none := hl.1
      rw [this]
      rfl
    | cons y ys =>
      obtain ⟨hnext, -, hrest⟩ := hl
      obtain ⟨x, hx, -⟩ := t.get (hsub (by simp : y ∈ y :: ys))
      have hnx : x.next = f.nextOf (some y.1) := by simp [nextOf, link, hx]
      rw [hnext, chain]
      have hx' : f.sentSamples.get y.1 = some x := hx
      simp only [hx', hnx, map_cons]
      rw [ih (some y.1) ys (by simpa using hlen) (fun e he => hsub (by simp [he])) hrest]

theorem Tracks.length_le : es.length ≤ f.sentSamples.slots.length := by
  have hsub : (es.map Prod.fst).toFinset ⊆ Finset.range f.sentSamples.slots.length := by
    intro i hi
    rw [mem_toFinset] at hi
    obtain ⟨e, he, rfl⟩ := mem_map.mp hi
    obtain ⟨x, hx, -⟩ := t.get he
    rw [Finset.mem_range]
    by_contra hle
    unfold sentSample Pool.get at hx
    rw [getElem?_eq_none (by omega)] at hx
    simp at hx
  have := Finset.card_le_card hsub
  rwa [toFinset_card_of_nodup t.indices_nodup, length_map, Finset.card_range] at this

theorem Tracks.chain_head : f.chainFrom f.sampleHead = es.map Prod.fst :=
  chain_of_linked t _ none es t.length_le (fun _ h => h) t.ring.1

theorem Tracks.head_eq : f.sampleHead = (es.map Prod.fst).head? := by
  have hl := t.ring.1
  cases es with
  | nil => exact hl.1
  | cons e es => exact hl.1

theorem Tracks.samples_body : f.samples.map body = es.map Prod.snd := by
  unfold samples
  rw [t.chain_head, filterMap_map, map_filterMap, ← filterMap_eq_map]
  apply filterMap_congr
  intro e he
  obtain ⟨x, hx, hxb⟩ := t.get he
  simp [hx, hxb]

end

end Ghost

end Flight

end Recovery
