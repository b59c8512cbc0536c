import Hammer.FibSources
import Mathlib.Data.Set.Card

/-! # Forwarding is longest match over the best sources

The trie of a table holds at each prefix the forwarding object of its best source, so that a lookup
answers with the longest match. This holds as long as no node index is cut off.
-/

namespace Fib

open OrderedMap BinaryTrie Net ForwardingDpo FibTable Option

section Bits

variable {w : ℕ} {p q : Net w} {a b : BitVec w} {n : ℕ}

theorem length_bitsOf : (bitsOf a n).length = n := by simp [bitsOf]

theorem bitsOf_eq_iff : bitsOf a n = bitsOf b n ↔
    ∀ bit < n, a.getLsbD (w - 1 - bit) = b.getLsbD (w - 1 - bit) := by
  unfold bitsOf
  rw [List.map_inj_left]
  simp

theorem getLsbD_mask (len i : ℕ) :
    (mask w len).getLsbD i = (decide (i < w) && decide (w - len ≤ i)) := by
  unfold mask
  by_cases hi : i < w <;> by_cases hl : w - len ≤ i <;> simp [hi, hl]
  all_goals omega

theorem bitsOf_network : bitsOf p.network p.prefixLen = bitsOf p.addr p.prefixLen := by
  apply bitsOf_eq_iff.mpr
  intro bit hbit
  have := p.le
  unfold network
  rw [BitVec.getLsbD_and, getLsbD_mask]
  simp
  omega

theorem contains_iff : p.contains a = true ↔ bitsOf a p.prefixLen = bitsOf p.addr p.prefixLen := by
  have hle := p.le
  unfold contains network
  rw [beq_iff_eq, bitsOf_eq_iff]
  constructor
  · intro h bit hbit
    have := congrArg (BitVec.getLsbD · (w - 1 - bit)) h
    simp only [BitVec.getLsbD_and, getLsbD_mask] at this
    have h1 : w - 1 - bit < w := by omega
    have h2 : w - p.prefixLen ≤ w - 1 - bit := by omega
    simpa [h1, h2] using this
  · intro h
    apply BitVec.eq_of_getLsbD_eq
    intro i hi
    rw [BitVec.getLsbD_and, BitVec.getLsbD_and, getLsbD_mask]
    by_cases hl : w - p.prefixLen ≤ i
    · have := h (w - 1 - i) (by omega)
      rw [show w - 1 - (w - 1 - i) = i by omega] at this
      rw [this]
    · simp [hl]

def Net.path (p : Net w) : List Bool := bitsOf p.network p.prefixLen

theorem Net.length_path : p.path.length = p.prefixLen := length_bitsOf

theorem bitsOf_take (hn : n ≤ w) : (bitsOf a w).take n = bitsOf a n := by
  unfold bitsOf
  rw [← List.map_take, List.take_range, min_eq_left hn]

theorem Net.path_prefix_iff : p.path <+: bitsOf a w ↔ p.contains a = true := by
  rw [List.prefix_iff_eq_take, length_path, bitsOf_take p.le, contains_iff, path, bitsOf_network]
  exact eq_comm

theorem Net.path_injective (hp : p.network = p.addr) (hq : q.network = q.addr)
    (h : p.path = q.path) : p = q := by
  have hlen : p.prefixLen = q.prefixLen := by
    rw [← length_path (p := p), h, length_path]
  have hbits := h
  unfold path at hbits
  rw [bitsOf_network, bitsOf_network, ← hlen] at hbits
  have hcontains : p.contains q.addr = true := contains_iff.mpr hbits.symm
  have haddr : p.addr = q.addr := by
    unfold contains at hcontains
    rw [beq_iff_eq, hp] at hcontains
    rw [← hcontains, hlen]
    exact hq
  cases p
  cases hlen
  cases haddr
  rfl

end Bits

namespace FibTable

variable {w : ℕ} {D : Type} {t t' : FibTable w D} {p q : Net w} {e i s : ℕ}
  {registration : ℕ → FibSourceRegistration}

/-- The object that packets to a prefix are sent to. -/
def forwardingOf (t : FibTable w D) (p : Net w) : Option D :=
  (get Net.cmp p t.prefixes).bind fun e => (t.entry e).forwarding

/-- The sources of a table, and the choice of the best one at each entry. -/
structure Indexed (registration : ℕ → FibSourceRegistration) (t : FibTable w D) : Prop
    extends Sourced registration t where
  forwards : ∀ p s, get routeCmp (p, s) t.sourceForwarding = none ↔ t.references p s = none
  present : ∀ p e, get Net.cmp p t.prefixes = some e → (t.entry e).sources ≠ []
  selected : ∀ p e, get Net.cmp p t.prefixes = some e → (t.entry e).forwarding = t.candidate p e

theorem forwardingOf_eq (hp : get cmp p t.prefixes = some e) :
    t.forwardingOf p = (t.entry e).forwarding := by
  unfold forwardingOf
  rw [hp]
  rfl

theorem forwardingOf_none (hp : get cmp p t.prefixes = none) : t.forwardingOf p = none := by
  unfold forwardingOf
  rw [hp]
  rfl

theorem Sourced.congr (h : Sourced registration t) (hb : t'.backend.entries = t.backend.entries)
    (hp : t'.prefixes = t.prefixes) (hr : t'.sourceReferences = t.sourceReferences)
    (hl : t'.entries.length = t.entries.length)
    (he : ∀ i, (t'.entry i).sources = (t.entry i).sources) : Sourced registration t' where
  keys := by rw [hb]; exact h.keys
  backend q := by rw [hb, hp]; exact h.backend q
  aligned q i hq := h.aligned q i (hp ▸ hq)
  bound q i hq := by rw [hl]; exact h.bound q i (hp ▸ hq)
  unique q q' i hq hq' := h.unique q q' i (hp ▸ hq) (hp ▸ hq')
  count i s r hs := by rw [hp]; exact h.count i s r (hr ▸ hs)
  sorted q i hq := by rw [he]; exact h.sorted q i (hp ▸ hq)
  sources q i hq s j := by rw [he, hr]; exact h.sources q i (hp ▸ hq) s j

theorem entry_setForwarding (he : e < t.entries.length) (x : Option D) (i : ℕ) :
    (t.setForwarding e x).entry i =
      if i = e then { t.entry e with forwarding := x } else t.entry i :=
  entry_modify _ he i

theorem Sourced.head_source (h : Sourced registration t) (hp : get cmp p t.prefixes = some e)
    (hne : (t.entry e).sources ≠ []) :
    ∃ c, (t.entry e).sources.head? = some (c, e) ∧ t.references p c ≠ none ∧
      ∀ s, t.references p s ≠ none → (registration c).key ≤ (registration s).key := by
  cases hs : (t.entry e).sources with
  | nil => exact absurd hs hne
  | cons c rest =>
    have hc : (c.1, c.2) ∈ (t.entry e).sources := by
      rw [hs]
      exact List.mem_cons_self ..
    obtain ⟨he, hrefs⟩ := (h.sources p e hp c.1 c.2).mp hc
    refine ⟨c.1, by rw [← he]; rfl, by rw [references_eq hp]; exact hrefs, ?_⟩
    intro s hs'
    rw [references_eq hp] at hs'
    have hm := (h.sources p e hp s e).mpr ⟨rfl, hs'⟩
    have hsorted := h.sorted p e hp
    rw [hs] at hm hsorted
    rcases List.mem_cons.mp hm with heq | hm
    · rw [← heq]
    · exact le_of_lt ((List.pairwise_cons.mp hsorted).1 _ hm)

theorem Indexed.candidate_some (h : Indexed registration t) (hp : get cmp p t.prefixes = some e) :
    ∃ c d, (t.entry e).sources.head? = some (c, e) ∧
      get routeCmp (p, c) t.sourceForwarding = some d ∧ (t.entry e).forwarding = some d ∧
      ∀ s, t.references p s ≠ none → (registration c).key ≤ (registration s).key := by
  obtain ⟨c, hhead, hrefs, hbest⟩ := h.head_source hp (h.present p e hp)
  have hsome : get routeCmp (p, c) t.sourceForwarding ≠ none :=
    fun hnone => hrefs ((h.forwards p c).mp hnone)
  obtain ⟨d, hd⟩ := ne_none_iff_exists'.mp hsome
  refine ⟨c, d, hhead, hd, ?_, hbest⟩
  rw [h.selected p e hp]
  unfold candidate
  rw [hhead]
  exact hd

theorem indexed_new : Indexed registration (new : FibTable w D) where
  keys := List.nodup_nil
  backend _ := rfl
  aligned _ _ h := nomatch h
  bound _ _ h := nomatch h
  unique _ _ _ h := nomatch h
  count _ _ _ h := nomatch h
  sorted _ _ h := nomatch h
  sources _ _ h := nomatch h
  forwards _ _ := ⟨fun _ => rfl, fun _ => rfl⟩
  present _ _ h := nomatch h
  selected _ _ h := nomatch h

theorem addSource_error {err : FibError} (ha : t.addSource registration p s = (t', .error err)) :
    t'.sourceForwarding = t.sourceForwarding := by
  unfold addSource at ha
  dsimp only at ha
  split at ha
  · cases ha
    rfl
  split at ha
  · next t1 e1 hf =>
    cases ha
    unfold findOrCreate at hf
    split at hf
    · cases hf
    dsimp only at hf
    split at hf
    · cases hf
      rfl
    split at hf <;> cases hf
    rfl
  · cases ha

/-- Away from one prefix the tables agree on the entries. -/
def SameElsewhere (t t' : FibTable w D) (p : Net w) : Prop :=
  ∀ q i, q ≠ p → get Net.cmp q t'.prefixes = some i →
    get Net.cmp q t.prefixes = some i ∧ t'.entry i = t.entry i

theorem Indexed.of_elsewhere {new : Option D} {n : Option ℕ} (h : Indexed registration t)
    (hs : Sourced registration t') (hroutes : ∀ k, get routeCmp k t'.sourceForwarding =
      if k = (p, s) then new else get routeCmp k t.sourceForwarding)
    (hrefs : ∀ q s', t'.references q s' = if q = p ∧ s' = s then n else t.references q s')
    (hnew : new = none ↔ n = none) (hother : SameElsewhere t t' p)
    (hself : ∀ i, get cmp p t'.prefixes = some i →
      (t'.entry i).sources ≠ [] ∧ (t'.entry i).forwarding = t'.candidate p i) :
    Indexed registration t' := by
  refine ⟨hs, ?_, ?_, ?_⟩
  · intro q s'
    rw [hroutes, hrefs]
    simp only [Prod.mk.injEq]
    split
    · exact hnew
    · exact h.forwards q s'
  · intro q i hi
    by_cases hq : q = p
    · exact (hself i (hq ▸ hi)).1
    · obtain ⟨hi, he⟩ := hother q i hq hi
      rw [he]
      exact h.present q i hi
  · intro q i hi
    by_cases hq : q = p
    · rw [hq] at hi ⊢
      exact (hself i hi).2
    · obtain ⟨hi, he⟩ := hother q i hq hi
      rw [he, h.selected q i hi]
      unfold candidate
      rw [he]
      congr 1
      funext y
      rw [hroutes, if_neg]
      intro heq
      exact hq (Prod.mk.inj heq).1

theorem SameElsewhere.forwardingOf {x : Option D} (h : SameElsewhere t t' p)
    (hself : t'.forwardingOf p = x)
    (hnets : ∀ q, q ≠ p → get cmp q t'.prefixes = get cmp q t.prefixes) (q : Net w) :
    t'.forwardingOf q = if q = p then x else t.forwardingOf q := by
  by_cases hq : q = p
  · rw [if_pos hq, hq, hself]
  · rw [if_neg hq]
    cases hi : get cmp q t'.prefixes with
    | none => rw [forwardingOf_none hi, forwardingOf_none ((hnets q hq).symm.trans hi)]
    | some i =>
      obtain ⟨hi', he⟩ := h q i hq hi
      rw [forwardingOf_eq hi, forwardingOf_eq hi', he]

end FibTable

namespace FibState

open FibTable

variable {w : ℕ} {D : Type} {f f' : FibState w D} {p q : Net w}
  {e s : ℕ} {d : D} {registration : ℕ → FibSourceRegistration}

theorem addSource_fresh (h : Sourced registration t)
    (hp : get cmp p t.prefixes = none) (hlen : t.entries.length < 2 ^ 32) :
    ∃ t' e, t.addSource registration p s = (t', .ok e) := by
  have hback : get cmp p t.backend.entries = none := by rw [h.backend, hp]
  unfold addSource findOrCreate IpFibBackend.insertEntry
  rw [hp, hback]
  rw [if_neg (Nat.not_le_of_lt hlen)]
  exact ⟨_, _, rfl⟩

theorem lessSpecific_mem {b : IpFibBackend w D} {c : Net w × ℕ} (h : b.lessSpecific p = some c) :
    c ∈ b.entries ∧ c.1.prefixLen < p.prefixLen := by
  have hfold : ∀ (l : List (Net w × ℕ)) (best : Option (Net w × ℕ)),
      l.foldl IpFibBackend.longerEntry best = some c → c ∈ l ∨ best = some c := by
    intro l
    induction l with
    | nil =>
      intro best hbest
      exact Or.inr hbest
    | cons e l ih =>
      intro best hbest
      rcases ih _ hbest with hm | heq
      · exact Or.inl (List.mem_cons_of_mem _ hm)
      · cases best with
        | none =>
          cases heq
          exact Or.inl (List.mem_cons_self ..)
        | some x =>
          unfold IpFibBackend.longerEntry at heq
          dsimp only at heq
          split at heq
          · cases heq
            exact Or.inl (List.mem_cons_self ..)
          · exact Or.inr heq
  rcases hfold _ none h with hm | hnone
  · obtain ⟨hm, hc⟩ := List.mem_filter.mp hm
    rw [Bool.and_eq_true, decide_eq_true_eq] at hc
    exact ⟨hm, hc.1⟩
  · cases hnone

/-- The cover hint names a shorter prefix with what it already forwards to. -/
theorem cover_spec {x : D} (h : Sourced registration t)
    (hc : t.cover p = some (q, x)) : q ≠ p ∧ t.forwardingOf q = some x := by
  obtain ⟨c, hless, hmap⟩ := bind_eq_some_iff.mp hc
  obtain ⟨y, hy, heq⟩ := map_eq_some_iff.mp hmap
  obtain ⟨rfl, rfl⟩ := Prod.mk.inj heq
  obtain ⟨hm, hlt⟩ := lessSpecific_mem hless
  refine ⟨?_, ?_⟩
  · rintro rfl
    exact Nat.lt_irrefl _ hlt
  · have hget := (get_eq_some_iff cmp_eq_iff h.keys).mpr hm
    rw [h.backend] at hget
    rw [forwardingOf_eq hget]
    exact hy

theorem filter_sources_ne_nil (h : Indexed registration t)
    (hp : get cmp p t.prefixes = some e) (hothers : (t.entry e).sources.length ≠ 1) :
    ((t.entry e).sources.filter fun c => c.1 != s) ≠ [] := by
  intro hnil
  apply hothers
  have hall : ∀ c ∈ (t.entry e).sources, c = (s, e) := by
    intro c hc
    have hout := List.filter_eq_nil_iff.mp hnil c hc
    have hi := (h.sources p e hp c.1 c.2).mp hc
    refine Prod.ext ?_ hi.1
    simpa using hout
  have hpairwise := h.sorted p e hp
  cases hs : (t.entry e).sources with
  | nil => exact absurd hs (h.present p e hp)
  | cons a rest =>
    cases rest with
    | nil => rfl
    | cons b rest =>
      rw [hs] at hall hpairwise
      have ha := hall a (by simp)
      have hb := hall b (by simp)
      have hlt := (List.pairwise_cons.mp hpairwise).1 b (by simp)
      rw [ha, hb] at hlt
      exact absurd hlt (lt_irrefl _)

variable [DecidableEq D] [ForwardingDpo D]

omit [ForwardingDpo D] in
theorem locks_cancel (f : FibState w D) (d : D) (t : FibTable w D) :
    (({ f with table := t } : FibState w D).lockDpo d).unlockDpo d = { f with table := t } := by
  unfold lockDpo unlockDpo
  simp

/-- `add_route` up to its commit: it fails and has changed nothing that is not restored, or it has
published the object of the best source. -/
theorem tryAdd_cases (hkey : Function.Injective fun s => (registration s).key)
    (h : Indexed registration f.table) (hp : p.network = p.addr) (s : ℕ) (d : D) :
    (∃ f' err, f.tryAdd registration p s d = (f', .error err) ∧ f'.locks = f.locks ∧
      f'.table.sourceForwarding = f.table.sourceForwarding ∧
      ((∃ t, f.table.addSource registration p s = (t, .error err)) ∨
        ∃ x, isLoadBalance (D := D) x = false)) ∨
    ∃ t e c x, f.table.addSource registration p s = (t, .ok e) ∧
      (t.entry e).sources.head? = some (c, e) ∧
      (if c = s then some d else get routeCmp (p, c) t.sourceForwarding) = some x ∧
      isLoadBalance x = true ∧
      f.tryAdd registration p s d = ({ f.lockDpo d with
          table := { t with backend := t.backend.trieInsert p x }.setForwarding e (some x) },
          .ok (e, some d)) := by
  unfold tryAdd
  cases hadd : f.table.addSource registration p s with
  | mk t r =>
    cases r with
    | error err => exact Or.inl ⟨_, _, rfl, rfl, addSource_error hadd, Or.inl ⟨_, rfl⟩⟩
    | ok e =>
      obtain ⟨hsourced, hsame, hget, -, hrefs, -⟩ := addSource_ok hkey h.toSourced hp hadd
      have hne : (t.entry e).sources ≠ [] := by
        have hs : (s, e) ∈ (t.entry e).sources := by
          rw [hsourced.sources p e hget]
          refine ⟨rfl, ?_⟩
          rw [hrefs, if_pos rfl]
          exact some_ne_none _
        exact List.ne_nil_of_mem hs
      obtain ⟨c, hhead, hc, -⟩ := hsourced.head_source hget hne
      obtain ⟨x, hx⟩ : ∃ x, (if c = s then some d else
          get routeCmp (p, c) t.sourceForwarding) = some x := by
        by_cases hcs : c = s
        · exact ⟨d, if_pos hcs⟩
        · rw [if_neg hcs, hsame.sourceForwarding]
          apply ne_none_iff_exists'.mp
          intro hnone
          rw [references_eq hget, hrefs, if_neg hcs] at hc
          exact hc ((h.forwards p c).mp hnone)
      have hcontains : containsKey cmp p t.backend.entries = true := by
        unfold containsKey
        rw [hsourced.backend, hget]
        rfl
      dsimp only [projectForwarding]
      simp only [hhead, bind_some, hx]
      unfold IpFibBackend.forwardingUpdate
      cases hclass : isLoadBalance x with
      | false =>
        refine Or.inl ⟨_, _, rfl, ?_, hsame.sourceForwarding, Or.inr ⟨x, hclass⟩⟩
        have hlocks := congrArg FibState.locks (locks_cancel f d t)
        exact hlocks
      | true =>
        right
        refine ⟨t, e, c, x, rfl, hhead, hx, hclass, ?_⟩
        simp only [hcontains, Bool.not_true, Bool.false_eq_true, if_false]
        rfl

variable {t : FibTable w D}

section

variable (hkey : Function.Injective fun s => (registration s).key)
  (h : Indexed registration f.table) (hp : p.network = p.addr)
include hkey h hp

theorem addRoute_fresh (hnew : get cmp p f.table.prefixes = none)
    (hlen : f.table.entries.length < 2 ^ 32)
    (hclass : ∀ x : D, isLoadBalance x = true) :
    ∃ f' e, f.addRoute registration p s d = (f', .ok e) := by
  unfold addRoute
  rcases tryAdd_cases hkey h hp s d with
    ⟨f1, err, -, -, -, ⟨t, ht⟩ | ⟨x, hx⟩⟩ | ⟨t, e, c, x, -, -, -, -, htry⟩
  · obtain ⟨t', e, ht'⟩ := addSource_fresh (s := s) h.toSourced hnew hlen
    rw [ht'] at ht
    nomatch ht
  · rw [hclass x] at hx
    nomatch hx
  · rw [htry]
    exact ⟨_, _, rfl⟩

theorem addRoute_error {err : FibError} (ha : f.addRoute registration p s d = (f', .error err)) :
    f' = f := by
  unfold addRoute at ha
  rcases tryAdd_cases hkey h hp s d with
    ⟨f1, err', htry, hlocks, hsf, -⟩ | ⟨t, e, c, x, -, -, -, -, htry⟩
  · rw [htry] at ha
    cases ha
    unfold restore
    rw [hsf, hlocks]
  · rw [htry] at ha
    cases ha

end

def holders (t : FibTable w D) (d : D) : Finset (Net w × ℕ) :=
  (keys t.sourceForwarding).toFinset.filter fun k => get routeCmp k t.sourceForwarding = some d

omit [ForwardingDpo D] in
theorem mem_holders {k : Net w × ℕ} :
    k ∈ holders t d ↔ get routeCmp k t.sourceForwarding = some d := by
  unfold holders
  rw [Finset.mem_filter, List.mem_toFinset, and_iff_right_iff_imp]
  intro hk
  by_contra hnone
  rw [(get_eq_none_iff routeCmp_eq_iff).mpr hnone] at hk
  nomatch hk

/-- The table holds one reference for each of its routes. -/
def Balanced (f : FibState w D) : Prop := ∀ d, f.locks d = (holders f.table d).card

omit [ForwardingDpo D] in
theorem card_holders {t' : FibTable w D} {k : Net w × ℕ} {new : Option D}
    (hk : ∀ k', get routeCmp k' t'.sourceForwarding =
      if k' = k then new else get routeCmp k' t.sourceForwarding) (x : D) :
    ((holders t' x).card : ℤ) + (if get routeCmp k t.sourceForwarding = some x then 1 else 0) =
      (holders t x).card + if new = some x then 1 else 0 := by
  have herase : (holders t' x).erase k = (holders t x).erase k := by
    ext k'
    rw [Finset.mem_erase, Finset.mem_erase, mem_holders, mem_holders, hk]
    refine and_congr_right fun hne => ?_
    rw [if_neg hne]
  have hcard : ∀ u : FibTable w D, ((holders u x).card : ℤ) = ((holders u x).erase k).card +
        if get routeCmp k u.sourceForwarding = some x then 1 else 0 := by
    intro u
    split
    · next hg =>
      rw [← Finset.card_erase_add_one (mem_holders.mpr hg)]
      push_cast
      rfl
    · next hg =>
      have hm : k ∉ holders u x := fun hm => hg (mem_holders.mp hm)
      rw [Finset.erase_eq_of_notMem hm, add_zero]
  rw [hcard t', hcard t, herase, hk k, if_pos rfl]
  ring

omit [ForwardingDpo D] in
/-- The route `k` gets `new`, which is locked already, and its old object is unlocked. -/
theorem Balanced.settle {k : Net w × ℕ} {new : Option D} {l : D → ℤ} (h : f.Balanced)
    (hl : ∀ x, l x = f.locks x + if new = some x then 1 else 0)
    (hk : ∀ k', get routeCmp k' t.sourceForwarding =
      if k' = k then new else get routeCmp k' f.table.sourceForwarding) :
    Balanced (match get routeCmp k f.table.sourceForwarding with
      | some old => FibState.unlockDpo ⟨t, l⟩ old
      | none => ⟨t, l⟩) := by
  intro x
  have hcard := card_holders hk x
  rw [← h x, ← hl x] at hcard
  cases hg : get routeCmp k f.table.sourceForwarding with
  | none =>
    simp only [hg, reduceCtorEq, if_false] at hcard
    dsimp only
    omega
  | some old =>
    rw [hg] at hcard
    unfold unlockDpo
    by_cases hx : x = old
    · subst hx
      simp at hcard ⊢
      omega
    · simp [hx, Ne.symm hx] at hcard ⊢
      omega

/-- What a successful `add_route` has done. -/
structure Added (registration : ℕ → FibSourceRegistration) (t t' : FibTable w D) (p : Net w)
    (s : ℕ) (d x : D) : Prop where
  indexed : Indexed registration t'
  references : ∀ q s', t'.references q s' =
    if q = p ∧ s' = s then some ((t.references p s).getD 0 + 1) else t.references q s'
  routes : ∀ k, get routeCmp k t'.sourceForwarding =
    if k = (p, s) then some d else get routeCmp k t.sourceForwarding
  trie : t'.backend.forwarding = insertAt NODE_INDEX_LIMIT x t.backend.forwarding 0 p.path
  forwardingOf : ∀ q, t'.forwardingOf q = if q = p then some x else t.forwardingOf q
  length : get Net.cmp p t.prefixes = none → t'.entries.length = t.entries.length + 1

omit [DecidableEq D] [ForwardingDpo D] in
theorem added_of_published {t1 : FibTable w D} {c : ℕ} {x : D}
    (hkey : Function.Injective fun s => (registration s).key) (h : Indexed registration t)
    (hp : p.network = p.addr) (hadd : t.addSource registration p s = (t1, .ok e))
    (hhead : (t1.entry e).sources.head? = some (c, e))
    (hx : (if c = s then some d else get routeCmp (p, c) t1.sourceForwarding) = some x) :
    Added registration t
      { ({ t1 with backend := t1.backend.trieInsert p x }.setForwarding e (some x)) with
        sourceForwarding := insert routeCmp (p, s) d t1.sourceForwarding } p s d x := by
  obtain ⟨hsourced, hsame, hget, htrie, hrefs, hnew⟩ := addSource_ok hkey h.toSourced hp hadd
  have he := hsourced.bound p e hget
  set t2 : FibTable w D :=
    { ({ t1 with backend := t1.backend.trieInsert p x }.setForwarding e (some x)) with
      sourceForwarding := insert routeCmp (p, s) d t1.sourceForwarding } with ht2
  have hentry : ∀ i, t2.entry i =
      if i = e then { t1.entry e with forwarding := some x } else t1.entry i :=
    fun i => entry_setForwarding he (some x) i
  have hsources : ∀ i, (t2.entry i).sources = (t1.entry i).sources := by
    intro i
    rw [hentry]
    split
    · next hi => rw [hi]
    · rfl
  have hroutes : ∀ k, get routeCmp k t2.sourceForwarding =
      if k = (p, s) then some d else get routeCmp k t.sourceForwarding := by
    intro k
    rw [← hsame.sourceForwarding]
    exact get_insert routeCmp_eq_iff (p, s) k d _
  have hreferences : ∀ q s', t2.references q s' =
      if q = p ∧ s' = s then some ((t.references p s).getD 0 + 1) else t.references q s' :=
    fun q s' => hsame.references_eq hget (fun q hq => hsourced.unique q p e hq hget) hrefs q s'
  have hother : SameElsewhere t t2 p := by
    intro q i hq hi
    have hie : i ≠ e := by
      rintro rfl
      exact hq (hsourced.unique q p i hi hget)
    rw [hentry, if_neg hie, hsame.entries i hie]
    exact ⟨(hsame.prefixes q hq).symm.trans hi, rfl⟩
  refine ⟨h.of_elsewhere (hsourced.congr rfl rfl rfl (by simp [ht2, setForwarding]) hsources)
    hroutes hreferences (by simp) hother ?_, hreferences, hroutes, ?_,
    hother.forwardingOf ?_ hsame.prefixes, ?_⟩
  · intro i hi
    obtain rfl : e = i := some.inj (hget.symm.trans hi)
    unfold candidate
    rw [hsources, hentry, if_pos rfl, hhead]
    refine ⟨?_, ?_⟩
    · intro hnil
      rw [hnil] at hhead
      nomatch hhead
    · simp only [bind_some]
      rw [hroutes, ← hx, hsame.sourceForwarding]
      simp only [Prod.mk.injEq, true_and]
  · rw [← htrie]
    rfl
  · rw [forwardingOf_eq (t := t2) hget, hentry, if_pos rfl]
  · intro hnone
    have hlen : t2.entries.length = t1.entries.length := by simp [ht2, setForwarding]
    rcases hnew with ⟨hold, -⟩ | ⟨-, -, hlen'⟩
    · rw [hold] at hnone
      nomatch hnone
    · rw [hlen, hlen']

theorem addRoute_ok (hkey : Function.Injective fun s => (registration s).key)
    (h : Indexed registration f.table) (hb : f.Balanced) (hp : p.network = p.addr)
    (ha : f.addRoute registration p s d = (f', .ok e)) :
    f'.Balanced ∧ ∃ x, Added registration f.table f'.table p s d x := by
  unfold addRoute at ha
  rcases tryAdd_cases hkey h hp s d with
    ⟨f1, err', htry, -, -, -⟩ | ⟨t, e1, c, x, hadd, hhead, hx, -, htry⟩
  · rw [htry] at ha
    cases ha
  · rw [htry] at ha
    obtain ⟨hf, -⟩ := Prod.mk.inj ha
    have hadded := added_of_published hkey h hp hadd hhead hx
    have hsf : t.sourceForwarding = f.table.sourceForwarding :=
      (addSource_ok hkey h.toSourced hp hadd).2.1.sourceForwarding
    have hbalanced := hb.settle (l := (f.lockDpo d).locks) (fun x => by
      unfold lockDpo
      by_cases hx : x = d
      · simp [hx]
      · simp [hx, Ne.symm hx]) hadded.routes
    subst hf
    dsimp only [setForwarding] at hbalanced ⊢
    rw [hsf] at hbalanced ⊢
    refine ⟨hbalanced, x, ?_⟩
    rw [hsf] at hadded
    cases get routeCmp (p, s) f.table.sourceForwarding <;> exact hadded

/-- What a `remove_route` that took the last reference of a source has done. -/
structure Withdrawn (registration : ℕ → FibSourceRegistration) (t t' : FibTable w D) (p : Net w)
    (s : ℕ) : Prop where
  indexed : Indexed registration t'
  references : ∀ q s', t'.references q s' =
    if q = p ∧ s' = s then remaining (t.references p s) else t.references q s'
  routes : ∀ k, get routeCmp k t'.sourceForwarding =
    if k = (p, s) then none else get routeCmp k t.sourceForwarding

/-- `t1` is `t` without the last reference of the source `s` to the prefix `p`. -/
structure Taken (t t1 : FibTable w D) (p : Net w) (s e : ℕ) : Prop where
  net : get Net.cmp p t.prefixes = some e
  count : get pairCmp (e, s) t.sourceReferences = some 1
  removed : Removed t p s t1 true
  references : t1.sourceReferences = erase pairCmp (e, s) t.sourceReferences
  routes : t1.sourceForwarding = t.sourceForwarding
  entries : t1.entries = t.entries.modify e fun x =>
    { x with sources := x.sources.filter fun c => c.1 != s }
  nets : ∀ q, q ≠ p → get Net.cmp q t1.prefixes = get Net.cmp q t.prefixes

/-- The prefix with the object of the next source, and the route gone. -/
def withdraw (t : FibTable w D) (p : Net w) (s e : ℕ) (b : IpFibBackend w D)
    (forwarding : Option D) : FibTable w D :=
  { ({ t with backend := b }.setForwarding e forwarding) with
    sourceForwarding := erase routeCmp (p, s) t.sourceForwarding }

section Taken

variable {t1 : FibTable w D} {b : IpFibBackend w D} {x : Option D}

omit [DecidableEq D] [ForwardingDpo D]

section

variable (k : Taken t t1 p s e) (h : Indexed registration t)
include k h

theorem Taken.entry (i : ℕ) : t1.entry i = if i = e then
      { t.entry e with sources := (t.entry e).sources.filter fun c => c.1 != s } else t.entry i := by
  rw [FibTable.entry, k.entries]
  exact entry_modify _ (h.bound p e k.net) i

theorem Taken.entry_withdraw (i : ℕ) : (withdraw t1 p s e b x).entry i =
      if i = e then { t1.entry e with forwarding := x } else t1.entry i := by
  refine entry_setForwarding (t := { t1 with backend := b }) ?_ x i
  rw [k.entries]
  simpa using h.bound p e k.net

theorem Taken.elsewhere : SameElsewhere t t1 p := by
  intro q i hq hi
  rw [k.nets q hq] at hi
  refine ⟨hi, ?_⟩
  rw [k.entry h, if_neg]
  rintro rfl
  exact hq (h.unique q p i hi k.net)

theorem Taken.elsewhere_withdraw : SameElsewhere t (withdraw t1 p s e b x) p := by
  intro q i hq hi
  obtain ⟨hi', hentry⟩ := k.elsewhere h q i hq hi
  refine ⟨hi', ?_⟩
  rw [k.entry_withdraw h, if_neg, hentry]
  rintro rfl
  exact hq (h.unique q p i hi' k.net)

end

theorem Taken.containsKey (k : Taken t t1 p s e) :
    containsKey pairCmp (e, s) t1.sourceReferences = false := by
  unfold OrderedMap.containsKey
  rw [k.references, get_erase pairCmp_eq_iff, if_pos rfl]
  rfl

/-- The source that went away is not the best one. -/
theorem Taken.head_ne {c : ℕ × ℕ} (k : Taken t t1 p s e) (h : Indexed registration t)
    (hhead : (t1.entry e).sources.head? = some c) : c.1 ≠ s := by
  have hm := List.mem_of_head? hhead
  rw [k.entry h, if_pos rfl] at hm
  simpa using (List.mem_filter.mp hm).2

theorem Taken.withdrawn (k : Taken t t1 p s e) (h : Indexed registration t)
    (hb : b.entries = t1.backend.entries)
    (hleft : get cmp p t1.prefixes ≠ none → get cmp p t1.prefixes = some e ∧
      (t1.entry e).sources ≠ [] ∧ x = t1.candidate p e) :
    Withdrawn registration t (withdraw t1 p s e b x) p s := by
  have hsources : ∀ i, ((withdraw t1 p s e b x).entry i).sources = (t1.entry i).sources := by
    intro i
    rw [k.entry_withdraw h]
    split
    · next hi => rw [hi]
    · rfl
  have hroutes : ∀ k, get routeCmp k (withdraw t1 p s e b x).sourceForwarding =
      if k = (p, s) then none else get routeCmp k t.sourceForwarding := by
    intro k'
    rw [← k.routes]
    exact get_erase routeCmp_eq_iff (p, s) k' _
  have hreferences : ∀ q s', (withdraw t1 p s e b x).references q s' =
      if q = p ∧ s' = s then remaining (t.references p s) else t.references q s' := by
    intro q s'
    rw [← references_removed h.toSourced k.removed]
    rfl
  have hnone : remaining (t.references p s) = none := by
    rw [references_eq k.net, k.count]
    rfl
  have hsourced : Sourced registration (withdraw t1 p s e b x) := by
    refine (h.toSourced.removed k.removed).congr hb rfl rfl ?_ hsources
    simp [withdraw, setForwarding]
  refine ⟨h.of_elsewhere hsourced hroutes hreferences (by simp [hnone]) (k.elsewhere_withdraw h) ?_,
    hreferences, hroutes⟩
  intro i hi
  have hi : get cmp p t1.prefixes = some i := hi
  obtain ⟨hi', hne, hforwarding⟩ := hleft (by rw [hi]; simp)
  obtain rfl : e = i := some.inj (hi'.symm.trans hi)
  refine ⟨by rw [hsources]; exact hne, ?_⟩
  refine (congrArg FibEntry.forwarding ((k.entry_withdraw h e).trans (if_pos rfl))).trans ?_
  refine hforwarding.trans ?_
  unfold candidate
  rw [hsources]
  cases hhead : (t1.entry e).sources.head? with
  | none => rfl
  | some c =>
    have hc := k.head_ne h hhead
    simp only [bind_some]
    rw [hroutes, if_neg fun heq => hc (Prod.mk.inj heq).2, k.routes]

end Taken

/-- A trie with the cover hint written to it. -/
def writeCover (ns : List (Node D)) : Option (Net w × D) → List (Node D)
  | some (q, x) => insertAt NODE_INDEX_LIMIT x ns 0 q.path
  | none => ns

/-- What a withdrawal does to the trie. -/
inductive Unpublished (t t' : FibTable w D) (p : Net w) : Prop
  /-- The next source takes over. -/
  | next (x : D) (trie : t'.backend.forwarding =
        insertAt NODE_INDEX_LIMIT x t.backend.forwarding 0 p.path)
      (forwardingOf : ∀ q, t'.forwardingOf q = if q = p then some x else t.forwardingOf q)
  /-- The prefix goes; its cover is written once more. -/
  | last (cover : Option (Net w × D))
      (covers : ∀ q x, cover = some (q, x) → q ≠ p ∧ t.forwardingOf q = some x)
      (trie : t'.backend.forwarding =
        writeCover (removeAt (removeAt t.backend.forwarding 0 p.path) 0 p.path) cover)
      (forwardingOf : ∀ q, t'.forwardingOf q = if q = p then none else t.forwardingOf q)

inductive RemoveOutcome (registration : ℕ → FibSourceRegistration) (f : FibState w D) (p : Net w)
    (s : ℕ) : FibState w D → Except FibError Bool → Prop
  | failed (err : FibError) : RemoveOutcome registration f p s f (.error err)
  | absent (none : f.table.references p s = none) :
      RemoveOutcome registration f p s f (.ok false)
  | counted {t : FibTable w D} {e r : ℕ} (entry : get Net.cmp p f.table.prefixes = some e)
      (count : get pairCmp (e, s) f.table.sourceReferences = some r) (many : 1 < r)
      (table : t = { f.table with
        sourceReferences := modify pairCmp (e, s) (· - 1) f.table.sourceReferences }) :
      RemoveOutcome registration f p s { f with table := t } (.ok false)
  | withdrawn {t : FibTable w D} (count : f.table.references p s = some 1)
      (withdrawn : Withdrawn registration f.table t p s) (trie : Unpublished f.table t p) :
      RemoveOutcome registration f p s
        (match get routeCmp (p, s) f.table.sourceForwarding with
          | some old => FibState.unlockDpo { f with table := t } old
          | none => { f with table := t }) (.ok true)

theorem Taken.outcome {b : IpFibBackend w D} {x : Option D} (k : Taken f.table t p s e)
    (hrem : f.tryRemove p s e =
      ({ f with table := { t with backend := b }.setForwarding e x }, .ok true))
    (hw : Withdrawn registration f.table (withdraw t p s e b x) p s)
    (hu : Unpublished f.table (withdraw t p s e b x) p) :
    RemoveOutcome registration f p s (f.removeRoute p s).1 (f.removeRoute p s).2 := by
  have hdone := RemoveOutcome.withdrawn (by rw [references_eq k.net, k.count]) hw hu
  unfold removeRoute
  rw [k.net]
  dsimp only
  rw [hrem]
  rw [← k.routes] at hdone
  exact hdone

theorem removeRoute_source (k : Taken f.table t p s e) (h : Indexed registration f.table)
    (hothers : (f.table.entry e).sources.length ≠ 1) (hprefixes : t.prefixes = f.table.prefixes)
    (htrie : t.backend = f.table.backend) (hrem : f.table.removeSource p s = (t, .ok true)) :
    RemoveOutcome registration f p s (f.removeRoute p s).1 (f.removeRoute p s).2 := by
  have hsourced := h.toSourced.removed k.removed
  have hpt : get cmp p t.prefixes = some e := by rw [hprefixes, k.net]
  have hne : (t.entry e).sources ≠ [] := by
    rw [k.entry h, if_pos rfl]
    exact filter_sources_ne_nil h k.net hothers
  obtain ⟨c, hhead, hc, -⟩ := hsourced.head_source hpt hne
  have hcs := k.head_ne h hhead
  obtain ⟨x, hx⟩ : ∃ x, t.candidate p e = some x := by
    have hsome : get routeCmp (p, c) f.table.sourceForwarding ≠ none := by
      intro hnone
      rw [references_removed h.toSourced k.removed, if_neg fun hcc => hcs hcc.2] at hc
      exact hc ((h.forwards p c).mp hnone)
    obtain ⟨x, hx⟩ := ne_none_iff_exists'.mp hsome
    refine ⟨x, ?_⟩
    unfold candidate
    rw [hhead, k.routes]
    exact hx
  have hkey : OrderedMap.containsKey cmp p t.backend.entries = true := by
    unfold OrderedMap.containsKey
    rw [hsourced.backend, hpt]
    rfl
  have htry : f.tryRemove p s e = if isLoadBalance x then
      (⟨{ t with backend := t.backend.trieInsert p x }.setForwarding e (some x), f.locks⟩, .ok true)
      else (⟨t, f.locks⟩, .error (.backend .forwardingDpoRequired)) := by
    unfold tryRemove
    rw [hrem]
    dsimp only
    rw [k.containsKey, hx]
    dsimp only
    unfold IpFibBackend.forwardingUpdate
    rw [hkey]
    cases isLoadBalance x <;> rfl
  cases hclass : isLoadBalance x with
  | false =>
    rw [hclass, if_neg Bool.false_ne_true] at htry
    have hback : t.restore f.table = f.table := by
      unfold restore
      rw [k.routes]
    unfold removeRoute
    rw [k.net]
    dsimp only
    rw [htry]
    dsimp only
    rw [hback]
    exact .failed _
  | true =>
    rw [hclass] at htry
    refine k.outcome htry (k.withdrawn h rfl fun _ => ⟨hpt, hne, hx.symm⟩) ?_
    refine .next x ?_ ((k.elsewhere_withdraw h).forwardingOf ?_ k.nets)
    · rw [← htrie]
      rfl
    · rw [forwardingOf_eq (e := e), k.entry_withdraw h, if_pos rfl]
      exact hpt

omit [DecidableEq D] [ForwardingDpo D] in
/-- A removal from the trie succeeds; it writes the cover again, or nothing. -/
theorem forwardingRemove_eq (b : IpFibBackend w D) (p : Net w) (cover : Option (Net w × D)) :
    ∃ b' cover', b.forwardingRemove p cover = (b', .ok ()) ∧ b'.entries = b.entries ∧
      (∀ c, cover' = some c → cover = some c) ∧
      b'.forwarding = writeCover (removeAt b.forwarding 0 p.path) cover' := by
  unfold IpFibBackend.forwardingRemove
  cases cover with
  | none => exact ⟨_, none, rfl, rfl, nofun, rfl⟩
  | some c =>
    obtain ⟨q, x⟩ := c
    dsimp only
    split
    · exact ⟨_, some (q, x), rfl, rfl, fun _ hc => hc, rfl⟩
    · exact ⟨_, none, rfl, rfl, nofun, rfl⟩

theorem removeRoute_entry (k : Taken f.table t p s e) (h : Indexed registration f.table)
    (hlast : (f.table.entry e).sources.length = 1) (hgone : get cmp p t.prefixes = none)
    (htrie : t.backend.forwarding = removeAt f.table.backend.forwarding 0 p.path)
    (hrem : f.table.removeSource p s = (t, .ok true)) :
    RemoveOutcome registration f p s (f.removeRoute p s).1 (f.removeRoute p s).2 := by
  have hcand : t.candidate p e = none := by
    obtain ⟨c, hc⟩ := List.length_eq_one_iff.mp hlast
    have hm := (h.sources p e k.net s e).mpr ⟨rfl, by rw [k.count]; simp⟩
    rw [hc, List.mem_singleton] at hm
    unfold candidate
    rw [k.entry h, hc, ← hm]
    simp
  obtain ⟨-, x, -, -, hx, -⟩ := h.candidate_some k.net
  obtain ⟨b, cover, hb, hentries, hcover, htrie2⟩ := forwardingRemove_eq t.backend p (t.cover p)
  have htry : f.tryRemove p s e =
      ({ f with table := { t with backend := b }.setForwarding e none }, .ok true) := by
    unfold tryRemove
    rw [hrem]
    dsimp only
    rw [k.containsKey, if_neg Bool.false_ne_true, hcand, hx, hb]
  refine k.outcome htry (k.withdrawn h hentries fun hleft => absurd hgone hleft) ?_
  refine .last cover ?_ ?_ ((k.elsewhere_withdraw h).forwardingOf (forwardingOf_none hgone) k.nets)
  · intro q x hqx
    obtain ⟨hq, hfor⟩ := cover_spec (h.toSourced.removed k.removed) (hcover _ hqx)
    refine ⟨hq, ?_⟩
    rw [← hfor, (k.elsewhere h).forwardingOf (forwardingOf_none hgone) k.nets, if_neg hq]
  · rw [← htrie]
    exact htrie2

theorem removeRoute_cases (h : Indexed registration f.table) :
    RemoveOutcome registration f p s (f.removeRoute p s).1 (f.removeRoute p s).2 := by
  obtain ⟨t, b, hrem, hr⟩ := removeSource_cases (p := p) (s := s) h.toSourced
  cases hr with
  | absent hnone =>
    have hsame : f.removeRoute p s = (f, .ok false) := by
      unfold removeRoute
      cases hp : get cmp p f.table.prefixes with
      | none => rfl
      | some e =>
        unfold tryRemove
        rw [hrem]
    rw [hsame]
    exact .absent hnone
  | @counted e r hp hcount hmany =>
    have hcontains : containsKey pairCmp (e, s)
        (modify pairCmp (e, s) (· - 1) f.table.sourceReferences) = true := by
      unfold containsKey
      rw [get_modify pairCmp_eq_iff, if_pos rfl, hcount]
      rfl
    unfold removeRoute
    rw [hp]
    unfold tryRemove
    rw [hrem]
    dsimp only
    rw [if_pos hcontains]
    exact .counted hp hcount hmany rfl
  | source hp hcount hothers =>
    exact removeRoute_source ⟨hp, hcount, .source hp hcount hothers, rfl, rfl, rfl, fun _ _ => rfl⟩ h
      hothers rfl rfl hrem
  | entry hp hcount hlast =>
    exact removeRoute_entry ⟨hp, hcount, .entry hp hcount hlast, rfl, rfl, rfl,
      fun q hq => (get_erase cmp_eq_iff p q _).trans (if_neg hq)⟩ h hlast
      ((get_erase cmp_eq_iff p p _).trans (if_pos rfl)) rfl hrem

end FibState

end Fib
