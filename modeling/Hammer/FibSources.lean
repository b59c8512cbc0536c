import Hammer.Fib
import Mathlib.Data.Finset.Card

/-! # Sources of forwarding entries

What the entry table, the prefix index and the counted sources of a forwarding table keep together,
whatever the trie does.
-/

namespace Fib

open OrderedMap BinaryTrie Net List

theorem Net.cmp_eq_iff {w : ℕ} (p q : Net w) : cmp p q = .eq ↔ p = q := by
  unfold cmp
  rw [Ordering.then_eq_eq, compare_eq_iff_eq, compare_eq_iff_eq]
  constructor
  · rintro ⟨ha, hl⟩
    cases p
    cases hl
    cases BitVec.eq_of_toNat_eq ha
    rfl
  · rintro rfl
    exact ⟨rfl, rfl⟩

theorem pairCmp_eq_iff (a b : ℕ × ℕ) : pairCmp a b = .eq ↔ a = b := by
  unfold pairCmp
  rw [Ordering.then_eq_eq, compare_eq_iff_eq, compare_eq_iff_eq, Prod.ext_iff]

theorem routeCmp_eq_iff {w : ℕ} (a b : Net w × ℕ) : routeCmp a b = .eq ↔ a = b := by
  unfold routeCmp
  rw [Ordering.then_eq_eq, cmp_eq_iff, compare_eq_iff_eq, Prod.ext_iff]

namespace FibTable

variable {w : ℕ} {D : Type} {t t' : FibTable w D} {p q : Net w} {e i s : ℕ}

theorem entry_modify (f : FibEntry D → FibEntry D) (he : e < t.entries.length) (i : ℕ) :
    (t.entries.modify e f).getD i .empty = if i = e then f (t.entry e) else t.entry i := by
  unfold entry
  by_cases hie : i = e
  · subst hie
    simp [he]
  · rw [if_neg hie]
    cases t.entries[i]? <;> simp [Ne.symm hie]

theorem entry_of_length_le (he : t.entries.length ≤ e) : t.entry e = .empty := by
  unfold entry
  rw [getD_eq_default _ _ he]

theorem entry_append_empty (i : ℕ) : (t.entries ++ [FibEntry.empty]).getD i .empty = t.entry i := by
  unfold entry
  rcases Nat.lt_trichotomy i t.entries.length with hlt | heq | hgt
  · rw [getD_append _ _ _ _ hlt]
  · rw [getD_append_right _ _ _ _ (le_of_eq heq.symm), heq, Nat.sub_self,
      getD_eq_default _ _ (le_refl _)]
    rfl
  · rw [getD_eq_default _ _ (by simp; omega), getD_eq_default _ _ (by omega)]

def references (t : FibTable w D) (p : Net w) (s : ℕ) : Option ℕ :=
  (get Net.cmp p t.prefixes).bind fun e => get pairCmp (e, s) t.sourceReferences

section Sorting

variable {registration : ℕ → FibSourceRegistration}

theorem mem_sortSources {l : List (ℕ × ℕ)} {c : ℕ × ℕ} :
    c ∈ sortSources registration l ↔ c ∈ l := (perm_insertionSort _ l).mem_iff

theorem sortSources_pairwise
    (hkey : Function.Injective fun s => (registration s).key) {l : List (ℕ × ℕ)}
    (hl : l.Pairwise fun a b => a.1 ≠ b.1) :
    (sortSources registration l).Pairwise fun a b =>
      (registration a.1).key < (registration b.1).key := by
  let r : ℕ × ℕ → ℕ × ℕ → Prop := fun a b => (registration a.1).key ≤ (registration b.1).key
  have hle := pairwise_insertionSort r l
  have hne := ((perm_insertionSort r l).pairwise_iff (fun {_ _} h => h.symm)).mpr hl
  refine (hle.and hne).imp ?_
  rintro a b ⟨hab, hdiff⟩
  exact lt_of_le_of_ne hab fun heq => hdiff (hkey heq)

end Sorting

/-- The source index of a table. -/
structure Sourced (registration : ℕ → FibSourceRegistration) (t : FibTable w D) : Prop where
  keys : (keys t.backend.entries).Nodup
  backend : ∀ p, get Net.cmp p t.backend.entries = get Net.cmp p t.prefixes
  aligned : ∀ p e, get Net.cmp p t.prefixes = some e → p.network = p.addr
  bound : ∀ p e, get Net.cmp p t.prefixes = some e → e < t.entries.length
  unique : ∀ p q e, get Net.cmp p t.prefixes = some e → get Net.cmp q t.prefixes = some e → p = q
  count : ∀ e s r, get pairCmp (e, s) t.sourceReferences = some r →
    0 < r ∧ r ≤ 255 ∧ ∃ p, get Net.cmp p t.prefixes = some e
  sorted : ∀ p e, get Net.cmp p t.prefixes = some e →
    (t.entry e).sources.Pairwise fun a b => (registration a.1).key < (registration b.1).key
  sources : ∀ p e, get Net.cmp p t.prefixes = some e → ∀ s i, (s, i) ∈ (t.entry e).sources ↔
    i = e ∧ get pairCmp (e, s) t.sourceReferences ≠ none

/-- What adding or removing a reference leaves alone. -/
structure SameBut (t t' : FibTable w D) (p : Net w) (e : ℕ) : Prop where
  prefixes : ∀ q, q ≠ p → get Net.cmp q t'.prefixes = get Net.cmp q t.prefixes
  references : ∀ i s, i ≠ e →
    get pairCmp (i, s) t'.sourceReferences = get pairCmp (i, s) t.sourceReferences
  entries : ∀ i, i ≠ e → t'.entry i = t.entry i
  forwarding : (t'.entry e).forwarding = (t.entry e).forwarding
  sourceForwarding : t'.sourceForwarding = t.sourceForwarding

theorem SameBut.refl (t : FibTable w D) (p : Net w) (e : ℕ) : SameBut t t p e :=
  ⟨fun _ _ => rfl, fun _ _ _ => rfl, fun _ _ => rfl, rfl, rfl⟩

theorem SameBut.trans {t'' : FibTable w D} (h : SameBut t t' p e) (h' : SameBut t' t'' p e) :
    SameBut t t'' p e where
  prefixes q hq := (h'.prefixes q hq).trans (h.prefixes q hq)
  references i s hi := (h'.references i s hi).trans (h.references i s hi)
  entries i hi := (h'.entries i hi).trans (h.entries i hi)
  forwarding := h'.forwarding.trans h.forwarding
  sourceForwarding := h'.sourceForwarding.trans h.sourceForwarding

variable {registration : ℕ → FibSourceRegistration}

theorem findOrCreate_ok (h : Sourced registration t) (hp : p.network = p.addr)
    (hf : t.findOrCreate p = (t', .ok e)) :
    Sourced registration t' ∧ SameBut t t' p e ∧ get cmp p t'.prefixes = some e ∧
      t'.backend.forwarding = t.backend.forwarding ∧
      t'.sourceReferences = t.sourceReferences ∧
      (get cmp p t.prefixes = some e ∧ t' = t ∨ get cmp p t.prefixes = none ∧ e = t.entries.length ∧
          t'.entries.length = t.entries.length + 1) := by
  unfold findOrCreate at hf
  split at hf
  · next index hindex =>
    cases hf
    exact ⟨h, .refl t p e, hindex, rfl, rfl, Or.inl ⟨hindex, rfl⟩⟩
  · next hnone =>
    dsimp only at hf
    split at hf
    · cases hf
    split at hf
    · cases hf
    · next b hb =>
      cases hf
      obtain ⟨hbe, hbf⟩ : b.entries = insert cmp p t.entries.length t.backend.entries ∧
          b.forwarding = t.backend.forwarding := by
        unfold IpFibBackend.insertEntry at hb
        split at hb <;> cases hb
        exact ⟨rfl, rfl⟩
      have hget : ∀ q, get cmp q (insert cmp p t.entries.length t.prefixes) =
          if q = p then some t.entries.length else get cmp q t.prefixes :=
        fun q => get_insert cmp_eq_iff p q _ _
      have hold : ∀ q e, q ≠ p → get cmp q (insert cmp p t.entries.length t.prefixes) = some e →
            get cmp q t.prefixes = some e := by
        intro q e hq hqe
        rwa [hget, if_neg hq] at hqe
      have hentry : ∀ i, entry { t with
          backend := b
          prefixes := insert cmp p t.entries.length t.prefixes
          entries := t.entries ++ [.empty] } i = t.entry i := fun i => entry_append_empty i
      refine ⟨⟨?_, ?_, ?_, ?_, ?_, ?_, ?_, ?_⟩, ⟨?_, ?_, ?_, ?_, rfl⟩, ?_, hbf, rfl,
        Or.inr ⟨hnone, rfl, by simp⟩⟩
      · have habsent : p ∉ OrderedMap.keys t.backend.entries := by
          rw [← get_eq_none_iff cmp_eq_iff, h.backend, hnone]
        have hperm := (insert_perm cmp_eq_iff (v := t.entries.length) habsent).map Prod.fst
        rw [hbe]
        exact hperm.nodup_iff.mpr (nodup_cons.mpr ⟨habsent, h.keys⟩)
      · intro q
        rw [hbe, get_insert cmp_eq_iff, get_insert cmp_eq_iff, h.backend q]
      · intro q i hqi
        by_cases hq : q = p
        · rw [hq]
          exact hp
        · exact h.aligned q i (hold q i hq hqi)
      · intro q i hqi
        rw [length_append]
        by_cases hq : q = p
        · rw [hget, if_pos hq] at hqi
          cases hqi
          exact Nat.lt_succ_self _
        · exact Nat.lt_succ_of_lt (h.bound q i (hold q i hq hqi))
      · intro q q' i hqi hqi'
        rw [hget] at hqi hqi'
        split at hqi <;> split at hqi'
        · next hq hq' => exact hq.trans hq'.symm
        · cases hqi
          exact absurd (h.bound q' _ hqi') (Nat.lt_irrefl _)
        · cases hqi'
          exact absurd (h.bound q _ hqi) (Nat.lt_irrefl _)
        · exact h.unique q q' i hqi hqi'
      · intro i s r hr
        obtain ⟨hpos, hle, q, hq⟩ := h.count i s r hr
        refine ⟨hpos, hle, q, ?_⟩
        rw [hget, if_neg, hq]
        rintro rfl
        rw [hq] at hnone
        nomatch hnone
      · intro q i hqi
        rw [hentry]
        by_cases hq : q = p
        · rw [hget, if_pos hq] at hqi
          cases hqi
          rw [entry_of_length_le (le_refl _)]
          exact List.Pairwise.nil
        · exact h.sorted q i (hold q i hq hqi)
      · intro q i hqi s j
        rw [hentry]
        by_cases hq : q = p
        · rw [hget, if_pos hq] at hqi
          cases hqi
          rw [entry_of_length_le (le_refl _)]
          have hfree : get pairCmp (t.entries.length, s) t.sourceReferences = none := by
            cases hr : get pairCmp (t.entries.length, s) t.sourceReferences with
            | none => rfl
            | some r =>
              obtain ⟨-, -, q', hq'⟩ := h.count _ s r hr
              exact absurd (h.bound q' _ hq') (Nat.lt_irrefl _)
          rw [hfree]
          simp [FibEntry.empty]
        · exact h.sources q i (hold q i hq hqi) s j
      · intro q hq
        exact (hget q).trans (if_neg hq)
      · intro i s _
        rfl
      · intro i _
        exact hentry i
      · exact congrArg FibEntry.forwarding (hentry _)
      · exact (hget p).trans (if_pos rfl)

theorem references_eq (hp : get cmp p t.prefixes = some e) (s : ℕ) :
    t.references p s = get pairCmp (e, s) t.sourceReferences := by
  unfold references
  rw [hp]
  rfl

theorem references_none (hp : get cmp p t.prefixes = none) (s : ℕ) : t.references p s = none := by
  unfold references
  rw [hp]
  rfl

theorem SameBut.references_eq {n : Option ℕ} (hsame : SameBut t t' p e)
    (hp : get cmp p t'.prefixes = some e) (hunique : ∀ q, get cmp q t'.prefixes = some e → q = p)
    (hn : ∀ s', get pairCmp (e, s') t'.sourceReferences = if s' = s then n else t.references p s')
    (q : Net w) (s' : ℕ) :
    t'.references q s' = if q = p ∧ s' = s then n else t.references q s' := by
  by_cases hq : q = p
  · subst hq
    rw [FibTable.references_eq hp, hn]
    by_cases hs : s' = s <;> simp [hs]
  · rw [if_neg fun hc => hq hc.1]
    unfold FibTable.references
    rw [hsame.prefixes q hq]
    cases hi : get cmp q t.prefixes with
    | none => rfl
    | some i =>
      have hie : i ≠ e := by
        rintro rfl
        rw [← hsame.prefixes q hq] at hi
        exact hq (hunique q hi)
      exact hsame.references i s' hie

/-- The references and the entries of a table in which the source `s` of the entry `e` has the
count `c` and the entry lists the sources `l`. -/
structure Recounted (t : FibTable w D) (references : List ((ℕ × ℕ) × ℕ))
    (entries : List (FibEntry D)) (e s : ℕ) (c : Option ℕ) (l : List (ℕ × ℕ)) : Prop where
  length : entries.length = t.entries.length
  references : ∀ i s', get pairCmp (i, s') references =
    if i = e ∧ s' = s then c else get pairCmp (i, s') t.sourceReferences
  entry : ∀ i, entries.getD i .empty =
    if i = e then { t.entry e with sources := l } else t.entry i

section Recounted

variable {m : List ((ℕ × ℕ) × ℕ)} {es : List (FibEntry D)} {c : Option ℕ} {l : List (ℕ × ℕ)}

theorem Recounted.sameBut (k : Recounted t m es e s c l) (p : Net w) :
    SameBut t { t with sourceReferences := m, entries := es } p e where
  prefixes _ _ := rfl
  references i s' hi := (k.references i s').trans (if_neg fun hc => hi hc.1)
  entries i hi := (k.entry i).trans (if_neg hi)
  forwarding := by
    rw [FibTable.entry, k.entry, if_pos rfl]
  sourceForwarding := rfl

variable (h : Sourced registration t) (hp : get cmp p t.prefixes = some e)
include h hp

theorem Recounted.references_eq (k : Recounted t m es e s c l) (q : Net w) (s' : ℕ) :
    FibTable.references { t with sourceReferences := m, entries := es } q s' =
      if q = p ∧ s' = s then c else t.references q s' := by
  refine (k.sameBut p).references_eq hp (fun q hq => h.unique q p e hq hp) (fun s' => ?_) q s'
  rw [k.references, FibTable.references_eq hp]
  simp

theorem Recounted.sourced (k : Recounted t m es e s c l) (hc : ∀ r ∈ c, 0 < r ∧ r ≤ 255)
    (hsorted : l.Pairwise fun a b => (registration a.1).key < (registration b.1).key)
    (hsources : ∀ s' j, (s', j) ∈ l ↔
      j = e ∧ (if s' = s then c else get pairCmp (e, s') t.sourceReferences) ≠ none) :
    Sourced registration { t with sourceReferences := m, entries := es } := by
  refine ⟨h.keys, h.backend, h.aligned, ?_, h.unique, ?_, ?_, ?_⟩
  · intro q i hqi
    rw [k.length]
    exact h.bound q i hqi
  · intro i s' r hr
    rw [k.references] at hr
    split at hr
    · next hi => exact ⟨(hc r hr).1, (hc r hr).2, p, hi.1 ▸ hp⟩
    · exact h.count i s' r hr
  · intro q i hqi
    rw [FibTable.entry, k.entry]
    split
    · exact hsorted
    · exact h.sorted q i hqi
  · intro q i hqi s' j
    rw [FibTable.entry, k.entry, k.references]
    by_cases hie : i = e
    · simp only [hie, if_true, true_and, hsources]
    · rw [if_neg hie, if_neg fun hc => hie hc.1]
      exact h.sources q i hqi s' j

theorem Recounted.sourced_same (k : Recounted t m es e s c (t.entry e).sources)
    (hc : ∀ r ∈ c, 0 < r ∧ r ≤ 255)
    (hheld : c ≠ none ∧ get pairCmp (e, s) t.sourceReferences ≠ none) :
    Sourced registration { t with sourceReferences := m, entries := es } := by
  refine k.sourced h hp hc (h.sorted p e hp) fun s' j => ?_
  rw [h.sources p e hp]
  split
  · next hs => simp [hs, hheld]
  · rfl

omit h hp in
theorem recounted_same (hm : ∀ i s', get pairCmp (i, s') m =
    if i = e ∧ s' = s then c else get pairCmp (i, s') t.sourceReferences) :
    Recounted t m t.entries e s c (t.entry e).sources := by
  refine ⟨rfl, hm, fun i => ?_⟩
  split
  · next hi => rw [hi]; rfl
  · rfl

end Recounted

section

variable (hkey : Function.Injective fun s => (registration s).key) (h : Sourced registration t)
include hkey h

theorem addReference_spec (hp : get cmp p t.prefixes = some e)
    (hlt : get pairCmp (e, s) t.sourceReferences ≠ some 255) :
    ∃ m es l, t.addReference registration e s = { t with sourceReferences := m, entries := es } ∧
      Recounted t m es e s (some ((get pairCmp (e, s) t.sourceReferences).getD 0 + 1)) l ∧
      Sourced registration (t.addReference registration e s) := by
  set n := (get pairCmp (e, s) t.sourceReferences).getD 0 + 1 with hn
  have hrefs : ∀ i s', get pairCmp (i, s') (insert pairCmp (e, s) n t.sourceReferences) =
        if i = e ∧ s' = s then some n else get pairCmp (i, s') t.sourceReferences := by
    intro i s'
    rw [get_insert pairCmp_eq_iff]
    simp
  have hcount : ∀ r ∈ some n, 0 < r ∧ r ≤ 255 := by
    rintro r ⟨⟩
    cases hg : get pairCmp (e, s) t.sourceReferences with
    | none => simp [hn, hg]
    | some r =>
      have := h.count e s r hg
      rw [hg] at hlt
      have hne : r ≠ 255 := fun h => hlt (congrArg some h)
      simp only [hn, hg, Option.getD_some]
      omega
  unfold addReference
  dsimp only
  rw [← hn]
  split
  · next hone =>
    have hfree : get pairCmp (e, s) t.sourceReferences = none := by
      cases hg : get pairCmp (e, s) t.sourceReferences with
      | none => rfl
      | some r =>
        have := (h.count e s r hg).1
        rw [hg, Option.getD_some] at hn
        omega
    have hdistinct : ((t.entry e).sources ++ [(s, e)]).Pairwise fun a b => a.1 ≠ b.1 := by
      rw [pairwise_append]
      refine ⟨(h.sorted p e hp).imp ?_, pairwise_singleton _ _, ?_⟩
      · intro a b hab heq
        rw [heq] at hab
        exact lt_irrefl _ hab
      · intro a ha b hb heq
        rw [mem_singleton.mp hb] at heq
        have := (h.sources p e hp a.1 a.2).mp ha
        rw [heq, hfree] at this
        exact this.2 rfl
    have k : Recounted t (insert pairCmp (e, s) n t.sourceReferences) (t.entries.modify e fun x =>
        { x with sources := sortSources registration (x.sources ++ [(s, e)]) }) e s (some n)
        (sortSources registration ((t.entry e).sources ++ [(s, e)])) :=
      ⟨length_modify .., hrefs, entry_modify _ (h.bound p e hp)⟩
    refine ⟨_, _, _, rfl, k, k.sourced h hp hcount (sortSources_pairwise hkey hdistinct) ?_⟩
    intro s' j
    rw [mem_sortSources, mem_append, h.sources p e hp]
    by_cases hs : s' = s
    · subst hs
      simp [hfree]
    · simp [hs]
  · next hmany =>
    refine ⟨_, _, _, rfl, recounted_same hrefs, (recounted_same hrefs).sourced_same h hp hcount
      ⟨Option.some_ne_none n, fun hg => hmany ?_⟩⟩
    rw [hn, hg]
    rfl

theorem addSource_ok (hp : p.network = p.addr) (ha : t.addSource registration p s = (t', .ok e)) :
    Sourced registration t' ∧ SameBut t t' p e ∧ get cmp p t'.prefixes = some e ∧
      t'.backend.forwarding = t.backend.forwarding ∧
      (∀ s', get pairCmp (e, s') t'.sourceReferences =
        if s' = s then some ((t.references p s).getD 0 + 1) else t.references p s') ∧
      (get cmp p t.prefixes = some e ∧ t'.entries.length = t.entries.length ∨
        get cmp p t.prefixes = none ∧ e = t.entries.length ∧
          t'.entries.length = t.entries.length + 1) := by
  unfold addSource at ha
  dsimp only at ha
  split at ha
  · cases ha
  next hover =>
  split at ha
  · cases ha
  next t1 e1 hf =>
  cases ha
  obtain ⟨h1, hsame, hget, hforwarding, hrefs, hnew⟩ := findOrCreate_ok h hp hf
  have hreferences : ∀ s', get pairCmp (e, s') t1.sourceReferences = t.references p s' := by
    intro s'
    rw [hrefs]
    unfold references
    rcases hnew with ⟨hold, -⟩ | ⟨hnone, rfl, -⟩
    · rw [hold]
      rfl
    · rw [hnone]
      cases hr : get pairCmp (t.entries.length, s') t.sourceReferences with
      | none => rfl
      | some r =>
        obtain ⟨-, -, q, hq⟩ := h.count _ s' r hr
        exact absurd (h.bound q _ hq) (Nat.lt_irrefl _)
  have hlt : get pairCmp (e, s) t1.sourceReferences ≠ some 255 := by
    rw [hreferences]
    exact hover
  obtain ⟨m, es, l, heq, k, h2⟩ := addReference_spec hkey h1 hget hlt
  rw [heq] at h2 ⊢
  refine ⟨h2, hsame.trans (k.sameBut p), hget, hforwarding, ?_, ?_⟩
  · intro s'
    rw [k.references, hreferences, hreferences]
    simp
  · rw [k.length]
    rcases hnew with ⟨hold, rfl⟩ | hnew
    · exact Or.inl ⟨hold, rfl⟩
    · exact Or.inr hnew

end

theorem removeEntry_eq (h : Sourced registration t) (hp : get cmp p t.prefixes = some e) :
    t.backend.removeEntry p =
      ({ t.backend with entries := erase cmp p t.backend.entries }.trieRemove p, .ok ()) := by
  unfold IpFibBackend.removeEntry
  rw [h.backend, hp]
  rfl

inductive Removed (t : FibTable w D) (p : Net w) (s : ℕ) : FibTable w D → Bool → Prop
  | absent (none : t.references p s = none) : Removed t p s t false
  | counted {e r : ℕ} (entry : get Net.cmp p t.prefixes = some e)
      (count : get pairCmp (e, s) t.sourceReferences = some r) (many : 1 < r) :
      Removed t p s
        { t with sourceReferences := modify pairCmp (e, s) (· - 1) t.sourceReferences } true
  | source {e : ℕ} (entry : get Net.cmp p t.prefixes = some e)
      (count : get pairCmp (e, s) t.sourceReferences = some 1)
      (others : (t.entry e).sources.length ≠ 1) :
      Removed t p s
        { t with
          sourceReferences := erase pairCmp (e, s) t.sourceReferences
          entries := t.entries.modify e fun x =>
            { x with sources := x.sources.filter fun c => c.1 != s } } true
  | entry {e : ℕ} (entry : get Net.cmp p t.prefixes = some e)
      (count : get pairCmp (e, s) t.sourceReferences = some 1)
      (last : (t.entry e).sources.length = 1) :
      Removed t p s
        { t with
          sourceReferences := erase pairCmp (e, s) t.sourceReferences
          entries := t.entries.modify e fun x =>
            { x with sources := x.sources.filter fun c => c.1 != s }
          backend := { t.backend with entries := erase Net.cmp p t.backend.entries }.trieRemove p
          prefixes := erase Net.cmp p t.prefixes } true

theorem removeSource_cases (h : Sourced registration t) :
    ∃ t' b, t.removeSource p s = (t', .ok b) ∧ Removed t p s t' b := by
  unfold removeSource
  cases hp : get cmp p t.prefixes with
  | none =>
    refine ⟨t, false, rfl, .absent ?_⟩
    unfold references
    rw [hp]
    rfl
  | some e =>
    dsimp only
    cases hr : get pairCmp (e, s) t.sourceReferences with
    | none =>
      refine ⟨t, false, rfl, .absent ?_⟩
      unfold references
      rw [hp]
      exact hr
    | some r =>
      dsimp only
      by_cases hmany : 1 < r
      · rw [if_pos hmany]
        exact ⟨_, true, rfl, .counted hp hr hmany⟩
      · have hone : r = 1 := by
          have := (h.count e s r hr).1
          omega
        subst hone
        by_cases hlast : (t.entry e).sources.length = 1
        · rw [if_pos hlast, removeEntry_eq h hp]
          exact ⟨_, true, rfl, .entry hp hr hlast⟩
        · rw [if_neg hlast]
          exact ⟨_, true, rfl, .source hp hr hlast⟩

theorem Sourced.only_source (h : Sourced registration t) (hp : get cmp p t.prefixes = some e)
    (hlast : (t.entry e).sources.length = 1) {s s' : ℕ}
    (hs : get pairCmp (e, s) t.sourceReferences ≠ none)
    (hs' : get pairCmp (e, s') t.sourceReferences ≠ none) : s' = s := by
  obtain ⟨c, hc⟩ := length_eq_one_iff.mp hlast
  have hm := (h.sources p e hp s e).mpr ⟨rfl, hs⟩
  have hm' := (h.sources p e hp s' e).mpr ⟨rfl, hs'⟩
  rw [hc, mem_singleton] at hm hm'
  rw [← hm] at hm'
  exact congrArg Prod.fst hm'

/-- Dropping a prefix that no source refers to. -/
theorem Sourced.forget (h : Sourced registration t) (hp : get cmp p t.prefixes = some e)
    (hfree : ∀ s, get pairCmp (e, s) t.sourceReferences = none) :
    Sourced registration { t with
      backend := { t.backend with entries := erase cmp p t.backend.entries }.trieRemove p
      prefixes := erase cmp p t.prefixes } := by
  have hnets : ∀ q i, get cmp q (erase cmp p t.prefixes) = some i →
      get cmp q t.prefixes = some i := by
    intro q i hqi
    rw [get_erase cmp_eq_iff] at hqi
    split at hqi
    · nomatch hqi
    · exact hqi
  refine ⟨?_, ?_, fun q i hqi => h.aligned q i (hnets q i hqi),
    fun q i hqi => h.bound q i (hnets q i hqi),
    fun q q' i hqi hqi' => h.unique q q' i (hnets q i hqi) (hnets q' i hqi'), ?_,
    fun q i hqi => h.sorted q i (hnets q i hqi), fun q i hqi => h.sources q i (hnets q i hqi)⟩
  · exact h.keys.sublist (List.Sublist.map _ filter_sublist)
  · intro q
    dsimp only [IpFibBackend.trieRemove]
    rw [get_erase cmp_eq_iff, get_erase cmp_eq_iff, h.backend]
  · intro i s r hr
    obtain ⟨hpos, hle, q, hq⟩ := h.count i s r hr
    refine ⟨hpos, hle, q, ?_⟩
    rw [get_erase cmp_eq_iff, if_neg, hq]
    rintro rfl
    rw [hp] at hq
    cases hq
    rw [hfree s] at hr
    nomatch hr

theorem recounted_counted {r : ℕ} (hcount : get pairCmp (e, s) t.sourceReferences = some r) :
    Recounted t (modify pairCmp (e, s) (· - 1) t.sourceReferences) t.entries e s (some (r - 1))
      (t.entry e).sources := by
  refine recounted_same fun i s' => ?_
  rw [get_modify_some pairCmp_eq_iff hcount]
  simp

section Withdrawn

variable (h : Sourced registration t) (hp : get cmp p t.prefixes = some e)
include h hp

theorem recounted_withdrawn : Recounted t (erase pairCmp (e, s) t.sourceReferences)
      (t.entries.modify e fun x => { x with sources := x.sources.filter fun c => c.1 != s }) e s none
      ((t.entry e).sources.filter fun c => c.1 != s) := by
  refine ⟨length_modify .., fun i s' => ?_, entry_modify _ (h.bound p e hp)⟩
  rw [get_erase pairCmp_eq_iff]
  simp

theorem withdrawn_free (hcount : get pairCmp (e, s) t.sourceReferences = some 1)
    (hlast : (t.entry e).sources.length = 1) (s' : ℕ) :
    get pairCmp (e, s') (erase pairCmp (e, s) t.sourceReferences) = none := by
  rw [(recounted_withdrawn h hp).references]
  split
  · rfl
  · next hs =>
    by_contra hne
    refine hs ⟨rfl, h.only_source hp hlast ?_ hne⟩
    rw [hcount]
    exact Option.some_ne_none 1

end Withdrawn

theorem Sourced.removed (h : Sourced registration t) {b : Bool} (hr : Removed t p s t' b) :
    Sourced registration t' := by
  have hwithdrawn {e : ℕ} (hp : get cmp p t.prefixes = some e) :
      Sourced registration { t with
        sourceReferences := erase pairCmp (e, s) t.sourceReferences
        entries := t.entries.modify e fun x =>
          { x with sources := x.sources.filter fun c => c.1 != s } } := by
    refine (recounted_withdrawn h hp).sourced h hp nofun ((h.sorted p e hp).filter _) fun s' j => ?_
    rw [mem_filter, h.sources p e hp]
    by_cases hs : s' = s
    · simp [hs]
    · simp [hs]
  cases hr with
  | absent _ => exact h
  | @counted e r hp hcount hmany =>
    refine (recounted_counted hcount).sourced_same h hp ?_ ⟨Option.some_ne_none _, ?_⟩
    · rintro r' ⟨⟩
      have := h.count e s r hcount
      omega
    · rw [hcount]
      exact Option.some_ne_none r
  | source hp hcount hothers => exact hwithdrawn hp
  | entry hp hcount hlast => exact (hwithdrawn hp).forget hp (withdrawn_free h hp hcount hlast)

/-- What is left of a count after one reference went away. -/
def remaining : Option ℕ → Option ℕ
  | some (n + 2) => some (n + 1)
  | _ => none

theorem references_removed {b : Bool} (h : Sourced registration t)
    (hr : Removed t p s t' b) (q : Net w) (s' : ℕ) :
    t'.references q s' = if q = p ∧ s' = s then remaining (t.references p s)
      else t.references q s' := by
  cases hr with
  | absent hnone =>
    split
    · next hc => rw [hc.1, hc.2, hnone]; rfl
    · rfl
  | @counted e r hp hcount hmany =>
    obtain ⟨n, rfl⟩ : ∃ n, r = n + 2 := ⟨r - 2, by omega⟩
    rw [references_eq hp, hcount]
    exact (recounted_counted hcount).references_eq h hp q s'
  | source hp hcount hothers =>
    rw [references_eq hp, hcount]
    exact (recounted_withdrawn h hp).references_eq h hp q s'
  | @entry e hp hcount hlast =>
    rw [references_eq hp, hcount]
    refine Eq.trans ?_ ((recounted_withdrawn h hp).references_eq h hp q s')
    unfold references
    dsimp only
    rw [get_erase cmp_eq_iff]
    split
    · next hq =>
      rw [hq, hp]
      exact (withdrawn_free h hp hcount hlast s').symm
    · rfl

end FibTable

end Fib
