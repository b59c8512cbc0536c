import Hammer.FibForwarding
import Mathlib.Data.Set.Card

/-! # Forwarding as longest prefix match

A table under any sequence of `add_route` and `remove_route` against the set of routes it was
given: per prefix and source, the number of references and the object added last.
-/

namespace Fib

open OrderedMap BinaryTrie FibTable FibState Net

variable {w : ℕ} {D : Type} {registration : ℕ → FibSourceRegistration} {p q : Net w}

/-- The routes that are present, by prefix and source. -/
def Routes (w : ℕ) (D : Type) := Net w → ℕ → Option (ℕ × D)

namespace Routes

def empty : Routes w D := fun _ _ => none

def add (r : Routes w D) (p : Net w) (s : ℕ) (d : D) : Routes w D := fun q s' =>
  if q = p ∧ s' = s then some (((r p s).map Prod.fst).getD 0 + 1, d) else r q s'

def remove (r : Routes w D) (p : Net w) (s : ℕ) : Routes w D := fun q s' =>
  if q = p ∧ s' = s then (r p s).bind fun x => if 1 < x.1 then some (x.1 - 1, x.2) else none
  else r q s'

def Present (r : Routes w D) (p : Net w) : Prop := ∃ s, r p s ≠ none

/-- The object of the best source on a prefix. -/
def Best (registration : ℕ → FibSourceRegistration) (r : Routes w D) (p : Net w) (d : D) : Prop :=
  ∃ s n, r p s = some (n, d) ∧ ∀ s', r p s' ≠ none → (registration s).key ≤ (registration s').key

/-- The object of the best source on the longest prefix that covers an address. -/
def Forwards (registration : ℕ → FibSourceRegistration) (r : Routes w D) (a : BitVec w) (d : D) :
    Prop :=
  ∃ p, p.contains a = true ∧ r.Best registration p d ∧
    ∀ q, q.contains a = true → r.Present q → q.prefixLen ≤ p.prefixLen

def holding (r : Routes w D) (d : D) : Set (Net w × ℕ) := { k | ∃ n, r k.1 k.2 = some (n, d) }

end Routes

inductive Call (w : ℕ) (D : Type) where
  | add (p : Net w) (source : ℕ) (forwarding : D)
  | remove (p : Net w) (source : ℕ)

def Call.net : Call w D → Net w
  | .add p _ _ => p
  | .remove p _ => p

/-- The host bits of the prefix are zero. -/
def Call.Aligned (c : Call w D) : Prop := c.net.network = c.net.addr

instance (c : Call w D) : Decidable c.Aligned :=
  inferInstanceAs (Decidable (c.net.network = c.net.addr))

/-- A prefix that is not in the table finds its nodes below the limit of a node index. -/
def Call.HasRoom (f : FibState w D) : Call w D → Prop
  | .add p _ _ => get Net.cmp p f.table.prefixes = none →
      f.table.backend.forwarding.length + p.prefixLen ≤ NODE_INDEX_LIMIT
  | .remove _ _ => True

/-- A call within the limits of the node indices. -/
def Call.Fits (f : FibState w D) (c : Call w D) : Prop := c.Aligned ∧ c.HasRoom f

section Runs

variable [DecidableEq D] [ForwardingDpo D]

/-- A call on the table; the routes change when it returns `Ok`. -/
def call (registration : ℕ → FibSourceRegistration) (f : FibState w D) (r : Routes w D) :
    Call w D → FibState w D × Routes w D
  | .add p s d =>
    match f.addRoute registration p s d with
    | (f', .ok _) => (f', r.add p s d)
    | (f', .error _) => (f', r)
  | .remove p s =>
    match f.removeRoute p s with
    | (f', .ok _) => (f', r.remove p s)
    | (f', .error _) => (f', r)

inductive Execution (registration : ℕ → FibSourceRegistration)
    (Allowed : FibState w D → Call w D → Prop) : FibState w D → Routes w D → Prop
  | new : Execution registration Allowed .new .empty
  | call {f : FibState w D} {r : Routes w D} {c : Call w D}
      (before : Execution registration Allowed f r) (allowed : Allowed f c) :
      Execution registration Allowed (call registration f r c).1 (call registration f r c).2

end Runs

variable {f f' : FibState w D} {r : Routes w D} {t t' : FibTable w D} {s : ℕ} {d x : D}

/-- The trie holds what the prefixes forward to and nothing else. -/
structure Published (t : FibTable w D) : Prop where
  tree : Tree t.backend.forwarding
  value : ∀ k d, valueAt t.backend.forwarding k = some d ↔
    ∃ p, p.path = k ∧ t.forwardingOf p = some d

theorem Published.walk_ne_none (h : Published t) (hp : t.forwardingOf p = some d) :
    walk t.backend.forwarding 0 p.path ≠ none := by
  intro hnone
  have hv := (h.value p.path d).mpr ⟨p, rfl, hp⟩
  unfold valueAt valueFrom at hv
  rw [hnone] at hv
  nomatch hv

theorem aligned_of_forwardingOf (h : Sourced registration t) (hp : t.forwardingOf p = some d) :
    p.network = p.addr := by
  cases hg : get cmp p t.prefixes with
  | none =>
    rw [FibTable.forwardingOf_none hg] at hp
    nomatch hp
  | some e => exact h.aligned p e hg

section

variable (h : Published t) (hs : Sourced registration t) (hp : p.network = p.addr)
include h hs hp

theorem Published.change {new : Option D} (htree : Tree t'.backend.forwarding)
    (hvalue : ∀ k, valueAt t'.backend.forwarding k =
      if k = p.path then new else valueAt t.backend.forwarding k)
    (hfor : ∀ q, t'.forwardingOf q = if q = p then new else t.forwardingOf q) :
    Published t' := by
  refine ⟨htree, ?_⟩
  intro k d
  rw [hvalue]
  constructor
  · intro hv
    split at hv
    · next hk =>
      refine ⟨p, hk.symm, ?_⟩
      rw [hfor, if_pos rfl, hv]
    · next hk =>
      obtain ⟨q, hq, hqd⟩ := (h.value k d).mp hv
      refine ⟨q, hq, ?_⟩
      rw [hfor, if_neg, hqd]
      rintro rfl
      exact hk hq.symm
  · rintro ⟨q, rfl, hqd⟩
    rw [hfor] at hqd
    split at hqd
    · next hq =>
      rw [hq, if_pos rfl, hqd]
    · next hq =>
      rw [if_neg]
      · exact (h.value _ d).mpr ⟨q, rfl, hqd⟩
      · intro hpath
        exact hq (path_injective (aligned_of_forwardingOf hs hqd) hp hpath)

theorem Published.insert (hroom : t.forwardingOf p = none →
      t.backend.forwarding.length + p.prefixLen ≤ NODE_INDEX_LIMIT)
    (htrie : t'.backend.forwarding = insertAt NODE_INDEX_LIMIT x t.backend.forwarding 0 p.path)
    (hfor : ∀ q, t'.forwardingOf q = if q = p then some x else t.forwardingOf q) :
    Published t' := by
  have hlimit : walk t.backend.forwarding 0 ([] ++ p.path) = none →
      t.backend.forwarding.length + p.path.length ≤ NODE_INDEX_LIMIT := by
    intro hnone
    rw [length_path]
    apply hroom
    cases hf : t.forwardingOf p with
    | none => rfl
    | some y => exact absurd hnone (h.walk_ne_none hf)
  obtain ⟨htree, hvalue⟩ := h.tree.insertAt x p.path rfl hlimit
  rw [← htrie] at htree hvalue
  exact h.change hs hp htree hvalue hfor

theorem Published.unpublish (hsome : t.forwardingOf p ≠ none)
    (hu : FibState.Unpublished t t' p) : Published t' := by
  cases hu with
  | next x htrie hfor => exact h.insert hs hp (fun hnone => absurd hnone hsome) htrie hfor
  | last cover hcovers htrie hfor =>
    obtain ⟨htree1, hvalue1⟩ := h.tree.removeAt p.path (p := []) rfl
    obtain ⟨htree2, hvalue2⟩ := htree1.removeAt p.path (p := []) rfl
    have hgone : ∀ k, valueAt (removeAt (removeAt t.backend.forwarding 0 p.path) 0 p.path) k =
        if k = p.path then none else valueAt t.backend.forwarding k := by
      intro k
      rw [hvalue2, hvalue1, List.nil_append]
      split
      · rfl
      · rfl
    cases cover with
    | none =>
      simp only [writeCover] at htrie
      rw [← htrie] at htree2 hgone
      exact h.change hs hp htree2 hgone hfor
    | some c =>
      obtain ⟨q, y⟩ := c
      obtain ⟨hq, hqy⟩ := hcovers q y rfl
      have hne : q.path ≠ p.path :=
        fun heq => hq (path_injective (aligned_of_forwardingOf hs hqy) hp heq)
      have hold := (h.value q.path y).mpr ⟨q, rfl, hqy⟩
      -- the cover is already there: writing it again takes no node
      have hwalk : walk (removeAt (removeAt t.backend.forwarding 0 p.path) 0 p.path) 0
          ([] ++ q.path) = none → (removeAt (removeAt t.backend.forwarding 0 p.path) 0
            p.path).length + q.path.length ≤ NODE_INDEX_LIMIT := by
        intro hnone
        have hv := hgone q.path
        rw [if_neg hne, hold] at hv
        unfold valueAt valueFrom at hv
        rw [List.nil_append] at hnone
        rw [hnone] at hv
        nomatch hv
      obtain ⟨htree3, hvalue3⟩ := htree2.insertAt y q.path rfl hwalk
      simp only [writeCover] at htrie
      rw [← htrie] at htree3 hvalue3
      refine h.change hs hp htree3 ?_ hfor
      intro k
      rw [hvalue3, hgone, List.nil_append]
      split
      · next hk =>
        rw [hk, if_neg hne, hold]
      · rfl

end

/-- The table counts and forwards the routes it was given. -/
structure Agrees (t : FibTable w D) (r : Routes w D) : Prop where
  references : ∀ p s, t.references p s = (r p s).map Prod.fst
  forwards : ∀ p s, get routeCmp (p, s) t.sourceForwarding = (r p s).map Prod.snd

theorem Agrees.references_ne_none (h : Agrees t r) (p : Net w) (s : ℕ) :
    t.references p s ≠ none ↔ r p s ≠ none := by
  rw [h.references, ne_eq, Option.map_eq_none_iff]

theorem Agrees.add (h : Agrees t r) (ha : FibState.Added registration t t' p s d x) :
    Agrees t' (r.add p s d) := by
  refine ⟨?_, ?_⟩
  · intro q s'
    rw [ha.references, h.references, h.references]
    unfold Routes.add
    split
    · rfl
    · rfl
  · intro q s'
    rw [ha.routes, h.forwards]
    unfold Routes.add
    by_cases hq : q = p ∧ s' = s
    · rw [if_pos hq, if_pos (by rw [hq.1, hq.2])]
      rfl
    · rw [if_neg hq, if_neg]
      intro heq
      exact hq (Prod.mk.inj heq)

theorem Routes.remove_of_none (h : r p s = none) : r.remove p s = r := by
  funext q s'
  unfold Routes.remove
  split
  · next hq =>
    rw [hq.1, hq.2, h]
    rfl
  · rfl

theorem forwardingOf_eq_none_iff (h : Indexed registration t) (ha : Agrees t r) :
    t.forwardingOf p = none ↔ ¬ r.Present p := by
  cases hg : get cmp p t.prefixes with
  | none =>
    refine iff_of_true (forwardingOf_none hg) ?_
    rintro ⟨s, hs⟩
    exact (ha.references_ne_none p s).mpr hs (references_none hg s)
  | some e =>
    obtain ⟨c, d, hhead, hroute, hfor, -⟩ := h.candidate_some hg
    refine iff_of_false ?_ (not_not.mpr ⟨c, ?_⟩)
    · rw [forwardingOf_eq hg, hfor]
      nofun
    · rw [ha.forwards] at hroute
      intro hnone
      rw [hnone] at hroute
      nomatch hroute

theorem forwardingOf_eq_some_iff (hkey : Function.Injective fun s => (registration s).key)
    (h : Indexed registration t) (ha : Agrees t r) :
    t.forwardingOf p = some d ↔ r.Best registration p d := by
  cases hg : get cmp p t.prefixes with
  | none =>
    rw [forwardingOf_none hg]
    refine iff_of_false nofun ?_
    rintro ⟨s, n, hs, -⟩
    refine (ha.references_ne_none p s).mpr ?_ (references_none hg s)
    rw [hs]
    nofun
  | some e =>
    obtain ⟨c, x, hhead, hroute, hfor, hbest⟩ := h.candidate_some hg
    rw [forwardingOf_eq hg, hfor]
    rw [ha.forwards] at hroute
    obtain ⟨⟨n, y⟩, hc, hy⟩ := Option.map_eq_some_iff.mp hroute
    obtain rfl : y = x := hy
    constructor
    · intro hd
      cases hd
      refine ⟨c, n, hc, ?_⟩
      intro s' hs'
      exact hbest s' ((ha.references_ne_none p s').mpr hs')
    · rintro ⟨s, m, hs, hmin⟩
      have hle := hmin c (by rw [hc]; nofun)
      have hge := hbest s ((ha.references_ne_none p s).mpr (by rw [hs]; nofun))
      have hsc : s = c := hkey (le_antisymm hle hge)
      rw [hsc, hc] at hs
      cases hs
      rfl

theorem Routes.remaining_eq (r : Routes w D) (p : Net w) (s : ℕ) :
    remaining ((r p s).map Prod.fst) =
      ((r p s).bind fun x => if 1 < x.1 then some (x.1 - 1, x.2) else none).map Prod.fst := by
  cases r p s with
  | none => rfl
  | some x =>
    obtain ⟨n, y⟩ := x
    match n with
    | 0 => rfl
    | 1 => rfl
    | n + 2 => simp [remaining]

theorem Agrees.remove (h : Agrees t r) (hrefs : ∀ q s', t'.references q s' = if q = p ∧ s' = s
      then remaining (t.references p s) else t.references q s')
    (hroutes : ∀ k, get routeCmp k t'.sourceForwarding =
      if k = (p, s) ∧ remaining (t.references p s) = none then none
      else get routeCmp k t.sourceForwarding) : Agrees t' (r.remove p s) := by
  refine ⟨?_, ?_⟩
  · intro q s'
    rw [hrefs, h.references, h.references, Routes.remaining_eq]
    unfold Routes.remove
    split
    · rfl
    · rfl
  · intro q s'
    rw [hroutes, h.references, h.forwards, Routes.remaining_eq]
    unfold Routes.remove
    by_cases hq : q = p ∧ s' = s
    · obtain ⟨rfl, rfl⟩ := hq
      cases hr : r q s' with
      | none => simp
      | some x =>
        by_cases hx : 1 < x.1
        · simp [hx]
        · simp [hx]
    · rw [if_neg hq, if_neg]
      rintro ⟨heq, -⟩
      exact hq (Prod.mk.inj heq)

theorem published_new : Published (FibTable.new : FibTable w D) where
  tree := tree_singleton
  value k d := by
    refine iff_of_false ?_ ?_
    · intro hv
      rw [show (FibTable.new : FibTable w D).backend.forwarding = [.empty] from rfl,
        valueAt_singleton] at hv
      nomatch hv
    · rintro ⟨p, -, hp⟩
      nomatch hp

theorem Published.lookup_eq_none_iff (h : Published t) (a : BitVec w) :
    t.forwardingLookup a = none ↔ ∀ p, p.contains a = true → t.forwardingOf p = none := by
  unfold FibTable.forwardingLookup IpFibBackend.forwardingLookup
  rw [lookup_eq, longest_eq_none_iff]
  constructor
  · intro hnone p hp
    rw [Option.eq_none_iff_forall_ne_some]
    intro d hd
    have hv := (h.value p.path d).mpr ⟨p, rfl, hd⟩
    rw [hnone _ (path_prefix_iff.mpr hp)] at hv
    nomatch hv
  · intro hnone k hk
    rw [Option.eq_none_iff_forall_ne_some]
    intro d hv
    obtain ⟨p, rfl, hp⟩ := (h.value k d).mp hv
    rw [hnone p (path_prefix_iff.mp hk)] at hp
    nomatch hp

theorem Published.lookup_eq_some_iff (h : Published t) (a : BitVec w) (d : D) :
    t.forwardingLookup a = some d ↔ ∃ p, p.contains a = true ∧ t.forwardingOf p = some d ∧
      ∀ q, q.contains a = true → t.forwardingOf q ≠ none → q.prefixLen ≤ p.prefixLen := by
  unfold FibTable.forwardingLookup IpFibBackend.forwardingLookup
  rw [lookup_eq, longest_eq_some_iff]
  constructor
  · rintro ⟨k, hk, hv, hmax⟩
    obtain ⟨p, rfl, hp⟩ := (h.value k d).mp hv
    refine ⟨p, path_prefix_iff.mp hk, hp, ?_⟩
    intro q hq hsome
    by_contra hlt
    obtain ⟨x, hx⟩ := Option.ne_none_iff_exists'.mp hsome
    have hv := (h.value q.path x).mpr ⟨q, rfl, hx⟩
    rw [hmax q.path (path_prefix_iff.mpr hq)] at hv
    · nomatch hv
    · rw [length_path, length_path]
      exact Nat.lt_of_not_le hlt
  · rintro ⟨p, hp, hd, hmax⟩
    refine ⟨p.path, path_prefix_iff.mpr hp, (h.value p.path d).mpr ⟨p, rfl, hd⟩, ?_⟩
    intro k hk hlt
    rw [Option.eq_none_iff_forall_ne_some]
    intro x hv
    obtain ⟨q, rfl, hq⟩ := (h.value k x).mp hv
    have hle := hmax q (path_prefix_iff.mp hk) (by rw [hq]; nofun)
    rw [length_path, length_path] at hlt
    exact absurd hlt (Nat.not_lt_of_le hle)

variable [DecidableEq D] [ForwardingDpo D]

/-- The invariant of a table and the routes it was given. -/
structure Consistent (registration : ℕ → FibSourceRegistration) (f : FibState w D)
    (r : Routes w D) : Prop where
  indexed : Indexed registration f.table
  balanced : f.Balanced
  agrees : Agrees f.table r

omit [ForwardingDpo D] in
theorem consistent_new : Consistent registration (.new : FibState w D) .empty where
  indexed := indexed_new
  balanced _ := rfl
  agrees := ⟨fun _ _ => rfl, fun _ _ => rfl⟩

theorem Consistent.add {e : ℕ} (hkey : Function.Injective fun s => (registration s).key)
    (h : Consistent registration f r) (hp : p.network = p.addr)
    (ha : f.addRoute registration p s d = (f', .ok e)) :
    Consistent registration f' (r.add p s d) ∧
      (Call.HasRoom f (.add p s d) → Published f.table → Published f'.table) := by
  obtain ⟨hb, x, hadded⟩ := addRoute_ok hkey h.indexed h.balanced hp ha
  refine ⟨⟨hadded.indexed, hb, h.agrees.add hadded⟩, ?_⟩
  intro hroom hpub
  refine hpub.insert h.indexed.toSourced hp ?_ hadded.trie hadded.forwardingOf
  intro hnone
  apply hroom
  cases hg : get cmp p f.table.prefixes with
  | none => rfl
  | some i =>
    obtain ⟨-, y, -, -, hy, -⟩ := h.indexed.candidate_some hg
    rw [forwardingOf_eq hg, hy] at hnone
    nomatch hnone

theorem Consistent.removeRoute_error {err : FibError} (h : Consistent registration f r)
    (ha : f.removeRoute p s = (f', .error err)) : f' = f := by
  have hcases := removeRoute_cases (p := p) (s := s) h.indexed
  rw [ha] at hcases
  cases hcases with
  | failed err => rfl

theorem Consistent.remove {b : Bool} (h : Consistent registration f r)
    (ha : f.removeRoute p s = (f', .ok b)) :
    Consistent registration f' (r.remove p s) ∧ (Published f.table → Published f'.table) := by
  have hcases := removeRoute_cases (p := p) (s := s) h.indexed
  rw [ha] at hcases
  cases hcases with
  | absent hnone =>
    have hrefs := h.agrees.references p s
    rw [hnone] at hrefs
    rw [Routes.remove_of_none (Option.map_eq_none_iff.mp hrefs.symm)]
    exact ⟨h, fun hpub => hpub⟩
  | @counted t e n hentry hcount hmany ht =>
    have hremoved : Removed f.table p s t true := by
      rw [ht]
      exact .counted hentry hcount hmany
    have hrefs := references_removed h.indexed.toSourced hremoved
    have hleft : remaining (f.table.references p s) ≠ none := by
      rw [FibTable.references_eq hentry, hcount]
      obtain ⟨m, rfl⟩ := Nat.exists_eq_add_of_le' hmany
      nofun
    have hroutes : t.sourceForwarding = f.table.sourceForwarding := by rw [ht]
    have hsame : t.prefixes = f.table.prefixes ∧ t.backend = f.table.backend ∧
        ∀ i, t.entry i = f.table.entry i := by
      rw [ht]
      exact ⟨rfl, rfl, fun _ => rfl⟩
    obtain ⟨hprefixes, hbackend, hentries⟩ := hsame
    refine ⟨⟨⟨h.indexed.toSourced.removed hremoved, ?_, ?_, ?_⟩, ?_, ?_⟩, ?_⟩
    · intro q s'
      rw [hroutes, h.indexed.forwards, hrefs]
      split
      · next hq =>
        rw [hq.1, hq.2]
        refine iff_of_false ?_ hleft
        intro hnone
        rw [hnone] at hleft
        exact hleft rfl
      · rfl
    · intro q i hq
      rw [hentries]
      exact h.indexed.present q i (hprefixes ▸ hq)
    · intro q i hq
      unfold candidate
      rw [hentries, hroutes]
      exact h.indexed.selected q i (hprefixes ▸ hq)
    · intro x
      rw [h.balanced x]
      unfold holders
      rw [hroutes]
    · apply h.agrees.remove hrefs
      intro k
      rw [hroutes, if_neg fun hk => hleft hk.2]
    · intro hpub
      refine ⟨by rw [hbackend]; exact hpub.tree, ?_⟩
      intro k d
      rw [hbackend, hpub.value]
      unfold forwardingOf
      simp only [hprefixes, hentries]
  | @withdrawn t hcount hw hu =>
    have hnone : remaining (f.table.references p s) = none := by
      rw [hcount]
      rfl
    refine ⟨⟨?_, h.balanced.settle (by simp) hw.routes, ?_⟩, ?_⟩
    · split
      · exact hw.indexed
      · exact hw.indexed
    · have hagrees : Agrees t (r.remove p s) := by
        apply h.agrees.remove hw.references
        intro k
        rw [hw.routes]
        simp [hnone]
      split
      · exact hagrees
      · exact hagrees
    · intro hpub
      have hpresent : f.table.forwardingOf p ≠ none := by
        rw [ne_eq, forwardingOf_eq_none_iff h.indexed h.agrees, not_not]
        refine ⟨s, (h.agrees.references_ne_none p s).mp ?_⟩
        rw [hcount]
        nofun
      obtain ⟨y, hy⟩ := Option.ne_none_iff_exists'.mp hpresent
      have hpub' := hpub.unpublish h.indexed.toSourced
        (aligned_of_forwardingOf h.indexed.toSourced hy) hpresent hu
      split
      · exact hpub'
      · exact hpub'

section

variable (hkey : Function.Injective fun s => (registration s).key)
include hkey

theorem Consistent.call {c : Call w D} (h : Consistent registration f r) (hc : c.Aligned) :
    Consistent registration (call registration f r c).1 (Fib.call registration f r c).2 ∧
      (c.HasRoom f → Published f.table → Published (Fib.call registration f r c).1.table) := by
  cases c with
  | add p s d =>
    simp only [Fib.call]
    split
    · next f' e ha => exact h.add hkey hc ha
    · next f' err ha =>
      rw [addRoute_error hkey h.indexed hc ha]
      exact ⟨h, fun _ hpub => hpub⟩
  | remove p s =>
    simp only [Fib.call]
    split
    · next f' b ha =>
      obtain ⟨hafter, hpub⟩ := h.remove ha
      exact ⟨hafter, fun _ => hpub⟩
    · next f' err ha =>
      rw [h.removeRoute_error ha]
      exact ⟨h, fun _ hpub => hpub⟩

theorem Execution.consistent
    {Allowed : FibState w D → Call w D → Prop} (haligned : ∀ f c, Allowed f c → c.Aligned)
    (h : Execution registration Allowed f r) : Consistent registration f r := by
  induction h with
  | new => exact consistent_new
  | call _ hc ih => exact (ih.call hkey (haligned _ _ hc)).1

theorem Execution.published (h : Execution registration Call.Fits f r) : Published f.table := by
  induction h with
  | new => exact published_new
  | call hbefore hc ih =>
    have hcons := hbefore.consistent hkey fun _ _ hc => hc.1
    exact (hcons.call hkey hc.1).2 hc.2 ih

end

omit [ForwardingDpo D] in
theorem Agrees.holders_eq (h : Agrees t r) (d : D) :
    (holders t d : Set (Net w × ℕ)) = r.holding d := by
  ext ⟨p, s⟩
  rw [Finset.mem_coe, mem_holders, h.forwards]
  constructor
  · intro hm
    obtain ⟨⟨n, y⟩, hr, rfl⟩ := Option.map_eq_some_iff.mp hm
    exact ⟨n, hr⟩
  · rintro ⟨n, hr⟩
    exact Option.map_eq_some_iff.mpr ⟨(n, d), hr, rfl⟩

/-- A lookup is the longest prefix match over the winning sources; the table holds one reference
per route; a call that fails changes nothing. -/
theorem lookup_is_longest_prefix_match
    (hkey : Function.Injective fun s => (registration s).key)
    (h : Execution registration Call.Fits f r) :
    (∀ a d, f.table.forwardingLookup a = some d ↔ r.Forwards registration a d) ∧
    (∀ a, f.table.forwardingLookup a = none ↔ ∀ p, p.contains a = true → ¬ r.Present p) ∧
    (∀ d, (r.holding d).Finite ∧ f.locks d = (r.holding d).ncard) ∧
    (∀ p s d f' err, p.network = p.addr →
      f.addRoute registration p s d = (f', .error err) → f' = f) ∧
    (∀ p s f' err, f.removeRoute p s = (f', .error err) → f' = f) := by
  have hcons := h.consistent hkey fun _ _ hc => hc.1
  have hpub := h.published hkey
  have hpresent : ∀ p, f.table.forwardingOf p = none ↔ ¬ r.Present p :=
    fun p => forwardingOf_eq_none_iff hcons.indexed hcons.agrees
  refine ⟨?_, ?_, ?_, ?_, ?_⟩
  · intro a d
    rw [hpub.lookup_eq_some_iff]
    unfold Routes.Forwards
    simp [forwardingOf_eq_some_iff hkey hcons.indexed hcons.agrees, hpresent]
  · intro a
    rw [hpub.lookup_eq_none_iff]
    simp only [hpresent]
  · intro d
    rw [← hcons.agrees.holders_eq, Set.ncard_coe_finset]
    exact ⟨Finset.finite_toSet _, hcons.balanced d⟩
  · intro p s d f' err hp ha
    exact FibState.addRoute_error hkey hcons.indexed hp ha
  · intro p s f' err ha
    exact hcons.removeRoute_error ha

structure LoadBalance where
  index : ℕ
  deriving DecidableEq, Repr

instance : ForwardingDpo LoadBalance := ⟨fun _ => true⟩

def inOrder (source : ℕ) : FibSourceRegistration := ⟨source, 0⟩

theorem inOrder_injective : Function.Injective fun s => (inOrder s).key := by
  intro a b hab
  exact congrArg (fun k => (ofLex k).1) hab

def ten : Net 32 := ⟨10#32 <<< 24, 8, by decide⟩

def tenOne : Net 32 := ⟨10#32 <<< 24 ||| 1#32 <<< 16, 16, by decide⟩

def nested : FibState 32 LoadBalance × Routes 32 LoadBalance :=
  let x := call inOrder .new .empty (.add ten 1 ⟨1⟩)
  let x := call inOrder x.1 x.2 (.add tenOne 2 ⟨2⟩)
  let x := call inOrder x.1 x.2 (.add tenOne 0 ⟨3⟩)
  call inOrder x.1 x.2 (.remove tenOne 2)

theorem nested_execution : Execution inOrder Call.Fits nested.1 nested.2 := by
  refine .call (.call (.call (.call .new ⟨?_, ?_⟩) ⟨?_, ?_⟩) ⟨?_, ?_⟩) ⟨?_, trivial⟩
  · decide
  · intro _
    decide
  · decide
  · intro _
    decide +kernel
  · decide
  · intro _
    decide +kernel
  · decide

theorem nested_prefix_match :
    nested.2.Forwards inOrder (10#32 <<< 24 ||| 1#32 <<< 16 ||| 7#32) ⟨3⟩ ∧
      nested.2.Forwards inOrder (10#32 <<< 24 ||| 2#32 <<< 16) ⟨1⟩ :=
  ⟨((lookup_is_longest_prefix_match inOrder_injective nested_execution).1 _ _).mp
      (by decide +kernel),
    ((lookup_is_longest_prefix_match inOrder_injective nested_execution).1 _ _).mp
      (by decide +kernel)⟩

theorem Net.host_aligned (a : BitVec w) : (host a).network = (host a).addr := by
  unfold host network mask
  simp

theorem Net.host_contains (a b : BitVec w) : (host a).contains b = true ↔ b = a := by
  unfold host contains network mask
  simp

theorem hosts_execution (n : ℕ) (hn : n ≤ 2 ^ 32) :
    ∃ (f : FibState 128 LoadBalance) (r : Routes 128 LoadBalance),
      Execution inOrder (fun _ c => c.Aligned) f r ∧ f.table.entries.length = n ∧
      Below NODE_INDEX_LIMIT f.table.backend.forwarding ∧
      ∀ p s, r p s = if ∃ i, i < n ∧ p = .host (BitVec.ofNat 128 i) ∧ s = 0
        then some (1, ⟨p.addr.toNat⟩) else none := by
  induction n with
  | zero =>
    refine ⟨.new, .empty, .new, rfl, below_singleton _, ?_⟩
    intro p s
    rw [if_neg]
    · rfl
    · rintro ⟨i, hi, -⟩
      exact absurd hi (Nat.not_lt_zero i)
  | succ n ih =>
    obtain ⟨f, r, hex, hlen, hbelow, hr⟩ := ih (by omega)
    have hcons := hex.consistent inOrder_injective fun _ _ hc => hc
    have hal := host_aligned (BitVec.ofNat 128 n)
    have hsmall : ∀ i, i < 2 ^ 32 → (BitVec.ofNat 128 i).toNat = i := by
      intro i hi
      exact Nat.mod_eq_of_lt (by omega)
    have habsent : ¬ r.Present (.host (BitVec.ofNat 128 n)) := by
      rintro ⟨s, hs⟩
      apply hs
      rw [hr, if_neg]
      rintro ⟨i, hi, heq, -⟩
      have := congrArg (fun p => p.addr.toNat) heq
      simp only [host] at this
      rw [hsmall n (by omega), hsmall i (by omega)] at this
      omega
    have hnew : get cmp (.host (BitVec.ofNat 128 n)) f.table.prefixes = none := by
      cases hg : get cmp (.host (BitVec.ofNat 128 n)) f.table.prefixes with
      | none => rfl
      | some e =>
        obtain ⟨-, y, -, -, hy, -⟩ := hcons.indexed.candidate_some hg
        have hnone := (forwardingOf_eq_none_iff hcons.indexed hcons.agrees).mpr habsent
        rw [forwardingOf_eq hg, hy] at hnone
        nomatch hnone
    obtain ⟨f', e, hadd⟩ := addRoute_fresh (s := 0) (d := (⟨n⟩ : LoadBalance))
      inOrder_injective hcons.indexed hal hnew (by omega) (fun _ => rfl)
    obtain ⟨-, x, hadded⟩ := addRoute_ok inOrder_injective hcons.indexed hcons.balanced hal hadd
    have hcall : call inOrder f r (.add (.host (BitVec.ofNat 128 n)) 0 ⟨n⟩) =
        (f', r.add (.host (BitVec.ofNat 128 n)) 0 ⟨n⟩) := by
      simp only [call, hadd]
    refine ⟨f', r.add (.host (BitVec.ofNat 128 n)) 0 ⟨n⟩, ?_, ?_, ?_, ?_⟩
    · have := Execution.call hex (c := .add (.host (BitVec.ofNat 128 n)) 0 ⟨n⟩) hal
      rwa [hcall] at this
    · rw [hadded.length hnew, hlen]
    · rw [hadded.trie]
      exact hbelow.insertAt x _ (by decide)
    · intro p s
      unfold Routes.add
      have hself : r (.host (BitVec.ofNat 128 n)) 0 = none := by
        by_contra hs
        exact habsent ⟨0, hs⟩
      rw [hself]
      split
      · next hp =>
        rw [if_pos ⟨n, Nat.lt_succ_self n, hp⟩, hp.1]
        simp only [host]
        rw [hsmall n (by omega)]
        rfl
      · next hp =>
        rw [hr]
        congr 1
        apply propext
        constructor
        · rintro ⟨i, hi, hpi⟩
          exact ⟨i, by omega, hpi⟩
        · rintro ⟨i, hi, hpi⟩
          refine ⟨i, ?_, hpi⟩
          by_contra hlt
          obtain rfl : i = n := by omega
          exact hp hpi

/-- Host routes enough to use up the node indices: some lookup is wrong. -/
theorem exhausted_indices_misroute :
    ∃ (f : FibState 128 LoadBalance) (r : Routes 128 LoadBalance),
      Execution inOrder (fun _ c => c.Aligned) f r ∧
      ¬ ((∀ a d, f.table.forwardingLookup a = some d ↔ r.Forwards inOrder a d) ∧
        ∀ a, f.table.forwardingLookup a = none ↔ ∀ p, p.contains a = true → ¬ r.Present p) := by
  obtain ⟨f, r, hex, -, hbelow, hr⟩ := hosts_execution (2 ^ 32) le_rfl
  refine ⟨f, r, hex, ?_⟩
  rintro ⟨hsome, hnone⟩
  have hpresent : ∀ p, r.Present p → ∃ i, i < 2 ^ 32 ∧ p = .host (BitVec.ofNat 128 i) := by
    rintro p ⟨s, hs⟩
    rw [hr] at hs
    by_contra hno
    apply hs
    rw [if_neg]
    rintro ⟨i, hi, hp, -⟩
    exact hno ⟨i, hi, hp⟩
  have hsmall : ∀ i, i < 2 ^ 32 → (BitVec.ofNat 128 i).toNat = i := by
    intro i hi
    exact Nat.mod_eq_of_lt (by omega)
  -- each host's object sits in a node of its own, below the limit
  have hnode : ∀ i : Fin (2 ^ 32), ∃ j : Fin (2 ^ 32),
      (node f.table.backend.forwarding j).value = some ⟨i⟩ := by
    intro i
    have hroute : r (.host (BitVec.ofNat 128 i)) 0 = some (1, ⟨i⟩) := by
      rw [hr, if_pos ⟨i, i.isLt, rfl, rfl⟩]
      simp only [Net.host]
      rw [hsmall i i.isLt]
    have hlookup : f.table.forwardingLookup (BitVec.ofNat 128 i) = some ⟨i⟩ := by
      rw [hsome]
      refine ⟨.host (BitVec.ofNat 128 i), (Net.host_contains _ _).mpr rfl, ⟨0, 1, hroute, ?_⟩, ?_⟩
      · intro s' hs'
        rw [hr] at hs'
        by_cases hex : ∃ k, k < 2 ^ 32 ∧
            (Net.host (BitVec.ofNat 128 i)) = .host (BitVec.ofNat 128 k) ∧ s' = 0
        · obtain ⟨-, -, -, rfl⟩ := hex
          exact le_rfl
        · rw [if_neg hex] at hs'
          exact absurd rfl hs'
      · intro q _ _
        exact q.le
    unfold FibTable.forwardingLookup IpFibBackend.forwardingLookup at hlookup
    rw [lookup_eq, longest_eq_some_iff] at hlookup
    obtain ⟨k, -, hv, -⟩ := hlookup
    obtain ⟨j, hj, hvalue⟩ := hbelow.valueAt (by decide) hv
    exact ⟨⟨j, hj⟩, hvalue⟩
  choose g hg using hnode
  have hinj : Function.Injective g := by
    intro i k hik
    have hi := hg i
    rw [hik, hg k] at hi
    have := congrArg LoadBalance.index (Option.some.inj hi)
    exact Fin.ext this.symm
  -- as many objects as nodes within reach: one of them is in the root
  obtain ⟨i, hi⟩ := Finite.surjective_of_injective hinj 0
  have hroot := hg i
  rw [hi] at hroot
  have hempty := (hnone (BitVec.ofNat 128 (2 ^ 32))).mpr ?_
  · unfold FibTable.forwardingLookup IpFibBackend.forwardingLookup at hempty
    rw [lookup_eq, longest_eq_none_iff] at hempty
    have hv := hempty [] List.nil_prefix
    change (node f.table.backend.forwarding 0).value = none at hv
    change (node f.table.backend.forwarding 0).value = _ at hroot
    rw [hv] at hroot
    nomatch hroot
  · intro p hp hin
    obtain ⟨k, hk, rfl⟩ := hpresent p hin
    have := congrArg BitVec.toNat ((Net.host_contains _ _).mp hp)
    rw [hsmall k hk, BitVec.toNat_ofNat] at this
    omega

end Fib
