import Mathlib.Data.List.GetD
import Mathlib.Data.List.Induction
import Mathlib.Logic.Function.Basic
import Mathlib.Order.Lattice
import Mathlib.Tactic.Ring

/-! # Binary tries in a vector of nodes

A map from bit strings to values, kept as a vector of nodes that name their children by position.
Positions are taken modulo a limit, as those of a fixed-width index type are. The lemmas read a trie
through `valueAt`, the value at the end of a path.
-/

namespace BinaryTrie

open List BinaryTrie Option

variable {V : Type*}

structure Node (V : Type*) where
  child : Bool → Option ℕ
  value : Option V

def Node.empty : Node V := ⟨fun _ => none, none⟩

def node (ns : List (Node V)) (i : ℕ) : Node V := ns.getD i .empty

/-- A new child for a node that has none on this side. -/
def grow (limit : ℕ) (ns : List (Node V)) (i : ℕ) (b : Bool) : List (Node V) :=
  (ns.modify i fun n => { n with child := Function.update n.child b (some (ns.length % limit)) }) ++
    [.empty]

def insertAt (limit : ℕ) (v : V) : List (Node V) → ℕ → List Bool → List (Node V)
  | ns, i, [] => ns.modify i fun n => { n with value := some v }
  | ns, i, b :: bs =>
    match (node ns i).child b with
    | some c => insertAt limit v ns c bs
    | none => insertAt limit v (grow limit ns i b) (ns.length % limit) bs

def removeAt (ns : List (Node V)) : ℕ → List Bool → List (Node V)
  | i, [] => ns.modify i fun n => { n with value := none }
  | i, b :: bs =>
    match (node ns i).child b with
    | some c => removeAt ns c bs
    | none => ns

def lookupFrom (ns : List (Node V)) : ℕ → Option V → List Bool → Option V
  | _, result, [] => result
  | i, result, b :: bs =>
    match (node ns i).child b with
    | some c => lookupFrom ns c ((node ns c).value.or result) bs
    | none => result

/-- The value of the longest initial part of a bit string that has one. -/
def longest (f : List Bool → Option V) : List Bool → Option V
  | [] => f []
  | b :: bs => (longest (fun k => f (b :: k)) bs).or (f [])

theorem longest_eq_none_iff {f : List Bool → Option V} {bs : List Bool} :
    longest f bs = none ↔ ∀ k, k <+: bs → f k = none := by
  induction bs generalizing f with
  | nil =>
    constructor
    · intro h k hk
      rw [prefix_nil.mp hk]
      exact h
    · intro h
      exact h [] nil_prefix
  | cons b bs ih =>
    rw [longest, or_eq_none_iff, ih]
    constructor
    · rintro ⟨hrest, hnil⟩ k hk
      rcases prefix_cons_iff.mp hk with rfl | ⟨t, rfl, ht⟩
      · exact hnil
      · exact hrest t ht
    · intro h
      exact ⟨fun k hk => h _ ((prefix_cons_inj b).mpr hk), h [] nil_prefix⟩

theorem longest_eq_some_iff {f : List Bool → Option V} {bs : List Bool} {v : V} :
    longest f bs = some v ↔ ∃ k, k <+: bs ∧ f k = some v ∧
      ∀ k', k' <+: bs → k.length < k'.length → f k' = none := by
  induction bs generalizing f with
  | nil =>
    simp only [longest, prefix_nil]
    constructor
    · intro h
      refine ⟨[], rfl, h, ?_⟩
      rintro k' rfl hlt
      exact absurd hlt (Nat.lt_irrefl _)
    · rintro ⟨k, rfl, h, -⟩
      exact h
  | cons b bs ih =>
    rw [longest, or_eq_some_iff, ih, longest_eq_none_iff]
    constructor
    · rintro (⟨k, hk, hv, hmax⟩ | ⟨hnone, hv⟩)
      · refine ⟨b :: k, (prefix_cons_inj b).mpr hk, hv, ?_⟩
        intro k' hk' hlt
        rcases prefix_cons_iff.mp hk' with rfl | ⟨t, rfl, ht⟩
        · exact absurd hlt (Nat.not_lt_zero _)
        · exact hmax t ht (Nat.lt_of_succ_lt_succ hlt)
      · refine ⟨[], nil_prefix, hv, ?_⟩
        intro k' hk' hlt
        rcases prefix_cons_iff.mp hk' with rfl | ⟨t, rfl, ht⟩
        · exact absurd hlt (Nat.lt_irrefl _)
        · exact hnone t ht
    · rintro ⟨k, hk, hv, hmax⟩
      rcases prefix_cons_iff.mp hk with rfl | ⟨t, rfl, ht⟩
      · refine Or.inr ⟨fun t ht => ?_, hv⟩
        exact hmax (b :: t) ((prefix_cons_inj b).mpr ht) (Nat.succ_pos _)
      · refine Or.inl ⟨t, ht, hv, fun k' hk' hlt => ?_⟩
        exact hmax (b :: k') ((prefix_cons_inj b).mpr hk') (Nat.succ_lt_succ hlt)

def walk (ns : List (Node V)) : ℕ → List Bool → Option ℕ
  | i, [] => some i
  | i, b :: bs => ((node ns i).child b).bind fun c => walk ns c bs

def valueFrom (ns : List (Node V)) (i : ℕ) (k : List Bool) : Option V :=
  (walk ns i k).bind fun j => (node ns j).value

def valueAt (ns : List (Node V)) (k : List Bool) : Option V := valueFrom ns 0 k

theorem walk_append (ns : List (Node V)) (i : ℕ) (k : List Bool) (b : Bool) :
    walk ns i (k ++ [b]) = (walk ns i k).bind fun j => (node ns j).child b := by
  induction k generalizing i with
  | nil => simp [walk]
  | cons a k ih =>
    simp only [cons_append, walk]
    cases (node ns i).child a with
    | none => rfl
    | some c => exact ih c

theorem walk_concat {ns : List (Node V)} {i j : ℕ} {p : List Bool} (h : walk ns i p = some j)
    (k : List Bool) : walk ns i (p ++ k) = walk ns j k := by
  induction p generalizing i with
  | nil =>
    cases h
    rfl
  | cons b p ih =>
    obtain ⟨c, hc, hw⟩ := bind_eq_some_iff.mp h
    rw [cons_append, walk, hc]
    exact ih hw

/-- A search on the way down finds the longest match below its node. -/
theorem lookupFrom_eq (ns : List (Node V)) (i : ℕ) (r : Option V) (bs : List Bool) :
    lookupFrom ns i ((node ns i).value.or r) bs = (longest (valueFrom ns i) bs).or r := by
  induction bs generalizing i r with
  | nil => rfl
  | cons b bs ih =>
    unfold lookupFrom
    rw [longest]
    cases hc : (node ns i).child b with
    | none =>
      have hnone : longest (fun k => valueFrom ns i (b :: k)) bs = none := by
        apply longest_eq_none_iff.mpr
        intro k _
        unfold valueFrom walk
        rw [hc]
        rfl
      rw [hnone]
      rfl
    | some c =>
      have hbelow : (fun k => valueFrom ns i (b :: k)) = valueFrom ns c := by
        funext k
        unfold valueFrom
        rw [walk, hc]
        rfl
      dsimp only
      rw [hbelow, ih, Option.or_assoc]
      rfl

theorem lookup_eq (ns : List (Node V)) (bs : List Bool) :
    lookupFrom ns 0 (node ns 0).value bs = longest (valueAt ns) bs := by
  have := lookupFrom_eq ns 0 none bs
  rwa [or_none, or_none] at this

/-- The nodes form a tree with its root in front. -/
structure Tree (ns : List (Node V)) : Prop where
  root : 0 < ns.length
  child : ∀ i b c, (node ns i).child b = some c → i < c ∧ c < ns.length
  parent : ∀ i b j d c, (node ns i).child b = some c → (node ns j).child d = some c → i = j ∧ b = d

variable {ns ns' : List (Node V)} {i j limit : ℕ} {b : Bool} {k p : List Bool} {v : V}

theorem tree_singleton : Tree [(Node.empty : Node V)] := by
  refine ⟨Nat.one_pos, ?_, ?_⟩
  · intro i b c h
    cases i <;> nomatch h
  · intro i b j d c h
    cases i <;> nomatch h

theorem valueAt_singleton (k : List Bool) : valueAt [(Node.empty : Node V)] k = none := by
  cases k <;> rfl

theorem Tree.walk_lt (h : Tree ns) (hw : walk ns 0 k = some i) : i < ns.length := by
  induction k using reverseRecOn generalizing i with
  | nil =>
    cases hw
    exact h.root
  | append_singleton k b ih =>
    rw [walk_append] at hw
    obtain ⟨j, -, hc⟩ := bind_eq_some_iff.mp hw
    exact (h.child j b i hc).2

theorem Tree.walk_inj (h : Tree ns) {k' : List Bool} (hk : walk ns 0 k = some i)
    (hk' : walk ns 0 k' = some i) : k = k' := by
  induction k using reverseRecOn generalizing i k' with
  | nil =>
    cases hk
    rcases eq_nil_or_concat k' with rfl | ⟨t, b, rfl⟩
    · rfl
    · rw [concat_eq_append, walk_append] at hk'
      obtain ⟨j, -, hc⟩ := bind_eq_some_iff.mp hk'
      exact absurd (h.child j b 0 hc).1 (Nat.not_lt_zero j)
  | append_singleton k b ih =>
    rw [walk_append] at hk
    obtain ⟨j, hj, hc⟩ := bind_eq_some_iff.mp hk
    rcases eq_nil_or_concat k' with rfl | ⟨t, d, rfl⟩
    · cases hk'
      exact absurd (h.child j b 0 hc).1 (Nat.not_lt_zero j)
    · rw [concat_eq_append, walk_append] at hk'
      obtain ⟨j', hj', hc'⟩ := bind_eq_some_iff.mp hk'
      obtain ⟨rfl, rfl⟩ := h.parent j b j' d i hc hc'
      rw [ih hj hj', concat_eq_append]

theorem node_modify (f : Node V → Node V) (hi : i < ns.length) :
    node (ns.modify i f) j = if j = i then f (node ns i) else node ns j := by
  unfold node
  by_cases hji : j = i
  · subst hji
    simp [hi]
  · rw [if_neg hji]
    cases ns[j]? <;> simp [Ne.symm hji]

theorem walk_congr (h : ∀ j b, (node ns' j).child b = (node ns j).child b) (i : ℕ)
    (k : List Bool) : walk ns' i k = walk ns i k := by
  induction k generalizing i with
  | nil => rfl
  | cons b k ih =>
    unfold walk
    rw [h, funext ih]

theorem Tree.setValue (h : Tree ns) (hp : walk ns 0 p = some i) (x : Option V) :
    Tree (ns.modify i fun n => { n with value := x }) ∧
      ∀ k, valueAt (ns.modify i fun n => { n with value := x }) k =
        if k = p then x else valueAt ns k := by
  have hi := h.walk_lt hp
  have hchild : ∀ j b, (node (ns.modify i fun n => { n with value := x }) j).child b =
      (node ns j).child b := by
    intro j b
    rw [node_modify _ hi]
    split
    · next hj => rw [hj]
    · rfl
  refine ⟨⟨?_, ?_, ?_⟩, ?_⟩
  · rw [length_modify]
    exact h.root
  · intro j b c hc
    rw [hchild] at hc
    rw [length_modify]
    exact h.child j b c hc
  · intro j b j' d c hc hc'
    rw [hchild] at hc hc'
    exact h.parent j b j' d c hc hc'
  · intro k
    unfold valueAt valueFrom
    rw [walk_congr hchild]
    cases hk : walk ns 0 k with
    | none =>
      have hne : k ≠ p := by
        rintro rfl
        rw [hk] at hp
        nomatch hp
      rw [if_neg hne]
      rfl
    | some j =>
      simp only [bind_some]
      rw [node_modify _ hi]
      by_cases hji : j = i
      · subst hji
        rw [if_pos rfl, if_pos (h.walk_inj hk hp)]
      · have hne : k ≠ p := by
          rintro rfl
          rw [hk] at hp
          exact hji (some.inj hp)
        rw [if_neg hji, if_neg hne]

theorem node_append_empty (ns : List (Node V)) (j : ℕ) :
    node (ns ++ [Node.empty]) j = node ns j := by
  unfold node
  rcases Nat.lt_trichotomy j ns.length with hlt | heq | hgt
  · rw [getD_append _ _ _ _ hlt]
  · rw [getD_append_right _ _ _ _ (le_of_eq heq.symm), heq, Nat.sub_self,
      getD_eq_default _ _ (le_refl _)]
    rfl
  · rw [getD_eq_default _ _ (by simp; omega), getD_eq_default _ _ (by omega)]

theorem child_grow (hi : i < ns.length) (hlimit : ns.length < limit) (j : ℕ) (d : Bool) :
    (node (grow limit ns i b) j).child d =
      if j = i ∧ d = b then some ns.length else (node ns j).child d := by
  unfold grow
  rw [node_append_empty, node_modify _ hi, Nat.mod_eq_of_lt hlimit]
  by_cases hj : j = i
  · subst hj
    by_cases hd : d = b
    · subst hd
      simp
    · simp [hd]
  · simp [hj]

theorem value_grow (hi : i < ns.length) (j : ℕ) :
    (node (grow limit ns i b) j).value = (node ns j).value := by
  unfold grow
  rw [node_append_empty, node_modify _ hi]
  split
  · next hj => rw [hj]
  · rfl

theorem length_grow : (grow limit ns i b).length = ns.length + 1 := by
  simp [grow]

theorem child_of_length_le (hj : ns.length ≤ j) (d : Bool) : (node ns j).child d = none := by
  unfold node
  rw [getD_eq_default _ _ hj]
  rfl

theorem value_of_length_le (hj : ns.length ≤ j) : (node ns j).value = none := by
  unfold node
  rw [getD_eq_default _ _ hj]
  rfl

theorem Tree.grow (h : Tree ns) (hi : i < ns.length) (hlimit : ns.length < limit) :
    Tree (grow limit ns i b) := by
  refine ⟨?_, ?_, ?_⟩
  · rw [length_grow]
    exact Nat.succ_pos _
  · intro j d c hc
    rw [child_grow hi hlimit] at hc
    rw [length_grow]
    split at hc
    · next hj =>
      cases hc
      rw [hj.1]
      exact ⟨hi, Nat.lt_succ_self _⟩
    · have := h.child j d c hc
      omega
  · intro j d j' d' c hc hc'
    rw [child_grow hi hlimit] at hc hc'
    split at hc
    · next hj =>
      cases hc
      split at hc'
      · next hj' => exact ⟨hj.1.trans hj'.1.symm, hj.2.trans hj'.2.symm⟩
      · exact absurd (h.child j' d' _ hc').2 (Nat.lt_irrefl _)
    · split at hc'
      · cases hc'
        exact absurd (h.child j d _ hc).2 (Nat.lt_irrefl _)
      · exact h.parent j d j' d' c hc hc'

theorem walk_grow (hi : i < ns.length) (hlimit : ns.length < limit)
    (hb : (node ns i).child b = none) :
    walk (grow limit ns i b) 0 k = walk ns 0 k ∨
      walk ns 0 k = none ∧ walk (grow limit ns i b) 0 k = some ns.length := by
  induction k using reverseRecOn with
  | nil => exact Or.inl rfl
  | append_singleton k d ih =>
    rw [walk_append, walk_append]
    rcases ih with heq | ⟨hnone, hnew⟩
    · rw [heq]
      cases hk : walk ns 0 k with
      | none => exact Or.inl rfl
      | some j =>
        simp only [bind_some]
        rw [child_grow hi hlimit]
        split
        · next hj =>
          rw [hj.1, hj.2]
          exact Or.inr ⟨hb, rfl⟩
        · exact Or.inl rfl
    · rw [hnone, hnew]
      simp only [bind_some, bind_none]
      rw [child_grow hi hlimit, if_neg fun hj => absurd hj.1 (by omega),
        child_of_length_le (le_refl _)]
      exact Or.inl rfl

theorem valueAt_grow (hi : i < ns.length) (hlimit : ns.length < limit)
    (hb : (node ns i).child b = none) (k : List Bool) :
    valueAt (grow limit ns i b) k = valueAt ns k := by
  unfold valueAt valueFrom
  simp only [value_grow hi]
  rcases walk_grow hi hlimit hb with heq | ⟨hnone, hnew⟩
  · rw [heq]
  · rw [hnone, hnew]
    exact value_of_length_le (le_refl _)

/-- Insertion sets the value of one path, as long as no position is cut off. -/
theorem Tree.insertAt (v : V) (bs : List Bool) (h : Tree ns) (hp : walk ns 0 p = some i)
    (hlimit : walk ns 0 (p ++ bs) = none → ns.length + bs.length ≤ limit) :
    Tree (insertAt limit v ns i bs) ∧ ∀ k, valueAt (BinaryTrie.insertAt limit v ns i bs) k =
        if k = p ++ bs then some v else valueAt ns k := by
  induction bs generalizing ns i p with
  | nil =>
    rw [append_nil]
    exact h.setValue hp (some v)
  | cons b bs ih =>
    have hi := h.walk_lt hp
    have hkey : p ++ b :: bs = (p ++ [b]) ++ bs := by simp
    rw [length_cons] at hlimit
    unfold BinaryTrie.insertAt
    cases hc : (node ns i).child b with
    | some c =>
      rw [hkey] at hlimit ⊢
      refine ih h ?_ fun hnone => by have := hlimit hnone; omega
      rw [walk_append, hp]
      exact hc
    | none =>
      have hroom : ns.length + (bs.length + 1) ≤ limit := by
        apply hlimit
        rw [walk_concat hp, walk, hc]
        rfl
      have hlt : ns.length < limit := by omega
      rw [hkey]
      have hnew : walk (BinaryTrie.grow limit ns i b) 0 (p ++ [b]) = some ns.length := by
        have hold : walk (BinaryTrie.grow limit ns i b) 0 p = some i := by
          rcases walk_grow (k := p) hi hlt hc with heq | ⟨hnone, -⟩
          · rw [heq, hp]
          · rw [hp] at hnone
            nomatch hnone
        rw [walk_append, hold]
        simp only [bind_some]
        rw [child_grow hi hlt, if_pos ⟨rfl, rfl⟩]
      rw [Nat.mod_eq_of_lt hlt]
      obtain ⟨htree, hvalue⟩ := ih (h.grow hi hlt) hnew fun _ => by rw [length_grow]; omega
      refine ⟨htree, fun k => ?_⟩
      rw [hvalue, valueAt_grow hi hlt hc]

theorem Tree.removeAt (bs : List Bool) (h : Tree ns) (hp : walk ns 0 p = some i) :
    Tree (removeAt ns i bs) ∧ ∀ k, valueAt (removeAt ns i bs) k =
        if k = p ++ bs then none else valueAt ns k := by
  induction bs generalizing i p with
  | nil =>
    rw [append_nil]
    exact h.setValue hp none
  | cons b bs ih =>
    have hkey : p ++ b :: bs = (p ++ [b]) ++ bs := by simp
    unfold removeAt
    rw [hkey]
    cases hc : (node ns i).child b with
    | some c =>
      apply ih
      rw [walk_append, hp]
      exact hc
    | none =>
      refine ⟨h, fun k => ?_⟩
      by_cases hk : k = p ++ [b] ++ bs
      · have hnone : walk ns i (b :: bs) = none := by
          rw [walk, hc]
          rfl
        rw [if_pos hk, hk, ← hkey]
        unfold valueAt valueFrom
        rw [walk_concat hp, hnone]
        rfl
      · rw [if_neg hk]

/-- Every child is named by an index below the limit. -/
def Below (limit : ℕ) (ns : List (Node V)) : Prop :=
  ∀ i b c, (node ns i).child b = some c → c < limit

theorem below_singleton (limit : ℕ) : Below limit [(Node.empty : Node V)] := by
  intro i b c h
  cases i <;> nomatch h

theorem Below.setValue (h : Below limit ns) (x : Option V) :
    Below limit (ns.modify i fun n => { n with value := x }) := by
  intro j b c hc
  by_cases hi : i < ns.length
  · rw [node_modify _ hi] at hc
    split at hc
    · exact h i b c hc
    · exact h j b c hc
  · rw [modify_eq_self (Nat.le_of_not_lt hi)] at hc
    exact h j b c hc

theorem Below.grow (h : Below limit ns) (hlimit : 0 < limit) : Below limit (grow limit ns i b) := by
  intro j d c hc
  unfold BinaryTrie.grow node at hc
  by_cases hj : j < ns.length
  · rw [getD_append _ _ _ _ (by rwa [length_modify])] at hc
    change (node (ns.modify i _) j).child d = some c at hc
    by_cases hi : i < ns.length
    · rw [node_modify _ hi] at hc
      split at hc
      · dsimp only at hc
        rw [Function.update_apply] at hc
        split at hc
        · cases hc
          exact Nat.mod_lt _ hlimit
        · exact h i d c hc
      · exact h j d c hc
    · rw [modify_eq_self (Nat.le_of_not_lt hi)] at hc
      exact h j d c hc
  · have hlen := Nat.le_of_not_lt hj
    rw [getD_append_right _ _ _ _ (by rwa [length_modify]), length_modify] at hc
    cases hk : j - ns.length with
    | zero =>
      rw [hk] at hc
      nomatch hc
    | succ k =>
      rw [hk] at hc
      nomatch hc

theorem Below.insertAt (v : V) (bs : List Bool) (h : Below limit ns)
    (hlimit : 0 < limit) : Below limit (insertAt limit v ns i bs) := by
  induction bs generalizing ns i with
  | nil => exact h.setValue (some v)
  | cons b bs ih =>
    unfold insertAt
    split
    · exact ih h
    · exact ih (h.grow hlimit)

theorem Below.valueAt (h : Below limit ns) (hlimit : 0 < limit)
    (hv : valueAt ns k = some v) : ∃ j, j < limit ∧ (node ns j).value = some v := by
  obtain ⟨j, hj, hvalue⟩ := bind_eq_some_iff.mp hv
  refine ⟨j, ?_, hvalue⟩
  rcases eq_nil_or_concat k with rfl | ⟨t, b, rfl⟩
  · cases hj
    exact hlimit
  · rw [concat_eq_append, walk_append] at hj
    obtain ⟨i, -, hc⟩ := bind_eq_some_iff.mp hj
    exact h i b j hc

end BinaryTrie
