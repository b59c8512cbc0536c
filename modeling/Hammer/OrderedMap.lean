import Mathlib.Data.List.Nodup
import Mathlib.Order.Compare
import Mathlib.Order.Lattice
import Mathlib.Tactic.Ring

/-! # Ordered maps

Association lists kept in the order of a comparison. The comparison need not be an order
on the whole key type; the lemmas about positions ask for a rank that it agrees with on the
keys in use. They stand for the red-black tree of `hammer-infra` and the maps of the standard
library by what a caller sees of them; how these balance themselves is not modelled.
-/
namespace OrderedMap

open List

variable {K V L : Type*} (cmp : K → K → Ordering)

def get (k : K) (m : List (K × V)) : Option V :=
  (m.find? fun e => cmp k e.1 == .eq).map Prod.snd

def containsKey (k : K) (m : List (K × V)) : Bool := (get cmp k m).isSome

/-- Assignment through `get_mut`. -/
def modify (k : K) (f : V → V) (m : List (K × V)) : List (K × V) :=
  m.map fun e => if cmp k e.1 == .eq then (e.1, f e.2) else e

def insert (k : K) (v : V) : List (K × V) → List (K × V)
  | [] => [(k, v)]
  | e :: m =>
    match cmp k e.1 with
    | .lt => (k, v) :: e :: m
    | .eq => (e.1, v) :: m
    | .gt => e :: insert k v m

def erase (k : K) (m : List (K × V)) : List (K × V) :=
  m.filter fun e => cmp k e.1 != .eq

/-- The greatest key below `k`. -/
def predecessor (k : K) (m : List (K × V)) : Option (K × V) :=
  (m.filter fun e => cmp k e.1 == .gt).getLast?

/-- The least key above `k`. -/
def successor (k : K) (m : List (K × V)) : Option (K × V) :=
  m.find? fun e => cmp k e.1 == .lt

def keys (m : List (K × V)) : List K := m.map Prod.fst

variable {cmp} {e : K × V} {k : K} {v : V}

@[simp] theorem keys_cons (e : K × V) (m : List (K × V)) : keys (e :: m) = e.1 :: keys m := rfl

theorem mem_keys {m : List (K × V)} (h : e ∈ m) : e.1 ∈ keys m :=
  mem_map_of_mem h

@[simp] theorem keys_modify (k : K) (f : V → V) (m : List (K × V)) :
    keys (modify cmp k f m) = keys m := by
  simp only [keys, modify, map_map]
  refine map_congr_left fun e _ => ?_
  simp only [Function.comp_apply]
  split <;> rfl

theorem insert_append {xs ys : List (K × V)} (hx : ∀ e ∈ xs, cmp k e.1 = .gt)
    (hy : ∀ e ∈ ys, cmp k e.1 = .lt) : insert cmp k v (xs ++ ys) = xs ++ (k, v) :: ys := by
  induction xs with
  | nil =>
    cases ys with
    | nil => rfl
    | cons y ys => simp [insert, hy y (by simp)]
  | cons x xs ih =>
    rw [cons_append, insert, hx x (by simp)]
    simp only [cons_append]
    rw [ih fun e he => hx e (by simp [he])]

theorem erase_append {xs ys : List (K × V)} (hk : cmp k k = .eq)
    (hxy : ∀ e ∈ xs ++ ys, cmp k e.1 ≠ .eq) : erase cmp k (xs ++ (k, v) :: ys) = xs ++ ys := by
  unfold erase
  rw [filter_append, filter_cons, hk]
  simp only [bne_self_eq_false, Bool.false_eq_true, if_false]
  rw [← filter_append, filter_eq_self]
  intro e he
  simpa using hxy e he

section Lookup

variable (hcmp : ∀ a b, cmp a b = .eq ↔ a = b)
include hcmp

variable {m : List (K × V)}

theorem insert_perm (hk : k ∉ keys m) : (insert cmp k v m).Perm ((k, v) :: m) := by
  induction m with
  | nil => exact .refl _
  | cons e m ih =>
    rw [keys_cons, mem_cons, not_or] at hk
    rw [insert]
    split
    · exact .refl _
    · rename_i he
      exact absurd ((hcmp _ _).mp he) hk.1
    · exact ((ih hk.2).cons e).trans (.swap _ _ _)

theorem mem_erase : e ∈ erase cmp k m ↔ e ∈ m ∧ e.1 ≠ k := by
  have : (cmp k e.1 != .eq) = true ↔ e.1 ≠ k := by
    rw [bne_iff_ne, ne_eq, hcmp]
    exact ⟨Ne.symm, Ne.symm⟩
  rw [erase, mem_filter, this]

variable [DecidableEq K]

theorem get_cons (k : K) (e : K × V) (m : List (K × V)) :
    get cmp k (e :: m) = if k = e.1 then some e.2 else get cmp k m := by
  unfold get
  by_cases h : k = e.1
  · subst h
    simp [(hcmp e.1 e.1).mpr rfl]
  · have : (cmp k e.1 == .eq) = false := by simpa using mt (hcmp k e.1).mp h
    simp [h, this]

theorem get_modify (k k' : K) (f : V → V) (m : List (K × V)) : get cmp k' (modify cmp k f m) =
      if k' = k then (get cmp k' m).map f else get cmp k' m := by
  induction m with
  | nil => simp [modify, get]
  | cons e m ih =>
    have hm : modify cmp k f (e :: m) =
        (if cmp k e.1 == .eq then (e.1, f e.2) else e) :: modify cmp k f m := rfl
    rw [hm, get_cons hcmp, get_cons hcmp, ih]
    by_cases he : k = e.1
    · subst he
      have hb : (cmp e.1 e.1 == .eq) = true := by simpa using (hcmp e.1 e.1).mpr rfl
      rw [if_pos hb]
      by_cases hk : k' = e.1 <;> simp [hk]
    · have hb : (cmp k e.1 == .eq) = false := by simpa using mt (hcmp k e.1).mp he
      by_cases hk : k' = e.1
      · simp [hb, hk, Ne.symm he]
      · simp [hb, hk]

theorem get_modify_some {k : K} {v : V} {m : List (K × V)} (h : get cmp k m = some v) (f : V → V)
    (k' : K) : get cmp k' (modify cmp k f m) = if k' = k then some (f v) else get cmp k' m := by
  rw [get_modify hcmp]
  split
  · next hk => rw [hk, h, Option.map_some]
  · rfl

theorem get_insert (k k' : K) (v : V) (m : List (K × V)) :
    get cmp k' (insert cmp k v m) = if k' = k then some v else get cmp k' m := by
  induction m with
  | nil =>
    rw [insert, get_cons hcmp]
  | cons e m ih =>
    rw [insert]
    split
    · rw [get_cons hcmp]
    · rename_i he
      rw [hcmp] at he
      rw [get_cons hcmp, get_cons hcmp]
      by_cases hk : k' = e.1 <;> simp [he, hk]
    · rename_i he
      have hne : k ≠ e.1 := fun h => by simp [(hcmp k e.1).mpr h] at he
      rw [get_cons hcmp, get_cons hcmp, ih]
      by_cases hk : k' = e.1
      · simp [hk, Ne.symm hne]
      · simp [hk]

theorem get_erase (k k' : K) (m : List (K × V)) :
    get cmp k' (erase cmp k m) = if k' = k then none else get cmp k' m := by
  induction m with
  | nil => simp [erase, get]
  | cons e m ih =>
    unfold erase at ih ⊢
    rw [filter_cons]
    by_cases he : k = e.1
    · have hb : (cmp k e.1 != .eq) = false := by simpa using (hcmp k e.1).mpr he
      simp only [hb, Bool.false_eq_true, if_false, ih, get_cons hcmp]
      by_cases hk : k' = k
      · simp [hk]
      · rw [if_neg hk, if_neg hk, if_neg (he ▸ hk)]
    · have hb : (cmp k e.1 != .eq) = true := by simpa using mt (hcmp k e.1).mp he
      simp only [hb, if_true, get_cons hcmp, ih]
      by_cases hk : k' = e.1
      · simp [hk, Ne.symm he]
      · simp [hk]

theorem get_eq_some_iff (hm : (keys m).Nodup) : get cmp k m = some v ↔ (k, v) ∈ m := by
  induction m with
  | nil => simp [get]
  | cons e m ih =>
    rw [keys_cons, nodup_cons] at hm
    rw [get_cons hcmp, mem_cons]
    by_cases hk : k = e.1
    · subst hk
      simp only [if_true, Option.some.injEq]
      constructor
      · rintro rfl; exact Or.inl rfl
      · rintro (h | h)
        · rw [← h]
        · exact absurd (mem_keys h) hm.1
    · rw [if_neg hk, ih hm.2]
      constructor
      · exact Or.inr
      · rintro (h | h)
        · exact absurd (congrArg Prod.fst h) hk
        · exact h

theorem get_eq_none_iff : get cmp k m = none ↔ k ∉ keys m := by
  induction m with
  | nil => simp [get, keys]
  | cons e m ih =>
    rw [get_cons hcmp]
    by_cases hk : k = e.1 <;> simp [hk, ih]

end Lookup

section Rank

variable [LinearOrder L] (r : K → L)

/-- On the keys `ks` the comparison is that of the ranks. -/
def Ranks (cmp : K → K → Ordering) (ks : List K) : Prop :=
  ∀ a ∈ ks, ∀ b ∈ ks, cmp a b = compare (r a) (r b)

def Sorted (m : List (K × V)) : Prop := m.Pairwise fun a b => r a.1 < r b.1

variable {r}

section

variable {m : List (K × V)} (h : Sorted r m)
include h

theorem Sorted.keys_nodup : (keys m).Nodup := by
  unfold keys
  rw [List.Nodup, pairwise_map]
  exact h.imp fun hab e => absurd hab (by rw [e]; exact lt_irrefl _)

theorem Sorted.erase (k : K) : Sorted r (OrderedMap.erase cmp k m) := List.Pairwise.filter _ h

theorem Sorted.insert (hr : Ranks r cmp (k :: keys m)) :
    Sorted r (OrderedMap.insert cmp k v m) := by
  induction m with
  | nil => simp [OrderedMap.insert, Sorted]
  | cons e m ih =>
    unfold Sorted at *
    rw [pairwise_cons] at h
    have hke : cmp k e.1 = compare (r k) (r e.1) := hr k (by simp) e.1 (by simp)
    have hins : ∀ x ∈ OrderedMap.insert cmp k v m, x.1 = k ∨ x.1 ∈ keys m := by
      clear ih h hr hke
      induction m with
      | nil => simp_all [OrderedMap.insert]
      | cons d m ih =>
        intro x hx
        rw [OrderedMap.insert] at hx
        split at hx
        · rcases mem_cons.mp hx with rfl | hx
          · exact Or.inl rfl
          · exact Or.inr (mem_keys hx)
        · rcases mem_cons.mp hx with rfl | hx
          · exact Or.inr (by simp)
          · exact Or.inr (by simp [mem_keys hx])
        · rcases mem_cons.mp hx with rfl | hx
          · exact Or.inr (by simp)
          · rcases ih x hx with h | h
            · exact Or.inl h
            · exact Or.inr (by simp [h])
    rw [OrderedMap.insert]
    split
    · rename_i he
      rw [hke, compare_lt_iff_lt] at he
      refine pairwise_cons.mpr ⟨fun x hx => ?_, pairwise_cons.mpr h⟩
      rcases mem_cons.mp hx with rfl | hx
      · exact he
      · exact he.trans (h.1 x hx)
    · exact pairwise_cons.mpr h
    · rename_i he
      rw [hke, compare_gt_iff_gt] at he
      refine pairwise_cons.mpr ⟨fun x hx => ?_, ih h.2 fun a ha b hb => hr a ?_ b ?_⟩
      · rcases hins x hx with hk | hk
        · rw [hk]; exact he
        · obtain ⟨y, hy, e'⟩ := mem_map.mp hk
          rw [← e']
          exact h.1 y hy
      · simp only [mem_cons, keys_cons] at ha ⊢
        rcases ha with h | h <;> simp [h]
      · simp only [mem_cons, keys_cons] at hb ⊢
        rcases hb with h | h <;> simp [h]

theorem first_spec (he : m.head? = some e) : e ∈ m ∧ ∀ x ∈ m, r e.1 ≤ r x.1 := by
  cases m with
  | nil => simp at he
  | cons d m =>
    obtain rfl := by simpa using he
    refine ⟨by simp, fun x hx => ?_⟩
    rcases mem_cons.mp hx with rfl | hx
    · exact le_rfl
    · exact ((pairwise_cons.mp h).1 x hx).le

end

variable {k : K} {m : List (K × V)}

theorem predecessor_eq_none (hr : Ranks r cmp (k :: keys m))
    (he : predecessor cmp k m = none) : ∀ x ∈ m, r k ≤ r x.1 := by
  intro x hx
  rw [predecessor, getLast?_eq_none_iff, filter_eq_nil_iff] at he
  have := he x hx
  rw [hr k (by simp) x.1 (by simp [mem_keys hx])] at this
  simpa [compare_gt_iff_gt] using this

theorem predecessor_eq_some (h : Sorted r m) (hr : Ranks r cmp (k :: keys m))
    (he : predecessor cmp k m = some e) :
    e ∈ m ∧ r e.1 < r k ∧ ∀ x ∈ m, r x.1 < r k → r x.1 ≤ r e.1 := by
  have hcmp : ∀ x ∈ m, ((cmp k x.1 == .gt) = true ↔ r x.1 < r k) := by
    intro x hx
    rw [hr k (by simp) x.1 (by simp [mem_keys hx])]
    simp [compare_gt_iff_gt]
  have hmem := mem_of_getLast? he
  obtain ⟨hm, hk⟩ := mem_filter.mp hmem
  refine ⟨hm, (hcmp e hm).mp hk, fun x hx hlt => ?_⟩
  obtain ⟨l, hl⟩ := getLast?_eq_some_iff.mp he
  have hsorted : Sorted r (m.filter fun e => cmp k e.1 == .gt) := List.Pairwise.filter _ h
  rw [hl] at hsorted
  have hx' : x ∈ l ++ [e] := by
    rw [← hl]
    exact mem_filter.mpr ⟨hx, (hcmp x hx).mpr hlt⟩
  rcases mem_append.mp hx' with hx' | hx'
  · exact ((pairwise_append.mp hsorted).2.2 x hx' e (by simp)).le
  · rw [mem_singleton.mp hx']

theorem successor_eq_none (hr : Ranks r cmp (k :: keys m))
    (he : successor cmp k m = none) : ∀ x ∈ m, r x.1 ≤ r k := by
  intro x hx
  have := find?_eq_none.mp he x hx
  rw [hr k (by simp) x.1 (by simp [mem_keys hx])] at this
  simpa [compare_lt_iff_lt] using this

theorem successor_eq_some (h : Sorted r m) (hr : Ranks r cmp (k :: keys m))
    (he : successor cmp k m = some e) :
    e ∈ m ∧ r k < r e.1 ∧ ∀ x ∈ m, r k < r x.1 → r e.1 ≤ r x.1 := by
  have hcmp : ∀ x ∈ m, ((cmp k x.1 == .lt) = true ↔ r k < r x.1) := by
    intro x hx
    rw [hr k (by simp) x.1 (by simp [mem_keys hx])]
    simp [compare_lt_iff_lt]
  obtain ⟨hk, as, bs, hm, has⟩ := find?_eq_some_iff_append.mp he
  have he' : e ∈ m := by rw [hm]; simp
  refine ⟨he', (hcmp e he').mp hk, fun x hx hlt => ?_⟩
  have hx' := hx
  rw [hm] at hx' h
  rcases mem_append.mp hx' with hx' | hx'
  · have := has x hx'
    rw [(hcmp x hx).mpr hlt] at this
    simp at this
  · rcases mem_cons.mp hx' with rfl | hx'
    · exact le_rfl
    · exact ((pairwise_cons.mp (pairwise_append.mp h).2.1).1 x hx').le

end Rank

section Rename

/-! Renaming the keys by a map that the comparison does not see. -/

variable {φ : K → K} {ψ : V → L} (hφ : ∀ a b, cmp (φ a) (φ b) = cmp a b)
include hφ

theorem get_map (k : K) (m : List (K × V)) :
    get cmp (φ k) (m.map (Prod.map φ ψ)) = (get cmp k m).map ψ := by
  unfold get
  simp [Function.comp_def, hφ]

theorem containsKey_map (k : K) (m : List (K × V)) :
    containsKey cmp (φ k) (m.map (Prod.map φ ψ)) = containsKey cmp k m := by
  unfold containsKey
  rw [get_map hφ]
  simp

theorem insert_map (k : K) (v : V) (m : List (K × V)) :
    insert cmp (φ k) (ψ v) (m.map (Prod.map φ ψ)) = (insert cmp k v m).map (Prod.map φ ψ) := by
  induction m with
  | nil => rfl
  | cons e m ih =>
    simp only [map_cons, insert, Prod.map_fst, hφ]
    cases cmp k e.1 <;> simp [ih, Prod.map]

theorem erase_map (k : K) (m : List (K × V)) :
    erase cmp (φ k) (m.map (Prod.map φ ψ)) = (erase cmp k m).map (Prod.map φ ψ) := by
  unfold erase
  rw [filter_map]
  simp [Function.comp_def, hφ]

theorem successor_map (k : K) (m : List (K × V)) :
    successor cmp (φ k) (m.map (Prod.map φ ψ)) = (successor cmp k m).map (Prod.map φ ψ) := by
  unfold successor
  rw [find?_map]
  simp only [Function.comp_def, Prod.map_fst, hφ]

theorem predecessor_map (k : K) (m : List (K × V)) :
    predecessor cmp (φ k) (m.map (Prod.map φ ψ)) = (predecessor cmp k m).map (Prod.map φ ψ) := by
  unfold predecessor
  rw [filter_map]
  simp [Function.comp_def, hφ]

end Rename

end OrderedMap
