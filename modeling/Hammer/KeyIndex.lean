import Mathlib.Logic.Function.Basic

/-! # Tables that find the entries of a store by key

A partial map from keys to positions indexes a store when it finds exactly the entries that have
a key, each under its own key. `Slots` are the tables that answer like such a map.
-/

namespace KeyIndex

open Function

variable {ι K E : Type} [DecidableEq ι] [DecidableEq K]

def Indexes (key : E → Option K) (store : ι → Option E) (table : K → Option ι) : Prop :=
  ∀ k i, table k = some i ↔ ∃ e, store i = some e ∧ key e = some k

/-- Removes the entry of `key` only if it still holds `value`. -/
def removeIfCurrent {V : Type} [DecidableEq V] (table : K → Option V) (key : K) (value : V) :
    K → Option V :=
  if table key = some value then Function.update table key none else table

def setKey (table : K → Option ι) (key : Option K) (i : Option ι) : K → Option ι :=
  match key with
  | none => table
  | some k => Function.update table k i

theorem removeIfCurrent_apply {V : Type} [DecidableEq V] (table : K → Option V) (key k : K)
    (value : V) : removeIfCurrent table key value k =
      if k = key ∧ table key = some value then none else table k := by
  unfold removeIfCurrent
  by_cases hc : table key = some value
  · by_cases hk : k = key
    · simp [hc, hk]
    · simp [hc, hk]
  · simp [hc]

omit [DecidableEq ι] [DecidableEq K] in
theorem indexes_empty (key : E → Option K) : Indexes key (fun _ : ι => none) fun _ => none := by
  intro k i
  simp

variable {key : E → Option K} {store : ι → Option E} {table : K → Option ι} {i : ι} {e : E}

theorem Indexes.insert (h : Indexes key store table) (hi : store i = none)
    (hfree : ∀ k, key e = some k → table k = none) :
    Indexes key (update store i (some e)) (setKey table (key e) (some i)) := by
  have hnot : ∀ k, table k ≠ some i := by
    intro k hk
    obtain ⟨d, hd, -⟩ := (h k i).mp hk
    simp [hi] at hd
  have other : ∀ k j, j ≠ i → (table k = some j ↔
      ∃ d, update store i (some e) j = some d ∧ key d = some k) := by
    intro k j hj
    rw [update_of_ne hj]
    exact h k j
  intro k j
  cases hk : key e with
  | none =>
    by_cases hj : j = i
    · subst hj
      simp [setKey, hnot k, hk]
    · exact other k j hj
  | some k' =>
    by_cases hkk : k = k'
    · subst hkk
      rw [setKey, update_self, Option.some_inj]
      constructor
      · rintro rfl
        exact ⟨e, update_self .., hk⟩
      · rintro ⟨d, hd, hdk⟩
        by_contra hne
        have := (other k j (Ne.symm hne)).mpr ⟨d, hd, hdk⟩
        simp [hfree k hk] at this
    · rw [setKey, update_of_ne hkk]
      by_cases hj : j = i
      · subst hj
        simp [hnot k, hk, Ne.symm hkk]
      · exact other k j hj

theorem Indexes.remove (h : Indexes key store table) (hi : store i = some e) :
    Indexes key (update store i none) (setKey table (key e) none) := by
  -- the entry is found under its own key and under no other
  have own : ∀ k, table k = some i ↔ key e = some k := by
    intro k
    rw [h k i]
    simp [hi]
  intro k j
  have gone : j = i → ¬∃ d, update store i none j = some d ∧ key d = some k := by
    rintro rfl
    simp
  have kept : j ≠ i → (table k = some j ↔
      ∃ d, update store i none j = some d ∧ key d = some k) := by
    intro hj
    rw [update_of_ne hj]
    exact h k j
  have other : key e ≠ some k → (table k = some j ↔
      ∃ d, update store i none j = some d ∧ key d = some k) := by
    intro hk
    by_cases hj : j = i
    · exact iff_of_false (hj ▸ fun ht => hk ((own k).mp ht)) (gone hj)
    · exact kept hj
  cases hk : key e with
  | none => exact other (by simp [hk])
  | some k' =>
    by_cases hkk : k = k'
    · subst hkk
      rw [setKey, update_self]
      refine iff_of_false (by simp) fun hd => ?_
      by_cases hj : j = i
      · exact gone hj hd
      · have := (kept hj).mpr hd
        rw [(own k).mpr hk, Option.some_inj] at this
        exact hj this.symm
    · rw [setKey, update_of_ne hkk]
      exact other (by simpa [hk] using Ne.symm hkk)

/-- Tables that answer like a partial map. A call may fail to return, and an insertion is stored
only where there is room. -/
structure Slots (T K ι : Type) [DecidableEq K] where
  lookup : T → K → Option (Option ι)
  insert : T → K → ι → Option T
  remove : T → K → Option T
  HasRoom : T → K → ι → Prop
  Stores : T → (K → Option ι) → Prop
  lookup_eq {t f} : Stores t f → ∀ k, lookup t k = some (f k)
  insert_stores {t t' f k i} : Stores t f → HasRoom t k i → insert t k i = some t' →
    Stores t' (update f k (some i))
  remove_stores {t t' f k} : Stores t f → remove t k = some t' → Stores t' (update f k none)

namespace Slots

variable {T : Type} (S : Slots T K ι) {t t' : T}

def insertKey (t : T) (key : Option K) (i : ι) : Option T :=
  match key with
  | none => some t
  | some k => S.insert t k i

/-- Removes `key` only if it leads to `i`. -/
def removeKey (t : T) (key : Option K) (i : ι) : Option T :=
  match key with
  | none => some t
  | some k => (S.lookup t k).bind fun found => if found = some i then S.remove t k else some t

def Indexes (key : E → Option K) (store : ι → Option E) (t : T) : Prop :=
  ∃ f, S.Stores t f ∧ KeyIndex.Indexes key store f

namespace Indexes

variable {S}

omit [DecidableEq ι] in
theorem lookup_some (h : S.Indexes key store t) {k : K} :
    S.lookup t k = some (some i) ↔ ∃ e, store i = some e ∧ key e = some k := by
  obtain ⟨f, hs, hf⟩ := h
  rw [S.lookup_eq hs, Option.some_inj, hf k i]

omit [DecidableEq ι] in
theorem lookup_none (h : S.Indexes key store t) {k : K} :
    S.lookup t k = some none ↔ ∀ i e, store i = some e → key e ≠ some k := by
  obtain ⟨f, hs, hf⟩ := h
  rw [S.lookup_eq hs, Option.some_inj, Option.eq_none_iff_forall_ne_some]
  simp only [ne_eq, hf k, not_exists, not_and]

omit [DecidableEq ι] in
theorem lookup_cases (h : S.Indexes key store t) (k : K) :
    S.lookup t k = some none ∨ ∃ i e, S.lookup t k = some (some i) ∧ store i = some e ∧
      key e = some k := by
  obtain ⟨f, hs, hf⟩ := h
  rw [S.lookup_eq hs]
  cases hk : f k with
  | none => exact .inl rfl
  | some i =>
    obtain ⟨e, he⟩ := (hf k i).mp hk
    exact .inr ⟨i, e, rfl, he⟩

theorem insertKey (h : S.Indexes key store t) (hi : store i = none)
    (hfree : ∀ k, key e = some k → S.lookup t k = some none ∧ S.HasRoom t k i)
    (ht : S.insertKey t (key e) i = some t') : S.Indexes key (update store i (some e)) t' := by
  obtain ⟨f, hs, hf⟩ := h
  refine ⟨setKey f (key e) (some i), ?_, hf.insert hi fun k hk => ?_⟩
  · cases hk : key e with
    | none =>
      rw [hk] at ht
      exact Option.some.inj ht ▸ hs
    | some k =>
      rw [hk] at ht
      exact S.insert_stores hs (hfree k hk).2 ht
  · have := (hfree k hk).1
    rwa [S.lookup_eq hs, Option.some_inj] at this

theorem removeKey (h : S.Indexes key store t) (hi : store i = some e)
    (ht : S.removeKey t (key e) i = some t') : S.Indexes key (update store i none) t' := by
  obtain ⟨f, hs, hf⟩ := h
  refine ⟨setKey f (key e) none, ?_, hf.remove hi⟩
  cases hk : key e with
  | none =>
    rw [hk] at ht
    exact Option.some.inj ht ▸ hs
  | some k =>
    have hcur : f k = some i := (hf k i).mpr ⟨e, hi, hk⟩
    rw [hk, Slots.removeKey, S.lookup_eq hs, hcur, Option.bind_some, if_pos rfl] at ht
    exact S.remove_stores hs ht

end Indexes

end Slots

end KeyIndex
