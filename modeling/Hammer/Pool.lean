import Mathlib.Data.List.Nodup
import Mathlib.Data.List.GetD

/-! # Index-addressed pools

`hammer-infra/src/pool.rs`, dynamic pools. A slot without a value is one whose free bit is set;
the free indices are a stack.
-/

@[ext] structure Pool (T : Type) where
  slots : List (Option T)
  free : List ℕ
  nodup : free.Nodup
  vacant : ∀ i ∈ free, slots[i]? = some none

namespace Pool

open List

variable {T U : Type}

def empty : Pool T := ⟨[], [], List.nodup_nil, by simp⟩

def get (p : Pool T) (i : ℕ) : Option T := (p.slots[i]?).join

/-- Assignment through `get_mut`. -/
def modify (p : Pool T) (i : ℕ) (f : T → T) : Pool T where
  slots := p.slots.modify i (Option.map f)
  free := p.free
  nodup := p.nodup
  vacant j hj := by
    rw [List.getElem?_modify, p.vacant j hj]
    split <;> rfl

def insert (p : Pool T) (value : T) : Pool T × ℕ :=
  match h : p.free with
  | [] => (⟨p.slots ++ [some value], [], List.nodup_nil, by simp⟩, p.slots.length)
  | i :: rest =>
    (⟨p.slots.set i (some value), rest, (List.nodup_cons.mp (h ▸ p.nodup)).2, fun j hj => by
      have hne : i ≠ j := by
        rintro rfl
        exact (List.nodup_cons.mp (h ▸ p.nodup)).1 hj
      rw [List.getElem?_set_ne hne]
      exact p.vacant j (by simp [h, hj])⟩, i)

def remove (p : Pool T) (i : ℕ) : Option (Pool T × T) :=
  match h : p.get i with
  | none => none
  | some value =>
    have hslot : p.slots[i]? = some (some value) := by
      unfold get at h
      cases hs : p.slots[i]? with
      | none => simp [hs] at h
      | some o => simpa [hs] using h
    some (⟨p.slots.set i none, i :: p.free,
      List.nodup_cons.mpr ⟨fun hi => by simp [p.vacant i hi] at hslot, p.nodup⟩, fun j hj => by
        by_cases hji : i = j
        · subst hji
          rw [List.getElem?_set_self (List.getElem?_eq_some_iff.mp hslot).1]
        · rw [List.getElem?_set_ne hji]
          exact p.vacant j ((List.mem_cons.mp hj).resolve_left (Ne.symm hji))⟩, value)

@[simp] theorem get_empty (i : ℕ) : (empty : Pool T).get i = none := rfl

theorem get_modify (p : Pool T) (i j : ℕ) (f : T → T) :
    (p.modify i f).get j = if i = j then (p.get j).map f else p.get j := by
  unfold get modify
  rw [getElem?_modify]
  cases p.slots[j]? with
  | none => split <;> rfl
  | some o => split <;> cases o <;> rfl

theorem get_insert_self (p : Pool T) (value : T) :
    (p.insert value).1.get (p.insert value).2 = some value := by
  unfold insert
  split
  · simp [get]
  · rename_i i rest h
    have := p.vacant i (by simp [h])
    simp [get, (List.getElem?_eq_some_iff.mp this).1]

theorem get_insert_index (p : Pool T) (value : T) : p.get (p.insert value).2 = none := by
  unfold insert
  split
  · simp [get]
  · rename_i i rest h
    simp [get, p.vacant i (by simp [h])]

theorem get_insert_of_ne (p : Pool T) (value : T) {j : ℕ} (hj : j ≠ (p.insert value).2) :
    (p.insert value).1.get j = p.get j := by
  unfold insert at hj ⊢
  split at hj
  · simp only [get] at hj ⊢
    rw [getElem?_append]
    split
    · rfl
    · rw [getElem?_eq_none (by simp; omega), getElem?_eq_none (by omega)]
  · simp only [get] at hj ⊢
    rw [getElem?_set_ne (Ne.symm hj)]

theorem remove_eq_none {p : Pool T} {i : ℕ} (h : p.get i = none) : p.remove i = none := by
  unfold remove
  split
  · rfl
  · simp_all

theorem remove_spec {p : Pool T} {i : ℕ} {value : T} (h : p.get i = some value) :
    ∃ p', p.remove i = some (p', value) ∧
      (∀ j, p'.get j = if j = i then none else p.get j) ∧ p'.slots.length = p.slots.length := by
  unfold remove
  split
  · simp_all
  · rename_i v hv
    obtain rfl : v = value := by simpa [h] using hv.symm
    refine ⟨_, rfl, fun j => ?_, by simp⟩
    by_cases hji : j = i
    · subst hji
      simp only [get, if_true]
      rw [getElem?_set]
      split
      · split <;> rfl
      · simp_all
    · simp only [get, hji, if_false]
      rw [getElem?_set_ne (Ne.symm hji)]

def map (ψ : T → U) (p : Pool T) : Pool U where
  slots := p.slots.map (Option.map ψ)
  free := p.free
  nodup := p.nodup
  vacant i hi := by
    rw [List.getElem?_map, p.vacant i hi]
    rfl

theorem get_map (ψ : T → U) (p : Pool T) (i : ℕ) : (p.map ψ).get i = (p.get i).map ψ := by
  unfold get map
  rw [getElem?_map]
  cases p.slots[i]? with
  | none => rfl
  | some o => rfl

theorem modify_map {ψ : T → U} {f : T → T} {g : U → U} (h : ∀ v, g (ψ v) = ψ (f v)) (p : Pool T)
    (i : ℕ) : (p.map ψ).modify i g = (p.modify i f).map ψ := by
  refine Pool.ext ?_ rfl
  apply ext_getElem?
  intro j
  simp only [modify, map, getElem?_modify, getElem?_map]
  cases p.slots[j]? with
  | none => rfl
  | some o => split <;> cases o <;> simp [h]

theorem insert_map (ψ : T → U) (p : Pool T) (v : T) :
    (p.map ψ).insert (ψ v) = ((p.insert v).1.map ψ, (p.insert v).2) := by
  obtain ⟨slots, free, nodup, vacant⟩ := p
  cases free with
  | nil =>
    refine Prod.ext (Pool.ext ?_ rfl) ?_
    · simp [insert, map]
    · simp [insert, map]
  | cons i rest =>
    simp [insert, map, map_set]

theorem remove_map (ψ : T → U) (p : Pool T) (i : ℕ) :
    (p.map ψ).remove i = (p.remove i).map fun r => (r.1.map ψ, ψ r.2) := by
  cases h : p.get i with
  | none =>
    rw [remove_eq_none h, remove_eq_none (by rw [get_map, h]; rfl)]
    rfl
  | some v =>
    have h' : (p.map ψ).get i = some (ψ v) := by rw [get_map, h]; rfl
    unfold remove
    split
    · simp_all
    · rename_i w hw
      split
      · simp_all
      · rename_i w' hw'
        obtain rfl : w' = v := by simpa [h] using hw'.symm
        obtain rfl : w = ψ w' := by simpa [h'] using hw.symm
        simp [map, map_set]

end Pool
