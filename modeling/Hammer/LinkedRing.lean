import Mathlib.Data.List.Nodup
import Mathlib.Logic.Equiv.Basic
import Mathlib.Tactic.Tauto

/-! # Circular doubly linked lists in an indexed store

A store gives every node a `next` and a `prev` pointer. A ring is a sentinel
together with the nodes reached from it; the list of these nodes is the ghost
value that all operations are described by.
-/
namespace LinkedRing

open Function List

variable {α : Type*}

/-- `a`, then the nodes `xs`, then `b`, joined by both pointers. -/
def Linked (next prev : α → α) : α → List α → α → Prop
  | a, [], b => next a = b ∧ prev b = a
  | a, x :: xs, b => next a = x ∧ prev x = a ∧ Linked next prev x xs b

/-- Following `next` from the cursor visits `xs` and then stands on `stop`. -/
def Forward (next : α → α) : α → List α → α → Prop
  | cur, [], stop => cur = stop
  | cur, x :: xs, stop => cur = x ∧ Forward next (next x) xs stop

def Ring (next prev : α → α) (head : α) (xs : List α) : Prop :=
  Linked next prev head xs head ∧ (head :: xs).Nodup

variable {next prev : α → α} {xs : List α}

variable {a b : α} {next' : α → α}

theorem Linked.congr {prev' : α → α} (h : Linked next prev a xs b)
    (hn : ∀ x ∈ a :: xs, next' x = next x) (hp : ∀ x ∈ b :: xs, prev' x = prev x) :
    Linked next' prev' a xs b := by
  induction xs generalizing a with
  | nil => exact ⟨by rw [hn a (by simp)]; exact h.1, by rw [hp b (by simp)]; exact h.2⟩
  | cons x xs ih =>
    obtain ⟨h1, h2, h3⟩ := h
    refine ⟨by rw [hn a (by simp)]; exact h1, by rw [hp x (by simp)]; exact h2, ?_⟩
    exact ih h3 (fun y hy => hn y (by simp_all)) (fun y hy => hp y (by
      rcases mem_cons.mp hy with rfl | hy <;> simp_all))

variable {ys : List α}

theorem linked_append {a b x : α} : Linked next prev a (xs ++ x :: ys) b ↔
      Linked next prev a xs x ∧ Linked next prev x ys b := by
  induction xs generalizing a with
  | nil => simp [Linked, and_assoc]
  | cons y xs ih => simp [Linked, ih, and_assoc]

theorem Linked.forward (h : Linked next prev a xs b) : Forward next (next a) xs b := by
  induction xs generalizing a with
  | nil => exact h.1
  | cons x xs ih => exact ⟨h.1, ih h.2.2⟩

theorem Forward.congr {cur stop : α} (h : Forward next cur xs stop)
    (hn : ∀ x ∈ xs, next' x = next x) : Forward next' cur xs stop := by
  induction xs generalizing cur with
  | nil => exact h
  | cons x xs ih =>
    refine ⟨h.1, ?_⟩
    rw [hn x (by simp)]
    exact ih h.2 (fun y hy => hn y (by simp [hy]))

variable {head node : α}

theorem Ring.congr {prev' : α → α} (h : Ring next prev head xs)
    (hn : ∀ x ∈ head :: xs, next' x = next x) (hp : ∀ x ∈ head :: xs, prev' x = prev x) :
    Ring next' prev' head xs :=
  ⟨h.1.congr hn hp, h.2⟩

theorem ring_nil : Ring next prev head [] ↔ next head = head ∧ prev head = head := by
  simp [Ring, Linked]

theorem Ring.next_mem (h : Ring next prev head xs) : next head ∈ head :: xs := by
  cases xs with
  | nil => simp [h.1.1]
  | cons x xs => simp [h.1.1]

theorem Ring.neighbours (h : Ring next prev head (xs ++ node :: ys)) :
    next node ∈ head :: (xs ++ ys) ∧ prev node ∈ head :: (xs ++ ys) := by
  obtain ⟨h1, h2⟩ := linked_append.mp h.1
  constructor
  · cases ys with
    | nil => simp [h2.1]
    | cons y ys => simp [h2.1]
  · rcases xs.eq_nil_or_concat with rfl | ⟨zs, z, rfl⟩
    · simp [h1.2]
    · rw [concat_eq_append, linked_append] at h1
      simp [h1.2.2]

theorem Ring.prev_head {x : α} (h : Ring next prev head (xs ++ [x])) : prev head = x :=
  (linked_append.mp h.1).2.2

section

variable (h : Linked next prev a xs b)
include h

theorem Linked.prev_next : ∀ x ∈ a :: xs, prev (next x) = x := by
  induction xs generalizing a with
  | nil =>
    intro x hx
    obtain rfl := mem_singleton.mp hx
    rw [h.1, h.2]
  | cons y ys ih =>
    intro x hx
    rcases mem_cons.mp hx with rfl | hx
    · rw [h.1, h.2.1]
    · exact ih h.2.2 x hx

theorem Linked.reverse : Linked prev next b xs.reverse a := by
  induction xs generalizing a with
  | nil => exact ⟨h.2, h.1⟩
  | cons x xs ih =>
    rw [reverse_cons, linked_append]
    exact ⟨ih h.2.2, h.2.1, h.1⟩

theorem Linked.next_prev :
    ∀ x ∈ b :: xs, next (prev x) = x := fun x hx => h.reverse.prev_next x (by simpa using hx)

theorem Linked.next_mem : ∀ x ∈ a :: xs, next x ∈ b :: xs := by
  induction xs generalizing a with
  | nil =>
    intro x hx
    obtain rfl := mem_singleton.mp hx
    simp [h.1]
  | cons y ys ih =>
    intro x hx
    rcases mem_cons.mp hx with rfl | hx
    · simp [h.1]
    · have := ih h.2.2 x hx
      simp only [mem_cons] at this ⊢
      tauto

theorem Linked.prev_mem : ∀ x ∈ b :: xs, prev x ∈ a :: xs := by
  intro x hx
  simpa using h.reverse.next_mem x (by simpa using hx)

end

theorem Linked.map (σ : Equiv.Perm α) (h : Linked next prev a xs b) :
    Linked (σ ∘ next ∘ σ.symm) (σ ∘ prev ∘ σ.symm) (σ a) (xs.map σ) (σ b) := by
  induction xs generalizing a with
  | nil => exact ⟨by simp [h.1], by simp [h.2]⟩
  | cons x xs ih => exact ⟨by simp [h.1], by simp [h.2.1], ih h.2.2⟩

variable [DecidableEq α]

theorem Ring.rename {old new : α} (h : Ring next prev head (xs ++ old :: ys))
    (hnew : new ∉ head :: (xs ++ old :: ys)) :
    Ring (update (update next new (next old)) (prev old) new)
      (update (update prev new (prev old)) (next old) new)
      head (xs ++ new :: ys) := by
  obtain ⟨hnn, hpn⟩ := h.neighbours
  have hold : old ∉ head :: (xs ++ ys) := by
    have hd := h.2
    grind
  have hnew' : new ∉ head :: (xs ++ ys) := by grind
  -- the swap of the two nodes carries the old ring to the new one
  have hfix : ∀ x ∈ head :: (xs ++ ys), Equiv.swap old new x = x := fun x hx =>
    Equiv.swap_apply_of_ne_of_ne (fun e => hold (e ▸ hx)) (fun e => hnew' (e ▸ hx))
  have hmap : (xs ++ old :: ys).map (Equiv.swap old new) = xs ++ new :: ys := by
    rw [map_append, map_cons]
    rw [map_congr_left fun x hx => hfix x (by simp [hx]),
      map_congr_left fun x hx => hfix x (by simp [hx])]
    simp
  have hl := h.1.map (Equiv.swap old new)
  rw [hmap, hfix head (by simp)] at hl
  have hnodes : ∀ x, x ∈ head :: (xs ++ new :: ys) → x = new ∨ x ∈ head :: (xs ++ ys) := by
    grind
  have hother : ∀ x, x ∈ head :: (xs ++ old :: ys) → x ≠ old → x ∈ head :: (xs ++ ys) := by
    grind
  have hsub : ∀ x, x ∈ head :: (xs ++ ys) → x ∈ head :: (xs ++ old :: ys) := by grind
  have hmem : old ∈ head :: (xs ++ old :: ys) := by simp
  refine ⟨hl.congr (fun x hx => ?_) (fun x hx => ?_), ?_⟩
  · rcases hnodes x hx with rfl | hx
    · have : x ≠ prev old := fun e => hnew' (e ▸ hpn)
      simp [this, hfix _ hnn]
    · have hxn : x ≠ new := fun e => hnew' (e ▸ hx)
      by_cases hp : x = prev old
      · subst hp
        simp [hfix _ hpn, h.1.next_prev old hmem]
      · have hno : next x ≠ old := fun e => hp (by rw [← e, h.1.prev_next x (hsub x hx)])
        simp [hp, hxn, hfix x hx, hfix _ (hother _ (h.1.next_mem x (hsub x hx)) hno)]
  · rcases hnodes x hx with rfl | hx
    · have : x ≠ next old := fun e => hnew' (e ▸ hnn)
      simp [this, hfix _ hpn]
    · have hxn : x ≠ new := fun e => hnew' (e ▸ hx)
      by_cases hp : x = next old
      · subst hp
        simp [hfix _ hnn, h.1.prev_next old hmem]
      · have hno : prev x ≠ old := fun e => hp (by rw [← e, h.1.next_prev x (hsub x hx)])
        simp [hp, hxn, hfix x hx, hfix _ (hother _ (h.1.prev_mem x (hsub x hx)) hno)]
  · have hd := h.2.map (Equiv.swap old new).injective
    rwa [map_cons, hmap, hfix head (by simp)] at hd

theorem Linked.insert_after (node : α) (h : Linked next prev a ys b) (hd : ys.Nodup)
    (ha : a ∉ ys) (hb : b ∉ ys)
    (hnew : node ∉ a :: b :: ys) :
    Linked (update (update next node (next a)) a node)
      (update (update prev node a) (next a) node) a (node :: ys) b := by
  simp only [mem_cons, not_or] at hnew
  obtain ⟨hna, hnb, hny⟩ := hnew
  cases ys with
  | nil =>
    have hn : node ≠ next a := by rw [h.1]; exact hnb
    refine ⟨by simp, by simp [hn], by simp [hna, h.1], by simp [h.1]⟩
  | cons y ys =>
    obtain ⟨h1, h2, h3⟩ := h
    simp only [mem_cons, not_or] at hny ha hb
    refine ⟨by simp, by simp [h1, hny.1], by simp [hna, h1], by simp [h1], h3.congr ?_ ?_⟩
    · intro x hx
      have hxa : x ≠ a := by grind
      have hxn : x ≠ node := by grind
      simp [hxa, hxn]
    · intro x hx
      have hxn : x ≠ node := by grind
      have hxy : x ≠ y := by grind
      simp [h1, hxn, hxy]

theorem Ring.insertBefore {n : α} (h : Ring next prev head (xs ++ ys))
    (hn : (ys ++ [head]).head? = some n) (hnew : node ∉ head :: (xs ++ ys)) :
    Ring (update (update next node n) (prev n) node)
      (update (update prev node (prev n)) n node) head (xs ++ node :: ys) := by
  obtain ⟨hl, hd⟩ := h
  have hfirst : ∀ {a}, Linked next prev a ys head → next a = n ∧ prev n = a := by
    intro a ha
    cases ys with
    | nil =>
      obtain rfl : head = n := by simpa using hn
      exact ha
    | cons y ys =>
      obtain rfl : y = n := by simpa using hn
      exact ⟨ha.1, ha.2.1⟩
  have hnd := hd
  simp only [nodup_cons, mem_append, not_or, nodup_append] at hnd
  obtain ⟨⟨hhx, hhy⟩, hxs, hys, hdis⟩ := hnd
  simp only [mem_cons, mem_append, not_or] at hnew
  obtain ⟨hnh, hnx, hny⟩ := hnew
  refine ⟨?_, ?_⟩
  · rcases xs.eq_nil_or_concat with rfl | ⟨zs, z, rfl⟩
    · obtain ⟨e1, e2⟩ := hfirst hl
      have := hl.insert_after node hys hhy hhy (by simp [hnh, hny])
      rw [e1] at this
      rw [e2]
      exact this
    · simp only [concat_eq_append] at *
      rw [append_assoc] at hl ⊢
      obtain ⟨h1, h2⟩ := linked_append.mp hl
      obtain ⟨e1, e2⟩ := hfirst h2
      have hzy : z ∉ ys := fun hz => hdis z (by simp) z hz rfl
      have hnz : node ≠ z := fun e => hnx (by simp [e])
      have hins := h2.insert_after node hys hzy hhy (by simp [hnh, hnz, hny])
      rw [e1] at hins
      rw [e2]
      refine linked_append.mpr ⟨h1.congr (fun x hx => ?_) (fun x hx => ?_), hins⟩
      · have hxz : x ≠ z := by grind
        have hxn : x ≠ node := by grind
        simp [hxz, hxn]
      · have hxn : x ≠ node := by grind
        have hxf : x ≠ n := by cases ys <;> grind
        simp [hxn, hxf]
  · have hperm : (head :: (xs ++ node :: ys)).Perm (node :: head :: (xs ++ ys)) :=
      (perm_middle.cons head).trans (List.Perm.swap ..)
    rw [hperm.nodup_iff, nodup_cons]
    exact ⟨by simp [hnh, hnx, hny], hd⟩

theorem Ring.insert (h : Ring next prev head xs) (hnew : node ∉ head :: xs) :
    Ring (update (update next node (next head)) head node)
      (update (update prev node head) (next head) node)
      head (node :: xs) := by
  have hfirst : (xs ++ [head]).head? = some (next head) := by
    cases xs with
    | nil => simp [h.1.1]
    | cons x xs => simp [h.1.1]
  have hprev : prev (next head) = head := h.1.prev_next head (by simp)
  have hr : Ring next prev head ([] ++ xs) := h
  have := hr.insertBefore hfirst hnew
  rwa [hprev] at this

theorem Ring.erase (h : Ring next prev head (xs ++ node :: ys)) :
    Ring (update next (prev node) (next node))
      (update prev (next node) (prev node)) head (xs ++ ys) := by
  obtain ⟨hl, hd⟩ := h
  obtain ⟨h1, h2⟩ := linked_append.mp hl
  have hd' : (head :: (xs ++ ys)).Nodup := by
    refine hd.sublist ?_
    simp
  refine ⟨?_, hd'⟩
  have hnd := hd
  simp only [nodup_cons, mem_append, mem_cons, not_or, nodup_append] at hnd
  obtain ⟨⟨hhx, hhn, hhy⟩, hxs, ⟨hny, hys⟩, hdis⟩ := hnd
  -- the predecessor closes the left half, the successor opens the right half
  rcases xs.eq_nil_or_concat with rfl | ⟨zs, z, rfl⟩
  · cases ys with
    | nil =>
      simp only [Linked] at h1 h2
      simp [Linked, h1, h2]
    | cons y ys =>
      obtain ⟨e1, e2, e3⟩ := h2
      refine ⟨by simp [h1.2, e1], by simp [h1.2, e1], e3.congr ?_ ?_⟩
      · intro a ha
        have : a ≠ head := fun e => hhy (e ▸ ha)
        simp [h1.2, this]
      · intro a ha
        have : a ≠ y := by grind
        simp [e1, this]
  · simp only [concat_eq_append] at *
    rw [append_assoc, singleton_append] at *
    obtain ⟨h3, h4⟩ := linked_append.mp h1
    have hzy : z ∉ ys := fun hz => hdis z (by simp) z (by simp [hz]) rfl
    rw [linked_append]
    cases ys with
    | nil =>
      refine ⟨h3.congr ?_ ?_, by simp [h4.2, h2.1], by simp [h4.2, h2.1]⟩
      · intro a ha
        have : a ≠ z := by grind
        simp [h4.2, this]
      · intro a ha
        have : a ≠ head := by grind
        simp [h2.1, this]
    | cons y ys =>
      obtain ⟨e1, e2, e3⟩ := h2
      refine ⟨h3.congr ?_ ?_, by simp [h4.2, e1], by simp [h4.2, e1], e3.congr ?_ ?_⟩
      · intro a ha
        have : a ≠ z := by grind
        simp [h4.2, this]
      · intro a ha
        have : a ≠ y := by grind
        simp [e1, this]
      · intro a ha
        have : a ≠ z := fun e => hzy (e ▸ ha)
        simp [h4.2, this]
      · intro a ha
        have : a ≠ y := by grind
        simp [e1, this]

/-- Closing the sentinel on itself leaves the old nodes as a forward chain. -/
theorem Ring.take (h : Ring next prev head xs) :
    Ring (update next head head) (update prev head head) head [] ∧
      Forward (update next head head) (next head) xs head := by
  refine ⟨ring_nil.mpr ⟨by simp, by simp⟩, h.1.forward.congr ?_⟩
  intro x hx
  have : x ≠ head := fun e => (nodup_cons.mp h.2).1 (e ▸ hx)
  simp [this]

section Store

/-! A list with two ends in a keyed store is a ring around the sentinel `none`: the pointer of
`none` is the end of the list, the pointer of a node is a field of its value. -/

variable {K V : Type*}

def link (start : Option K) (get : K → Option V) (field : V → Option K) : Option K → Option K
  | none => start
  | some k => (get k).bind field

variable {start value : Option K} {get get' : K → Option V} {field : V → Option K}

theorem link_congr (h : ∀ k, (get' k).bind field = (get k).bind field) :
    link start get' field = link start get field := by
  funext x
  cases x with
  | none => rfl
  | some k => exact h k

theorem link_start [DecidableEq K] :
    link value get field = update (link start get field) none value := by
  funext x
  cases x with
  | none => simp [link]
  | some k => simp [link]

theorem link_node [DecidableEq K] {k : K} {f : V → V} (hk : (get k).isSome)
    (hget : ∀ j, get' j = if k = j then (get j).map f else get j)
    (hf : ∀ v, field (f v) = value) :
    link start get' field = update (link start get field) (some k) value := by
  funext x
  cases x with
  | none => simp [link]
  | some j =>
    simp only [link, hget]
    by_cases hkj : k = j
    · subst hkj
      obtain ⟨v, hv⟩ := Option.isSome_iff_exists.mp hk
      simp [hv, hf]
    · have hne : some j ≠ some k := fun e => hkj (by simpa using e.symm)
      simp [hkj, update_of_ne hne, link]

theorem link_other {k : K} [DecidableEq K] {f : V → V}
    (hget : ∀ j, get' j = if k = j then (get j).map f else get j)
    (hf : ∀ v, field (f v) = field v) : link start get' field = link start get field := by
  refine link_congr fun j => ?_
  rw [hget]
  split
  · cases get j <;> simp [hf]
  · rfl

/-- A new node reads its own links, and where no node is gone the others read what they read. -/
theorem link_inserted [DecidableEq K] {k : K} {v : V} {x : Option K}
    (hget : ∀ j, x = some j → get' j = if j = k then some v else get j) :
    link start get' field x = update (link start get field) (some k) (field v) x := by
  cases x with
  | none => simp [link]
  | some j =>
    by_cases hjk : j = k
    · subst hjk
      simp [link, hget j rfl]
    · have hne : some j ≠ some k := fun e => hjk (Option.some.inj e)
      rw [update_of_ne hne]
      simp [link, hget j rfl, hjk]

end Store

end LinkedRing
