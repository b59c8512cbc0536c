import Mathlib.Data.List.Pairwise
import Mathlib.Order.Lattice
import Mathlib.Tactic.Ring

/-! # Lists of intervals as sets

Half-open intervals over a linear order. A list whose intervals are not empty and do not touch
is determined by the points it covers.
-/
namespace IntervalSet

variable {α : Type*} [LinearOrder α] {l l' : List (α × α)} {r : α × α} {n : α}

def Covers (l : List (α × α)) (n : α) : Prop := ∃ r ∈ l, r.1 ≤ n ∧ n < r.2

/-- No interval is empty, and there is a gap after each. -/
structure Separated (l : List (α × α)) : Prop where
  nonempty : ∀ r ∈ l, r.1 < r.2
  apart : l.Pairwise fun r s => r.2 < s.1

theorem not_covers_nil : ¬ Covers ([] : List (α × α)) n := by simp [Covers]

theorem covers_cons : Covers (r :: l) n ↔ (r.1 ≤ n ∧ n < r.2) ∨ Covers l n := by
  simp [Covers, or_and_right, exists_or]

theorem covers_append : Covers (l ++ l') n ↔ Covers l n ∨ Covers l' n := by
  simp [Covers, or_and_right, exists_or]

theorem separated_nil : Separated ([] : List (α × α)) := ⟨by simp, List.Pairwise.nil⟩

theorem separated_cons : Separated (r :: l) ↔ r.1 < r.2 ∧ (∀ s ∈ l, r.2 < s.1) ∧ Separated l := by
  constructor
  · rintro ⟨hne, hap⟩
    obtain ⟨h1, h2⟩ := List.pairwise_cons.mp hap
    exact ⟨hne r (by simp), h1, fun s hs => hne s (by simp [hs]), h2⟩
  · rintro ⟨h1, h2, hne, hap⟩
    refine ⟨fun s hs => ?_, List.pairwise_cons.mpr ⟨h2, hap⟩⟩
    rcases List.mem_cons.mp hs with rfl | hs
    · exact h1
    · exact hne s hs

theorem separated_append : Separated (l ++ l') ↔
    Separated l ∧ Separated l' ∧ ∀ r ∈ l, ∀ s ∈ l', r.2 < s.1 := by
  constructor
  · rintro ⟨hne, hap⟩
    obtain ⟨h1, h2, h3⟩ := List.pairwise_append.mp hap
    exact ⟨⟨fun s hs => hne s (by simp [hs]), h1⟩, ⟨fun s hs => hne s (by simp [hs]), h2⟩, h3⟩
  · rintro ⟨⟨hne, hap⟩, ⟨hne', hap'⟩, hgap⟩
    refine ⟨fun s hs => ?_, List.pairwise_append.mpr ⟨hap, hap', hgap⟩⟩
    rcases List.mem_append.mp hs with hs | hs
    · exact hne s hs
    · exact hne' s hs

theorem separated_singleton : Separated [r] ↔ r.1 < r.2 := by
  simp [separated_cons, separated_nil]

theorem separated_concat : Separated (l ++ [r]) ↔
    Separated l ∧ (∀ s ∈ l, s.2 < r.1) ∧ r.1 < r.2 := by
  rw [separated_append, separated_singleton]
  constructor
  · rintro ⟨h1, h2, h3⟩
    exact ⟨h1, fun s hs => h3 s hs r (by simp), h2⟩
  · rintro ⟨h1, h2, h3⟩
    exact ⟨h1, h3, fun s hs t ht => by rw [List.mem_singleton.mp ht]; exact h2 s hs⟩

theorem Separated.covers_start (h : Separated l) (hr : r ∈ l) : Covers l r.1 :=
  ⟨r, hr, le_rfl, h.nonempty r hr⟩

theorem Separated.covers_tail (h : Separated (r :: l)) :
    Covers l n ↔ Covers (r :: l) n ∧ r.2 < n := by
  obtain ⟨-, hafter, -⟩ := separated_cons.mp h
  constructor
  · rintro ⟨s, hs, h1, h2⟩
    exact ⟨covers_cons.mpr (Or.inr ⟨s, hs, h1, h2⟩), lt_of_lt_of_le (hafter s hs) h1⟩
  · rintro ⟨hc, hn⟩
    rcases covers_cons.mp hc with hr | ht
    · exact absurd hr.2 (not_lt.mpr hn.le)
    · exact ht

theorem Separated.least (h : Separated (r :: l)) (hc : Covers (r :: l) n) : r.1 ≤ n := by
  obtain ⟨hne, hafter, -⟩ := separated_cons.mp h
  rcases covers_cons.mp hc with hr | ⟨s, hs, h1, -⟩
  · exact hr.1
  · exact (hne.trans (hafter s hs)).le.trans h1

/-- The intervals from a point on; the one it falls into is cut. -/
def cutBelow (a : α) : List (α × α) → List (α × α)
  | [] => []
  | r :: l => if r.2 ≤ a then cutBelow a l else (max r.1 a, r.2) :: l

theorem covers_cutBelow {a : α} (h : l.Pairwise fun r s => r.2 ≤ s.1) :
    Covers (cutBelow a l) n ↔ Covers l n ∧ a ≤ n := by
  induction l with
  | nil => simp [cutBelow, Covers]
  | cons r l ih =>
    obtain ⟨hafter, hrest⟩ := List.pairwise_cons.mp h
    unfold cutBelow
    split
    · next hle =>
      have hbelow : r.1 ≤ n ∧ n < r.2 → ¬ a ≤ n := fun h => not_le.mpr (h.2.trans_le hle)
      rw [covers_cons]
      tauto
    · next hlt =>
      have hbeyond : Covers l n → a ≤ n := by
        rintro ⟨s, hs, h1, -⟩
        exact ((not_le.mp hlt).le.trans (hafter s hs)).trans h1
      rw [covers_cons, covers_cons, max_le_iff]
      tauto

theorem Separated.cutBelow {a : α} (h : Separated l) : Separated (cutBelow a l) := by
  induction l with
  | nil => exact h
  | cons r l ih =>
    obtain ⟨hne, hafter, hrest⟩ := separated_cons.mp h
    unfold IntervalSet.cutBelow
    split
    · exact ih hrest
    · next hlt => exact separated_cons.mpr ⟨max_lt hne (not_le.mp hlt), hafter, hrest⟩

theorem Separated.not_covers_end (h : Separated (r :: l)) : ¬ Covers (r :: l) r.2 := by
  intro hc
  rcases covers_cons.mp hc with hr | ht
  · exact lt_irrefl _ hr.2
  · exact lt_irrefl _ (h.covers_tail.mp ht).2

/-- Lists without touching intervals are equal if they cover the same points. -/
theorem Separated.unique (h : Separated l) (h' : Separated l')
    (hc : ∀ n, Covers l n ↔ Covers l' n) : l = l' := by
  induction l generalizing l' with
  | nil =>
    cases l' with
    | nil => rfl
    | cons r' l' => exact absurd ((hc _).mpr (h'.covers_start List.mem_cons_self)) not_covers_nil
  | cons r l ih =>
    cases l' with
    | nil => exact absurd ((hc _).mp (h.covers_start List.mem_cons_self)) not_covers_nil
    | cons r' l' =>
      have hstart : r.1 = r'.1 := le_antisymm (h.least ((hc _).mpr (h'.covers_start (by simp))))
        (h'.least ((hc _).mp (h.covers_start (by simp))))
      -- the end of the first interval is the first point that is not covered
      have hend : r.2 = r'.2 := by
        rcases lt_trichotomy r.2 r'.2 with hlt | he | hlt
        · refine absurd ((hc r.2).mpr (covers_cons.mpr (Or.inl ⟨?_, hlt⟩))) h.not_covers_end
          rw [← hstart]
          exact (h.nonempty r (by simp)).le
        · exact he
        · refine absurd ((hc r'.2).mp (covers_cons.mpr (Or.inl ⟨?_, hlt⟩))) h'.not_covers_end
          rw [hstart]
          exact (h'.nonempty r' (by simp)).le
      have htail : l = l' := by
        apply ih (separated_cons.mp h).2.2 (separated_cons.mp h').2.2
        intro n
        rw [h.covers_tail, h'.covers_tail, hc, hend]
      rw [htail, Prod.ext hstart hend]

end IntervalSet
