import Mathlib.Algebra.BigOperators.Fin
import Mathlib.Algebra.Order.BigOperators.Group.Finset

/-! # Progress of fair runs

Times are natural numbers; at each time some agents move. If at every time before the goal some
agent is helpful, and stays so until its move lowers a measure, then a fair run meets the goal.
-/

namespace Fairness

variable {ι : Type*} {moves : ℕ → ι → Prop}

def Fair (moves : ℕ → ι → Prop) : Prop := ∀ i k, ∃ j, k ≤ j ∧ moves j i

/-- One step of an argument by a measure: it is lowered, or a helpful agent waits for its turn. -/
def Helps (moves : ℕ → ι → Prop) (measure : ℕ → ℕ) (goal : ℕ → Prop)
    (helpful : ℕ → ι → Prop) (k : ℕ) (i : ι) : Prop :=
  goal (k + 1) ∨ measure (k + 1) < measure k ∨
    (¬ moves k i ∧ measure (k + 1) ≤ measure k ∧ helpful (k + 1) i)

variable {measure : ℕ → ℕ} {goal : ℕ → Prop} {helpful : ℕ → ι → Prop}

/-- A helpful agent that moves at a later time has lowered the measure then. -/
theorem lowers_by_turn (step : ∀ k i, ¬ goal k → helpful k i → Helps moves measure goal helpful k i)
    {i : ι} {d k : ℕ} (hk : ¬ goal k) (hi : helpful k i) (hturn : moves (k + d) i) :
    ∃ j, k ≤ j ∧ (goal j ∨ measure j < measure k) := by
  induction d generalizing k with
  | zero =>
    rcases step k i hk hi with hg | hlt | ⟨hno, -, -⟩
    · exact ⟨k + 1, by omega, Or.inl hg⟩
    · exact ⟨k + 1, by omega, Or.inr hlt⟩
    · exact absurd hturn hno
  | succ d ih =>
    rcases step k i hk hi with hg | hlt | ⟨-, hle, hi'⟩
    · exact ⟨k + 1, by omega, Or.inl hg⟩
    · exact ⟨k + 1, by omega, Or.inr hlt⟩
    · by_cases hg : goal (k + 1)
      · exact ⟨k + 1, by omega, Or.inl hg⟩
      · have hturn' : moves (k + 1 + d) i := by rwa [Nat.add_assoc, Nat.add_comm 1 d]
        obtain ⟨j, hj, h⟩ := ih hg hi' hturn'
        exact ⟨j, by omega, h.imp_right fun h => h.trans_le hle⟩

theorem Fair.meets (fair : Fair moves) (measure : ℕ → ℕ) (helpful : ℕ → ι → Prop)
    (some_helpful : ∀ k, ¬ goal k → ∃ i, helpful k i)
    (step : ∀ k i, ¬ goal k → helpful k i → Helps moves measure goal helpful k i) (k : ℕ) :
    ∃ j, k ≤ j ∧ goal j := by
  induction h : measure k using Nat.strong_induction_on generalizing k with
  | _ m ih =>
    by_cases hg : goal k
    · exact ⟨k, le_refl k, hg⟩
    obtain ⟨i, hi⟩ := some_helpful k hg
    obtain ⟨j, hkj, hturn⟩ := fair i k
    obtain ⟨d, rfl⟩ := Nat.exists_eq_add_of_le hkj
    obtain ⟨j, hj, hj'⟩ := lowers_by_turn step hg hi hturn
    rcases hj' with hj' | hlt
    · exact ⟨j, hj, hj'⟩
    · obtain ⟨j', hjj', hg'⟩ := ih (measure j) (h ▸ hlt) j rfl
      exact ⟨j', hj.trans hjj', hg'⟩

section Sums

variable [Fintype ι] {α : Type*} {f : α → ℕ} {w : ι → α}

theorem sum_update [DecidableEq ι] (f : α → ℕ) (w : ι → α) (i : ι) (v : α) :
    ∑ j, f (Function.update w i v j) + f (w i) = ∑ j, f (w j) + f v := by
  have hrest : ∑ j ∈ Finset.univ.erase i, f (Function.update w i v j) =
      ∑ j ∈ Finset.univ.erase i, f (w j) := by
    apply Finset.sum_congr rfl
    intro j hj
    rw [Function.update_of_ne (Finset.ne_of_mem_erase hj)]
  rw [← Finset.sum_erase_add _ _ (Finset.mem_univ i), Function.update_self,
    ← Finset.sum_erase_add Finset.univ (fun j => f (w j)) (Finset.mem_univ i)]
  omega

theorem le_sum (f : α → ℕ) (w : ι → α) (i : ι) : f (w i) ≤ ∑ j, f (w j) :=
  Finset.single_le_sum (f := fun j => f (w j)) (fun _ _ => Nat.zero_le _) (Finset.mem_univ i)

theorem eq_one_of_sum_eq_card (hf : ∀ a, f a ≤ 1) (h : ∑ j, f (w j) = Fintype.card ι) (i : ι) :
    f (w i) = 1 := by
  have hcard : ∑ j, f (w j) = ∑ _j : ι, 1 := by rw [h]; simp
  exact (Finset.sum_eq_sum_iff_of_le fun j _ => hf (w j)).mp hcard i (Finset.mem_univ i)

end Sums

end Fairness
