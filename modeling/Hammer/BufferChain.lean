import Mathlib.Data.Fintype.Card
import Mathlib.Data.Nat.Log
import Mathlib.Tactic.Ring

/-! # Walking a chain of buffers

`chain` follows the `next_buffer` links and compares every link with an earlier buffer, which it
picks anew after spans of doubling length.
-/
namespace BufferChain

/-- A buffer index, a `u32`. -/
abbrev Index := Fin (2 ^ 32)

structure Walk where
  index : Index
  cycleStart : Index
  span : ℕ
  traversed : ℕ

inductive Stop
  | finished
  | cyclic

def start (index : Index) : Walk := ⟨index, index, 1, 0⟩

/-- The closure that `chain` hands to `successors`; `cyclic` is its assertion. -/
def successor (next : Index → Option Index) (w : Walk) : Except Stop Walk :=
  match next w.index with
  | none => .error .finished
  | some n =>
    if n = w.cycleStart then .error .cyclic
    else if w.traversed + 1 = w.span then .ok ⟨n, n, min (w.span * 2) (2 ^ 64 - 1), 0⟩
    else .ok ⟨n, w.cycleStart, w.span, w.traversed + 1⟩

/-- The state after some calls of the closure. `successors` holds the buffer `index` then and
yields it as soon as the next call has come back. -/
def walk (next : Index → Option Index) (index : Index) : ℕ → Except Stop Walk
  | 0 => .ok (start index)
  | i + 1 => (walk next index i).bind (successor next)

variable {next : Index → Option Index} {p : ℕ → Index} {N : ℕ}

/-- After `2 ^ k - 1 + t` links the walk compares with what it was at after `2 ^ k - 1`. -/
theorem walk_spec (hp : ∀ i < N, next (p i) = some (p (i + 1))) (hN : N < 2 ^ 63) {i : ℕ}
    (hi : i ≤ N) :
    (∃ k t, i + 1 = 2 ^ k + t ∧ t < 2 ^ k ∧
      walk next (p 0) i = .ok ⟨p i, p (2 ^ k - 1), 2 ^ k, t⟩) ∨
    (walk next (p 0) i = .error .cyclic ∧ ∃ a b, a < b ∧ b ≤ i ∧ p a = p b) := by
  induction i with
  | zero => exact Or.inl ⟨0, 0, rfl, Nat.one_pos, rfl⟩
  | succ i ih =>
    rcases ih (by omega) with ⟨k, t, hpos, ht, hw⟩ | ⟨hw, a, b, hab, hb, heq⟩
    · rw [walk, hw, Except.bind, successor, hp i (by omega)]
      dsimp only
      split
      · next heq => exact Or.inr ⟨rfl, 2 ^ k - 1, i + 1, by omega, Nat.le_refl _, heq.symm⟩
      · split
        · next hfull =>
          refine Or.inl ⟨k + 1, 0, by omega, Nat.two_pow_pos _, ?_⟩
          rw [show 2 ^ (k + 1) - 1 = i + 1 by omega, min_eq_left (by omega), Nat.pow_succ]
        · exact Or.inl ⟨k, t + 1, by omega, by omega, rfl⟩
    · refine Or.inr ⟨?_, a, b, hab, by omega, heq⟩
      rw [walk, hw]
      rfl

/-- A walk that comes to an end does not pass a buffer twice. -/
theorem path_injective (hp : ∀ i < N, next (p i) = some (p (i + 1))) (hend : next (p N) = none)
    {a b : ℕ} (hab : a < b) (hb : b ≤ N) : p a ≠ p b := by
  intro heq
  have hshift : ∀ j, b + j ≤ N → p (a + j) = p (b + j) := by
    intro j
    induction j with
    | zero => exact fun _ => heq
    | succ j ih =>
      intro hj
      have hstep := hp (a + j) (by omega)
      rw [ih (by omega), hp (b + j) (by omega)] at hstep
      exact (Option.some.inj hstep).symm
  have hlast := hshift (N - b) (by omega)
  rw [Nat.add_sub_cancel' hb] at hlast
  have hstep := hp (a + (N - b)) (by omega)
  rw [hlast, hend] at hstep
  cases hstep

theorem le_of_injective {n : ℕ} (h : ∀ a b, a < b → b < n → p a ≠ p b) : n ≤ 2 ^ 32 := by
  have hinj : Function.Injective fun i : Fin n => p i :=
    Function.Injective.of_lt_imp_ne fun a b hab => h a b hab b.isLt
  simpa using Fintype.card_le_of_injective _ hinj

theorem exists_span {x : ℕ} (hx : x ≠ 0) : ∃ k, x < 2 ^ k ∧ 2 ^ k ≤ 2 * x := by
  refine ⟨Nat.log 2 x + 1, Nat.lt_pow_succ_log_self Nat.one_lt_two x, ?_⟩
  have hle := Nat.pow_log_le_self 2 hx
  rw [Nat.pow_succ]
  omega

/-- The walk along a chain that ends yields each of its buffers once and in order; on a tail of `m`
buffers that leads into a cycle of `c` the assertion fails within `3 * (m + c)` links. -/
theorem chain_walk_stops (next : Index → Option Index) (p : ℕ → Index) :
    (∀ N, (∀ i < N, next (p i) = some (p (i + 1))) → next (p N) = none →
      (∀ a b, a < b → b ≤ N → p a ≠ p b) ∧
      (∀ i ≤ N, (walk next (p 0) i).map (·.index) = .ok (p i)) ∧
      walk next (p 0) (N + 1) = .error .finished) ∧
    (∀ m c, 0 < c → (∀ i, next (p i) = some (p (i + 1))) → p (m + c) = p m →
      (∀ a b, a < b → b < m + c → p a ≠ p b) →
      ∃ steps ≤ 3 * (m + c), walk next (p 0) steps = .error .cyclic) := by
  refine ⟨fun N hp hend => ?_, fun m c hc hp hcycle hdistinct => ?_⟩
  · have hne := fun a b => path_injective hp hend (a := a) (b := b)
    have hN := le_of_injective (n := N + 1) (p := p) fun a b hab hb => hne a b hab (by omega)
    have hstate : ∀ i ≤ N, ∃ w, walk next (p 0) i = .ok w ∧ w.index = p i := by
      intro i hi
      rcases walk_spec hp (by omega) hi with ⟨k, t, -, -, hw⟩ | ⟨-, a, b, hab, hb, heq⟩
      · exact ⟨_, hw, rfl⟩
      · exact absurd heq (hne a b hab (by omega))
    refine ⟨hne, fun i hi => ?_, ?_⟩
    · obtain ⟨w, hw, hindex⟩ := hstate i hi
      rw [hw, ← hindex]
      rfl
    · obtain ⟨w, hw, hindex⟩ := hstate N le_rfl
      rw [walk, hw, Except.bind, successor, hindex, hend]
  · have hsmall := le_of_injective hdistinct
    have hround : ∀ j, m ≤ j → p (j + c) = p j := by
      intro j hj
      induction j, hj using Nat.le_induction with
      | base => exact hcycle
      | succ j hj ih =>
        have hstep := hp (j + c)
        rw [ih, hp j] at hstep
        rw [Nat.add_right_comm]
        exact (Option.some.inj hstep).symm
    -- the span that starts at link `2 ^ k - 1` starts on the cycle and is long enough for it
    obtain ⟨k, hlong, hshort⟩ := exists_span (x := max (m + 1) c) (by omega)
    have hmeet : p (2 ^ k + (c - 1)) = p (2 ^ k - 1) := by
      rw [← hround (2 ^ k - 1) (by omega)]
      congr 1
      omega
    rcases walk_spec (N := 2 ^ k + (c - 1)) (i := 2 ^ k + (c - 1) - 1) (fun i _ => hp i) (by omega)
        (by omega) with ⟨l, t, hpos, ht, hw⟩ | ⟨hw, -⟩
    · have hl : l = k := by
        rw [← Nat.log_eq_of_pow_le_of_lt_pow (b := 2) (m := l) (n := 2 ^ k + (c - 1)) (by omega)
            (by rw [Nat.pow_succ]; omega),
          Nat.log_eq_of_pow_le_of_lt_pow (Nat.le_add_right _ _) (by rw [Nat.pow_succ]; omega)]
      refine ⟨2 ^ k + (c - 1) - 1 + 1, by omega, ?_⟩
      rw [walk, hw, Except.bind, successor, hp]
      dsimp only
      rw [hl, if_pos]
      rw [← hmeet]
      congr 1
      omega
    · exact ⟨_, by omega, hw⟩

theorem chain_walk_stops_on_two_buffers :
    walk (fun i => if i = 0 then some 1 else none) 0 2 = .error .finished ∧
    ∃ steps ≤ 6, walk (fun _ => some 1) 0 steps = .error .cyclic := by
  let p : ℕ → Index := fun i => if i = 0 then 0 else 1
  refine ⟨((chain_walk_stops _ p).1 1 ?_ rfl).2.2,
    (chain_walk_stops _ p).2 1 1 Nat.one_pos (fun i => by simp [p]) rfl ?_⟩
  · intro i hi
    obtain rfl : i = 0 := by omega
    rfl
  · intro a b hab hb
    obtain ⟨rfl, rfl⟩ : a = 0 ∧ b = 1 := by omega
    decide

end BufferChain
