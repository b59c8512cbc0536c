import Mathlib.Data.BitVec
import Mathlib.Order.Compare
import Mathlib.Tactic.Ring

/-! # Serial numbers

Numbers modulo `2 ^ (w + 1)` compared through the sign of their difference. An unwrapped
position is an integer; positions less than half the space apart compare like integers.
-/
namespace Serial

variable {w : ℕ}

def cmp (a b : BitVec (w + 1)) : Ordering :=
  if a = b then .eq else if (a - b).toInt < 0 then .lt else .gt

def lt (a b : BitVec (w + 1)) : Bool := cmp a b == .lt
def le (a b : BitVec (w + 1)) : Bool := cmp a b != .gt
def max (a b : BitVec (w + 1)) : BitVec (w + 1) := if lt b a then a else b
def min (a b : BitVec (w + 1)) : BitVec (w + 1) := if lt b a then b else a

def wrap (a : ℤ) : BitVec (w + 1) := BitVec.ofInt (w + 1) a

theorem wrap_sub (a b : ℤ) : (wrap a - wrap b : BitVec (w + 1)) = wrap (a - b) := by
  have h := BitVec.ofInt_add (n := w + 1) (a - b) b
  rw [Int.sub_add_cancel] at h
  unfold wrap
  rw [h, BitVec.add_sub_cancel]

theorem wrap_add (a b : ℤ) : (wrap (a + b) : BitVec (w + 1)) = wrap a + wrap b :=
  BitVec.ofInt_add a b

theorem wrap_toInt (x : BitVec (w + 1)) : wrap x.toInt = x := BitVec.ofInt_toInt

theorem toInt_wrap {a : ℤ} (lo : -2 ^ w ≤ a) (hi : a < 2 ^ w) :
    (wrap a : BitVec (w + 1)).toInt = a := by
  have h2 : ((2 ^ (w + 1) : ℕ) : ℤ) = 2 * 2 ^ w := by push_cast; ring
  rw [wrap, BitVec.toInt_ofInt]
  refine Int.bmod_eq_of_le ?_ ?_ <;> omega

theorem toNat_wrap {a : ℤ} (lo : 0 ≤ a) (hi : a < 2 ^ (w + 1)) :
    ((wrap a : BitVec (w + 1)).toNat : ℤ) = a := by
  rw [wrap, BitVec.toNat_ofInt, Int.emod_eq_of_lt lo (by push_cast; omega)]
  omega

/-- Less than half the space apart. -/
def Near (w : ℕ) (a b : ℤ) : Prop := -2 ^ w < a - b ∧ a - b < 2 ^ w

variable {a b : ℤ}

theorem Near.symm (h : Near w a b) : Near w b a := by
  unfold Near at *
  omega

theorem wrap_inj (h : Near w a b) : (wrap a : BitVec (w + 1)) = wrap b ↔ a = b := by
  refine ⟨fun e => ?_, fun e => by rw [e]⟩
  have hz : (wrap (a - b) : BitVec (w + 1)).toInt = 0 := by rw [← wrap_sub, e]; simp
  rw [toInt_wrap h.1.le h.2] at hz
  omega

theorem cmp_wrap (h : Near w a b) : cmp (wrap a) (wrap b : BitVec (w + 1)) = compare a b := by
  unfold cmp
  rw [wrap_sub, toInt_wrap h.1.le h.2]
  by_cases he : a = b
  · simp [he]
  · rw [if_neg (mt (wrap_inj h).mp he)]
    split
    · rw [(Int.compare_eq_lt).mpr (by omega)]
    · rw [(Int.compare_eq_gt).mpr (by omega)]

theorem cmp_eq_iff {a b : BitVec (w + 1)} : cmp a b = .eq ↔ a = b := by
  unfold cmp
  split
  · simp_all
  · rename_i h
    split <;> simp [h]

theorem lt_wrap (h : Near w a b) : lt (wrap a) (wrap b : BitVec (w + 1)) = true ↔ a < b := by
  simp [lt, cmp_wrap h, Int.compare_eq_lt]

theorem le_wrap (h : Near w a b) : le (wrap a) (wrap b : BitVec (w + 1)) = true ↔ a ≤ b := by
  simp [le, cmp_wrap h, Int.compare_ne_gt]

theorem max_wrap (h : Near w a b) :
    max (wrap a) (wrap b : BitVec (w + 1)) = wrap (Max.max a b) := by
  unfold max
  split
  · rename_i hlt
    rw [lt_wrap h.symm] at hlt
    rw [max_eq_left hlt.le]
  · rename_i hlt
    rw [lt_wrap h.symm] at hlt
    rw [max_eq_right (by omega)]

theorem min_wrap (h : Near w a b) :
    min (wrap a) (wrap b : BitVec (w + 1)) = wrap (Min.min a b) := by
  unfold min
  split
  · rename_i hlt
    rw [lt_wrap h.symm] at hlt
    rw [min_eq_right hlt.le]
  · rename_i hlt
    rw [lt_wrap h.symm] at hlt
    rw [min_eq_left (by omega)]

end Serial
