import Hammer.SerialNumber

/-! # TCP sequence numbers

`TcpSeq` of `transport/tcp/src/protocol/mod.rs`: a `u32` ordered by the sign of the
wrapping difference.
-/

abbrev TcpSeq := BitVec 32

namespace TcpSeq

def cmp (a b : TcpSeq) : Ordering := Serial.cmp (w := 31) a b
def lt (a b : TcpSeq) : Bool := Serial.lt (w := 31) a b
def le (a b : TcpSeq) : Bool := Serial.le (w := 31) a b
def max (a b : TcpSeq) : TcpSeq := Serial.max (w := 31) a b
def min (a b : TcpSeq) : TcpSeq := Serial.min (w := 31) a b

def gt (a b : TcpSeq) : Bool := cmp a b == .gt
def ge (a b : TcpSeq) : Bool := cmp a b != .lt

def advance (a : TcpSeq) (by' : ℕ) : TcpSeq := a + BitVec.ofNat 32 by'
def distanceTo (a b : TcpSeq) : ℕ := (b - a).toNat

/-- The sequence number of a position in the unwrapped sequence space. -/
def wrap (a : ℤ) : TcpSeq := Serial.wrap (w := 31) a

def Near (a b : ℤ) : Prop := Serial.Near 31 a b

theorem near_iff {a b : ℤ} : Near a b ↔ -2147483648 < a - b ∧ a - b < 2147483648 := by
  simp [Near, Serial.Near]

theorem cmp_eq_iff (a b : TcpSeq) : cmp a b = .eq ↔ a = b := Serial.cmp_eq_iff

variable {a b : ℤ}

theorem wrap_inj (h : Near a b) : wrap a = wrap b ↔ a = b := Serial.wrap_inj h
theorem cmp_wrap (h : Near a b) : cmp (wrap a) (wrap b) = compare a b := Serial.cmp_wrap h
theorem lt_wrap (h : Near a b) : lt (wrap a) (wrap b) = true ↔ a < b := Serial.lt_wrap h
theorem le_wrap (h : Near a b) : le (wrap a) (wrap b) = true ↔ a ≤ b := Serial.le_wrap h
theorem max_wrap (h : Near a b) : max (wrap a) (wrap b) = wrap (Max.max a b) :=
  Serial.max_wrap h
theorem min_wrap (h : Near a b) : min (wrap a) (wrap b) = wrap (Min.min a b) :=
  Serial.min_wrap h

variable {x y o : TcpSeq}

theorem distanceTo_lt (x y : TcpSeq) : distanceTo x y < 4294967296 := (y - x).isLt

theorem distanceTo_eq_zero : distanceTo x y = 0 ↔ x = y := by
  unfold distanceTo
  constructor
  · bv_omega
  · rintro rfl; simp

theorem distanceTo_self (x : TcpSeq) : distanceTo x x = 0 := distanceTo_eq_zero.mpr rfl

theorem distanceTo_origin (o x y : TcpSeq) :
    distanceTo x y = (distanceTo o y + (4294967296 - distanceTo o x)) % 4294967296 := by
  unfold distanceTo
  bv_omega

theorem distanceTo_injective (h : distanceTo o x = distanceTo o y) : x = y := by
  unfold distanceTo at h
  bv_omega

theorem distanceTo_advance {n : ℕ} (hn : n < 4294967296) : distanceTo x (advance x n) = n := by
  unfold distanceTo advance
  bv_omega

theorem advance_distanceTo (x y : TcpSeq) : advance x (distanceTo x y) = y := by
  unfold distanceTo advance
  rw [BitVec.ofNat_toNat]
  simp

@[simp] theorem advance_zero (x : TcpSeq) : advance x 0 = x := by
  unfold advance
  simp

theorem advance_advance (x : TcpSeq) (m n : ℕ) : advance (advance x m) n = advance x (m + n) := by
  unfold advance
  rw [BitVec.add_assoc, ← BitVec.ofNat_add]

theorem advance_wrap (a : ℤ) (n : ℕ) : advance (wrap a) n = wrap (a + n) := by
  unfold advance wrap
  rw [Serial.wrap_add]
  congr 1

theorem distanceTo_wrap (h1 : a ≤ b) (h2 : b - a < 4294967296) :
    distanceTo (wrap a) (wrap b) = (b - a).toNat := by
  unfold distanceTo wrap
  rw [Serial.wrap_sub]
  have := Serial.toNat_wrap (w := 31) (a := b - a) (by omega) (by omega)
  omega

theorem distanceTo_advance_origin {n : ℕ} (h : distanceTo o x + n < 4294967296) :
    distanceTo o (advance x n) = distanceTo o x + n := by
  unfold distanceTo advance at *
  bv_omega

theorem toInt_neg_iff (x : TcpSeq) : x.toInt < 0 ↔ 2147483648 ≤ x.toNat := by
  rw [BitVec.toInt_eq_toNat_cond]
  split <;> omega

theorem cmp_eq_ite (x y : TcpSeq) : cmp x y =
    if distanceTo y x = 0 then .eq else if 2147483648 ≤ distanceTo y x then .lt else .gt := by
  unfold cmp Serial.cmp
  by_cases h : x = y
  · simp [h, distanceTo_self]
  · have h0 : distanceTo y x ≠ 0 := fun e => h (distanceTo_eq_zero.mp e).symm
    rw [if_neg h, if_neg h0]
    congr 1
    exact propext (toInt_neg_iff (x - y))

theorem lt_iff : lt x y = true ↔ 2147483648 ≤ distanceTo y x := by
  have : lt x y = (cmp x y == .lt) := rfl
  rw [this, cmp_eq_ite]
  split
  · simp; omega
  · split <;> simp_all

theorem le_iff : le x y = true ↔ distanceTo y x = 0 ∨ 2147483648 ≤ distanceTo y x := by
  have : le x y = (cmp x y != .gt) := rfl
  rw [this, cmp_eq_ite]
  split
  · simp_all
  · split <;> simp_all

theorem gt_eq_not_le (x y : TcpSeq) : gt x y = !le x y := by
  have : le x y = (cmp x y != .gt) := rfl
  rw [this, gt, bne, Bool.not_not]

theorem ge_eq_not_lt (x y : TcpSeq) : ge x y = !lt x y := rfl

theorem ge_wrap (h : Near a b) : ge (wrap a) (wrap b) = true ↔ b ≤ a := by
  rw [ge_eq_not_lt, Bool.not_eq_true', Bool.eq_false_iff, ne_eq, lt_wrap h, not_lt]

variable (c x y : TcpSeq)

theorem distanceTo_shift : distanceTo (x + c) (y + c) = distanceTo x y := by
  unfold distanceTo
  bv_omega

theorem cmp_shift : cmp (x + c) (y + c) = cmp x y := by
  rw [cmp_eq_ite, cmp_eq_ite, distanceTo_shift]

theorem lt_shift : lt (x + c) (y + c) = lt x y := by
  have h : ∀ a b : TcpSeq, lt a b = (cmp a b == .lt) := fun _ _ => rfl
  rw [h, h, cmp_shift]

theorem le_shift : le (x + c) (y + c) = le x y := by
  have h : ∀ a b : TcpSeq, le a b = (cmp a b != .gt) := fun _ _ => rfl
  rw [h, h, cmp_shift]

theorem gt_shift : gt (x + c) (y + c) = gt x y := by
  unfold gt
  rw [cmp_shift]

theorem ge_shift : ge (x + c) (y + c) = ge x y := by
  unfold ge
  rw [cmp_shift]

theorem max_shift : max (x + c) (y + c) = max x y + c := by
  have h : ∀ a b : TcpSeq, max a b = if lt b a then a else b := fun _ _ => rfl
  rw [h, h, lt_shift]
  split <;> rfl

theorem min_shift : min (x + c) (y + c) = min x y + c := by
  have h : ∀ a b : TcpSeq, min a b = if lt b a then b else a := fun _ _ => rfl
  rw [h, h, lt_shift]
  split <;> rfl

theorem beq_shift : (x + c == y + c) = (x == y) := by
  rw [Bool.eq_iff_iff, beq_iff_eq, beq_iff_eq]
  exact BitVec.add_left_inj c

end TcpSeq
