import Hammer.ByteMemory
import Mathlib.Algebra.Order.Ring.Nat

/-! # Vectors of the stats segment

`hammer-stats/src/segment.rs`: `allocate_vector` packs the length of the prefix and the alignment
into the eight bytes before the data, and `free_vector` computes from them the layout it frees.
Arithmetic that overflows panics.
-/
namespace StatsVector

def VEC_MIN_ALIGN : ℕ := 8

def VECTOR_HEADER_BYTES : ℕ := 8

inductive StatsError where
  | invalidShape
  | panic
  deriving DecidableEq, Repr

/-- An allocation: its address and its `Layout`. -/
structure Block where
  base : ℕ
  size : ℕ
  align : ℕ
  deriving DecidableEq, Repr

/-- `Layout::from_size_align` accepts the layout. -/
def validLayout (size align : ℕ) : Bool :=
  decide align.isPowerOfTwo && decide (size + align ≤ 2 ^ 63)

def nextMultipleOf (n a : ℕ) : ℕ := (n + a - 1) / a * a

/-- `usize::trailing_zeros`. -/
def trailingZeros (n : ℕ) : ℕ := (List.range 64).findIdx n.testBit

def vectorPrefix (userHeader dataAlignment : ℕ) (explicitHeap : Bool) : ℕ :=
  nextMultipleOf (userHeader + VECTOR_HEADER_BYTES + if explicitHeap then 8 else 0) dataAlignment

def vecHeaderBytes (len hdrSize log2Align : ℕ) (defaultHeap : Bool) (growElts vpad : ℕ) :
    List UInt8 :=
  [UInt8.ofNat len, UInt8.ofNat (len / 256), UInt8.ofNat (len / 65536),
    UInt8.ofNat (len / 16777216), UInt8.ofNat hdrSize,
    UInt8.ofNat log2Align &&& 0x7f ||| if defaultHeap then 0x80 else 0,
    UInt8.ofNat growElts, UInt8.ofNat vpad]

def vecLen (header : List UInt8) : ℕ :=
  (header.getD 0 0).toNat + 256 * (header.getD 1 0).toNat + 65536 * (header.getD 2 0).toNat +
    16777216 * (header.getD 3 0).toNat

def pointerBytes (pointer : ℕ) : List UInt8 :=
  (List.range 8).map fun i => UInt8.ofNat (pointer / 256 ^ i)

/-- The vector at the address the heap gave: memory, data pointer and what was allocated. -/
def allocateVector (m : Memory) (pointer heap elementSize count dataAlignment userHeader : ℕ)
    (explicitHeap : Bool) : Except StatsError (Memory × ℕ × Block) :=
  let alignment := max dataAlignment VEC_MIN_ALIGN
  let prefixLen := vectorPrefix userHeader alignment explicitHeap
  let requested := prefixLen + elementSize * count
  if 2 ^ 64 ≤ prefixLen then .error .panic
  else if 2 ^ 64 ≤ requested ∨ 2 ^ 32 ≤ count then .error .invalidShape
  else if !validLayout requested alignment then .error .panic
  else if 256 ≤ prefixLen / VEC_MIN_ALIGN then .error .panic
  else
    let data := pointer + prefixLen
    let m := (m.zero pointer requested).write (data - VECTOR_HEADER_BYTES)
      (vecHeaderBytes count (prefixLen / VEC_MIN_ALIGN) (trailingZeros alignment)
        (!explicitHeap) 0 0)
    .ok (if explicitHeap then m.write (data - 2 * VECTOR_HEADER_BYTES) (pointerBytes heap) else m,
      data, ⟨pointer, requested, alignment⟩)

/-- What `free_vector` hands to the heap; it panics on a layout that is not valid. -/
def freeVector (m : Memory) (data elementSize : ℕ) : Option Block :=
  let header := m.read (data - VECTOR_HEADER_BYTES) 8
  let prefixLen := (header.getD 4 0).toNat * VEC_MIN_ALIGN
  let size := prefixLen + vecLen header * elementSize
  let alignment := VEC_MIN_ALIGN <<< (header.getD 5 0 &&& 0x7f).toNat
  if validLayout size alignment then some ⟨data - prefixLen, size, alignment⟩ else none

theorem trailingZeros_two_pow : ∀ k < 64, trailingZeros (2 ^ k) = k := by decide

theorem alignByte_and : ∀ k < 11, ∀ b : Bool,
    ((UInt8.ofNat k &&& 0x7f ||| if b then 0x80 else 0) &&& 0x7f).toNat = k := by decide

theorem vectorPrefix_spec {a : ℕ} (userHeader : ℕ) (ha : 0 < a) (explicitHeap : Bool) :
    a ∣ vectorPrefix userHeader a explicitHeap ∧
      userHeader + 8 + (if explicitHeap then 8 else 0) ≤
        vectorPrefix userHeader a explicitHeap := by
  refine ⟨Nat.dvd_mul_left .., ?_⟩
  unfold vectorPrefix nextMultipleOf VECTOR_HEADER_BYTES
  generalize userHeader + 8 + (if explicitHeap then 8 else 0) = n
  have h := Nat.div_add_mod (n + a - 1) a
  have hlt := Nat.mod_lt (n + a - 1) ha
  rw [Nat.mul_comm]
  omega

variable {m m' : Memory} {pointer heap elementSize count dataAlignment userHeader data : ℕ}
  {explicitHeap : Bool} {block : Block}

/-- What an accepted shape is, and the header it leaves. -/
theorem allocateVector_ok (h : allocateVector m pointer heap elementSize count dataAlignment
      userHeader explicitHeap = .ok (m', data, block)) : ∃ k p, k < 11 ∧ 8 ∣ p ∧ p < 2048 ∧
    count < 2 ^ 32 ∧ data = pointer + p ∧ block = ⟨pointer, p + elementSize * count, 2 ^ k⟩ ∧
    m'.read (data - 8) 8 = vecHeaderBytes count (p / 8) k (!explicitHeap) 0 0 := by
  unfold allocateVector at h
  have ha8 : 8 ≤ max dataAlignment VEC_MIN_ALIGN := le_max_right ..
  simp only at h
  generalize max dataAlignment VEC_MIN_ALIGN = a at h ha8
  obtain ⟨hdvd, hle⟩ := vectorPrefix_spec userHeader (a := a) (by omega) explicitHeap
  generalize vectorPrefix userHeader a explicitHeap = p at h hdvd hle
  split at h
  · cases h
  split at h
  · cases h
  split at h
  · cases h
  rename_i hvalid
  split at h
  · cases h
  rename_i hlen
  rw [VEC_MIN_ALIGN] at hlen
  obtain ⟨k, rfl⟩ : a.isPowerOfTwo := by
    simp only [validLayout, Bool.not_eq_true', Bool.not_eq_false, Bool.and_eq_true,
      decide_eq_true_eq] at hvalid
    exact hvalid.1
  have hple : 2 ^ k ≤ p := Nat.le_of_dvd (by omega) hdvd
  have h3 : 3 ≤ k := (Nat.pow_le_pow_iff_right (a := 2) (by omega)).mp ha8
  have h11 : k < 11 := (Nat.pow_lt_pow_iff_right (a := 2) (by omega)).mp (by omega)
  rw [trailingZeros_two_pow k (by omega)] at h
  cases h
  refine ⟨k, p, h11, (pow_dvd_pow 2 h3).trans hdvd, by omega, by omega, rfl, rfl, ?_⟩
  cases explicitHeap with
  | false => exact Memory.read_write_self
  | true =>
    rw [if_pos rfl] at hle
    rw [if_pos rfl, Memory.read_write_of_disjoint (by
      simp [pointerBytes, VECTOR_HEADER_BYTES]; omega)]
    exact Memory.read_write_self

/-- `free_vector` finds the address and the size of every vector again, but eight times its
alignment, so never its layout. -/
theorem vector_freed_with_eightfold_alignment (h : allocateVector m pointer heap elementSize count
      dataAlignment userHeader explicitHeap = .ok (m', data, block)) :
    freeVector m' data elementSize =
      (if block.size + 8 * block.align ≤ 2 ^ 63 then
        some ⟨block.base, block.size, 8 * block.align⟩ else none) ∧
    freeVector m' data elementSize ≠ some block := by
  obtain ⟨k, p, hk, h8, hp, hcount, rfl, rfl, hheader⟩ := allocateVector_ok h
  have hpow : (8 * 2 ^ k).isPowerOfTwo := ⟨3 + k, by rw [pow_add]; rfl⟩
  have hfree : freeVector m' (pointer + p) elementSize =
      if p + elementSize * count + 8 * 2 ^ k ≤ 2 ^ 63 then
        some ⟨pointer, p + elementSize * count, 8 * 2 ^ k⟩ else none := by
    have hlen : vecLen (vecHeaderBytes count (p / 8) k (!explicitHeap) 0 0) = count := by
      simp [vecLen, vecHeaderBytes]
      omega
    have hprefix : (UInt8.ofNat (p / 8)).toNat * 8 = p := by
      rw [UInt8.toNat_ofNat']
      omega
    unfold freeVector
    simp only [VECTOR_HEADER_BYTES, VEC_MIN_ALIGN, hheader, hlen]
    simp only [vecHeaderBytes, List.getD_cons_succ, List.getD_cons_zero, hprefix,
      alignByte_and k hk, Nat.shiftLeft_eq, validLayout, hpow, Nat.add_sub_cancel,
      Nat.mul_comm count]
    simp
  refine ⟨hfree, ?_⟩
  rw [hfree]
  split <;> simp

/-- A vector of eight words with a header of sixteen bytes. -/
theorem vector_layout_of_directory_names : ∃ m' data,
    allocateVector (fun _ => 0) 4096 64 8 8 8 16 true = .ok (m', data, ⟨4096, 96, 8⟩) ∧
      freeVector m' data 8 = some ⟨4096, 96, 64⟩ := by
  have h : allocateVector (fun _ => 0) 4096 64 8 8 8 16 true = .ok (_, _, ⟨4096, 96, 8⟩) := rfl
  exact ⟨_, _, h, (vector_freed_with_eightfold_alignment h).1⟩

theorem byte_vector_freed_with_other_alignment : ∃ m' data block,
    allocateVector (fun _ => 0) 4096 64 1 5 8 0 true = .ok (m', data, block) ∧
      freeVector m' data 1 ≠ some block := by
  refine ⟨_, _, _, rfl, ?_⟩
  decide +kernel

end StatsVector
