import Mathlib.Data.List.GetD
import Mathlib.Tactic.Ring

/-! # Byte-addressed memory

Reads and writes of byte ranges and of little-endian 32-bit words.
-/

abbrev Memory := ℕ → UInt8

namespace Memory

variable {m : Memory} {a b n v : ℕ} {bytes : List UInt8}

def write (m : Memory) (a : ℕ) (bytes : List UInt8) : Memory := fun i =>
  if a ≤ i then (bytes[i - a]?).getD (m i) else m i

def read (m : Memory) (a n : ℕ) : List UInt8 := (List.range n).map fun i => m (a + i)

def zero (m : Memory) (a n : ℕ) : Memory := m.write a (List.replicate n 0)

def readU32 (m : Memory) (a : ℕ) : ℕ :=
  (m a).toNat + 256 * (m (a + 1)).toNat + 65536 * (m (a + 2)).toNat +
    16777216 * (m (a + 3)).toNat

def writeU32 (m : Memory) (a v : ℕ) : Memory :=
  m.write a [UInt8.ofNat v, UInt8.ofNat (v / 256), UInt8.ofNat (v / 65536),
    UInt8.ofNat (v / 16777216)]

@[simp] theorem length_read : (m.read a n).length = n := by simp [read]

theorem write_inside {i : ℕ} (h : i < bytes.length) : m.write a bytes (a + i) = bytes[i] := by
  simp [write, h]

theorem write_outside {i : ℕ} (h : i < a ∨ a + bytes.length ≤ i) : m.write a bytes i = m i := by
  unfold write
  split
  · rw [List.getElem?_eq_none (by omega)]
    rfl
  · rfl

theorem read_write_self : (m.write a bytes).read a bytes.length = bytes := by
  apply List.ext_getElem
  · simp
  · intro i h1 h2
    simp only [read, List.getElem_map, List.getElem_range]
    exact write_inside h2

theorem read_congr {m' : Memory} (h : ∀ i, a ≤ i → i < a + n → m' i = m i) :
    m'.read a n = m.read a n := by
  apply List.map_congr_left
  intro i hi
  exact h (a + i) (by omega) (by have := List.mem_range.mp hi; omega)

theorem read_write_of_disjoint (h : a + n ≤ b ∨ b + bytes.length ≤ a) :
    (m.write b bytes).read a n = m.read a n := by
  apply read_congr
  intro i h1 h2
  exact write_outside (by omega)

theorem zero_inside (h1 : a ≤ b) (h2 : b < a + n) : m.zero a n b = 0 := by
  have h : b - a < (List.replicate n (0 : UInt8)).length := by
    rw [List.length_replicate]
    omega
  have hwrite := write_inside (m := m) (a := a) h
  rw [show a + (b - a) = b by omega] at hwrite
  simpa [zero] using hwrite

theorem zero_outside (h : b < a ∨ a + n ≤ b) : m.zero a n b = m b :=
  write_outside (by simpa using h)

theorem readU32_congr {m' : Memory} {low high : ℕ} (h : ∀ i, low ≤ i → i < high → m' i = m i)
    (hlow : low ≤ a) (hhigh : a + 4 ≤ high) : m'.readU32 a = m.readU32 a := by
  unfold readU32
  rw [h a (by omega) (by omega), h (a + 1) (by omega) (by omega), h (a + 2) (by omega) (by omega),
    h (a + 3) (by omega) (by omega)]

theorem readU32_writeU32_self (h : v < 4294967296) : (m.writeU32 a v).readU32 a = v := by
  have hb : ∀ i (hi : i < 4), m.writeU32 a v (a + i) = [UInt8.ofNat v, UInt8.ofNat (v / 256),
      UInt8.ofNat (v / 65536), UInt8.ofNat (v / 16777216)].get ⟨i, hi⟩ := fun i hi =>
    write_inside (m := m) (a := a) hi
  have h0 := hb 0 (by omega)
  rw [Nat.add_zero] at h0
  unfold readU32
  rw [h0, hb 1 (by omega), hb 2 (by omega), hb 3 (by omega)]
  simp only [List.get_eq_getElem, List.getElem_cons_zero, List.getElem_cons_succ,
    UInt8.toNat_ofNat']
  omega

theorem readU32_writeU32_of_disjoint (h : a + 4 ≤ b ∨ b + 4 ≤ a) :
    (m.writeU32 b v).readU32 a = m.readU32 a := by
  refine readU32_congr (fun i h1 h2 => ?_) le_rfl le_rfl
  exact write_outside (by simp; omega)

theorem readU32_zero_inside (h1 : a ≤ b) (h2 : b + 4 ≤ a + n) : (m.zero a n).readU32 b = 0 := by
  unfold readU32
  rw [zero_inside h1 (by omega), zero_inside (by omega) (by omega),
    zero_inside (by omega) (by omega), zero_inside (by omega) (by omega)]
  rfl

end Memory
