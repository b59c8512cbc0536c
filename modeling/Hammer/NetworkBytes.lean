import Mathlib.Data.List.Basic
import Mathlib.Data.List.GetD
import Mathlib.Order.Lattice
import Mathlib.Tactic.Ring

/-! # Bytes on the wire

Big-endian fields of a byte string.
-/

namespace NetworkBytes

def byteAt (bytes : List UInt8) (i : ℕ) : ℕ := (bytes.getD i 0).toNat

def be16 (bytes : List UInt8) (i : ℕ) : ℕ := byteAt bytes i * 256 + byteAt bytes (i + 1)

def be32 (bytes : List UInt8) (i : ℕ) : ℕ := be16 bytes i * 65536 + be16 bytes (i + 2)

def toBe16 (v : UInt16) : List UInt8 := [(v >>> 8).toUInt8, v.toUInt8]

def toBe32 (v : UInt32) : List UInt8 :=
  [(v >>> 24).toUInt8, (v >>> 16).toUInt8, (v >>> 8).toUInt8, v.toUInt8]

def u16At (bytes : List UInt8) (i : ℕ) : UInt16 := UInt16.ofNat (be16 bytes i)

def u32At (bytes : List UInt8) (i : ℕ) : UInt32 := UInt32.ofNat (be32 bytes i)

section Words

variable {l l' : List UInt8} {i n : ℕ}

theorem byteAt_append_right (h : l.length = n) : byteAt (l ++ l') (n + i) = byteAt l' i := by
  unfold byteAt
  rw [List.getD_append_right _ _ _ _ (by omega), h, Nat.add_sub_cancel_left]

theorem u16At_append_right (h : l.length = n) : u16At (l ++ l') (n + i) = u16At l' i := by
  simp only [u16At, be16, Nat.add_assoc, byteAt_append_right h]

theorem u32At_append_right (h : l.length = n) : u32At (l ++ l') (n + i) = u32At l' i := by
  simp only [u32At, be32, be16, Nat.add_assoc, byteAt_append_right h]

theorem u16At_toBe16 (v : UInt16) : u16At (toBe16 v ++ l) 0 = v := by
  apply UInt16.toNat.inj
  have h := v.toNat_lt
  simp [u16At, be16, byteAt, toBe16]
  omega

theorem u32At_toBe32 (v : UInt32) : u32At (toBe32 v ++ l) 0 = v := by
  apply UInt32.toNat.inj
  have h := v.toNat_lt
  simp [u32At, be32, be16, byteAt, toBe32]
  omega

end Words

end NetworkBytes
