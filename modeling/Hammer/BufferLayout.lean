import Mathlib.Data.List.Nodup
import Mathlib.Data.Option.Basic
import Mathlib.Tactic.Ring

/-! # Buffer slots

Where the buffers of `hammer-core/src/buffer` lie: `BufferMain::init` cuts each mapping into slots
of one size, names a slot by the cache line at which it starts, and `pool` finds the way back.
-/

namespace Buffer

def BUFFER_CACHE_LINE_SIZE : ℕ := 64

def MAX_BUFFER_MEMORY : ℕ := 2 ^ 38

structure PhysmemMap where
  base : ℕ
  size : ℕ
  pageSize : ℕ
  deriving DecidableEq, Repr

namespace PhysmemMap

def stop (m : PhysmemMap) : ℕ := m.base + m.size

def contains (m : PhysmemMap) (address : ℕ) : Bool :=
  decide (m.base ≤ address) && decide (address - m.base < m.size)

end PhysmemMap

structure PoolLayout where
  mapping : PhysmemMap
  allocationSize : ℕ
  deriving DecidableEq, Repr

namespace PoolLayout

def firstBuffer (l : PoolLayout) : ℕ :=
  l.mapping.base + l.allocationSize - l.mapping.base % l.allocationSize

/-- The slot at the address lies before the end and does not cross a page. -/
def usable (l : PoolLayout) (address : ℕ) : Bool :=
  decide (address < l.mapping.stop - l.allocationSize) &&
    decide (address / l.mapping.pageSize = (address + l.allocationSize) / l.mapping.pageSize)

def addresses (l : PoolLayout) : List ℕ :=
  ((List.range (l.mapping.size / l.allocationSize + 1)).map fun k =>
    l.firstBuffer + k * l.allocationSize).filter l.usable

/-- The index of the buffer at an address, a `u32`. -/
def indexOf (start address : ℕ) : ℕ := (address - start) / BUFFER_CACHE_LINE_SIZE % 2 ^ 32

def addressOf (start : ℕ) (index : ℕ) : ℕ := start + index * BUFFER_CACHE_LINE_SIZE

def slots (l : PoolLayout) (start : ℕ) : List ℕ := l.addresses.map (indexOf start)

/-- What `slot` asserts about the address of a buffer. -/
def isSlot (l : PoolLayout) (address : ℕ) : Bool :=
  decide (l.firstBuffer ≤ address) &&
    decide ((address - l.firstBuffer) % l.allocationSize = 0) && l.usable address

end PoolLayout

/-- The pool of an index: the mapping that holds its address, which has to be that of a slot. -/
def poolOf (start size : ℕ) (layouts : List PoolLayout) (index : ℕ) : Option ℕ := do
  guard (index ≠ 0 ∧ index * BUFFER_CACHE_LINE_SIZE < size)
  let k ← layouts.findIdx? fun l => l.mapping.contains (PoolLayout.addressOf start index)
  let l ← layouts[k]?
  guard (l.isSlot (PoolLayout.addressOf start index))
  pure k

/-- Layouts in one span of memory: cache-line aligned, and apart from each other. -/
structure Placed (start size : ℕ) (layouts : List PoolLayout) : Prop where
  span : size ≤ MAX_BUFFER_MEMORY
  startAligned : BUFFER_CACHE_LINE_SIZE ∣ start
  positive : ∀ l ∈ layouts, 0 < l.allocationSize
  aligned : ∀ l ∈ layouts,
    BUFFER_CACHE_LINE_SIZE ∣ l.mapping.base ∧ BUFFER_CACHE_LINE_SIZE ∣ l.allocationSize
  inside : ∀ l ∈ layouts, start ≤ l.mapping.base ∧ l.mapping.stop ≤ start + size
  apart : layouts.Pairwise fun a b =>
    a.mapping.stop ≤ b.mapping.base ∨ b.mapping.stop ≤ a.mapping.base

namespace PoolLayout

variable {l : PoolLayout} {start address : ℕ}

theorem base_lt_firstBuffer (hl : 0 < l.allocationSize) : l.mapping.base < l.firstBuffer := by
  have := Nat.mod_lt l.mapping.base hl
  unfold firstBuffer
  omega

theorem mem_addresses (hl : 0 < l.allocationSize) :
    address ∈ l.addresses ↔ l.isSlot address = true := by
  simp only [addresses, List.mem_filter, List.mem_map, List.mem_range, isSlot, Bool.and_eq_true,
    decide_eq_true_eq]
  constructor
  · rintro ⟨⟨k, -, rfl⟩, husable⟩
    exact ⟨⟨by omega, by simp⟩, husable⟩
  · rintro ⟨⟨hfirst, hmod⟩, husable⟩
    refine ⟨⟨(address - l.firstBuffer) / l.allocationSize, ?_, ?_⟩, husable⟩
    · have hbase := base_lt_firstBuffer hl
      have hend : address < l.mapping.stop - l.allocationSize := by
        have := husable
        unfold usable at this
        simp only [Bool.and_eq_true, decide_eq_true_eq] at this
        exact this.1
      have hle : address - l.firstBuffer ≤ l.mapping.size := by
        unfold PhysmemMap.stop at hend
        omega
      exact Nat.lt_succ_of_le (Nat.div_le_div_right hle)
    · have := Nat.div_add_mod (address - l.firstBuffer) l.allocationSize
      rw [Nat.mul_comm] at this
      omega

theorem addresses_nodup (hl : 0 < l.allocationSize) : l.addresses.Nodup := by
  refine List.Nodup.filter _ (List.Nodup.map_on ?_ List.nodup_range)
  intro i _ j _ h
  exact Nat.eq_of_mul_eq_mul_right hl (by omega)

theorem usable_lt (h : l.usable address = true) : address < l.mapping.stop := by
  unfold usable at h
  simp only [Bool.and_eq_true, decide_eq_true_eq] at h
  omega

theorem isSlot_above (hl : 0 < l.allocationSize) (h : l.isSlot address = true) :
    l.mapping.base < address := by
  unfold isSlot at h
  simp only [Bool.and_eq_true, decide_eq_true_eq] at h
  have := base_lt_firstBuffer hl
  omega

theorem isSlot_contains (hl : 0 < l.allocationSize) (h : l.isSlot address = true) :
    l.mapping.contains address = true := by
  have habove := isSlot_above hl h
  unfold isSlot at h
  simp only [Bool.and_eq_true] at h
  have hlt := usable_lt h.2
  unfold PhysmemMap.stop at hlt
  unfold PhysmemMap.contains
  simp only [Bool.and_eq_true, decide_eq_true_eq]
  omega

theorem isSlot_aligned (hbase : BUFFER_CACHE_LINE_SIZE ∣ l.mapping.base)
    (hsize : BUFFER_CACHE_LINE_SIZE ∣ l.allocationSize) (h : l.isSlot address = true) :
    BUFFER_CACHE_LINE_SIZE ∣ address := by
  unfold isSlot at h
  simp only [Bool.and_eq_true, decide_eq_true_eq] at h
  have hmod : BUFFER_CACHE_LINE_SIZE ∣ l.mapping.base % l.allocationSize :=
    (Nat.dvd_mod_iff hsize).mpr hbase
  have hfirst : BUFFER_CACHE_LINE_SIZE ∣ l.firstBuffer :=
    Nat.dvd_sub (Nat.dvd_add hbase hsize) hmod
  have hrest : BUFFER_CACHE_LINE_SIZE ∣ address - l.firstBuffer :=
    hsize.trans (Nat.dvd_of_mod_eq_zero h.1.2)
  have hsum := Nat.dvd_add hfirst hrest
  rwa [Nat.add_sub_cancel' h.1.1] at hsum

end PoolLayout

namespace Placed

open PoolLayout

variable {start size : ℕ} {layouts : List PoolLayout} {l : PoolLayout} {address : ℕ}

section

variable (h : Placed start size layouts) {index : ℕ}
include h

theorem addressOf_indexOf (hl : l ∈ layouts)
    (ha : l.isSlot address = true) : addressOf start (indexOf start address) = address := by
  have halign := isSlot_aligned (h.aligned l hl).1 (h.aligned l hl).2 ha
  have habove := isSlot_above (h.positive l hl) ha
  have hstop : address < l.mapping.stop := by
    unfold isSlot at ha
    simp only [Bool.and_eq_true] at ha
    exact usable_lt ha.2
  obtain ⟨hlow, hhigh⟩ := h.inside l hl
  have hspan := h.span
  have hstart := h.startAligned
  unfold addressOf indexOf
  unfold MAX_BUFFER_MEMORY at hspan
  unfold BUFFER_CACHE_LINE_SIZE at *
  omega

theorem slots_nodup (hl : l ∈ layouts) : (l.slots start).Nodup := by
  refine List.Nodup.map_on ?_ (addresses_nodup (h.positive l hl))
  intro a ha b hb hab
  rw [mem_addresses (h.positive l hl)] at ha hb
  rw [← h.addressOf_indexOf hl ha, hab, h.addressOf_indexOf hl hb]

theorem mem_slots (hl : l ∈ layouts) (hi : index * BUFFER_CACHE_LINE_SIZE < size) :
    index ∈ l.slots start ↔ l.isSlot (addressOf start index) = true := by
  constructor
  · intro hm
    obtain ⟨a, ha, rfl⟩ := List.mem_map.mp hm
    rw [mem_addresses (h.positive l hl)] at ha
    rw [h.addressOf_indexOf hl ha]
    exact ha
  · intro ha
    refine List.mem_map.mpr ⟨addressOf start index, (mem_addresses (h.positive l hl)).mpr ha, ?_⟩
    have hindex : index < 2 ^ 32 := by
      have hspan := h.span
      unfold MAX_BUFFER_MEMORY at hspan
      unfold BUFFER_CACHE_LINE_SIZE at hi
      omega
    unfold indexOf addressOf
    rw [Nat.add_sub_cancel_left, Nat.mul_div_cancel _ (by decide), Nat.mod_eq_of_lt hindex]

theorem slot_range (hl : l ∈ layouts) (hi : index ∈ l.slots start) :
    index ≠ 0 ∧ index * BUFFER_CACHE_LINE_SIZE < size := by
  obtain ⟨a, ha, rfl⟩ := List.mem_map.mp hi
  rw [mem_addresses (h.positive l hl)] at ha
  have hback := h.addressOf_indexOf hl ha
  have habove := isSlot_above (h.positive l hl) ha
  have hstop : a < l.mapping.stop := by
    unfold isSlot at ha
    simp only [Bool.and_eq_true] at ha
    exact usable_lt ha.2
  obtain ⟨hlow, hhigh⟩ := h.inside l hl
  unfold addressOf at hback
  constructor
  · intro hzero
    rw [hzero] at hback
    omega
  · omega

theorem contains_unique {j k : ℕ} {a b : PoolLayout}
    (ha : layouts[j]? = some a) (hb : layouts[k]? = some b)
    (hca : a.mapping.contains address = true) (hcb : b.mapping.contains address = true) :
    j = k := by
  have hapart := List.pairwise_iff_getElem.mp h.apart
  obtain ⟨hj, rfl⟩ := List.getElem?_eq_some_iff.mp ha
  obtain ⟨hk, rfl⟩ := List.getElem?_eq_some_iff.mp hb
  unfold PhysmemMap.contains at hca hcb
  simp only [Bool.and_eq_true, decide_eq_true_eq] at hca hcb
  rcases Nat.lt_trichotomy j k with hlt | heq | hlt
  · have := hapart j k hj hk hlt
    unfold PhysmemMap.stop at this
    omega
  · exact heq
  · have := hapart k j hk hj hlt
    unfold PhysmemMap.stop at this
    omega

/-- `pool` finds for each index the pool that has it among its slots, and no pool for others. -/
theorem poolOf_eq_some_iff {k : ℕ} : poolOf start size layouts index = some k ↔
      ∃ l, layouts[k]? = some l ∧ index ∈ l.slots start := by
  unfold poolOf
  simp only [Option.bind_eq_bind, Option.bind_eq_some_iff, Option.pure_def, Option.some.injEq]
  constructor
  · rintro ⟨_, hguard, k', hk, l, hl, _, hcheck, rfl⟩
    have hrange := (Option.guard_eq_some' ..).mp hguard
    have hslot := (Option.guard_eq_some' ..).mp hcheck
    exact ⟨l, hl, (h.mem_slots (List.mem_of_getElem? hl) hrange.2).mpr hslot⟩
  · rintro ⟨l, hl, hi⟩
    have hm := List.mem_of_getElem? hl
    have hrange := h.slot_range hm hi
    have hslot := (h.mem_slots hm hrange.2).mp hi
    have hcontains := isSlot_contains (h.positive l hm) hslot
    refine ⟨(), (Option.guard_eq_some' ..).mpr hrange, k, ?_, l, hl, (),
      (Option.guard_eq_some' ..).mpr hslot, rfl⟩
    rw [List.findIdx?_eq_some_iff_getElem]
    obtain ⟨hk, rfl⟩ := List.getElem?_eq_some_iff.mp hl
    refine ⟨hk, hcontains, ?_⟩
    intro j hjk hc
    have := h.contains_unique (List.getElem?_eq_getElem (by omega)) hl hc hcontains
    omega

end

end Placed

end Buffer
