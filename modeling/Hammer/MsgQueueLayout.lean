import Hammer.MsgQueueRuns

/-! # Message queues in a FIFO segment

`hammer-infra/src/svm/fifo_segment.rs` places message queues one after the other behind the header
of a segment; a process that attaches the segment works out their offsets again from the number of
reserved bytes. Memory is addressed by offsets from the segment header.
-/
namespace MsgQueue

open List Memory SvmMsgQ

inductive FifoSegmentError where
  | headerOutOfBounds
  | invalidSliceCount (count : ℕ)
  | invalidFifo (fifo : ℕ)
  | invalidOffset (offset : ℕ)
  | segmentExhausted
  | messageQueue (source : SvmMsgQError)
  deriving DecidableEq, Repr

def fsChunkOffsetMask : ℕ := 281474976710655

/-- A shared mapping; pages are a whole number of cache lines. -/
structure SsvmPrivate where
  base : ℕ
  size : ℕ
  page : ℕ
  base_aligned : base % 64 = 0
  page_aligned : page % 64 = 0

structure FifoSegmentHeader where
  nReservedBytes : ℕ
  nSlices : ℕ
  nMqs : ℕ
  byteIndex : ℕ
  maxByteIndex : ℕ
  startByteIndex : ℕ

/-- `h` is the address of the header, `headerOffset` its offset in the mapping. -/
structure SvmFifoSegment where
  h : ℕ
  headerOffset : ℕ
  header : FifoSegmentHeader
  memory : Memory
  mqOffsets : List ℕ

/-- A reference to a ring header that is not aligned is an error the compiler checks for. -/
def initRings (h : ℕ) : Memory → ℕ → List SvmMsgQRingConfig → Except SvmMsgQError Memory
  | m, _, [] => .ok m
  | m, ring, config :: rings =>
    if (h + ring) % 4 ≠ 0 then .error .panic
    else initRings h ((m.writeU32 (ring + 4) config.nitems).writeU32 (ring + 16) config.elsize)
      (ring + 20 + config.nitems * config.elsize) rings

/-- Mutex and condition variable take the 88 bytes from `offset + 8` on. -/
def initHeader (m : Memory) (offset size : ℕ) (config : SvmMsgQConfig) : Memory :=
  let m := m.zero offset size
  let m := m.writeU32 offset (config.rings.length % 4294967296)
  let m := m.writeU32 (offset + 108) config.qNitems
  let m := m.writeU32 (offset + 112) 8
  m.writeU32 (offset + 116) 0

/-- `SvmMsgQ::init` at `h + offset`. -/
def initAt (h : ℕ) (m : Memory) (offset : ℕ) (config : SvmMsgQConfig) :
    Except SvmMsgQError Memory := do
  if (h + offset) % 64 ≠ 0 then throw .panic
  let size ← SvmMsgQ.sizeToAlloc config
  initRings h (initHeader m offset size config) (offset + 120 + config.qNitems * 8) config.rings

def attachRings (h : ℕ) (m : Memory) : ℕ → ℕ → Except SvmMsgQError Unit
  | _, 0 => .ok ()
  | ring, count + 1 =>
    if (h + ring) % 4 ≠ 0 then .error .panic
    else if m.readU32 (ring + 4) = 0 ∨ m.readU32 (ring + 16) = 0 then .error .invalidHeader
    else attachRings h m (ring + 20 + m.readU32 (ring + 4) * m.readU32 (ring + 16)) count

/-- `SvmMsgQ::attach` at `h + offset`. -/
def attachAt (h : ℕ) (m : Memory) (offset : ℕ) : Except SvmMsgQError Unit :=
  if (h + offset + 8) % 8 ≠ 0 then .error .panic
  else if m.readU32 offset = 0 ∨ m.readU32 (offset + 108) = 0 ∨ m.readU32 (offset + 112) ≠ 8 ∨
      m.readU32 (offset + 108) ≤ m.readU32 (offset + 96) ∨
      m.readU32 (offset + 108) ≤ m.readU32 (offset + 100) ∨
      m.readU32 (offset + 108) < m.readU32 (offset + 104) then .error .invalidHeader
  else attachRings h m (offset + 120 + m.readU32 (offset + 108) * 8) (m.readU32 offset)

namespace SvmFifoSegment

/-- A slice takes 192 bytes behind the header's 128. -/
def layoutBytes (slices : ℕ) : ℕ := 128 + slices * 192

def new (ssvm : SsvmPrivate) (slices : ℕ) : Except FifoSegmentError SvmFifoSegment :=
  let headerOffset := ssvm.page * 2
  let headerBytes := layoutBytes slices
  if slices = 0 ∨ 255 < slices then .error (.invalidSliceCount slices)
  else if ssvm.size ≤ headerOffset + headerBytes ∨ fsChunkOffsetMask < headerOffset + headerBytes
  then .error .headerOutOfBounds
  else .ok {
    h := ssvm.base + headerOffset
    headerOffset := headerOffset
    header := {
      nReservedBytes := headerBytes
      nSlices := slices
      nMqs := 0
      byteIndex := headerBytes
      maxByteIndex := ssvm.size - headerOffset
      startByteIndex := headerBytes }
    memory := fun _ => 0
    mqOffsets := [] }

/-- The view of another process, which has none of the process-local parts. -/
def viewFrom (ssvm : SsvmPrivate) (shared : SvmFifoSegment) : SvmFifoSegment :=
  { shared with h := ssvm.base + shared.headerOffset, mqOffsets := [] }

def attach (ssvm : SsvmPrivate) (shared : SvmFifoSegment) (slices : ℕ) :
    Except FifoSegmentError SvmFifoSegment :=
  let headerOffset := shared.headerOffset
  let header := shared.header
  if headerOffset % 64 ≠ 0 ∨ ssvm.size < headerOffset + 128 ∨
      fsChunkOffsetMask < headerOffset + 128 then .error .headerOutOfBounds
  else if header.nSlices = 0 ∨ slices ≠ 0 ∧ slices ≠ header.nSlices then
    .error (.invalidSliceCount header.nSlices)
  else if header.startByteIndex < 128 + header.nSlices * 192 ∨
      header.maxByteIndex < header.startByteIndex ∨
      ssvm.size < headerOffset + header.maxByteIndex ∨
      fsChunkOffsetMask < header.maxByteIndex then .error .headerOutOfBounds
  else .ok (viewFrom ssvm shared)

def allocateBlock (s : SvmFifoSegment) (bytes align : ℕ) :
    Except FifoSegmentError (SvmFifoSegment × ℕ) :=
  let aligned := (s.header.byteIndex + (align - 1)) / align * align
  if 18446744073709551616 ≤ s.header.byteIndex + (align - 1) ∨
      18446744073709551616 ≤ aligned + bytes then .error .headerOutOfBounds
  else if s.header.maxByteIndex ≤ aligned + bytes ∨ fsChunkOffsetMask < aligned + bytes then
    .error .segmentExhausted
  else .ok ({ s with header.byteIndex := aligned + bytes }, aligned)

def allocateMessageQueue (s : SvmFifoSegment) (index : ℕ) (config : SvmMsgQConfig) :
    Except FifoSegmentError SvmFifoSegment := do
  if index ≠ s.mqOffsets.length then throw (.invalidFifo index)
  let size ← (SvmMsgQ.sizeToAlloc config).mapError .messageQueue
  let (s, offset) ← s.allocateBlock size 8
  let memory ← (initAt s.h s.memory offset config).mapError .messageQueue
  let mqOffsets := s.mqOffsets ++ [offset]
  return { s with
    memory
    mqOffsets
    header.nMqs := mqOffsets.length % 256
    header.nReservedBytes := (s.header.nReservedBytes + size % 4294967296) % 4294967296 }

def fsOffsetIsValid (offset maxByteIndex : ℕ) : Bool :=
  offset ≠ 0 && offset ≤ fsChunkOffsetMask && offset < maxByteIndex

def attachMessageQueue (s : SvmFifoSegment) (index offset : ℕ) :
    Except FifoSegmentError SvmFifoSegment :=
  if index ≠ s.mqOffsets.length then .error (.invalidFifo index)
  else if !fsOffsetIsValid offset s.header.maxByteIndex then .error (.invalidOffset offset)
  else do
    (attachAt s.h s.memory offset).mapError .messageQueue
    return { s with mqOffsets := s.mqOffsets ++ [offset] }

def discoverLoop (start size : ℕ) :
    ℕ → ℕ → SvmFifoSegment → Except FifoSegmentError SvmFifoSegment
  | _, 0, s => .ok s
  | index, count + 1, s => do
    if 18446744073709551616 ≤ start + index * size then throw .headerOutOfBounds
    let s ← s.attachMessageQueue index (start + index * size)
    discoverLoop start size (index + 1) count s

/-- `eventfds` is the number of event descriptors passed along. -/
def discoverMessageQueues (s : SvmFifoSegment) (eventfds : ℕ) :
    Except FifoSegmentError SvmFifoSegment :=
  let count := s.header.nMqs
  let start := s.header.startByteIndex
  let total := s.header.nReservedBytes - start
  if count = 0 then .ok s
  else if eventfds ≠ 0 ∧ eventfds ≠ count then .error (.invalidSliceCount eventfds)
  else if total = 0 ∨ total % count ≠ 0 then .error .headerOutOfBounds
  else discoverLoop start (total / count) 0 count s

/-- Calls with the indices `0` to `n - 1`. -/
def allocateMessageQueues (s : SvmFifoSegment) (config : SvmMsgQConfig) :
    ℕ → Except FifoSegmentError SvmFifoSegment
  | 0 => .ok s
  | n + 1 => do
    let s ← s.allocateMessageQueues config n
    s.allocateMessageQueue n config

end SvmFifoSegment

def span : List SvmMsgQRingConfig → ℕ
  | [] => 0
  | ring :: rings => 20 + ring.nitems * ring.elsize + span rings

/-- The fields of a configuration are 32-bit numbers. -/
structure SvmMsgQConfig.InRange (config : SvmMsgQConfig) : Prop where
  qNitems : config.qNitems < 4294967296
  rings : ∀ ring ∈ config.rings, ring.nitems < 4294967296 ∧ ring.elsize < 4294967296

variable {n : ℕ}

theorem checkedUsize_ok {k : ℕ} (h : checkedUsize n = .ok k) : k = n := by
  unfold checkedUsize at h
  split at h
  · exact (Except.ok.inj h).symm
  · cases h

theorem bind_ok {ε α β : Type} {x : Except ε α} {f : α → Except ε β} {b : β}
    (h : (x >>= f) = .ok b) : ∃ a, x = .ok a ∧ f a = .ok b := by
  rcases x with e | a
  · cases h
  · exact ⟨a, rfl, h⟩

theorem ringBytes_ok {rings : List SvmMsgQRingConfig} {size total : ℕ}
    (h : ringBytes size rings = .ok total) : total = size + span rings := by
  induction rings generalizing size with
  | nil => exact (Except.ok.inj h).symm
  | cons ring rings ih =>
    obtain ⟨data, hdata, h⟩ := bind_ok h
    obtain ⟨size1, hsize1, h⟩ := bind_ok h
    obtain ⟨size2, hsize2, h⟩ := bind_ok h
    rw [ih h, checkedUsize_ok hsize2, checkedUsize_ok hsize1, checkedUsize_ok hdata, span]
    omega

theorem sizeToAlloc_ok {config : SvmMsgQConfig} {size : ℕ}
    (h : sizeToAlloc config = .ok size) :
    validateConfig config = .ok () ∧ size = 120 + config.qNitems * 8 + span config.rings := by
  obtain ⟨⟨⟩, hvalid, h⟩ := bind_ok h
  obtain ⟨descriptors, hdescriptors, h⟩ := bind_ok h
  obtain ⟨bytes, hbytes, h⟩ := bind_ok h
  obtain ⟨size1, hsize1, h⟩ := bind_ok h
  obtain ⟨size2, hsize2, h⟩ := bind_ok h
  refine ⟨hvalid, ?_⟩
  rw [checkedUsize_ok h, checkedUsize_ok hsize2, checkedUsize_ok hsize1,
    checkedUsize_ok hdescriptors, ringBytes_ok hbytes]
  omega

section

variable {h : ℕ} {m m' : Memory} {rings : List SvmMsgQRingConfig} {ring offset : ℕ}

/-- Every ring header from `ring` on is aligned. -/
def AlignedFrom : ℕ → List SvmMsgQRingConfig → Prop
  | _, [] => True
  | ring, config :: rings =>
    ring % 4 = 0 ∧ AlignedFrom (ring + 20 + config.nitems * config.elsize) rings

/-- The ring headers from `ring` on hold the configuration. -/
def Headers (m : Memory) : ℕ → List SvmMsgQRingConfig → Prop
  | _, [] => True
  | ring, config :: rings =>
    m.readU32 (ring + 4) = config.nitems ∧ m.readU32 (ring + 16) = config.elsize ∧
      Headers m (ring + 20 + config.nitems * config.elsize) rings

/-- With an aligned start, all headers are aligned when every ring but the last has a whole number
of words. -/
theorem alignedFrom_iff (hring : ring % 4 = 0) :
    AlignedFrom ring rings ↔ ∀ r ∈ rings.dropLast, r.nitems * r.elsize % 4 = 0 := by
  induction rings generalizing ring with
  | nil => simp [AlignedFrom]
  | cons config rings ih =>
    rcases rings with _ | ⟨next, rings⟩
    · simp [AlignedFrom, hring]
    · rw [dropLast_cons_cons, forall_mem_cons]
      constructor
      · rintro ⟨-, hrest⟩
        have hnext : (ring + 20 + config.nitems * config.elsize) % 4 = 0 := hrest.1
        exact ⟨by omega, (ih hnext).mp hrest⟩
      · rintro ⟨hdata, hrest⟩
        exact ⟨hring, (ih (by omega)).mpr hrest⟩

theorem initRings_isOk (m : Memory) :
    (∃ m', initRings h m ring rings = .ok m') ↔ AlignedFrom (h + ring) rings := by
  induction rings generalizing m ring with
  | nil => simp [initRings, AlignedFrom]
  | cons config rings ih =>
    rw [initRings, AlignedFrom]
    by_cases ha : (h + ring) % 4 = 0
    · rw [if_neg (not_not.mpr ha), ih]
      simp [ha, Nat.add_assoc]
    · simp [ha]

theorem initRings_outside (hok : initRings h m ring rings = .ok m') {i : ℕ}
    (hi : i < ring ∨ ring + span rings ≤ i) : m' i = m i := by
  induction rings generalizing m ring with
  | nil => rw [← Except.ok.inj hok]
  | cons config rings ih =>
    rw [initRings] at hok
    split at hok
    · cases hok
    rw [span] at hi
    rw [ih hok (by omega)]
    simp only [writeU32]
    rw [write_outside (by simp; omega), write_outside (by simp; omega)]

theorem Headers.congr (hm : Headers m ring rings)
    (h : ∀ i, ring ≤ i → i < ring + span rings → m' i = m i) : Headers m' ring rings := by
  induction rings generalizing ring with
  | nil => trivial
  | cons config rings ih =>
    rw [span] at h
    refine ⟨?_, ?_, ?_⟩
    · rw [readU32_congr h (by omega) (by omega), hm.1]
    · rw [readU32_congr h (by omega) (by omega), hm.2.1]
    · apply ih hm.2.2
      intro i h1 h2
      exact h i (by omega) (by omega)

theorem initRings_headers (hok : initRings h m ring rings = .ok m')
    (hrange : ∀ r ∈ rings, r.nitems < 4294967296 ∧ r.elsize < 4294967296) :
    Headers m' ring rings := by
  induction rings generalizing m ring with
  | nil => trivial
  | cons config rings ih =>
    rw [initRings] at hok
    split at hok
    · cases hok
    have hconfig := hrange config mem_cons_self
    -- the headers that follow are written behind this one
    have hkeep : ∀ a, a + 4 ≤ ring + 20 → m'.readU32 a =
        ((m.writeU32 (ring + 4) config.nitems).writeU32 (ring + 16) config.elsize).readU32 a := by
      intro a ha
      refine readU32_congr (fun i h1 h2 => ?_) le_rfl le_rfl
      exact initRings_outside hok (by omega)
    refine ⟨?_, ?_, ih hok fun r hr => hrange r (mem_cons_of_mem _ hr)⟩
    · rw [hkeep _ (by omega), readU32_writeU32_of_disjoint (by omega),
        readU32_writeU32_self hconfig.1]
    · rw [hkeep _ (by omega), readU32_writeU32_self hconfig.2]

theorem attachRings_eq (hm : Headers m ring rings) (ha : AlignedFrom (h + ring) rings)
    (hpos : ∀ r ∈ rings, 0 < r.nitems ∧ 0 < r.elsize) {count : ℕ} (hcount : count ≤ rings.length) :
    attachRings h m ring count = .ok () := by
  induction rings generalizing ring count with
  | nil =>
    rw [Nat.le_zero.mp hcount, attachRings]
  | cons config rings ih =>
    rcases count with _ | count
    · rw [attachRings]
    · have hconfig := hpos config mem_cons_self
      have ha' : AlignedFrom (h + (ring + 20 + config.nitems * config.elsize)) rings := by
        rw [show h + (ring + 20 + config.nitems * config.elsize) =
          h + ring + 20 + config.nitems * config.elsize by omega]
        exact ha.2
      rw [attachRings, if_neg (not_not.mpr ha.1), if_neg, hm.1, hm.2.1]
      · exact ih hm.2.2 ha' (fun r hr => hpos r (mem_cons_of_mem _ hr))
          (by rw [length_cons] at hcount; omega)
      · rw [hm.1, hm.2.1]
        omega

/-- An empty queue of this configuration is at `offset`. -/
structure QueueAt (m : Memory) (offset : ℕ) (config : SvmMsgQConfig) : Prop where
  nRings : m.readU32 offset = config.rings.length % 4294967296
  head : m.readU32 (offset + 96) = 0
  tail : m.readU32 (offset + 100) = 0
  cursize : m.readU32 (offset + 104) = 0
  maxsize : m.readU32 (offset + 108) = config.qNitems
  elsize : m.readU32 (offset + 112) = 8
  headers : Headers m (offset + 120 + config.qNitems * 8) config.rings

variable {config : SvmMsgQConfig} {size : ℕ}

theorem QueueAt.congr (hq : QueueAt m offset config)
    (h : ∀ i, offset ≤ i → i < offset + (120 + config.qNitems * 8 + span config.rings) →
      m' i = m i) : QueueAt m' offset config := by
  refine ⟨?_, ?_, ?_, ?_, ?_, ?_, ?_⟩
  · rw [readU32_congr h (by omega) (by omega), hq.nRings]
  · rw [readU32_congr h (by omega) (by omega), hq.head]
  · rw [readU32_congr h (by omega) (by omega), hq.tail]
  · rw [readU32_congr h (by omega) (by omega), hq.cursize]
  · rw [readU32_congr h (by omega) (by omega), hq.maxsize]
  · rw [readU32_congr h (by omega) (by omega), hq.elsize]
  · apply hq.headers.congr
    intro i h1 h2
    exact h i (by omega) (by omega)

theorem initAt_isOk (hsize : sizeToAlloc config = .ok size) :
    (∃ m', initAt h m offset config = .ok m') ↔
      (h + offset) % 64 = 0 ∧ ∀ r ∈ config.rings.dropLast, r.nitems * r.elsize % 4 = 0 := by
  unfold initAt
  by_cases ha : (h + offset) % 64 = 0
  · rw [hsize]
    simp only [ha, true_and]
    have hring : (h + (offset + 120 + config.qNitems * 8)) % 4 = 0 := by omega
    rw [← alignedFrom_iff hring]
    exact initRings_isOk _
  · rw [if_pos ha]
    constructor
    · rintro ⟨m', h'⟩
      cases h'
    · rintro ⟨h', -⟩
      exact absurd h' ha

/-- A queue is placed where `SvmMsgQ.init` gives one and all its headers are aligned. -/
theorem initAt_iff_init : (∃ m', initAt h m offset config = .ok m') ↔
    (∃ q, SvmMsgQ.init config = .ok q) ∧
      (h + offset) % 64 = 0 ∧ ∀ r ∈ config.rings.dropLast, r.nitems * r.elsize % 4 = 0 := by
  cases hsize : sizeToAlloc config with
  | ok size =>
    rw [initAt_isOk hsize, SvmMsgQ.init, hsize]
    exact (and_iff_right ⟨_, rfl⟩).symm
  | error e =>
    rw [initAt, SvmMsgQ.init, hsize]
    refine iff_of_false ?_ fun hq => (nomatch hq.1)
    rintro ⟨m', hm⟩
    split at hm <;> cases hm

theorem initHeader_outside (hsize : 120 ≤ size) {i : ℕ} (hi : i < offset ∨ offset + size ≤ i) :
    initHeader m offset size config i = m i := by
  simp only [initHeader, writeU32]
  rw [write_outside (by simp; omega), write_outside (by simp; omega),
    write_outside (by simp; omega), write_outside (by simp; omega),
    zero_outside hi]

theorem initHeader_unset (hsize : 120 ≤ size) {a : ℕ} (h1 : offset + 96 ≤ a)
    (h2 : a + 4 ≤ offset + 108) : (initHeader m offset size config).readU32 a = 0 := by
  simp only [initHeader]
  rw [readU32_writeU32_of_disjoint (by omega), readU32_writeU32_of_disjoint (by omega),
    readU32_writeU32_of_disjoint (by omega), readU32_writeU32_of_disjoint (by omega),
    readU32_zero_inside (by omega) (by omega)]

/-- `init` touches only its own bytes and leaves an empty queue there. -/
theorem initAt_ok (hsize : sizeToAlloc config = .ok size) (hrange : config.InRange)
    (hok : initAt h m offset config = .ok m') :
    QueueAt m' offset config ∧ ∀ i, i < offset ∨ offset + size ≤ i → m' i = m i := by
  have hsum := (sizeToAlloc_ok hsize).2
  unfold initAt at hok
  by_cases ha : (h + offset) % 64 = 0
  · rw [if_neg (not_not.mpr ha), hsize] at hok
    have hread : ∀ a, a + 4 ≤ offset + 120 →
        m'.readU32 a = (initHeader m offset size config).readU32 a := by
      intro a ha
      refine readU32_congr (fun i h1 h2 => ?_) le_rfl le_rfl
      exact initRings_outside hok (.inl (by omega))
    refine ⟨⟨?_, ?_, ?_, ?_, ?_, ?_, initRings_headers hok hrange.rings⟩, ?_⟩
    · rw [hread _ (by omega), initHeader, readU32_writeU32_of_disjoint (by omega),
        readU32_writeU32_of_disjoint (by omega),
        readU32_writeU32_of_disjoint (by omega),
        readU32_writeU32_self (Nat.mod_lt _ (by omega))]
    · rw [hread _ (by omega), initHeader_unset (by omega) (by omega) (by omega)]
    · rw [hread _ (by omega), initHeader_unset (by omega) (by omega) (by omega)]
    · rw [hread _ (by omega), initHeader_unset (by omega) (by omega) (by omega)]
    · rw [hread _ (by omega), initHeader, readU32_writeU32_of_disjoint (by omega),
        readU32_writeU32_of_disjoint (by omega),
        readU32_writeU32_self hrange.qNitems]
    · rw [hread _ (by omega), initHeader, readU32_writeU32_of_disjoint (by omega),
        readU32_writeU32_self (by omega)]
    · intro i hi
      rw [initRings_outside hok (by omega), initHeader_outside (by omega) hi]
  · rw [if_pos ha] at hok
    cases hok

theorem attachAt_eq (hvalid : validateConfig config = .ok ()) (hq : QueueAt m offset config)
    (haligned : (h + offset) % 64 = 0)
    (hrings : ∀ r ∈ config.rings.dropLast, r.nitems * r.elsize % 4 = 0)
    (hcount : config.rings.length % 4294967296 ≠ 0) : attachAt h m offset = .ok () := by
  obtain ⟨hpos, -, hringPos⟩ := validateConfig_ok hvalid
  unfold attachAt
  rw [if_neg (by omega), if_neg, hq.maxsize, hq.nRings]
  · apply attachRings_eq hq.headers _ hringPos (Nat.mod_le _ _)
    exact (alignedFrom_iff (by omega)).mpr hrings
  · rw [hq.nRings, hq.head, hq.tail, hq.cursize, hq.maxsize, hq.elsize]
    omega

end

namespace SvmFifoSegment

variable {s s' : SvmFifoSegment} {config : SvmMsgQConfig} {size start offset count index : ℕ}

/-- The distance from one queue to the next: blocks are aligned to 8 bytes. -/
def stride (size : ℕ) : ℕ := (size + 7) / 8 * 8

/-- The end of the last of `n` queues. -/
def blocksEnd (start size : ℕ) : ℕ → ℕ
  | 0 => start
  | n + 1 => start + n * stride size + size

/-- `n` queues of this size have been placed from `start` on. -/
structure Filled (s : SvmFifoSegment) (config : SvmMsgQConfig) (start size n : ℕ) : Prop where
  byteIndex : s.header.byteIndex = blocksEnd start size n
  startByteIndex : s.header.startByteIndex = start
  nMqs : s.header.nMqs = n % 256
  reserved : s.header.nReservedBytes = (start + n * size) % 4294967296
  offsets : s.mqOffsets = (List.range n).map fun i => start + i * stride size
  queues : ∀ i < n, QueueAt s.memory (start + i * stride size) config

/-- What `allocate_message_queue` leaves alone. -/
structure SameSegment (s s' : SvmFifoSegment) : Prop where
  h : s'.h = s.h
  headerOffset : s'.headerOffset = s.headerOffset
  nSlices : s'.header.nSlices = s.header.nSlices
  maxByteIndex : s'.header.maxByteIndex = s.header.maxByteIndex

theorem le_stride (size : ℕ) : size ≤ stride size := by
  unfold stride
  omega

theorem stride_mul_le (size : ℕ) {i j : ℕ} (h : i < j) :
    i * stride size + size ≤ j * stride size := by
  have hstep := Nat.mul_le_mul_right (stride size) (Nat.succ_le_of_lt h)
  have hle := le_stride size
  rw [Nat.succ_mul] at hstep
  omega

theorem Filled.length (f : Filled s config start size n) : s.mqOffsets.length = n := by
  rw [f.offsets, length_map, length_range]

theorem blocksEnd_aligned {start : ℕ} (hstart : start % 64 = 0) :
    (blocksEnd start size n + 7) / 8 * 8 = start + n * stride size := by
  rcases n with _ | n
  · simp only [blocksEnd]
    omega
  · simp only [blocksEnd, stride, Nat.succ_mul]
    have : n * ((size + 7) / 8 * 8) = 8 * (n * ((size + 7) / 8)) := by ring
    omega

theorem allocateBlock_ok {bytes : ℕ} (hok : s.allocateBlock bytes 8 = .ok (s', offset)) :
    offset = (s.header.byteIndex + 7) / 8 * 8 ∧
      s' = { s with header.byteIndex := offset + bytes } := by
  simp only [allocateBlock] at hok
  split at hok
  · cases hok
  split at hok
  · cases hok
  obtain ⟨rfl, rfl⟩ := Prod.mk.inj (Except.ok.inj hok)
  exact ⟨rfl, rfl⟩

theorem allocateBlock_eq {bytes : ℕ} (hoffset : offset = (s.header.byteIndex + 7) / 8 * 8)
    (hmask : s.header.maxByteIndex ≤ fsChunkOffsetMask)
    (hroom : offset + bytes < s.header.maxByteIndex) :
    s.allocateBlock bytes 8 = .ok ({ s with header.byteIndex := offset + bytes }, offset) := by
  unfold fsChunkOffsetMask at hmask
  unfold allocateBlock fsChunkOffsetMask
  simp only [show 8 - 1 = 7 from rfl, ← hoffset]
  rw [if_neg (by omega), if_neg (by omega)]

theorem mapError_ok {ε ε' α : Type} {f : ε → ε'} {x : Except ε α} {a : α}
    (h : x.mapError f = .ok a) : x = .ok a := by
  rcases x with e | b
  · cases h
  · exact congrArg Except.ok (Except.ok.inj h)

/-- The segment after one more queue. -/
def withQueue (s : SvmFifoSegment) (size offset : ℕ) (memory : Memory) : SvmFifoSegment :=
  { s with
    memory
    mqOffsets := s.mqOffsets ++ [offset]
    header.byteIndex := offset + size
    header.nMqs := (s.mqOffsets ++ [offset]).length % 256
    header.nReservedBytes := (s.header.nReservedBytes + size % 4294967296) % 4294967296 }

section

variable (hsize : SvmMsgQ.sizeToAlloc config = .ok size)
include hsize

theorem allocateMessageQueue_inv (hok : s.allocateMessageQueue n config = .ok s') :
    ∃ offset memory, offset = (s.header.byteIndex + 7) / 8 * 8 ∧
      initAt s.h s.memory offset config = .ok memory ∧ s' = s.withQueue size offset memory := by
  unfold allocateMessageQueue at hok
  split at hok
  · cases hok
  obtain ⟨size', hsize', hok⟩ := bind_ok hok
  obtain rfl := Except.ok.inj (hsize.symm.trans (mapError_ok hsize'))
  obtain ⟨⟨s1, offset⟩, hblock, hok⟩ := bind_ok hok
  obtain ⟨memory, hinit, hok⟩ := bind_ok hok
  obtain ⟨hoffset, rfl⟩ := allocateBlock_ok hblock
  exact ⟨offset, memory, hoffset, mapError_ok hinit, (Except.ok.inj hok).symm⟩

theorem allocateMessageQueue_eq {memory : Memory} (hn : n = s.mqOffsets.length)
    (hoffset : offset = (s.header.byteIndex + 7) / 8 * 8)
    (hmask : s.header.maxByteIndex ≤ fsChunkOffsetMask)
    (hroom : offset + size < s.header.maxByteIndex)
    (hinit : initAt s.h s.memory offset config = .ok memory) :
    s.allocateMessageQueue n config = .ok (s.withQueue size offset memory) := by
  unfold allocateMessageQueue
  rw [if_neg (not_not.mpr hn), hsize]
  change (s.allocateBlock size 8 >>= _) = _
  rw [allocateBlock_eq hoffset hmask hroom]
  change ((initAt s.h s.memory offset config).mapError _ >>= _) = _
  rw [hinit]
  rfl

variable (hrange : config.InRange)
include hrange

theorem Filled.withQueue (f : Filled s config start size n) {memory : Memory}
    (hinit : initAt s.h s.memory (start + n * stride size) config = .ok memory) :
    Filled (s.withQueue size (start + n * stride size) memory) config start size (n + 1) := by
  obtain ⟨hnew, hold⟩ := initAt_ok hsize hrange hinit
  have hsum := (sizeToAlloc_ok hsize).2
  refine ⟨rfl, f.startByteIndex, ?_, ?_, ?_, ?_⟩
  · change (s.mqOffsets ++ [start + n * stride size]).length % 256 = (n + 1) % 256
    rw [length_append, length_singleton, f.length]
  · change (s.header.nReservedBytes + size % 4294967296) % 4294967296 = _
    rw [f.reserved, ← Nat.add_mod, Nat.succ_mul, Nat.add_assoc]
  · change s.mqOffsets ++ [start + n * stride size] = _
    rw [f.offsets, range_succ, map_append, map_singleton]
  · intro i hi
    rcases Nat.lt_or_ge i n with hlt | hge
    · apply (f.queues i hlt).congr
      intro a _ ha
      -- the queue before ends where the next block starts, or earlier
      have hstep := stride_mul_le size hlt
      exact hold a (.inl (by omega))
    · rw [show i = n by omega]
      exact hnew

variable (f : Filled s config start size 0) (hstart : start % 64 = 0)
include f hstart

theorem allocateMessageQueues_ok (hok : s.allocateMessageQueues config n = .ok s') :
    Filled s' config start size n ∧ SameSegment s s' ∧
      ∀ i < n, (s.h + (start + i * stride size)) % 64 = 0 ∧
        ∀ r ∈ config.rings.dropLast, r.nitems * r.elsize % 4 = 0 := by
  induction n generalizing s' with
  | zero =>
    obtain rfl := Except.ok.inj hok
    exact ⟨f, ⟨rfl, rfl, rfl, rfl⟩, fun i hi => absurd hi (Nat.not_lt_zero i)⟩
  | succ n ih =>
    obtain ⟨s1, hs1, hok⟩ := bind_ok hok
    obtain ⟨f1, same, hconds⟩ := ih hs1
    obtain ⟨offset, memory, hoffset, hinit, rfl⟩ := allocateMessageQueue_inv hsize hok
    rw [f1.byteIndex, blocksEnd_aligned hstart] at hoffset
    subst hoffset
    refine ⟨f1.withQueue hsize hrange hinit,
      ⟨same.h, same.headerOffset, same.nSlices, same.maxByteIndex⟩, ?_⟩
    intro i hi
    rcases Nat.lt_or_ge i n with hlt | hge
    · exact hconds i hlt
    · rw [show i = n by omega, ← same.h]
      exact (initAt_isOk hsize).mp ⟨_, hinit⟩

theorem allocateMessageQueues_isOk (hmask : s.header.maxByteIndex ≤ fsChunkOffsetMask)
    (hroom : blocksEnd start size n < s.header.maxByteIndex)
    (hconds : ∀ i < n, (s.h + (start + i * stride size)) % 64 = 0 ∧
      ∀ r ∈ config.rings.dropLast, r.nitems * r.elsize % 4 = 0) :
    ∃ s', s.allocateMessageQueues config n = .ok s' := by
  induction n with
  | zero => exact ⟨s, rfl⟩
  | succ n ih =>
    have hroom' : blocksEnd start size n < s.header.maxByteIndex := by
      rcases n with _ | n
      · simp only [blocksEnd] at hroom ⊢
        omega
      · simp only [blocksEnd, Nat.succ_mul] at hroom ⊢
        omega
    obtain ⟨s1, hs1⟩ := ih hroom' fun i hi => hconds i (by omega)
    obtain ⟨f1, same, -⟩ := allocateMessageQueues_ok hsize hrange f hstart hs1
    obtain ⟨memory, hinit⟩ := (initAt_isOk (h := s1.h) (m := s1.memory) hsize).mpr
      (same.h ▸ hconds n (by omega))
    refine ⟨s1.withQueue size (start + n * stride size) memory, ?_⟩
    rw [allocateMessageQueues, hs1]
    exact allocateMessageQueue_eq hsize f1.length.symm (by rw [f1.byteIndex, blocksEnd_aligned hstart])
      (same.maxByteIndex ▸ hmask) (by rw [same.maxByteIndex]; exact hroom) hinit

end

theorem attachMessageQueue_ok (hok : s.attachMessageQueue index offset = .ok s') :
    attachAt s.h s.memory offset = .ok () ∧
      s' = { s with mqOffsets := s.mqOffsets ++ [offset] } := by
  unfold attachMessageQueue at hok
  split at hok
  · cases hok
  split at hok
  · cases hok
  obtain ⟨⟨⟩, hattach, hok⟩ := bind_ok hok
  exact ⟨mapError_ok hattach, (Except.ok.inj hok).symm⟩

theorem attachAt_nRings {h : ℕ} {m : Memory} (hok : attachAt h m offset = .ok ()) :
    m.readU32 offset ≠ 0 := by
  unfold attachAt at hok
  split at hok
  · cases hok
  split at hok
  · cases hok
  rename_i hheader
  exact fun h0 => hheader (.inl h0)

theorem discoverLoop_ok (hok : discoverLoop start size index count s = .ok s') :
    s'.mqOffsets = s.mqOffsets ++ (range' index count).map fun i => start + i * size := by
  induction count generalizing s index with
  | zero =>
    obtain rfl := Except.ok.inj hok
    simp
  | succ count ih =>
    unfold discoverLoop at hok
    split at hok
    · cases hok
    obtain ⟨s1, hs1, hok⟩ := bind_ok hok
    rw [ih hok, (attachMessageQueue_ok hs1).2, append_assoc]
    rfl

theorem discoverLoop_first (hok : discoverLoop start size 0 (count + 1) s = .ok s') :
    s.memory.readU32 start ≠ 0 := by
  unfold discoverLoop at hok
  split at hok
  · cases hok
  obtain ⟨s1, hs1, -⟩ := bind_ok hok
  rw [Nat.zero_mul] at hs1
  exact attachAt_nRings (attachMessageQueue_ok hs1).1

theorem discoverLoop_isOk (start size : ℕ) (hlen : s.mqOffsets.length = index)
    (hattach : ∀ i, index ≤ i → i < index + count →
      fsOffsetIsValid (start + i * size) s.header.maxByteIndex ∧
        attachAt s.h s.memory (start + i * size) = .ok ()) :
    ∃ s', discoverLoop start size index count s = .ok s' := by
  induction count generalizing s index with
  | zero => exact ⟨s, rfl⟩
  | succ count ih =>
    obtain ⟨hvalid, hat⟩ := hattach index (le_refl _) (by omega)
    have hmax : start + index * size ≤ fsChunkOffsetMask := by
      simp only [fsOffsetIsValid, Bool.and_eq_true, decide_eq_true_eq] at hvalid
      exact hvalid.1.2
    unfold fsChunkOffsetMask at hmax
    have hstep : s.attachMessageQueue index (start + index * size) =
        .ok { s with mqOffsets := s.mqOffsets ++ [start + index * size] } := by
      unfold attachMessageQueue
      rw [if_neg (not_not.mpr hlen.symm), hvalid, hat]
      rfl
    have hlen' : (s.mqOffsets ++ [start + index * size]).length = index + 1 := by
      rw [length_append, hlen]
      rfl
    obtain ⟨s', hs'⟩ := ih (s := { s with mqOffsets := s.mqOffsets ++ [start + index * size] })
      hlen' fun i h1 h2 => hattach i (by omega) (by omega)
    refine ⟨s', ?_⟩
    rw [discoverLoop, if_neg (by omega), hstep]
    exact hs'

theorem new_ok (config : SvmMsgQConfig) (size : ℕ) {ssvm : SsvmPrivate} {slices : ℕ}
    (hnew : new ssvm slices = .ok s) :
    s.h % 64 = 0 ∧ s.headerOffset = ssvm.page * 2 ∧ s.header.nSlices = slices ∧ slices ≠ 0 ∧
      s.header.startByteIndex = layoutBytes slices ∧ layoutBytes slices ≤ 49088 ∧
      s.header.maxByteIndex = ssvm.size - ssvm.page * 2 ∧
      ssvm.page * 2 + layoutBytes slices < ssvm.size ∧
      ssvm.page * 2 + layoutBytes slices ≤ fsChunkOffsetMask ∧
      Filled s config (layoutBytes slices) size 0 := by
  simp only [new] at hnew
  split at hnew
  · cases hnew
  split at hnew
  · cases hnew
  obtain rfl := Except.ok.inj hnew
  have hbase := ssvm.base_aligned
  have hpage := ssvm.page_aligned
  have hbytes : layoutBytes slices ≤ 49088 := by
    unfold layoutBytes
    omega
  refine ⟨?_, rfl, rfl, by omega, rfl, hbytes, rfl, by omega, by omega, rfl, rfl, rfl, ?_, rfl, ?_⟩
  · change (ssvm.base + ssvm.page * 2) % 64 = 0
    omega
  · change layoutBytes slices = (layoutBytes slices + 0 * size) % 4294967296
    omega
  · intro i hi
    exact absurd hi (Nat.not_lt_zero i)

theorem layoutBytes_aligned (slices : ℕ) : layoutBytes slices % 64 = 0 := by
  unfold layoutBytes
  omega

/-- The offsets another process finds are the ones this process has. -/
def Discovered (peer : SsvmPrivate) (slices : ℕ) (s : SvmFifoSegment) : Prop :=
  ∃ t t', attach peer s slices = .ok t ∧ t.discoverMessageQueues 0 = .ok t' ∧
    t'.mqOffsets = s.mqOffsets

/-- `n` queues can be allocated, do not overlap, and are found by another process. -/
def Placed (s : SvmFifoSegment) (peer : SsvmPrivate) (slices size : ℕ) (config : SvmMsgQConfig)
    (n : ℕ) : Prop :=
  ∃ s', s.allocateMessageQueues config n = .ok s' ∧ s'.mqOffsets.length = n ∧
    s'.mqOffsets.Pairwise (fun a b => a + size ≤ b) ∧ Discovered peer slices s'

/-- When this works: the offsets have at most 48 bits; each ring but the last is a whole number of
words; a single queue does not make the counter of reserved bytes wrap to the start or below, and
the number of its rings not to zero; and for several queues their size is a whole number of cache
lines, their number fits in 8 bits and the reserved bytes fit in 32 bits. -/
def Placeable (s : SvmFifoSegment) (size : ℕ) (config : SvmMsgQConfig) (n : ℕ) : Prop :=
  s.header.maxByteIndex ≤ fsChunkOffsetMask ∧ (n = 0 ∨
    (∀ r ∈ config.rings.dropLast, r.nitems * r.elsize % 4 = 0) ∧
    (n = 1 ∧ s.header.startByteIndex < (s.header.startByteIndex + size) % 4294967296 ∧
        config.rings.length % 4294967296 ≠ 0 ∨
      2 ≤ n ∧ n ≤ 255 ∧ size % 64 = 0 ∧ s.header.startByteIndex + n * size < 4294967296))

@[simp] theorem viewFrom_header (ssvm : SsvmPrivate) : (viewFrom ssvm s).header = s.header := rfl

@[simp] theorem viewFrom_mqOffsets (ssvm : SsvmPrivate) : (viewFrom ssvm s).mqOffsets = [] := rfl

theorem attach_ok {peer : SsvmPrivate} {slices : ℕ} {t : SvmFifoSegment}
    (hok : attach peer s slices = .ok t) :
    s.header.maxByteIndex ≤ fsChunkOffsetMask ∧ t = viewFrom peer s := by
  simp only [attach] at hok
  split at hok
  · cases hok
  split at hok
  · cases hok
  split at hok
  · cases hok
  exact ⟨by omega, (Except.ok.inj hok).symm⟩

theorem discoverMessageQueues_ok (hok : s.discoverMessageQueues 0 = .ok s') :
    s.header.nMqs = 0 ∧ s' = s ∨ s.header.nMqs ≠ 0 ∧ ∃ each,
      s.header.nReservedBytes - s.header.startByteIndex = s.header.nMqs * each ∧ 0 < each ∧
      discoverLoop s.header.startByteIndex each 0 s.header.nMqs s = .ok s' := by
  simp only [discoverMessageQueues] at hok
  split at hok
  · rename_i hzero
    exact .inl ⟨hzero, (Except.ok.inj hok).symm⟩
  rename_i hzero
  split at hok
  · cases hok
  split at hok
  · cases hok
  rename_i htotal
  rw [not_or, not_not] at htotal
  have hmul := Nat.div_add_mod (s.header.nReservedBytes - s.header.startByteIndex) s.header.nMqs
  rw [htotal.2] at hmul
  refine .inr ⟨hzero, _, hmul.symm, ?_, hok⟩
  rcases Nat.eq_zero_or_pos
    ((s.header.nReservedBytes - s.header.startByteIndex) / s.header.nMqs) with h0 | hpos
  · rw [h0] at hmul
    exact absurd hmul.symm htotal.1
  · exact hpos

section

variable {ssvm peer : SsvmPrivate} {slices n : ℕ}

theorem Filled.pairwise (f : Filled s config start size n) :
    s.mqOffsets.Pairwise fun a b => a + size ≤ b := by
  rw [f.offsets, pairwise_map]
  apply List.Pairwise.imp _ pairwise_lt_range
  intro i j hij
  have hstep := stride_mul_le size hij
  omega

/-- Offsets that agree with the stride are those of at most 255 queues whose size is the stride and
whose counters have not wrapped. -/
theorem stride_eq_of_offsets {each : ℕ} (hn : 2 ≤ n) (hstart : start < 4294967296)
    (heq : (range (n % 256)).map (fun i => start + i * each) =
      (range n).map fun i => start + i * stride size)
    (hmul : (start + n * size) % 4294967296 - start = n % 256 * each) :
    n ≤ 255 ∧ stride size = size ∧ start + n * size < 4294967296 := by
  have hlen := congrArg length heq
  rw [length_map, length_range, length_map, length_range] at hlen
  have hsecond := congrArg (·[1]?) heq
  simp only [getElem?_map, hlen, getElem?_range (show 1 < n from hn), Option.map_some,
    Option.some.injEq, Nat.one_mul, Nat.add_right_inj] at hsecond
  rw [hlen, hsecond] at hmul
  have hmono := Nat.mul_le_mul_left n (le_stride size)
  have hfits : start + n * size < 4294967296 := by
    omega
  rw [Nat.mod_eq_of_lt hfits, Nat.add_sub_cancel_left] at hmul
  exact ⟨by omega, (Nat.eq_of_mul_eq_mul_left (by omega) hmul).symm, hfits⟩

theorem Placed.placeable (hnew : new ssvm slices = .ok s) (hrange : config.InRange)
    (hsize : sizeToAlloc config = .ok size) (hplaced : Placed s peer slices size config n) :
    Placeable s size config n := by
  obtain ⟨s', hs', -, -, t, t', hattach, hdiscover, heq⟩ := hplaced
  obtain ⟨hh, -, -, -, hstart, hbytes, -, -, -, hfilled⟩ := new_ok config size hnew
  have hstart64 := layoutBytes_aligned slices
  obtain ⟨f, same, hconds⟩ := allocateMessageQueues_ok hsize hrange hfilled hstart64 hs'
  obtain ⟨hmask, rfl⟩ := attach_ok hattach
  rw [same.maxByteIndex] at hmask
  refine ⟨hmask, ?_⟩
  rcases Nat.eq_zero_or_pos n with hn | hn
  · exact .inl hn
  refine .inr ⟨(hconds 0 hn).2, ?_⟩
  rcases discoverMessageQueues_ok hdiscover with ⟨hzero, rfl⟩ | ⟨hnz, each, hmul, heach, hloop⟩
  · -- no queue is found, though there is one
    exact absurd ((congrArg length heq).trans f.length) (Nat.ne_of_lt hn)
  have hnMqs : s'.header.nMqs = n % 256 := f.nMqs
  have hoffsets := discoverLoop_ok hloop
  simp only [viewFrom_header, viewFrom_mqOffsets] at hoffsets hmul
  rw [heq, f.offsets, f.startByteIndex, hnMqs, ← range_eq_range'] at hoffsets
  rw [f.reserved, f.startByteIndex, hnMqs] at hmul
  rw [hstart]
  rcases Nat.lt_or_ge 1 n with hn2 | hn1
  · obtain ⟨h255, hstride, hfits⟩ := stride_eq_of_offsets hn2 (by omega) hoffsets.symm hmul
    have hsecond := (hconds 1 hn2).1
    exact .inr ⟨hn2, h255, by omega, hfits⟩
  · have hone : n = 1 := by omega
    subst hone
    refine .inl ⟨rfl, by omega, ?_⟩
    -- the only queue is attached, so its header has a ring
    have hqueue := (f.queues 0 Nat.one_pos).nRings
    rw [Nat.zero_mul] at hqueue
    rw [← hqueue, ← f.startByteIndex]
    rw [viewFrom_header, hnMqs] at hloop
    have hfirst := discoverLoop_first (s := viewFrom peer s') hloop
    exact hfirst

theorem attach_eq (hnew : new ssvm slices = .ok s) (same : SameSegment s s')
    (hstart : s'.header.startByteIndex = layoutBytes slices) (hpeer : peer.size = ssvm.size)
    (hmask : s.header.maxByteIndex ≤ fsChunkOffsetMask) :
    attach peer s' slices = .ok (viewFrom peer s') := by
  obtain ⟨-, hoffset, hslices, hnz, -, -, hmax, hroom, hroom48, -⟩ :=
    new_ok ⟨0, []⟩ 0 hnew
  have hpage := ssvm.page_aligned
  have hoffset' := same.headerOffset.trans hoffset
  have hslices' := same.nSlices.trans hslices
  have hmax' := same.maxByteIndex.trans hmax
  have hlayout : layoutBytes slices = 128 + slices * 192 := rfl
  simp only [attach]
  rw [if_neg, if_neg, if_neg]
  · omega
  · omega
  · omega

theorem discoverMessageQueues_eq (each : ℕ) (hn : s.header.nMqs ≠ 0) (heach : 0 < each)
    (hmul : s.header.nReservedBytes - s.header.startByteIndex = s.header.nMqs * each) :
    s.discoverMessageQueues 0 = discoverLoop s.header.startByteIndex each 0 s.header.nMqs s := by
  have hpos : 0 < s.header.nMqs * each := Nat.mul_pos (by omega) heach
  simp only [discoverMessageQueues]
  rw [if_neg hn, if_neg (by omega), if_neg]
  · rw [hmul, Nat.mul_div_cancel_left _ (by omega)]
  · rw [hmul, Nat.mul_mod_right]
    omega

/-- What discovery computes as the size of a queue is the stride, or there is only one queue. -/
theorem Placeable.each (hplace : Placeable s size config n) (hn : 0 < n) (hpos : 0 < size) :
    ∃ each, 0 < each ∧ n % 256 = n ∧ (∀ i < n, i * each = i * stride size) ∧
      (s.header.startByteIndex + n * size) % 4294967296 - s.header.startByteIndex = n * each ∧
      ∀ i < n, i * stride size % 64 = 0 := by
  obtain ⟨-, rfl | ⟨-, ⟨rfl, hwrap, -⟩ | ⟨hn2, h255, h64, hfits⟩⟩⟩ := hplace
  · omega
  · refine ⟨_, ?_, rfl, ?_, (Nat.one_mul _).symm, ?_⟩
    · omega
    · intro i hi
      rw [show i = 0 by omega, Nat.zero_mul, Nat.zero_mul]
    · intro i hi
      rw [show i = 0 by omega, Nat.zero_mul]
  · have hstride : stride size = size := by
      unfold stride
      omega
    refine ⟨size, hpos, by omega, fun i _ => by rw [hstride], ?_, ?_⟩
    · rw [Nat.mod_eq_of_lt hfits, Nat.add_sub_cancel_left]
    · intro i _
      rw [hstride, Nat.mul_mod, h64, Nat.mul_zero]

theorem span_ge_length (rings : List SvmMsgQRingConfig) : 20 * rings.length ≤ span rings := by
  induction rings with
  | nil => exact Nat.zero_le _
  | cons ring rings ih =>
    rw [span, length_cons]
    omega

theorem Placeable.nRings (hplace : Placeable s size config n) (hn : 0 < n)
    (hsize : sizeToAlloc config = .ok size) : config.rings.length % 4294967296 ≠ 0 := by
  obtain ⟨-, rfl | ⟨-, ⟨-, -, hrings⟩ | ⟨hn2, -, -, hfits⟩⟩⟩ := hplace
  · omega
  · exact hrings
  · -- a size below `2^32` has no room for more rings
    obtain ⟨hvalid, hsum⟩ := sizeToAlloc_ok hsize
    have hne := length_pos_of_ne_nil (validateConfig_ok hvalid).2.1
    have hspan := span_ge_length config.rings
    have hmono := Nat.mul_le_mul_right size (show 1 ≤ n from hn)
    omega

theorem Placeable.placed (hnew : new ssvm slices = .ok s) (hrange : config.InRange)
    (hsize : sizeToAlloc config = .ok size) (hpeer : peer.size = ssvm.size)
    (hroom : blocksEnd s.header.startByteIndex size n < s.header.maxByteIndex)
    (hplace : Placeable s size config n) : Placed s peer slices size config n := by
  obtain ⟨hh, hoffset, -, -, hstart, hbytes, -, -, -, hfilled⟩ := new_ok config size hnew
  obtain ⟨hvalid, hsum⟩ := sizeToAlloc_ok hsize
  have hmask := hplace.1
  have hstart64 := layoutBytes_aligned slices
  rw [hstart] at hroom
  rcases Nat.eq_zero_or_pos n with rfl | hn
  · refine ⟨s, rfl, hfilled.length, hfilled.pairwise, viewFrom peer s, viewFrom peer s, ?_, ?_, ?_⟩
    · exact attach_eq hnew ⟨rfl, rfl, rfl, rfl⟩ hstart hpeer hmask
    · exact if_pos hfilled.nMqs
    · exact hfilled.offsets.symm
  obtain ⟨each, heach, hn256, hoffsets, hmul, h64⟩ := hplace.each hn (by omega)
  have hrings : ∀ r ∈ config.rings.dropLast, r.nitems * r.elsize % 4 = 0 := by
    rcases hplace.2 with rfl | h
    · omega
    · exact h.1
  obtain ⟨s', hs'⟩ := allocateMessageQueues_isOk hsize hrange hfilled hstart64 hmask hroom
    fun i hi => ⟨by have := h64 i hi; omega, hrings⟩
  obtain ⟨f, same, -⟩ := allocateMessageQueues_ok hsize hrange hfilled hstart64 hs'
  have hnMqs : s'.header.nMqs = n := f.nMqs.trans hn256
  have hpage := ssvm.page_aligned
  have hbase := peer.base_aligned
  -- every offset that discovery computes is that of a queue
  have hvisit : ∀ i, 0 ≤ i → i < 0 + n →
      fsOffsetIsValid (layoutBytes slices + i * each) s'.header.maxByteIndex ∧
        attachAt (peer.base + s'.headerOffset) s'.memory (layoutBytes slices + i * each) = .ok () := by
    intro i _ hi
    rw [Nat.zero_add] at hi
    rw [hoffsets i hi]
    constructor
    · rcases n with _ | k
      · omega
      have hstep := Nat.mul_le_mul_right (stride size) (show i ≤ k by omega)
      have hlayout : layoutBytes slices = 128 + slices * 192 := rfl
      simp only [blocksEnd] at hroom
      simp only [fsOffsetIsValid, Bool.and_eq_true, decide_eq_true_eq, same.maxByteIndex]
      refine ⟨⟨?_, ?_⟩, ?_⟩
      · omega
      · omega
      · omega
    · have := h64 i hi
      apply attachAt_eq hvalid (f.queues i hi) _ hrings (hplace.nRings hn hsize)
      rw [same.headerOffset]
      omega
  obtain ⟨t', ht'⟩ := discoverLoop_isOk (layoutBytes slices) each (s := viewFrom peer s') rfl hvisit
  have hmul' : s'.header.nReservedBytes - s'.header.startByteIndex = s'.header.nMqs * each := by
    rw [f.reserved, f.startByteIndex, hnMqs, ← hstart]
    exact hmul
  have hnz : s'.header.nMqs ≠ 0 := by omega
  refine ⟨s', hs', f.length, f.pairwise, viewFrom peer s', t',
    attach_eq hnew same f.startByteIndex hpeer hmask, ?_, ?_⟩
  · refine (discoverMessageQueues_eq (s := viewFrom peer s') each hnz heach hmul').trans ?_
    change discoverLoop s'.header.startByteIndex each 0 s'.header.nMqs _ = _
    rw [f.startByteIndex, hnMqs]
    exact ht'
  · rw [discoverLoop_ok ht', f.offsets, viewFrom_mqOffsets, length_nil, ← range_eq_range']
    apply map_congr_left
    intro i hi
    rw [hoffsets i (mem_range.mp hi)]

/-- In a fresh segment with room for them, `n` queues of one configuration can be allocated and
found again exactly when they are `Placeable`. -/
theorem message_queues_placed_iff (ssvm peer : SsvmPrivate) (slices size n : ℕ)
    (s : SvmFifoSegment) (config : SvmMsgQConfig) (hrange : config.InRange)
    (hnew : new ssvm slices = .ok s) (hpeer : peer.size = ssvm.size)
    (hsize : SvmMsgQ.sizeToAlloc config = .ok size)
    (hroom : blocksEnd s.header.startByteIndex size n < s.header.maxByteIndex) :
    Placed s peer slices size config n ↔ Placeable s size config n :=
  ⟨Placed.placeable hnew hrange hsize, Placeable.placed hnew hrange hsize hpeer hroom⟩

end

def megabyte : SsvmPrivate := ⟨0, 1048576, 4096, rfl, rfl⟩

def megabyteSegment : SvmFifoSegment where
  h := 8192
  headerOffset := 8192
  header := ⟨320, 1, 0, 320, 1040384, 320⟩
  memory := fun _ => 0
  mqOffsets := []

theorem message_queues_placed_three :
    new megabyte 1 = .ok megabyteSegment ∧ Placed megabyteSegment megabyte 1 192 ⟨1, [⟨1, 44⟩]⟩ 3 :=
  ⟨rfl, (message_queues_placed_iff megabyte megabyte 1 192 3 megabyteSegment ⟨1, [⟨1, 44⟩]⟩
    ⟨by decide, by simp⟩ rfl rfl rfl (by decide)).mpr
    ⟨by decide, .inr ⟨by simp, .inr ⟨by decide, by decide, by decide, by decide⟩⟩⟩⟩

/-- Blocks are aligned to 8 bytes, a queue insists on 64: two queues of 164 bytes do not get
placed. -/
theorem second_queue_panics :
    new megabyte 1 = .ok megabyteSegment ∧
      SvmMsgQ.sizeToAlloc ⟨2, [⟨2, 4⟩]⟩ = .ok 164 ∧
      blocksEnd megabyteSegment.header.startByteIndex 164 2 < megabyteSegment.header.maxByteIndex ∧
      megabyteSegment.allocateMessageQueues ⟨2, [⟨2, 4⟩]⟩ 2 = .error (.messageQueue .panic) ∧
      ¬ Placed megabyteSegment megabyte 1 164 ⟨2, [⟨2, 4⟩]⟩ 2 := by
  have hpanic : megabyteSegment.allocateMessageQueues ⟨2, [⟨2, 4⟩]⟩ 2 =
      .error (.messageQueue .panic) := rfl
  refine ⟨rfl, rfl, by decide, hpanic, ?_⟩
  rintro ⟨s', hs', -⟩
  cases hs'

end SvmFifoSegment

end MsgQueue
