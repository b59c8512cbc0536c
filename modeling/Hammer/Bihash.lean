import Mathlib.Data.Nat.Log
import Mathlib.Logic.Function.Basic
import Mathlib.Tactic.Ring

/-! # The bounded-index hash table

`hammer-infra/src/bihash`, driven by one writer with no lookup in flight. No hazard protects
a block then, so a retired block is on its free list when `retire` returns. `none` is a panic.
-/
namespace Bihash

def FREE_U64 : ℕ := 0xFEEDFACE8BADF00D
def MAX_LOG2_PAGES : ℕ := 8

/-- The packed word: generation 5 bits, refcnt 13, log2_pages 8, linear_search 1, lock 1,
offset 36, from the lowest bit up. -/
structure Bucket where
  raw : ℕ
  deriving DecidableEq, Repr

namespace Bucket

def empty : Bucket := ⟨0⟩
def generation (b : Bucket) : ℕ := b.raw % 2 ^ 5
def refcnt (b : Bucket) : ℕ := b.raw / 2 ^ 5 % 2 ^ 13
def log2Pages (b : Bucket) : ℕ := b.raw / 2 ^ 18 % 2 ^ 8
def isLinearSearch (b : Bucket) : Bool := b.raw / 2 ^ 26 % 2 != 0
def isLocked (b : Bucket) : Bool := b.raw / 2 ^ 27 % 2 != 0
def offset (b : Bucket) : ℕ := b.raw / 2 ^ 28 % 2 ^ 36

def isEmpty (b : Bucket) : Bool := b.offset == 0 && (b.log2Pages == 0 || b.refcnt == 0)

/-- The masked fields do not overlap, so their sum is their bitwise or. -/
def pack (offset log2Pages refcnt generation : ℕ) (linearSearch lock : Bool) : Bucket :=
  ⟨offset % 2 ^ 36 * 2 ^ 28 + lock.toNat * 2 ^ 27 + linearSearch.toNat * 2 ^ 26 +
    log2Pages % 2 ^ 8 * 2 ^ 18 + refcnt % 2 ^ 13 * 2 ^ 5 + generation % 2 ^ 5⟩

def withLock (b : Bucket) : Bucket := if b.isLocked then b else ⟨b.raw + 2 ^ 27⟩

end Bucket

structure Kv (K : Type) where
  key : K
  value : ℕ
  deriving DecidableEq, Repr

variable {K : Type}

def Kv.isFree (kv : Kv K) : Bool := kv.value == FREE_U64
def Kv.markFree (kv : Kv K) : Kv K := { kv with value := FREE_U64 }

abbrev ValuePage (K : Type) := List (Kv K)
abbrev Slot := ℕ × ℕ

structure PageBlock (K : Type) where
  pages : List (ValuePage K)
  log2Pages : ℕ

/-- The type parameters: the key's hash, the slots of a page and the size of a page. -/
structure Layout (K : Type) where
  hash : K → ℕ
  kvp : ℕ
  pageBytes : ℕ

/-- `blocks o` is the block at offset `o`, that is `blocks[o - 1]`. -/
structure Table (K : Type) where
  buckets : ℕ → Bucket
  nbuckets : ℕ
  log2Nbuckets : ℕ
  blocks : ℕ → PageBlock K
  blocksLen : ℕ
  freelists : ℕ → List ℕ
  len : ℕ
  memorySize : ℕ
  allocatedBytes : ℕ

variable [DecidableEq K] [Inhabited K] (g : Layout K)

def freshPages (log2Pages : ℕ) : List (ValuePage K) :=
  List.replicate (2 ^ log2Pages) (List.replicate g.kvp ⟨default, FREE_U64⟩)

/-- More than `2 ^ 31` buckets overflow `next_power_of_two`. -/
def withCapacityIn (nbuckets memorySize : ℕ) : Option (Table K) :=
  let nbuckets := if nbuckets = 0 then 1 else nbuckets
  if 2 ^ 31 < nbuckets then none
  else
    let log2 := Nat.clog 2 nbuckets
    some ⟨fun _ => .empty, 2 ^ log2, log2, fun _ => ⟨[], 0⟩, 0, fun _ => [], 0, memorySize, 0⟩

def new (nbuckets : ℕ) : Option (Table K) := withCapacityIn nbuckets (2 ^ 64 - 1)

def bucketIdx (h : Table K) (key : K) : ℕ := g.hash key % 2 ^ 32 % h.nbuckets

/-- The page a key belongs to in a block of `2 ^ log2Pages` pages. -/
def targetPage (h : Table K) (log2Pages : ℕ) (key : K) : ℕ :=
  g.hash key / 2 ^ h.log2Nbuckets % 2 ^ log2Pages

def storeBucket (h : Table K) (idx : ℕ) (b : Bucket) : Table K :=
  { h with buckets := Function.update h.buckets idx b }

/-- With one writer a locked bucket is never unlocked again. -/
def lockBucket (h : Table K) (idx : ℕ) : Option (Table K × Bucket) :=
  let old := h.buckets idx
  if old.isLocked then none else some (storeBucket h idx old.withLock, old.withLock)

def setPages (h : Table K) (offset : ℕ) (pages : List (ValuePage K)) : Table K :=
  { h with blocks := Function.update h.blocks offset { h.blocks offset with pages := pages } }

def livePages (h : Table K) (offset : ℕ) : Option (List (ValuePage K)) :=
  if offset = 0 ∨ h.blocksLen < offset then none else some (h.blocks offset).pages

def allocate (h : Table K) (log2Pages : ℕ) : Option (Table K × ℕ) :=
  if MAX_LOG2_PAGES < log2Pages then none
  else
    match h.freelists log2Pages with
    | offset :: rest =>
      some (setPages { h with freelists := Function.update h.freelists log2Pages rest } offset
        (freshPages g log2Pages), offset)
    | [] =>
      let allocatedBytes := h.allocatedBytes + 2 ^ log2Pages * g.pageBytes
      if h.memorySize < allocatedBytes then none
      else
        let offset := h.blocksLen + 1
        some ({ h with
          blocks := Function.update h.blocks offset ⟨freshPages g log2Pages, log2Pages⟩
          blocksLen := offset
          allocatedBytes := allocatedBytes }, offset)

def retire (h : Table K) (offset log2Pages : ℕ) : Table K :=
  { h with freelists := Function.update h.freelists log2Pages (offset :: h.freelists log2Pages) }

def scanSlots (key : K) (pageIndex : ℕ) :
    ℕ → ValuePage K → Option Slot → Option (Slot × ℕ) × Option Slot
  | _, [], free => (none, free)
  | slotIndex, kv :: rest, free =>
    if kv.isFree then
      scanSlots key pageIndex (slotIndex + 1) rest (free <|> some (pageIndex, slotIndex))
    else if kv.key = key then (some ((pageIndex, slotIndex), kv.value), free)
    else scanSlots key pageIndex (slotIndex + 1) rest free

def scanPageList (key : K) :
    ℕ → List (ValuePage K) → Option Slot → Option (Slot × ℕ) × Option Slot
  | _, [], free => (none, free)
  | pageIndex, page :: rest, free =>
    match scanSlots key pageIndex 0 page free with
    | (some found, free) => (some found, free)
    | (none, free) => scanPageList key (pageIndex + 1) rest free

def scanPages (h : Table K) (pages : List (ValuePage K)) (log2Pages : ℕ) (linear : Bool) (key : K) :
    Option (Slot × ℕ) × Option Slot :=
  let first := if linear then 0 else targetPage g h log2Pages key
  let limit := if linear then 2 ^ log2Pages else 1
  scanPageList key first ((pages.drop first).take limit) none

def inspectLocked (h : Table K) (bucket : Bucket) (key : K) :
    Option (Option (Slot × ℕ) × Option Slot) :=
  (livePages h bucket.offset).map fun pages =>
    scanPages g h pages bucket.log2Pages bucket.isLinearSearch key

/-- `none` if the lookup waits for a writer bit that nobody clears. -/
def lookup (h : Table K) (key : K) : Option (Option ℕ) :=
  let bucket := h.buckets (bucketIdx g h key)
  if bucket.isLocked then none
  else if bucket.isEmpty then some none
  else (inspectLocked g h bucket key).map fun r => r.1.map Prod.snd

def publishUnlocked (h : Table K) (idx : ℕ) (bucket : Bucket) (refcnt : ℕ) : Table K :=
  storeBucket h idx (.pack bucket.offset bucket.log2Pages refcnt bucket.generation
    bucket.isLinearSearch false)

def unlockUnchanged (h : Table K) (idx : ℕ) (bucket : Bucket) : Table K :=
  publishUnlocked h idx bucket bucket.refcnt

def modifySlot (pages : List (ValuePage K)) (slot : Slot) (f : Kv K → Kv K) :
    List (ValuePage K) :=
  pages.modify slot.1 fun page => page.modify slot.2 f

/-- A store through `live_pages_mut`. -/
def writeSlot (h : Table K) (offset : ℕ) (slot : Slot) (f : Kv K → Kv K) : Table K :=
  setPages h offset (modifySlot (h.blocks offset).pages slot f)

/-- `for slot in page.slots_mut()`: the first free slot is taken. -/
def placeInPage (kv : Kv K) : ValuePage K → Option (ValuePage K)
  | [] => none
  | slot :: rest =>
    if slot.isFree then some (kv :: rest) else (placeInPage kv rest).map (slot :: ·)

/-- The pages from `pageIndex` on, except `skip`. -/
def placeInOthers (kv : Kv K) (skip : ℕ) : ℕ → List (ValuePage K) → Option (List (ValuePage K))
  | _, [] => none
  | pageIndex, page :: rest =>
    if pageIndex = skip then (placeInOthers kv skip (pageIndex + 1) rest).map (page :: ·)
    else
      match placeInPage kv page with
      | some page => some (page :: rest)
      | none => (placeInOthers kv skip (pageIndex + 1) rest).map (page :: ·)

/-- The flag is false if the pair is not on its target page. -/
def place (h : Table K) (pages : List (ValuePage K)) (log2Pages : ℕ) (kv : Kv K) :
    Option (List (ValuePage K) × Bool) :=
  let target := targetPage g h log2Pages kv.key
  match pages[target]?.bind (placeInPage kv) with
  | some page => some (pages.set target page, true)
  | none => (placeInOthers kv target 0 pages).map (·, false)

def placeLinear (kv : Kv K) : List (ValuePage K) → List (ValuePage K) × Bool
  | [] => ([], false)
  | page :: rest =>
    match placeInPage kv page with
    | some page => (page :: rest, true)
    | none => let r := placeLinear kv rest; (page :: r.1, r.2)

def placeMode (h : Table K) (log2Pages : ℕ) (linear : Bool) (pages : List (ValuePage K))
    (kv : Kv K) : Option (List (ValuePage K) × Bool) :=
  if linear then some (placeLinear kv pages) else place g h pages log2Pages kv

/-- The copy loop; the flag collects `displaced`. -/
def placeAll (h : Table K) (log2Pages : ℕ) (linear : Bool) :
    List (Kv K) → List (ValuePage K) × Bool → Option (List (ValuePage K) × Bool)
  | [], s => some s
  | kv :: rest, s =>
    if kv.isFree then placeAll h log2Pages linear rest s
    else (placeMode g h log2Pages linear s.1 kv).bind fun r =>
      placeAll h log2Pages linear rest (r.1, s.2 || !r.2)

structure Rehashed (K : Type) where
  table : Table K
  offset : ℕ
  refcnt : ℕ
  displaced : Bool

/-- `rehash`, or `pages.replace`: a fresh block that receives the live pairs and the new one. -/
def rehash (h : Table K) (bucket : Bucket) (new : Kv K) (newLog2 : ℕ) (linear : Bool) :
    Option (Rehashed K) :=
  match allocate g h newLog2 with
  | none => none
  | some (h, offset) =>
    let old := (h.blocks bucket.offset).pages.flatten
    match placeAll g h newLog2 linear old ((h.blocks offset).pages, false) with
    | none => none
    | some s =>
      match placeMode g h newLog2 linear s.1 new with
      | none => none
      | some r =>
        let refcnt := (old.filter fun kv => !kv.isFree).length + 1
        if 2 ^ 16 ≤ refcnt then none
        else some ⟨setPages h offset r.1, offset, refcnt, s.2 || !r.2⟩

def splitAndRehash (h : Table K) (idx : ℕ) (bucket : Bucket) (new : Kv K) : Option (Table K) :=
  let requestedLog2 := bucket.log2Pages + 1
  let firstLog2 := min requestedLog2 MAX_LOG2_PAGES
  let capOverflow := decide (MAX_LOG2_PAGES < requestedLog2)
  let chosen : Option (Rehashed K × ℕ × Bool) :=
    if !capOverflow then
      (rehash g h bucket new firstLog2 false).bind fun r =>
      if !r.displaced then some (r, firstLog2, false)
      else
        let h := retire r.table r.offset firstLog2
        let retryLog2 := min (firstLog2 + 1) MAX_LOG2_PAGES
        (rehash g h bucket new retryLog2 false).bind fun r =>
        if !r.displaced then some (r, retryLog2, false)
        else
          let h := retire r.table r.offset retryLog2
          (rehash g h bucket new firstLog2 true).map fun r => (r, firstLog2, true)
    else (rehash g h bucket new firstLog2 true).map fun r => (r, firstLog2, true)
  chosen.map fun (r, newLog2, linear) =>
    let h := storeBucket r.table idx (.pack r.offset newLog2 r.refcnt
      ((bucket.generation + 1) % 32) (linear || capOverflow) false)
    let h := retire h bucket.offset bucket.log2Pages
    { h with len := h.len + 1 }

/-- The first pair of an empty bucket. -/
def insertFirst (h : Table K) (idx : ℕ) (kv : Kv K) : Option (Table K) :=
  (allocate g h 0).bind fun (h, offset) =>
    match (h.blocks offset).pages with
    | (_ :: slots) :: pages =>
      let h := setPages h offset ((kv :: slots) :: pages)
      let h := storeBucket h idx (.pack offset 0 1 0 false false)
      some { h with len := h.len + 1 }
    | _ => none

/-- A pair whose key is not in the bucket. -/
def insertAbsent (h : Table K) (idx : ℕ) (bucket : Bucket) (free : Option Slot) (kv : Kv K) :
    Option (Table K) :=
  match free with
  | some slot =>
    let h := writeSlot h bucket.offset slot fun _ => kv
    let h := publishUnlocked h idx bucket (bucket.refcnt + 1)
    some { h with len := h.len + 1 }
  | none => splitAndRehash g h idx bucket kv

/-- How every mutator starts: the bucket of the key is locked and, unless it is empty, searched. -/
def onKey {α : Type} (h : Table K) (key : K) (empty : Table K → ℕ → Bucket → Option α)
    (absent : Table K → ℕ → Bucket → Option Slot → Option α)
    (present : Table K → ℕ → Bucket → Slot → ℕ → Option α) : Option α :=
  let idx := bucketIdx g h key
  (lockBucket h idx).bind fun (h, bucket) =>
  if bucket.isEmpty then empty h idx bucket
  else
    (inspectLocked g h bucket key).bind fun (found, free) =>
    match found with
    | some (slot, current) => present h idx bucket slot current
    | none => absent h idx bucket free

def insertIfAbsent (h : Table K) (key : K) (value : ℕ) : Option (Table K × Except ℕ Unit) :=
  onKey g h key (fun h idx _ => (insertFirst g h idx ⟨key, value⟩).map (·, .ok ()))
    (fun h idx bucket free => (insertAbsent g h idx bucket free ⟨key, value⟩).map (·, .ok ()))
    fun h idx bucket _ existing => some (unlockUnchanged h idx bucket, .error existing)

def insert (h : Table K) (key : K) (value : ℕ) : Option (Table K) :=
  onKey g h key (fun h idx _ => insertFirst g h idx ⟨key, value⟩)
    (fun h idx bucket free => insertAbsent g h idx bucket free ⟨key, value⟩)
    fun h idx bucket slot _ =>
      let h := writeSlot h bucket.offset slot fun kv => { kv with value := value }
      some (unlockUnchanged h idx bucket)

def replaceIfCurrent (h : Table K) (key : K) (oldValue newValue : ℕ) :
    Option (Table K × Bool) :=
  onKey g h key (fun h idx bucket => some (unlockUnchanged h idx bucket, false))
    (fun h idx bucket _ => some (unlockUnchanged h idx bucket, false))
    fun h idx bucket slot current =>
      if current ≠ oldValue then some (unlockUnchanged h idx bucket, false)
      else
        let h := writeSlot h bucket.offset slot fun kv => { kv with value := newValue }
        some (unlockUnchanged h idx bucket, true)

/-- The end of both removals. Taking one from a refcnt of zero underflows. -/
def removeSlot (h : Table K) (idx : ℕ) (bucket : Bucket) (slot : Slot) : Option (Table K) :=
  let h := writeSlot h bucket.offset slot Kv.markFree
  if bucket.refcnt = 0 then none
  else
    let h :=
      if bucket.refcnt = 1 then
        retire (storeBucket h idx .empty) bucket.offset bucket.log2Pages
      else publishUnlocked h idx bucket (bucket.refcnt - 1)
    some { h with len := h.len - 1 }

def remove (h : Table K) (key : K) : Option (Table K × Bool) :=
  onKey g h key (fun h idx _ => some (storeBucket h idx .empty, false))
    (fun h idx bucket _ => some (unlockUnchanged h idx bucket, false))
    fun h idx bucket slot _ => (removeSlot h idx bucket slot).map (·, true)

def removeIfCurrent (h : Table K) (key : K) (value : ℕ) : Option (Table K × Bool) :=
  onKey g h key (fun h idx bucket => some (unlockUnchanged h idx bucket, false))
    (fun h idx bucket _ => some (unlockUnchanged h idx bucket, false))
    fun h idx bucket slot current =>
      if current ≠ value then some (unlockUnchanged h idx bucket, false)
      else (removeSlot h idx bucket slot).map (·, true)

/-- The blocks that `clear` collects while it locks all buckets. -/
def clearedBlocks (h : Table K) : List (ℕ × ℕ) :=
  (List.range h.nbuckets).filterMap fun idx =>
    let bucket := (h.buckets idx).withLock
    if bucket.isEmpty then none else some (bucket.offset, bucket.log2Pages)

def clear (h : Table K) : Option (Table K) :=
  if (List.range h.nbuckets).any fun idx => (h.buckets idx).isLocked then none
  else
    let retired := clearedBlocks h
    let h := { h with
      buckets := fun idx => if idx < h.nbuckets then .empty else h.buckets idx }
    let h := retired.foldl (fun h r => retire h r.1 r.2) h
    some { h with len := 0 }

structure Iter where
  bucketIdx : ℕ
  pageRel : ℕ
  slotIdx : ℕ

/-- `while self.slot_idx < KVP`, with the number of slots to go. -/
def nextSlot (page : ValuePage K) : ℕ → ℕ → Option (K × ℕ) × ℕ
  | 0, slotIdx => (none, slotIdx)
  | todo + 1, slotIdx =>
    match page[slotIdx]? with
    | none => (none, slotIdx)
    | some kv =>
      if kv.isFree then nextSlot page todo (slotIdx + 1)
      else (some (kv.key, kv.value), slotIdx + 1)

def nextPage (pages : List (ValuePage K)) :
    ℕ → ℕ → ℕ → Option ((K × ℕ) × ℕ × ℕ)
  | 0, _, _ => none
  | todo + 1, pageRel, slotIdx =>
    match nextSlot (pages[pageRel]?.getD []) (g.kvp - slotIdx) slotIdx with
    | (some item, slotIdx) => some (item, pageRel, slotIdx)
    | (none, _) => nextPage pages todo (pageRel + 1) 0

/-- As for `lookup`, a locked bucket is waited for. -/
def nextBucket (h : Table K) : ℕ → Iter → Option (Option ((K × ℕ) × Iter))
  | 0, _ => some none
  | todo + 1, it =>
    let bucket := h.buckets it.bucketIdx
    if bucket.isLocked then none
    else if bucket.isEmpty then nextBucket h todo ⟨it.bucketIdx + 1, 0, 0⟩
    else
      match nextPage g (h.blocks bucket.offset).pages (2 ^ bucket.log2Pages - it.pageRel)
        it.pageRel it.slotIdx with
      | some (item, pageRel, slotIdx) => some (some (item, ⟨it.bucketIdx, pageRel, slotIdx⟩))
      | none => nextBucket h todo ⟨it.bucketIdx + 1, 0, 0⟩

def next (h : Table K) (it : Iter) : Option (Option ((K × ℕ) × Iter)) :=
  nextBucket g h (h.nbuckets - it.bucketIdx) it

/-- The first `n` items of an iteration. -/
def collect (h : Table K) : ℕ → Iter → Option (List (K × ℕ))
  | 0, _ => some []
  | n + 1, it =>
    (next g h it).bind fun
      | none => some []
      | some (item, it) => (collect h n it).map (item :: ·)

end Bihash
