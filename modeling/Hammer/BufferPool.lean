import Hammer.BufferLayout
import Mathlib.Algebra.BigOperators.Group.Multiset.Basic
import Mathlib.Algebra.Order.BigOperators.Group.List
import Mathlib.Data.Multiset.Count
import Mathlib.Tactic.Abel

/-! # Buffer pools

The pools of `hammer-core/src/buffer/pool.rs`: one shared list of free indices for each pool and
one cache of free indices for each thread of a pool. The model is that of a release build. What
the debug build asserts through `known_allocated`, that a buffer is released by an owner of it, is
kept as the list `live` of the indices that are handed out.
-/

namespace Buffer

def BUFFER_THREAD_CACHE_BATCH : ℕ := 32

def BUFFER_THREAD_CACHE_HIGH_WATER : ℕ := 512

def MAX_BUFFER_POOLS : ℕ := 255

/-- The part of a buffer's first cache line that decides its release. -/
structure Header where
  refCount : ℕ
  next : Option ℕ
  deriving DecidableEq, Repr

def Header.template : Header := ⟨1, none⟩

structure BufferThreadCacheSlot where
  cachedCount : ℕ
  indices : List ℕ
  deriving DecidableEq, Repr

/-- The free indices a thread holds. -/
def BufferThreadCacheSlot.cached (s : BufferThreadCacheSlot) : List ℕ :=
  s.indices.take s.cachedCount

structure BufferPool where
  layout : PoolLayout
  bufferCount : ℕ
  free : List ℕ
  workers : List BufferThreadCacheSlot
  deriving DecidableEq, Repr

structure BufferMain where
  bufferMemStart : ℕ
  bufferMemSize : ℕ
  pools : List BufferPool
  headers : ℕ → Header
  live : List ℕ

structure BufferPoolUsage where
  bufferCount : ℕ
  available : ℕ
  cached : ℕ
  deriving DecidableEq, Repr

inductive DataPlaneError where
  | bufferPoolCountExceeded
  | bufferPoolsUnavailable
  | bufferAllocationExceedsPage
  | bufferMemorySpanExceeded
  deriving DecidableEq, Repr

/-- A cache-line multiple with an odd number of lines. -/
def allocationSize (bufferSize dataSize : ℕ) : ℕ :=
  let lines := (bufferSize + dataSize + (BUFFER_CACHE_LINE_SIZE - 1)) / BUFFER_CACHE_LINE_SIZE
  (if lines % 2 = 0 then lines + 1 else lines) * BUFFER_CACHE_LINE_SIZE

namespace BufferPool

def new (start threadCount : ℕ) (layout : PoolLayout) : BufferPool where
  layout := layout
  bufferCount := (layout.slots start).length
  free := layout.slots start
  workers := List.replicate threadCount ⟨0, List.replicate BUFFER_THREAD_CACHE_HIGH_WATER 0⟩

end BufferPool

/-- The pools over the mappings that physical memory has established, one for each NUMA node. -/
def BufferMain.init (bufferSize dataSize workerCount : ℕ) (maps : List PhysmemMap) :
    Except DataPlaneError BufferMain :=
  if MAX_BUFFER_POOLS < maps.length then .error .bufferPoolCountExceeded
  else if maps = [] ∨ dataSize = 0 then .error .bufferPoolsUnavailable
  else
    let size := allocationSize bufferSize dataSize
    if maps.any fun m => decide (m.pageSize < size) then .error .bufferAllocationExceedsPage
    else
      let start := (maps.map (·.base)).min?.getD 0
      let stop := (maps.map (·.stop)).max?.getD 0
      if MAX_BUFFER_MEMORY < stop - start then .error .bufferMemorySpanExceeded
      else
        let pools := maps.map fun m => BufferPool.new start (workerCount + 1) ⟨m, size⟩
        if pools.any fun p => p.free.isEmpty then .error .bufferPoolsUnavailable
        else .ok ⟨start, stop - start, pools, fun _ => .template, []⟩

/-- `alloc_indices` at work: the shared list, the cache, its length as the thread holds it, and
what is handed out so far. -/
structure AllocState where
  free : List ℕ
  indices : List ℕ
  cached : ℕ
  out : List ℕ
  deriving DecidableEq, Repr

namespace AllocState

def refill (s : AllocState) : AllocState :=
  if s.cached = 0 then
    let count := min s.free.length BUFFER_THREAD_CACHE_BATCH
    let start := s.free.length - count
    { s with
      free := s.free.take start
      indices := s.free.drop start ++ s.indices.drop count
      cached := count }
  else s

def take (s : AllocState) : AllocState :=
  { s with cached := s.cached - 1, out := s.out ++ [s.indices.getD (s.cached - 1) 0] }

/-- The loop over the entries to fill; the flag says that it reached their end. -/
def loop : ℕ → AllocState → AllocState × Bool
  | 0, s => (s, true)
  | n + 1, s => if s.refill.cached = 0 then (s.refill, false) else loop n s.refill.take

end AllocState

namespace BufferPool

def allocIndices (p : BufferPool) (thread n : ℕ) : Option (BufferPool × List ℕ) :=
  p.workers[thread]?.map fun slot =>
    let r := AllocState.loop n ⟨p.free, slot.indices, slot.cachedCount, []⟩
    -- the early return leaves the published length as it was
    let cachedCount := if r.2 then r.1.cached else slot.cachedCount
    ({ p with free := r.1.free, workers := p.workers.set thread ⟨cachedCount, r.1.indices⟩ },
      r.1.out)

/-- The last reference to a buffer is gone: its index goes to the cache of the thread. -/
def release (p : BufferPool) (thread index : ℕ) : Option BufferPool :=
  p.workers[thread]?.map fun slot =>
    if slot.cachedCount = BUFFER_THREAD_CACHE_HIGH_WATER then
      let start := slot.cachedCount - BUFFER_THREAD_CACHE_BATCH
      { p with
        free := p.free ++ (slot.indices.take slot.cachedCount).drop start
        workers := p.workers.set thread ⟨start + 1, slot.indices.set start index⟩ }
    else
      { p with
        workers := p.workers.set thread
          ⟨slot.cachedCount + 1, slot.indices.set slot.cachedCount index⟩ }

def usage (p : BufferPool) : BufferPoolUsage where
  bufferCount := p.bufferCount
  available := p.free.length
  cached := (p.workers.map (·.cachedCount)).sum

end BufferPool

namespace BufferMain

def layouts (m : BufferMain) : List PoolLayout := m.pools.map (·.layout)

def pool (m : BufferMain) (index : ℕ) : Option ℕ :=
  poolOf m.bufferMemStart m.bufferMemSize m.layouts index

def poolUsage (m : BufferMain) (k : ℕ) : Option BufferPoolUsage := m.pools[k]?.map (·.usage)

def allocFromPool (m : BufferMain) (thread k n : ℕ) : Option (BufferMain × List ℕ) := do
  let p ← m.pools[k]?
  let r ← p.allocIndices thread n
  pure ({ m with
    pools := m.pools.set k r.1
    headers := fun i => if i ∈ r.2 then .template else m.headers i
    live := m.live ++ r.2 }, r.2)

def setHeader (m : BufferMain) (index : ℕ) (h : Header) : BufferMain :=
  { m with headers := fun i => if i = index then h else m.headers i }

/-- One reference less. The caller has to own the buffer. -/
def dropReference (m : BufferMain) (thread index : ℕ) : Option BufferMain := do
  let k ← m.pool index
  let p ← m.pools[k]?
  guard (index ∈ m.live ∧ (m.headers index).refCount ≠ 0)
  if (m.headers index).refCount = 1 then
    let p ← p.release thread index
    pure { m.setHeader index .template with
      pools := m.pools.set k p, live := m.live.erase index }
  else
    pure (m.setHeader index
      { m.headers index with refCount := (m.headers index).refCount - 1 })

def references (m : BufferMain) : ℕ := (m.live.map fun i => (m.headers i).refCount).sum

/-- The chain that starts at a buffer, as long as `followNext` asks for it. -/
def freeChain (thread : ℕ) (followNext : Bool) : ℕ → BufferMain → Option ℕ → Option BufferMain
  | _, m, none => some m
  | 0, _, some _ => none
  | fuel + 1, m, some index =>
    let next := if followNext then (m.headers index).next else none
    (m.dropReference thread index).bind fun m' => freeChain thread followNext fuel m' next

/-- Each visit takes a reference away, so there are no more visits than references. -/
def freeBuffers (m : BufferMain) (thread : ℕ) (indices : List ℕ) (followNext : Bool) :
    Option BufferMain :=
  indices.foldlM (fun m index => freeChain thread followNext (m.references + 1) m (some index)) m

end BufferMain

inductive Event where
  | alloc (thread pool n : ℕ)
  | free (thread : ℕ) (indices : List ℕ) (followNext : Bool)
  /-- An owner links a buffer. -/
  | chain (index : ℕ) (next : Option ℕ)
  /-- An owner attaches a clone to a buffer. -/
  | retain (index : ℕ)
  deriving DecidableEq, Repr

namespace BufferMain

def step (m : BufferMain) : Event → Option BufferMain
  | .alloc thread k n => (m.allocFromPool thread k n).map (·.1)
  | .free thread indices followNext => m.freeBuffers thread indices followNext
  | .chain index next =>
    if index ∈ m.live ∧ (m.headers index).refCount = 1 then
      some (m.setHeader index { m.headers index with next := next })
    else none
  | .retain index =>
    if index ∈ m.live ∧ (m.headers index).refCount < 255 then
      some (m.setHeader index { m.headers index with refCount := (m.headers index).refCount + 1 })
    else none

/-- A request for more than the thread's cache and the shared list hold finds the cache empty. -/
def Covers (m : BufferMain) : Event → Prop
  | .alloc thread k n => ∀ p slot, m.pools[k]? = some p → p.workers[thread]? = some slot →
      n ≤ slot.cachedCount + p.free.length ∨ slot.cachedCount = 0
  | _ => True

/-- The states of the runs in which every request is covered. -/
inductive Reaches (m0 : BufferMain) : BufferMain → Prop where
  | init : Reaches m0 m0
  | step {m m' : BufferMain} {e : Event} : Reaches m0 m → m.Covers e → m.step e = some m' →
      Reaches m0 m'

end BufferMain

end Buffer
