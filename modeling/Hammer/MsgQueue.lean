import Hammer.ByteMemory

/-! # The shared message queue

`hammer-infra/src/svm/msg_queue.rs`: a queue of descriptors and several rings of fixed-size
elements. A call that waits is a call that returns when there is space, so only the outcome
without waiting is modelled.
-/
namespace MsgQueue

abbrev Bytes := List UInt8

structure SvmMsgQDescriptor where
  ringIndex : ℕ
  eltIndex : ℕ
  deriving DecidableEq, Repr

/-- `INVALID`: all bits set. -/
def SvmMsgQDescriptor.isInvalid (d : SvmMsgQDescriptor) : Bool :=
  d.ringIndex == 4294967295 && d.eltIndex == 4294967295

inductive SvmMsgQError where
  | queueFull
  | ringFull (ring : ℕ)
  | messageTooLarge (requested : ℕ)
  | invalidRing (ring : ℕ)
  | invalidDescriptor (ring element : ℕ)
  | descriptorNotAllocated (ring element : ℕ)
  | elementSizeMismatch (requested stored : ℕ)
  | empty
  | signalAfterCommit
  | zeroQueueCapacity
  | noRings
  | zeroRingCapacity (ring : ℕ)
  | zeroElementSize (ring : ℕ)
  | layoutOverflow
  | invalidHeader
  | panic
  deriving DecidableEq, Repr

inductive Operation where
  | add
  | sub
  | freeMsg

/-- The build and the operating system: whether arithmetic overflow panics or wraps, and the result
of waking the other side. -/
structure Platform where
  overflowChecks : Bool
  signal : Operation → Except SvmMsgQError Unit

structure SvmMsgQRing where
  nitems : ℕ
  elsize : ℕ
  cursize : ℕ
  head : ℕ
  tail : ℕ
  data : Memory

structure SvmMsgQ where
  maxsize : ℕ
  cursize : ℕ
  head : ℕ
  tail : ℕ
  descriptors : ℕ → SvmMsgQDescriptor
  rings : List SvmMsgQRing

structure SvmMsgQRingConfig where
  nitems : ℕ
  elsize : ℕ

structure SvmMsgQConfig where
  qNitems : ℕ
  rings : List SvmMsgQRingConfig

def nextIndex (index capacity : ℕ) : ℕ := if index + 1 = capacity then 0 else index + 1

def addU32 (p : Platform) (a b : ℕ) : Except SvmMsgQError ℕ :=
  if a + b < 4294967296 then .ok (a + b)
  else if p.overflowChecks then .error .panic
  else .ok ((a + b) % 4294967296)

def subU32 (p : Platform) (a b : ℕ) : Except SvmMsgQError ℕ :=
  if b ≤ a then .ok (a - b)
  else if p.overflowChecks then .error .panic
  else .ok ((a + 4294967296 - b) % 4294967296)

/-- `(index + nitems - head) % nitems`. -/
def ringDistance (p : Platform) (index nitems head : ℕ) : Except SvmMsgQError ℕ := do
  let sum ← addU32 p index nitems
  let difference ← subU32 p sum head
  return difference % nitems

def validateRings : ℕ → List SvmMsgQRingConfig → Except SvmMsgQError Unit
  | _, [] => .ok ()
  | index, ring :: rings =>
    if ring.nitems = 0 then .error (.zeroRingCapacity index)
    else if ring.elsize = 0 then .error (.zeroElementSize index)
    else validateRings (index + 1) rings

def validateConfig (config : SvmMsgQConfig) : Except SvmMsgQError Unit :=
  if config.qNitems = 0 then .error .zeroQueueCapacity
  else if config.rings.isEmpty then .error .noRings
  else validateRings 0 config.rings

/-- A checked `usize` operation with result `n`. -/
def checkedUsize (n : ℕ) : Except SvmMsgQError ℕ :=
  if n < 18446744073709551616 then .ok n else .error .layoutOverflow

/-- Each ring is a 20-byte header with its elements behind it. -/
def ringBytes : ℕ → List SvmMsgQRingConfig → Except SvmMsgQError ℕ
  | size, [] => .ok size
  | size, ring :: rings => do
    let data ← checkedUsize (ring.nitems * ring.elsize)
    let size ← checkedUsize (size + 20)
    let size ← checkedUsize (size + data)
    ringBytes size rings

namespace SvmMsgQ

/-- The queue's own headers take 8 and 112 bytes, a descriptor 8. Of the 112, mutex and condition
variable have 40 and 48, their sizes on 64-bit Linux. -/
def sizeToAlloc (config : SvmMsgQConfig) : Except SvmMsgQError ℕ := do
  validateConfig config
  let descriptors ← checkedUsize (config.qNitems * 8)
  let ringBytes ← ringBytes 0 config.rings
  let size ← checkedUsize (8 + 112)
  let size ← checkedUsize (size + descriptors)
  checkedUsize (size + ringBytes)

/-- The queue where all its headers are aligned. -/
def init (config : SvmMsgQConfig) : Except SvmMsgQError SvmMsgQ := do
  let _size ← sizeToAlloc config
  return {
    maxsize := config.qNitems
    cursize := 0
    head := 0
    tail := 0
    descriptors := fun _ => ⟨0, 0⟩
    rings := config.rings.map fun ring => ⟨ring.nitems, ring.elsize, 0, 0, 0, fun _ => 0⟩ }

def isEmpty (q : SvmMsgQ) : Bool := q.cursize == 0

def isFull (q : SvmMsgQ) : Bool := q.cursize == q.maxsize

def ring (q : SvmMsgQ) (ringIndex : ℕ) : Except SvmMsgQError SvmMsgQRing :=
  match q.rings[ringIndex]? with
  | some ring => .ok ring
  | none => .error (.invalidRing ringIndex)

def setRing (q : SvmMsgQ) (ringIndex : ℕ) (ring : SvmMsgQRing) : SvmMsgQ :=
  { q with rings := q.rings.set ringIndex ring }

def validateDescriptor (p : Platform) (q : SvmMsgQ) (d : SvmMsgQDescriptor) :
    Except SvmMsgQError (ℕ × ℕ) := do
  if d.isInvalid then throw (.invalidDescriptor d.ringIndex d.eltIndex)
  let ring ← q.ring d.ringIndex
  if ring.nitems ≤ d.eltIndex then throw (.invalidDescriptor d.ringIndex d.eltIndex)
  let distance ← ringDistance p d.eltIndex ring.nitems ring.head
  let span ←
    if ring.tail = ring.head then pure (if ring.cursize = 0 then 0 else ring.nitems)
    else ringDistance p ring.tail ring.nitems ring.head
  if span ≤ distance then throw (.descriptorNotAllocated d.ringIndex d.eltIndex)
  return (d.ringIndex, d.eltIndex)

def allocMsgWRingUnchecked (q : SvmMsgQ) (ringIndex : ℕ) (ring : SvmMsgQRing) :
    SvmMsgQ × SvmMsgQDescriptor :=
  (q.setRing ringIndex { ring with
    tail := nextIndex ring.tail ring.nitems
    cursize := ring.cursize + 1 }, ⟨ringIndex, ring.tail⟩)

def allocMsgOnRing (q : SvmMsgQ) (ringIndex : ℕ) :
    Except SvmMsgQError (SvmMsgQ × SvmMsgQDescriptor) := do
  let ring ← q.ring ringIndex
  if q.isFull || decide (ring.nitems ≤ ring.cursize) then throw (.ringFull ringIndex)
  return q.allocMsgWRingUnchecked ringIndex ring

/-- The first ring with room for an element of `nbytes`. -/
def findRing (rings : List SvmMsgQRing) (nbytes : ℕ) : Option ℕ :=
  rings.findIdx? fun ring => decide (nbytes ≤ ring.elsize) && decide (ring.cursize < ring.nitems)

/-- The source looks again and again while no ring has room; here that is `queueFull`. -/
def allocMsg (q : SvmMsgQ) (nbytes : ℕ) : Except SvmMsgQError (SvmMsgQ × SvmMsgQDescriptor) := do
  if (q.rings.map (·.elsize)).foldl max 0 < nbytes then throw (.messageTooLarge nbytes)
  match findRing q.rings nbytes with
  | some ringIndex =>
    let ring ← q.ring ringIndex
    return q.allocMsgWRingUnchecked ringIndex ring
  | none => throw .queueFull

/-- `message_data` is at `elt_index * elsize` in the ring. -/
def write (p : Platform) (q : SvmMsgQ) (message : SvmMsgQDescriptor) (value : Bytes) :
    Except SvmMsgQError SvmMsgQ := do
  let (ringIndex, eltIndex) ← q.validateDescriptor p message
  let ring ← q.ring ringIndex
  if value.length ≠ ring.elsize then throw (.elementSizeMismatch value.length ring.elsize)
  return q.setRing ringIndex { ring with data := ring.data.write (eltIndex * ring.elsize) value }

def read (p : Platform) (q : SvmMsgQ) (message : SvmMsgQDescriptor) :
    Except SvmMsgQError Bytes := do
  let (ringIndex, eltIndex) ← q.validateDescriptor p message
  let ring ← q.ring ringIndex
  return ring.data.read (eltIndex * ring.elsize) ring.elsize

def addRaw (p : Platform) (q : SvmMsgQ) (ringIndex eltIndex : ℕ) : Except SvmMsgQError SvmMsgQ := do
  let q' := { q with
    descriptors := Function.update q.descriptors q.tail ⟨ringIndex, eltIndex⟩
    tail := nextIndex q.tail q.maxsize
    cursize := q.cursize + 1 }
  if q.cursize = 0 then p.signal .add
  return q'

def add (p : Platform) (q : SvmMsgQ) (message : SvmMsgQDescriptor) :
    Except SvmMsgQError SvmMsgQ := do
  let (ringIndex, element) ← q.validateDescriptor p message
  if q.isFull then throw .queueFull
  q.addRaw p ringIndex element

def sub (p : Platform) (q : SvmMsgQ) : Except SvmMsgQError (SvmMsgQ × SvmMsgQDescriptor) := do
  if q.isEmpty then throw .empty
  let descriptor := q.descriptors q.head
  let q' := { q with head := nextIndex q.head q.maxsize, cursize := q.cursize - 1 }
  if q.cursize = q.maxsize then p.signal .sub
  return (q', descriptor)

def freeMsg (p : Platform) (q : SvmMsgQ) (message : SvmMsgQDescriptor) :
    Except SvmMsgQError SvmMsgQ := do
  let (ringIndex, eltIndex) ← q.validateDescriptor p message
  let ring ← q.ring ringIndex
  if eltIndex ≠ ring.head ∨ ring.cursize = 0 then
    throw (.descriptorNotAllocated ringIndex eltIndex)
  let q' := q.setRing ringIndex { ring with
    head := nextIndex ring.head ring.nitems
    cursize := ring.cursize - 1 }
  if ring.cursize = ring.nitems then p.signal .freeMsg
  return q'

end SvmMsgQ

end MsgQueue
