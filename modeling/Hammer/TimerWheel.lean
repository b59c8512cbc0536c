import Mathlib.Data.Nat.Log
import Mathlib.Logic.Function.Basic
import Mathlib.Tactic.Ring

/-! # The hierarchical timer wheel

`hammer-infra/src/timer_wheel.rs`. Entries live in one growing vector; the first
entries are the list heads of the rings (and of the overflow ring), in order, so the
head of slot `s` in ring `r` is entry `r * SLOTS + s`. `none` is a panic.
-/
namespace TimerWheel

def INVALID_INDEX : ℕ := 2 ^ 32 - 1

/-- The const parameters of the type that `validate_geometry` lets through. -/
structure Geometry where
  wheels : ℕ
  slots : ℕ
  fastBitmap : Bool
  overflow : Bool
  wheels_pos : 1 ≤ wheels
  wheels_le : wheels ≤ 3
  slots_pow : ∃ k, slots = 2 ^ k
  slots_u32 : slots < 2 ^ 32
  horizon_u64 : slots ^ wheels < 2 ^ 64

inductive TimerStartError where
  | zeroInterval
  | intervalOutOfRange
  deriving DecidableEq, Repr

structure TimerEntry (T : Type) where
  next : ℕ
  prev : ℕ
  payload : Option T
  live : Bool
  fastRingOffset : ℕ
  slowRingOffset : ℕ
  expirationTick : ℕ

structure Wheel (T : Type) where
  currentTick : ℕ
  currentIndex : Fin 3 → ℕ
  overflowHead : ℕ
  entries : ℕ → TimerEntry T
  entriesLen : ℕ
  free : List ℕ
  fastSlotBitmap : ℕ → Bool
  len : ℕ
  maxExpirations : ℕ

variable {T : Type}

def TimerEntry.listHead (index : ℕ) : TimerEntry T :=
  ⟨index, index, none, false, 0, 0, 0⟩

def TimerEntry.timer (payload : T) (expirationTick : ℕ) : TimerEntry T :=
  ⟨INVALID_INDEX, INVALID_INDEX, some payload, true, 0, 0, expirationTick⟩

namespace Geometry

def ringShift (g : Geometry) : ℕ := Nat.log 2 g.slots
def ringMask (g : Geometry) : ℕ := g.slots - 1
def horizon (g : Geometry) : ℕ := g.slots ^ g.wheels
def hasOverflowRing (g : Geometry) : Bool := g.overflow && g.wheels == 3
def headCount (g : Geometry) : ℕ := g.wheels * g.slots + g.overflow.toNat
def slotHead (g : Geometry) (ring slot : ℕ) : ℕ := ring * g.slots + slot

def maxDirectInterval (g : Geometry) : ℕ :=
  if g.wheels = 1 then g.slots else g.horizon - 1

end Geometry

variable (g : Geometry)

def Wheel.new (maxExpirations : ℕ) : Wheel T where
  currentTick := 0
  currentIndex := fun _ => 0
  overflowHead := if g.overflow then g.wheels * g.slots else INVALID_INDEX
  entries := TimerEntry.listHead
  entriesLen := g.headCount
  free := []
  fastSlotBitmap := fun _ => false
  len := 0
  maxExpirations := maxExpirations

def setEntry (w : Wheel T) (slot : ℕ) (e : TimerEntry T) : Wheel T :=
  { w with entries := Function.update w.entries slot e }

def setNext (w : Wheel T) (slot next : ℕ) : Wheel T :=
  setEntry w slot { w.entries slot with next := next }

def setPrev (w : Wheel T) (slot prev : ℕ) : Wheel T :=
  setEntry w slot { w.entries slot with prev := prev }

def addToList (w : Wheel T) (head slot : ℕ) : Wheel T :=
  let first := (w.entries head).next
  let w := setNext w slot first
  let w := setPrev w slot head
  let w := setPrev w first slot
  setNext w head slot

def detachEntry (w : Wheel T) (slot : ℕ) : Wheel T :=
  setPrev (setNext w slot INVALID_INDEX) slot INVALID_INDEX

def unlink (w : Wheel T) (slot : ℕ) : Wheel T :=
  let prev := (w.entries slot).prev
  let next := (w.entries slot).next
  let w := setNext w prev next
  let w := setPrev w next prev
  detachEntry w slot

/-- Empties the list and returns its old first node. -/
def takeList (w : Wheel T) (head : ℕ) : Wheel T × ℕ :=
  (setPrev (setNext w head head) head head, (w.entries head).next)

def addToFastSlot (w : Wheel T) (fastOffset slot : ℕ) : Wheel T :=
  let w := addToList w (g.slotHead 0 fastOffset) slot
  if g.fastBitmap then
    { w with fastSlotBitmap := Function.update w.fastSlotBitmap fastOffset true }
  else w

def allocateTimer (w : Wheel T) (payload : T) (expirationTick : ℕ) : Option (Wheel T × ℕ) :=
  match w.free with
  | slot :: rest =>
    some ({ setEntry w slot (.timer payload expirationTick) with
      free := rest, len := w.len + 1 }, slot)
  | [] =>
    if w.entriesLen < 2 ^ 32 then
      some ({ setEntry w w.entriesLen (.timer payload expirationTick) with
        entriesLen := w.entriesLen + 1, len := w.len + 1 }, w.entriesLen)
    else none

def freeTimer (w : Wheel T) (slot : ℕ) : Wheel T :=
  { setEntry w slot { w.entries slot with
      live := false, next := INVALID_INDEX, prev := INVALID_INDEX, payload := none } with
    len := w.len - 1, free := slot :: w.free }

def expireTimer (slot : ℕ) (s : Wheel T × List T) : Option (Wheel T × List T) :=
  (s.1.entries slot).payload.map fun payload => (freeTimer s.1 slot, s.2 ++ [payload])

/-- The interval's digits added to the current indices, with the carries. -/
def timerOffsets (w : Wheel T) (interval : ℕ) : ℕ × ℕ × ℕ :=
  let shift := g.ringShift
  let glacier := if 2 < g.wheels then interval / 2 ^ (shift * 2) else 0
  let remaining := if 2 < g.wheels then interval - glacier * 2 ^ (shift * 2) else interval
  let slow := if 1 < g.wheels then remaining / 2 ^ shift else 0
  let remaining := if 1 < g.wheels then remaining - slow * 2 ^ shift else remaining
  let fastSum := remaining % (g.ringMask + 1) + w.currentIndex 0
  let carry := decide (g.slots ≤ fastSum)
  let slowSum := slow + w.currentIndex 1 + carry.toNat
  let slowOffset := if 1 < g.wheels then slowSum % (g.ringMask + 1) else slow
  let carry := if 1 < g.wheels then decide (g.slots ≤ slowSum) else carry
  let glacierOffset :=
    if 2 < g.wheels then (glacier + w.currentIndex 2 + carry.toNat) % (g.ringMask + 1)
    else glacier
  (fastSum % (g.ringMask + 1), slowOffset, glacierOffset)

def shouldOverflow (w : Wheel T) (interval : ℕ) : Bool :=
  if g.hasOverflowRing then
    let phase := w.currentTick % g.horizon
    decide (g.horizon ≤ min (interval + phase) (2 ^ 64 - 1))
  else false

def placeTimerDirect (w : Wheel T) (slot interval : ℕ) : Wheel T :=
  let (fastOffset, slowOffset, glacierOffset) := timerOffsets g w interval
  if 2 < g.wheels ∧ glacierOffset ≠ w.currentIndex 2 then
    let w := setEntry w slot { w.entries slot with slowRingOffset := slowOffset }
    let w := setEntry w slot { w.entries slot with fastRingOffset := fastOffset }
    addToList w (g.slotHead 2 glacierOffset) slot
  else if 1 < g.wheels ∧ slowOffset ≠ w.currentIndex 1 then
    let w := setEntry w slot { w.entries slot with fastRingOffset := fastOffset }
    addToList w (g.slotHead 1 slowOffset) slot
  else
    addToFastSlot g w fastOffset slot

def placeTimer (w : Wheel T) (slot interval : ℕ) : Wheel T :=
  if shouldOverflow g w interval then addToList w w.overflowHead slot
  else placeTimerDirect g w slot interval

def liveSlot (w : Wheel T) (handle : ℕ) : Option ℕ :=
  if w.entriesLen ≤ handle then none
  else if (w.entries handle).live then some handle else none

def validateInterval (w : Wheel T) (interval : ℕ) : Except TimerStartError Unit :=
  if interval = 0 then .error .zeroInterval
  else if 2 ^ 64 ≤ w.currentTick + interval then .error .intervalOutOfRange
  else if ¬ g.hasOverflowRing ∧ g.maxDirectInterval < interval then .error .intervalOutOfRange
  else .ok ()

def start (w : Wheel T) (payload : T) (interval : ℕ) :
    Option (Wheel T × Except TimerStartError ℕ) :=
  match validateInterval g w interval with
  | .error e => some (w, .error e)
  | .ok () =>
    (allocateTimer w payload (w.currentTick + interval)).map fun (w, slot) =>
      (placeTimer g w slot interval, .ok slot)

def stop (w : Wheel T) (handle : ℕ) : Wheel T × Bool :=
  match liveSlot w handle with
  | none => (w, false)
  | some slot => (freeTimer (unlink w slot) slot, true)

def update (w : Wheel T) (handle interval : ℕ) : Wheel T × Except TimerStartError Bool :=
  match validateInterval g w interval with
  | .error e => (w, .error e)
  | .ok () =>
    match liveSlot w handle with
    | none => (w, .ok false)
    | some slot =>
      let expirationTick := w.currentTick + interval
      let w := unlink w slot
      let w := setEntry w slot { w.entries slot with expirationTick := expirationTick }
      (placeTimer g w slot interval, .ok true)

def advanceRing (w : Wheel T) (ring : Fin 3) : Wheel T × Bool :=
  let next := w.currentIndex ring + 1
  if next = g.slots then
    ({ w with currentIndex := Function.update w.currentIndex ring 0 }, true)
  else
    ({ w with currentIndex := Function.update w.currentIndex ring next }, false)

/-- `while next != head { detach the node; body }`. The fuel is the number of entries. -/
def drain (body : ℕ → Wheel T × List T → Option (Wheel T × List T)) (head : ℕ) :
    ℕ → ℕ → Wheel T × List T → Option (Wheel T × List T)
  | 0, next, s => if next = head then some s else none
  | fuel + 1, next, s =>
    if next = head then some s
    else
      let after := (s.1.entries next).next
      (body next (detachEntry s.1 next, s.2)).bind (drain body head fuel after)

def drainList (body : ℕ → Wheel T × List T → Option (Wheel T × List T)) (head : ℕ)
    (s : Wheel T × List T) : Option (Wheel T × List T) :=
  let (w, first) := takeList s.1 head
  drain body head w.entriesLen first (w, s.2)

def overflowBody (slot : ℕ) (s : Wheel T × List T) : Option (Wheel T × List T) :=
  let expirationTick := (s.1.entries slot).expirationTick
  if expirationTick ≤ s.1.currentTick then expireTimer slot s
  else
    let interval := expirationTick - s.1.currentTick
    if shouldOverflow g s.1 interval then some (addToList s.1 s.1.overflowHead slot, s.2)
    else some (placeTimerDirect g s.1 slot interval, s.2)

def glacierBody (slot : ℕ) (s : Wheel T × List T) : Option (Wheel T × List T) :=
  let slowOffset := (s.1.entries slot).slowRingOffset
  let fastOffset := (s.1.entries slot).fastRingOffset
  if slowOffset = s.1.currentIndex 1 ∧ fastOffset = s.1.currentIndex 0 then expireTimer slot s
  else if slowOffset = s.1.currentIndex 1 then some (addToFastSlot g s.1 fastOffset slot, s.2)
  else some (addToList s.1 (g.slotHead 1 slowOffset) slot, s.2)

def slowBody (slot : ℕ) (s : Wheel T × List T) : Option (Wheel T × List T) :=
  let fastOffset := (s.1.entries slot).fastRingOffset
  if fastOffset = s.1.currentIndex 0 then expireTimer slot s
  else some (addToFastSlot g s.1 fastOffset slot, s.2)

def processOverflow (s : Wheel T × List T) : Option (Wheel T × List T) :=
  drainList (overflowBody g) s.1.overflowHead s

def cascadeGlacier (s : Wheel T × List T) : Option (Wheel T × List T) :=
  drainList (glacierBody g) (g.slotHead 2 (s.1.currentIndex 2)) s

def cascadeSlow (s : Wheel T × List T) : Option (Wheel T × List T) :=
  drainList (slowBody g) (g.slotHead 1 (s.1.currentIndex 1)) s

def expireFastSlot (s : Wheel T × List T) : Option (Wheel T × List T) :=
  let fastSlot := s.1.currentIndex 0
  (drainList expireTimer (g.slotHead 0 fastSlot) s).map fun s =>
    if g.fastBitmap then
      ({ s.1 with fastSlotBitmap := Function.update s.1.fastSlotBitmap fastSlot false }, s.2)
    else s

def advanceOneTick (s : Wheel T × List T) : Option (Wheel T × List T) :=
  if 2 ^ 64 ≤ s.1.currentTick + 1 then none
  else
    let w := { s.1 with currentTick := s.1.currentTick + 1 }
    let (w, fastWrapped) := advanceRing g w 0
    let (w, slowWrapped) := if fastWrapped ∧ 1 < g.wheels then advanceRing g w 1 else (w, false)
    let (w, glacierWrapped) :=
      if slowWrapped ∧ 2 < g.wheels then advanceRing g w 2 else (w, false)
    (if glacierWrapped ∧ g.overflow then processOverflow g (w, s.2)
      else some (w, s.2)).bind fun s =>
    (if slowWrapped ∧ 2 < g.wheels then cascadeGlacier g s else some s).bind fun s =>
    (if fastWrapped ∧ 1 < g.wheels then cascadeSlow g s else some s).bind (expireFastSlot g)

def expirationBudget (w : Wheel T) : ℕ :=
  if w.maxExpirations = 0 then 2 ^ 64 - 1 else w.maxExpirations

/-- The loop of `expire`: `initialLen` is the length of the output vector on entry. -/
def expireLoop (budget initialLen : ℕ) : ℕ → Wheel T × List T → Option (Wheel T × List T)
  | 0, s => some s
  | ticks + 1, s =>
    if budget ≤ s.2.length - initialLen then some s
    else (advanceOneTick g s).bind (expireLoop budget initialLen ticks)

def expire (w : Wheel T) (ticks : ℕ) (expired : List T) : Option (Wheel T × List T) :=
  expireLoop g (expirationBudget w) expired.length ticks (w, expired)

end TimerWheel
