import Hammer.BinaryTrie
import Hammer.OrderedMap
import Mathlib.Data.BitVec
import Mathlib.Data.List.Sort
import Mathlib.Data.Prod.Lex

/-! # Forwarding tables

The tables of `hammer-service/src/net/fib.rs` over the IP backends of
`hammer-plugins/net/ip/src/fib.rs`. The two backends differ in the width of an address only.
References to forwarding objects that a table takes and gives back are counted in `locks`.
-/

namespace Fib

open OrderedMap BinaryTrie

structure Net (w : ℕ) where
  addr : BitVec w
  prefixLen : ℕ
  le : prefixLen ≤ w
  deriving DecidableEq

namespace Net

variable {w : ℕ}

def mask (w len : ℕ) : BitVec w := BitVec.allOnes w <<< (w - len)

def network (p : Net w) : BitVec w := p.addr &&& mask w p.prefixLen

def broadcast (p : Net w) : BitVec w := p.addr ||| ~~~mask w p.prefixLen

def trunc (p : Net w) : Net w := ⟨p.network, p.prefixLen, p.le⟩

/-- The address agrees with the network on the prefix. -/
def contains (p : Net w) (address : BitVec w) : Bool := address &&& mask w p.prefixLen == p.network

/-- Networks are ordered by address, then by length. -/
def cmp (p q : Net w) : Ordering :=
  (compare p.addr.toNat q.addr.toNat).then (compare p.prefixLen q.prefixLen)

def host (address : BitVec w) : Net w := ⟨address, w, le_refl w⟩

end Net

/-- The first `n` bits of an address, as the trie walks them: `(address >> (w - 1 - bit)) & 1`. -/
def bitsOf {w : ℕ} (address : BitVec w) (n : ℕ) : List Bool :=
  (List.range n).map fun bit => (address >>> (w - 1 - bit)).getLsbD 0

/-- Forwarding objects, of which a table accepts those of one class. -/
class ForwardingDpo (D : Type) where
  isLoadBalance : D → Bool

inductive IpFibError where
  | prefixExists
  | prefixMissing
  | forwardingDpoRequired
  deriving DecidableEq, Repr

/-- Node indices are `u32`. -/
def NODE_INDEX_LIMIT : ℕ := 2 ^ 32

structure IpFibBackend (w : ℕ) (D : Type) where
  entries : List (Net w × ℕ)
  forwarding : List (Node D)

namespace IpFibBackend

variable {w : ℕ} {D : Type}

def new : IpFibBackend w D := ⟨[], [.empty]⟩

/-- `max_by_key` over the prefix lengths: of two as long, the later one. -/
def longerEntry (best : Option (Net w × ℕ)) (e : Net w × ℕ) : Option (Net w × ℕ) :=
  match best with
  | none => some e
  | some x => if x.1.prefixLen ≤ e.1.prefixLen then some e else some x

/-- The longest of the shorter networks around a prefix. -/
def lessSpecific (b : IpFibBackend w D) (p : Net w) : Option (Net w × ℕ) :=
  (b.entries.filter fun e => decide (e.1.prefixLen < p.prefixLen) && e.1.contains p.network).foldl
    longerEntry none

def insertEntry (b : IpFibBackend w D) (p : Net w) (entry : ℕ) :
    IpFibBackend w D × Except IpFibError Unit :=
  let b' := { b with entries := insert Net.cmp p entry b.entries }
  if (get Net.cmp p b.entries).isSome then (b', .error .prefixExists) else (b', .ok ())

def trieInsert (b : IpFibBackend w D) (p : Net w) (dpo : D) : IpFibBackend w D :=
  { b with
    forwarding := insertAt NODE_INDEX_LIMIT dpo b.forwarding 0 (bitsOf p.network p.prefixLen) }

def trieRemove (b : IpFibBackend w D) (p : Net w) : IpFibBackend w D :=
  { b with forwarding := removeAt b.forwarding 0 (bitsOf p.network p.prefixLen) }

def removeEntry (b : IpFibBackend w D) (p : Net w) : IpFibBackend w D × Except IpFibError Unit :=
  if (get Net.cmp p b.entries).isSome then
    ({ b with entries := erase Net.cmp p b.entries }.trieRemove p, .ok ())
  else (b, .error .prefixMissing)

def forwardingLookup (b : IpFibBackend w D) (address : BitVec w) : Option D :=
  lookupFrom b.forwarding 0 (node b.forwarding 0).value (bitsOf address w)

def forwardingUpdate [ForwardingDpo D] (b : IpFibBackend w D) (p : Net w) (dpo : D) :
    IpFibBackend w D × Except IpFibError Unit :=
  if !ForwardingDpo.isLoadBalance dpo then (b, .error .forwardingDpoRequired)
  else if !(containsKey Net.cmp p b.entries) then (b, .error .prefixMissing)
  else (b.trieInsert p dpo, .ok ())

def forwardingRemove (b : IpFibBackend w D) (p : Net w) (cover : Option (Net w × D)) :
    IpFibBackend w D × Except IpFibError Unit :=
  let b := b.trieRemove p
  match cover with
  | some (q, dpo) =>
    if containsKey Net.cmp q b.entries then (b.trieInsert q dpo, .ok ()) else (b, .ok ())
  | none => (b, .ok ())

end IpFibBackend

structure FibEntry (D : Type) where
  sources : List (ℕ × ℕ)
  forwarding : Option D

def FibEntry.empty {D : Type} : FibEntry D := ⟨[], none⟩

inductive FibError where
  | backend (error : IpFibError)
  | referenceCountOverflow
  | entryIndexOverflow (count : ℕ)
  deriving DecidableEq, Repr

/-- Priority and slot of a source, smaller for a better source. -/
structure FibSourceRegistration where
  priority : ℕ
  prioritySlot : ℕ
  deriving DecidableEq, Repr

def FibSourceRegistration.key (r : FibSourceRegistration) : ℕ ×ₗ ℕ :=
  toLex (r.priority, r.prioritySlot)

def pairCmp (a b : ℕ × ℕ) : Ordering := (compare a.1 b.1).then (compare a.2 b.2)

def routeCmp {w : ℕ} (a b : Net w × ℕ) : Ordering := (Net.cmp a.1 b.1).then (compare a.2 b.2)

structure FibTable (w : ℕ) (D : Type) where
  backend : IpFibBackend w D
  entries : List (FibEntry D)
  prefixes : List (Net w × ℕ)
  sourceReferences : List ((ℕ × ℕ) × ℕ)
  sourceForwarding : List ((Net w × ℕ) × D)

namespace FibTable

variable {w : ℕ} {D : Type}

def new : FibTable w D := ⟨.new, [], [], [], []⟩

def entry (t : FibTable w D) (e : ℕ) : FibEntry D := t.entries.getD e .empty

def forwardingLookup (t : FibTable w D) (address : BitVec w) : Option D :=
  t.backend.forwardingLookup address

def setForwarding (t : FibTable w D) (e : ℕ) (forwarding : Option D) : FibTable w D :=
  { t with entries := t.entries.modify e fun x => { x with forwarding := forwarding } }

/-- The snapshot of a call; what the sources forward to is changed after success only. -/
def restore (t previous : FibTable w D) : FibTable w D :=
  { previous with sourceForwarding := t.sourceForwarding }

variable (registration : ℕ → FibSourceRegistration)

def sortSources (sources : List (ℕ × ℕ)) : List (ℕ × ℕ) :=
  sources.insertionSort fun a b => (registration a.1).key ≤ (registration b.1).key

def findOrCreate (t : FibTable w D) (p : Net w) : FibTable w D × Except FibError ℕ :=
  match get Net.cmp p t.prefixes with
  | some index => (t, .ok index)
  | none =>
    let index := t.entries.length
    if 2 ^ 32 ≤ index then (t, .error (.entryIndexOverflow index))
    else
      match t.backend.insertEntry p index with
      | (b, .error e) => ({ t with backend := b }, .error (.backend e))
      | (b, .ok ()) =>
        ({ t with
          backend := b
          prefixes := insert Net.cmp p index t.prefixes
          entries := t.entries ++ [.empty] }, .ok index)

/-- One more reference of a source to an entry; the first one enters the source by priority. -/
def addReference (t : FibTable w D) (e source : ℕ) : FibTable w D :=
  let references := (get pairCmp (e, source) t.sourceReferences).getD 0 + 1
  let t := { t with sourceReferences := insert pairCmp (e, source) references t.sourceReferences }
  if references = 1 then
    { t with
      entries := t.entries.modify e fun x =>
        { x with sources := sortSources registration (x.sources ++ [(source, e)]) } }
  else t

def addSource (t : FibTable w D) (p : Net w) (source : ℕ) : FibTable w D × Except FibError ℕ :=
  let references := (get Net.cmp p t.prefixes).bind fun e =>
    get pairCmp (e, source) t.sourceReferences
  -- the count is a `u8`
  if references = some 255 then (t, .error .referenceCountOverflow)
  else
    match t.findOrCreate p with
    | (t, .error e) => (t, .error e)
    | (t, .ok e) => (t.addReference registration e source, .ok e)

def removeSource (t : FibTable w D) (p : Net w) (source : ℕ) :
    FibTable w D × Except FibError Bool :=
  match get Net.cmp p t.prefixes with
  | none => (t, .ok false)
  | some e =>
    match get pairCmp (e, source) t.sourceReferences with
    | none => (t, .ok false)
    | some references =>
      if 1 < references then
        ({ t with
          sourceReferences :=
            modify pairCmp (e, source) (· - 1) t.sourceReferences }, .ok true)
      else
        let withdrawn : FibTable w D := { t with
          sourceReferences := erase pairCmp (e, source) t.sourceReferences
          entries := t.entries.modify e fun x =>
            { x with sources := x.sources.filter fun c => c.1 != source } }
        if (t.entry e).sources.length = 1 then
          match t.backend.removeEntry p with
          | (b, .error err) => ({ t with backend := b }, .error (.backend err))
          | (b, .ok ()) =>
            ({ withdrawn with backend := b, prefixes := erase Net.cmp p t.prefixes }, .ok true)
        else (withdrawn, .ok true)

def candidate (t : FibTable w D) (p : Net w) (e : ℕ) : Option D :=
  (t.entry e).sources.head?.bind fun c => get routeCmp (p, c.1) t.sourceForwarding

/-- The cover hint of a withdrawal. -/
def cover (t : FibTable w D) (p : Net w) : Option (Net w × D) :=
  (t.backend.lessSpecific p).bind fun c => (t.entry c.2).forwarding.map fun d => (c.1, d)

end FibTable

/-- A table with the references it holds, by forwarding object. -/
structure FibState (w : ℕ) (D : Type) where
  table : FibTable w D
  locks : D → ℤ

namespace FibState

variable {w : ℕ} {D : Type} [DecidableEq D] [ForwardingDpo D]

def new : FibState w D := ⟨.new, fun _ => 0⟩

def lockDpo (f : FibState w D) (d : D) : FibState w D :=
  { f with locks := Function.update f.locks d (f.locks d + 1) }

def unlockDpo (f : FibState w D) (d : D) : FibState w D :=
  { f with locks := Function.update f.locks d (f.locks d - 1) }

/-- `project_forwarding` of both backends: the object itself, with a reference to it. -/
def projectForwarding (f : FibState w D) (forwarding : Option D) : FibState w D × Option D :=
  match forwarding with
  | some d => (f.lockDpo d, some d)
  | none => (f, none)

variable (registration : ℕ → FibSourceRegistration)

/-- The part of `add_route` that is taken back on an error. -/
def tryAdd (f : FibState w D) (p : Net w) (source : ℕ) (forwarding : D) :
    FibState w D × Except FibError (ℕ × Option D) :=
  match f.table.addSource registration p source with
  | (t, .error e) => ({ f with table := t }, .error e)
  | (t, .ok e) =>
    let projected := projectForwarding { f with table := t } (some forwarding)
    let f := projected.1
    let selected := (t.entry e).sources.head?.bind fun c =>
      if c.1 = source then projected.2 else get routeCmp (p, c.1) t.sourceForwarding
    let publication := match selected with
      | some d => t.backend.forwardingUpdate p d
      | none =>
        match (t.entry e).forwarding with
        | some _ => t.backend.forwardingRemove p (t.cover p)
        | none => (t.backend, .ok ())
    let t := { t with backend := publication.1 }
    match publication.2 with
    | .error err =>
      let f := match projected.2 with
        | some d => f.unlockDpo d
        | none => f
      ({ f with table := t }, .error (.backend err))
    | .ok () => ({ f with table := t.setForwarding e selected }, .ok (e, projected.2))

def addRoute (f : FibState w D) (p : Net w) (source : ℕ) (forwarding : D) :
    FibState w D × Except FibError ℕ :=
  match f.tryAdd registration p source forwarding with
  | (f', .error e) => ({ f' with table := f'.table.restore f.table }, .error e)
  | (f', .ok (e, forwarding)) =>
    let old := get routeCmp (p, source) f'.table.sourceForwarding
    let sourceForwarding := match forwarding with
      | some d => insert routeCmp (p, source) d f'.table.sourceForwarding
      | none => erase routeCmp (p, source) f'.table.sourceForwarding
    let f' := { f' with table := { f'.table with sourceForwarding := sourceForwarding } }
    (match old with
      | some d => f'.unlockDpo d
      | none => f', .ok e)

/-- The part of `remove_route` that is taken back on an error. -/
def tryRemove (f : FibState w D) (p : Net w) (source e : ℕ) : FibState w D × Except FibError Bool :=
  let old := (f.table.entry e).forwarding
  match f.table.removeSource p source with
  | (t, .error err) => ({ f with table := t }, .error err)
  | (t, .ok false) => ({ f with table := t }, .ok false)
  | (t, .ok true) =>
    if containsKey pairCmp (e, source) t.sourceReferences then ({ f with table := t }, .ok false)
    else
      let selected := t.candidate p e
      let publication := match selected with
        | some d => t.backend.forwardingUpdate p d
        | none =>
          match old with
          | some _ => t.backend.forwardingRemove p (t.cover p)
          | none => (t.backend, .ok ())
      let t := { t with backend := publication.1 }
      match publication.2 with
      | .error err => ({ f with table := t }, .error (.backend err))
      | .ok () => ({ f with table := t.setForwarding e selected }, .ok true)

def removeRoute (f : FibState w D) (p : Net w) (source : ℕ) : FibState w D × Except FibError Bool :=
  match get Net.cmp p f.table.prefixes with
  | none => (f, .ok false)
  | some e =>
    match f.tryRemove p source e with
    | (f', .error err) => ({ f' with table := f'.table.restore f.table }, .error err)
    | (f', .ok false) => (f', .ok false)
    | (f', .ok true) =>
      let old := get routeCmp (p, source) f'.table.sourceForwarding
      let f' := { f' with table := { f'.table with
        sourceForwarding := erase routeCmp (p, source) f'.table.sourceForwarding } }
      (match old with
        | some d => f'.unlockDpo d
        | none => f', .ok true)

end FibState

end Fib
