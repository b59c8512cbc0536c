import Hammer.BihashRefinement
import Hammer.TcpProtocol

/-! # The route tables of a worker

`transport/tcp/src/lookup.rs`. Opened connections and half-open ones are kept in two route
indexes of one shape: a pool of entries, found through hash tables by session and by endpoints.
The table of connection ids is only ever written and is left out. A call that panics or waits
forever is `none`.
-/

namespace Tcp

open KeyIndex Function Option

abbrev DataWorkerId := ℕ
abbrev TcpConnectionId := ℕ

inductive TupleKey where
  | v4 (key : TransportConnectionKey (BitVec 32))
  | v6 (key : TransportConnectionKey (BitVec 128))
  deriving DecidableEq

def tupleKey (scopeId : ℕ) : SocketAddr → SocketAddr → Option TupleKey
  | .v4 localAddr localPort, .v4 remoteAddr remotePort =>
    some (.v4 ⟨scopeId, localAddr, localPort, remoteAddr, remotePort⟩)
  | .v6 localAddr localPort, .v6 remoteAddr remotePort =>
    some (.v6 ⟨scopeId, localAddr, localPort, remoteAddr, remotePort⟩)
  | _, _ => none

def splitmix64 (value : BitVec 64) : BitVec 64 :=
  let value := value + 0x9e3779b97f4a7c15#64
  let value := (value ^^^ value >>> 30) * 0xbf58476d1ce4e5b9#64
  let value := (value ^^^ value >>> 27) * 0x94d049bb133111eb#64
  value ^^^ value >>> 31

def hashWords (words : List (BitVec 64)) : BitVec 64 :=
  splitmix64 (words.foldl (fun state word =>
    (state ^^^ splitmix64 (word ^^^ state)).rotateLeft 13) 0x9e3779b97f4a7c15#64)

def foldU128 (value : BitVec 128) : BitVec 64 := value.setWidth 64 ^^^ (value >>> 64).setWidth 64

/-- The hash of a `u64` key. -/
def xxhash64Word (value : BitVec 64) : BitVec 64 :=
  let p1 := 11400714746178003727#64
  let p2 := 14029467366897019727#64
  let lane := (value * p2).rotateLeft 31 * p1
  let hash := (2870177450012600261#64 + 8) ^^^ lane
  let hash := hash.rotateLeft 27 * p1 + 9650029242287828579#64
  let hash := (hash ^^^ hash >>> 33) * p2
  let hash := (hash ^^^ hash >>> 29) * 1609587929392839161#64
  hash ^^^ hash >>> 32

def hash4 (k : TransportConnectionKey (BitVec 32)) : BitVec 64 :=
  splitmix64 (foldU128 (BitVec.ofNat 32 k.scopeId ++ k.localAddr ++ k.remoteAddr ++ k.localPort ++
    k.remotePort))

def hash6 (k : TransportConnectionKey (BitVec 128)) : BitVec 64 :=
  hashWords [foldU128 k.localAddr, foldU128 k.remoteAddr, .ofNat 64 k.scopeId,
    (k.localPort ++ k.remotePort).setWidth 64]

open Bihash (Layout Table)

def sessionLayout : Layout ℕ := ⟨fun k => (xxhash64Word (.ofNat 64 k)).toNat, 7, 112⟩
def tupleLayout4 : Layout (TransportConnectionKey (BitVec 32)) := ⟨fun k => (hash4 k).toNat, 3, 72⟩
def tupleLayout6 : Layout (TransportConnectionKey (BitVec 128)) := ⟨fun k => (hash6 k).toNat, 1, 48⟩

structure TupleSlots where
  v4 : Table (TransportConnectionKey (BitVec 32))
  v6 : Table (TransportConnectionKey (BitVec 128))

namespace TupleSlots

def lookup (t : TupleSlots) : TupleKey → Option (Option ℕ)
  | .v4 key => Bihash.lookup tupleLayout4 t.v4 key
  | .v6 key => Bihash.lookup tupleLayout6 t.v6 key

def insert (t : TupleSlots) (key : TupleKey) (value : ℕ) : Option TupleSlots :=
  match key with
  | .v4 key => (Bihash.insert tupleLayout4 t.v4 key value).map ({ t with v4 := · })
  | .v6 key => (Bihash.insert tupleLayout6 t.v6 key value).map ({ t with v6 := · })

def remove (t : TupleSlots) : TupleKey → Option TupleSlots
  | .v4 key => (Bihash.remove tupleLayout4 t.v4 key).map ({ t with v4 := ·.1 })
  | .v6 key => (Bihash.remove tupleLayout6 t.v6 key).map ({ t with v6 := ·.1 })

def HasRoom (t : TupleSlots) (key : TupleKey) (value : ℕ) : Prop :=
  match key with
  | .v4 key => Bihash.HasRoom tupleLayout4 t.v4 key value
  | .v6 key => Bihash.HasRoom tupleLayout6 t.v6 key value

structure Stores (t : TupleSlots) (f : TupleKey → Option ℕ) : Prop where
  v4 : Bihash.Stores tupleLayout4 t.v4 (f ∘ .v4)
  v6 : Bihash.Stores tupleLayout6 t.v6 (f ∘ .v6)

variable {t t' : TupleSlots} {f : TupleKey → Option ℕ}

/-- An entry of one family is none of the other's. -/
theorem Stores.update {v : Option ℕ} (s : t.Stores f) :
    (∀ key h, Bihash.Stores tupleLayout4 h (update (f ∘ .v4) key v) →
      Stores { t with v4 := h } (update f (.v4 key) v)) ∧
    (∀ key h, Bihash.Stores tupleLayout6 h (update (f ∘ .v6) key v) →
      Stores { t with v6 := h } (update f (.v6 key) v)) := by
  refine ⟨fun key h hs => ⟨?_, ?_⟩, fun key h hs => ⟨?_, ?_⟩⟩
  · rwa [update_comp_eq_of_injective _ fun _ _ => TupleKey.v4.inj]
  · rw [update_comp_eq_of_forall_ne _ _ (by simp)]
    exact s.v6
  · rw [update_comp_eq_of_forall_ne _ _ (by simp)]
    exact s.v4
  · rwa [update_comp_eq_of_injective _ fun _ _ => TupleKey.v6.inj]

end TupleSlots

def sessions : Slots (Table ℕ) ℕ ℕ := Bihash.slots sessionLayout (by decide)

def tuples : Slots TupleSlots TupleKey ℕ where
  lookup := TupleSlots.lookup
  insert := TupleSlots.insert
  remove := TupleSlots.remove
  HasRoom := TupleSlots.HasRoom
  Stores := TupleSlots.Stores
  lookup_eq s k := by
    cases k with
    | v4 key => exact s.v4.lookup_eq key
    | v6 key => exact s.v6.lookup_eq key
  insert_stores {t t' f k i} s room h := by
    cases k with
    | v4 key =>
      obtain ⟨h', hins, rfl⟩ := map_eq_some_iff.mp h
      exact s.update.1 key h' (s.v4.insert (by decide) room hins)
    | v6 key =>
      obtain ⟨h', hins, rfl⟩ := map_eq_some_iff.mp h
      exact s.update.2 key h' (s.v6.insert (by decide) room hins)
  remove_stores {t t' f k} s h := by
    cases k with
    | v4 key =>
      obtain ⟨r, hrem, rfl⟩ := map_eq_some_iff.mp h
      exact s.update.1 key r.1 (s.v4.remove hrem)
    | v6 key =>
      obtain ⟨r, hrem, rfl⟩ := map_eq_some_iff.mp h
      exact s.update.2 key r.1 (s.v6.remove hrem)

variable {k : TupleKey}

theorem tupleKey_inj {f g : ℕ} {l r l' r' : SocketAddr} (h : tupleKey f l r = some k)
    (h' : tupleKey g l' r' = some k) : f = g ∧ l = l' ∧ r = r' := by
  cases l <;> cases r <;> cases h <;> cases l' <;> cases r' <;> cases h' <;>
    exact ⟨rfl, rfl, rfl⟩

structure Route where
  sessionId : ℕ
  localAddr : Option SocketAddr
  remote : SocketAddr
  owner : DataWorkerId

/-- The scope of every tuple key is 0. -/
def Route.tupleKey (r : Route) : Option TupleKey :=
  r.localAddr.bind fun l => Tcp.tupleKey 0 l r.remote

/-- An entry of either index. `data` is the connection id of an opened connection and the
capabilities of a half-open one. -/
structure RouteEntry (D : Type) extends Route where
  data : D

structure RouteIndex (D : Type) where
  entries : Pool (RouteEntry D)
  sessionSlots : Table ℕ
  tupleSlots : TupleSlots

namespace RouteIndex

variable {D : Type}

def empty : Option (RouteIndex D) := do
  let sessionSlots ← Bihash.new 1024
  let v4 ← Bihash.new 1024
  let v6 ← Bihash.new 1024
  return ⟨.empty, sessionSlots, ⟨v4, v6⟩⟩

def indexEntry (x : RouteIndex D) (entryIndex : ℕ) (entry : RouteEntry D) :
    Option (RouteIndex D) := do
  let sessionSlots ← sessions.insertKey x.sessionSlots (some entry.sessionId) entryIndex
  let tupleSlots ← tuples.insertKey x.tupleSlots entry.tupleKey entryIndex
  return { x with sessionSlots, tupleSlots }

def unindexEntry (x : RouteIndex D) (entryIndex : ℕ) (entry : RouteEntry D) :
    Option (RouteIndex D) := do
  let sessionSlots ← sessions.removeKey x.sessionSlots (some entry.sessionId) entryIndex
  let tupleSlots ← tuples.removeKey x.tupleSlots entry.tupleKey entryIndex
  return { x with sessionSlots, tupleSlots }

def insertEntry (x : RouteIndex D) (entry : RouteEntry D) : Option (RouteIndex D) :=
  let inserted := x.entries.insert entry
  indexEntry { x with entries := inserted.1 } inserted.2 entry

def upsert (x : RouteIndex D) (entry : RouteEntry D) : Option (RouteIndex D) := do
  match ← sessions.lookup x.sessionSlots entry.sessionId with
  | none => x.insertEntry entry
  | some entryIndex =>
    match x.entries.get entryIndex with
    | none =>
      let sessionSlots ← sessions.remove x.sessionSlots entry.sessionId
      insertEntry { x with sessionSlots } entry
    | some oldEntry =>
      let x ← x.unindexEntry entryIndex oldEntry
      indexEntry { x with entries := x.entries.modify entryIndex fun _ => entry } entryIndex entry

def lookupByTuple (x : RouteIndex D) (localAddr remote : SocketAddr) :
    Option (Option (ℕ × DataWorkerId)) :=
  match tupleKey 0 localAddr remote with
  | none => some none
  | some key => (tuples.lookup x.tupleSlots key).map fun found =>
    (found.bind x.entries.get).map fun e => (e.sessionId, e.owner)

def forgetSession (x : RouteIndex D) (sessionId : ℕ) : Option (RouteIndex D) := do
  match ← sessions.lookup x.sessionSlots sessionId with
  | none => return x
  | some entryIndex =>
    match x.entries.get entryIndex with
    | none =>
      let sessionSlots ← sessions.remove x.sessionSlots sessionId
      return { x with sessionSlots }
    | some removed =>
      let x ← x.unindexEntry entryIndex removed
      match x.entries.remove entryIndex with
      | none => return x
      | some (entries, _) => return { x with entries }

def dataBySession (x : RouteIndex D) (sessionId : ℕ) : Option (Option D) :=
  (sessions.lookup x.sessionSlots sessionId).map fun found =>
    (found.bind x.entries.get).map (·.data)

end RouteIndex

/-- What the route tables read of a connection. The scope of `endpoint` is its FIB index. -/
structure Endpoint where
  state : TcpState
  fibIndex : ℕ
  localAddr : Option SocketAddr
  remote : SocketAddr
  ownerWorker : DataWorkerId
  connectionId : Option TcpConnectionId
  session : ℕ

def Endpoint.route (c : Endpoint) : Route := ⟨c.session, c.localAddr, c.remote, c.ownerWorker⟩

structure TcpLookupState where
  connections : RouteIndex (Option TcpConnectionId)
  pending : RouteIndex TcpCapabilities

namespace TcpLookupState

def new : Option TcpLookupState := do
  let connections ← RouteIndex.empty
  let pending ← RouteIndex.empty
  return ⟨connections, pending⟩

def inputRoute (x : TcpLookupState) (localAddr remote : SocketAddr) :
    Option (Option (ℕ × DataWorkerId)) := do
  match ← x.connections.lookupByTuple localAddr remote with
  | some route => return some route
  | none => x.pending.lookupByTuple localAddr remote

def forgetSession (x : TcpLookupState) (sessionId : ℕ) : Option TcpLookupState :=
  (x.connections.forgetSession sessionId).map ({ x with connections := · })

def forgetPendingOpen (x : TcpLookupState) (sessionId : ℕ) : Option TcpLookupState :=
  (x.pending.forgetSession sessionId).map ({ x with pending := · })

/-- The flag says whether the connection is closed, and so not published. -/
def publishConnection (x : TcpLookupState) (sessionId : ℕ) (connection : Endpoint) :
    Option (TcpLookupState × Bool) := do
  let pendingCapabilities ← x.pending.dataBySession sessionId
  let x ← x.forgetSession sessionId
  let x ← x.forgetPendingOpen sessionId
  let route : Route := ⟨sessionId, connection.localAddr, connection.remote, connection.ownerWorker⟩
  match connection.state with
  | .closed => return (x, true)
  | .synSent =>
    let pending ← x.pending.upsert ⟨route, pendingCapabilities.getD .default⟩
    return ({ x with pending }, false)
  | _ =>
    let connections ← x.connections.upsert ⟨route, connection.connectionId⟩
    return ({ x with connections }, false)

end TcpLookupState

namespace RouteIndex

variable {D : Type} {x : RouteIndex D}

structure Sound (x : RouteIndex D) : Prop where
  bySession : sessions.Indexes (fun e : RouteEntry D => some e.sessionId) x.entries.get
    x.sessionSlots
  byTuple : tuples.Indexes (fun e : RouteEntry D => e.tupleKey) x.entries.get x.tupleSlots

/-- The index has an entry with the route. -/
def Routes (x : RouteIndex D) (r : Route) : Prop := ∃ i data, x.entries.get i = some ⟨r, data⟩

/-- Both tables store the entry of a new route. -/
def HasRoom (x : RouteIndex D) (r : Route) : Prop :=
  ∀ data, sessions.HasRoom x.sessionSlots r.sessionId (x.entries.insert ⟨r, data⟩).2 ∧
    ∀ k, r.tupleKey = some k → tuples.HasRoom x.tupleSlots k (x.entries.insert ⟨r, data⟩).2

theorem sound_empty (h : empty = some x) :
    x.Sound ∧ (∀ r, ¬x.Routes r) ∧ ∀ r, x.HasRoom r := by
  simp only [empty, bind_eq_bind, bind_eq_some_iff] at h
  obtain ⟨s, hs, v4, h4, v6, h6, hx⟩ := h
  obtain rfl := some.inj hx
  refine ⟨⟨⟨_, Bihash.stores_new hs, indexes_empty _⟩,
    fun _ => none, ⟨Bihash.stores_new h4, Bihash.stores_new h6⟩, indexes_empty _⟩, ?_, ?_⟩
  · rintro r ⟨i, data, hi⟩
    cases hi
  · have hfree : (0 : ℕ) ≠ Bihash.FREE_U64 := by decide
    refine fun r data => ⟨Bihash.hasRoom_new hs (by decide) hfree _, fun k _ => ?_⟩
    cases k with
    | v4 key => exact Bihash.hasRoom_new h4 (by decide) hfree key
    | v6 key => exact Bihash.hasRoom_new h6 (by decide) hfree key

theorem get_remove {T : Type} {p p' : Pool T} {i : ℕ} {v w : T} (hv : p.get i = some v)
    (h : p.remove i = some (p', w)) : p'.get = update p.get i none := by
  obtain ⟨q, hq, hget, -⟩ := Pool.remove_spec hv
  obtain ⟨rfl, rfl⟩ : q = p' ∧ v = w := by simpa [hq] using h
  funext j
  rw [hget]
  by_cases hj : j = i
  · rw [if_pos hj, hj, update_self]
  · rw [if_neg hj, update_of_ne hj]

theorem get_insert {T : Type} (p : Pool T) (v : T) :
    (p.insert v).1.get = update p.get (p.insert v).2 (some v) := by
  funext j
  by_cases hj : j = (p.insert v).2
  · rw [hj, Pool.get_insert_self, update_self]
  · rw [Pool.get_insert_of_ne _ _ hj, update_of_ne hj]

theorem Sound.session_none (h : x.Sound) {sessionId : ℕ} :
    sessions.lookup x.sessionSlots sessionId = some none ↔
      ∀ r, x.Routes r → r.sessionId ≠ sessionId := by
  refine h.bySession.lookup_none.trans ⟨fun hn r ⟨i, data, hi⟩ hr => ?_, fun hn i e he hk => ?_⟩
  · exact hn i _ hi (congrArg some hr)
  · exact hn e.toRoute ⟨i, e.data, he⟩ (some.inj hk)

section

variable {e : RouteEntry D} (h : x.Sound) (hs : ∀ r, x.Routes r → r.sessionId ≠ e.sessionId)
  (ht : ∀ r, x.Routes r → r.tupleKey = e.tupleKey → e.tupleKey = none) (room : x.HasRoom e.toRoute)
include h hs ht room

theorem Sound.insertEntry {x' : RouteIndex D} (hx : x.insertEntry e = some x') :
    x'.Sound ∧ ∀ r, x'.Routes r ↔ r = e.toRoute ∨ x.Routes r := by
  have hfresh := x.entries.get_insert_index e
  have hget := get_insert x.entries e
  obtain ⟨roomS, roomT⟩ := room e.data
  simp only [RouteIndex.insertEntry, indexEntry, bind_eq_bind, bind_eq_some_iff] at hx
  obtain ⟨sessionSlots, hsess, tupleSlots, htup, hx⟩ := hx
  obtain rfl := some.inj hx
  refine ⟨⟨?_, ?_⟩, fun r => ?_⟩
  · rw [hget]
    refine h.bySession.insertKey (e := e) hfresh ?_ hsess
    rintro k hk
    obtain rfl := some.inj hk
    exact ⟨h.session_none.mpr hs, roomS⟩
  · rw [hget]
    refine h.byTuple.insertKey (e := e) hfresh ?_ htup
    intro k hk
    refine ⟨h.byTuple.lookup_none.mpr fun i d hd hdk => ?_, roomT k hk⟩
    rw [ht d.toRoute ⟨i, d.data, hd⟩ (hdk.trans hk.symm)] at hk
    cases hk
  · show (∃ i data, (x.entries.insert e).1.get i = some ⟨r, data⟩) ↔ _
    rw [hget]
    constructor
    · rintro ⟨i, data, hi⟩
      by_cases hj : i = (x.entries.insert e).2
      · rw [hj, update_self] at hi
        exact .inl (congrArg RouteEntry.toRoute (some.inj hi)).symm
      · rw [update_of_ne hj] at hi
        exact .inr ⟨i, data, hi⟩
    · rintro (rfl | ⟨i, data, hi⟩)
      · exact ⟨_, e.data, update_self ..⟩
      · refine ⟨i, data, (update_of_ne ?_ ..).trans hi⟩
        rintro rfl
        simp [hfresh] at hi

theorem Sound.upsert {x' : RouteIndex D} (hx : x.upsert e = some x') :
    x'.Sound ∧ ∀ r, x'.Routes r ↔ r = e.toRoute ∨ x.Routes r := by
  rw [RouteIndex.upsert, h.session_none.mpr hs] at hx
  exact h.insertEntry hs ht room hx

end

/-- A session without an entry is forgotten already. -/
theorem Sound.forgetSession_absent (h : x.Sound) {sessionId : ℕ}
    (hs : ∀ r, x.Routes r → r.sessionId ≠ sessionId) : x.forgetSession sessionId = some x := by
  rw [RouteIndex.forgetSession, h.session_none.mpr hs]
  rfl

theorem Sound.forgetSession (h : x.Sound) {sessionId : ℕ} {x' : RouteIndex D}
    (hx : x.forgetSession sessionId = some x') :
    x'.Sound ∧ ∀ r, x'.Routes r ↔ x.Routes r ∧ r.sessionId ≠ sessionId := by
  rcases h.bySession.lookup_cases sessionId with hs | ⟨i, e, hs, he, hk⟩
  · have habs := h.session_none.mp hs
    obtain rfl := some.inj ((h.forgetSession_absent habs).symm.trans hx)
    exact ⟨h, fun r => (and_iff_left_of_imp (habs r)).symm⟩
  · obtain rfl := some.inj hk
    obtain ⟨p, hp, -⟩ := Pool.remove_spec he
    have hget := get_remove he hp
    simp only [RouteIndex.forgetSession, hs, he, unindexEntry, bind_eq_bind,
      bind_some, bind_eq_some_iff] at hx
    obtain ⟨y, ⟨sessionSlots, hsess, tupleSlots, htup, hy⟩, hx⟩ := hx
    obtain rfl := some.inj hy
    simp only [hp] at hx
    obtain rfl := some.inj hx
    refine ⟨⟨?_, ?_⟩, fun r => ?_⟩
    · rw [hget]
      exact h.bySession.removeKey he hsess
    · rw [hget]
      exact h.byTuple.removeKey he htup
    · show (∃ j data, p.get j = some ⟨r, data⟩) ↔ _
      rw [hget]
      constructor
      · rintro ⟨j, data, hj⟩
        by_cases hji : j = i
        · rw [hji, update_self] at hj
          cases hj
        · rw [update_of_ne hji] at hj
          refine ⟨⟨j, data, hj⟩, fun hr => hji ?_⟩
          have hlook := h.bySession.lookup_some.mpr ⟨_, hj, congrArg some hr⟩
          simpa [hs, eq_comm] using hlook
      · rintro ⟨⟨j, data, hj⟩, hr⟩
        refine ⟨j, data, (update_of_ne ?_ ..).trans hj⟩
        rintro rfl
        rw [he] at hj
        exact hr (by rw [some.inj hj])

theorem Sound.lookupByTuple_eq (h : x.Sound) {r : Route} (hr : x.Routes r)
    {localAddr remote : SocketAddr} (hk : tupleKey 0 localAddr remote = some k)
    (hrk : r.tupleKey = some k) :
    x.lookupByTuple localAddr remote = some (some (r.sessionId, r.owner)) := by
  obtain ⟨i, data, hi⟩ := hr
  have hslot := h.byTuple.lookup_some.mpr ⟨_, hi, hrk⟩
  simp [lookupByTuple, hk, hslot, hi]

theorem Sound.lookupByTuple_none (h : x.Sound) {localAddr remote : SocketAddr}
    (hnone : ∀ r, x.Routes r → r.tupleKey ≠ tupleKey 0 localAddr remote) :
    x.lookupByTuple localAddr remote = some none := by
  cases hk : tupleKey 0 localAddr remote with
  | none => simp [lookupByTuple, hk]
  | some k =>
    have hslot := h.byTuple.lookup_none.mpr fun i e he => hk ▸ hnone e.toRoute ⟨i, e.data, he⟩
    simp [lookupByTuple, hk, hslot]

end RouteIndex

namespace TcpLookupState

variable {x : TcpLookupState}

structure Sound (x : TcpLookupState) : Prop where
  connections : x.connections.Sound
  pending : x.pending.Sound

def Routes (x : TcpLookupState) (r : Route) : Prop := x.connections.Routes r ∨ x.pending.Routes r

/-- Once the old routes of its session are gone, the index that takes `c` stores its route. -/
def HasRoom (x : TcpLookupState) (c : Endpoint) : Prop :=
  ∀ y z, x.forgetSession c.session = some y → y.forgetPendingOpen c.session = some z →
    if c.state = .synSent then z.pending.HasRoom c.route else z.connections.HasRoom c.route

theorem sound_new (h : new = some x) :
    x.Sound ∧ (∀ r, ¬x.Routes r) ∧ ∀ c, x.HasRoom c := by
  simp only [new, bind_eq_bind, bind_eq_some_iff] at h
  obtain ⟨connections, hc, pending, hp, hx⟩ := h
  obtain rfl := some.inj hx
  obtain ⟨hc, noC, roomC⟩ := RouteIndex.sound_empty hc
  obtain ⟨hp, noP, roomP⟩ := RouteIndex.sound_empty hp
  refine ⟨⟨hc, hp⟩, fun r hr => hr.elim (noC r) (noP r), fun c y z hy hz => ?_⟩
  rw [TcpLookupState.forgetSession, hc.forgetSession_absent fun r hr => (noC r hr).elim] at hy
  obtain rfl := some.inj hy
  rw [forgetPendingOpen, hp.forgetSession_absent fun r hr => (noP r hr).elim] at hz
  obtain rfl := some.inj hz
  split
  · exact roomP _
  · exact roomC _

theorem Sound.forget (h : x.Sound) {sessionId : ℕ} {y z : TcpLookupState}
    (hy : x.forgetSession sessionId = some y) (hz : y.forgetPendingOpen sessionId = some z) :
    z.Sound ∧ (∀ r, z.connections.Routes r ↔ x.connections.Routes r ∧ r.sessionId ≠ sessionId) ∧
      ∀ r, z.Routes r ↔ x.Routes r ∧ r.sessionId ≠ sessionId := by
  obtain ⟨connections, hc, rfl⟩ := map_eq_some_iff.mp hy
  obtain ⟨pending, hp, rfl⟩ := map_eq_some_iff.mp hz
  obtain ⟨hc, routes⟩ := h.connections.forgetSession hc
  obtain ⟨hp, routes'⟩ := h.pending.forgetSession hp
  exact ⟨⟨hc, hp⟩, routes, fun r => (or_congr (routes r) (routes' r)).trans or_and_right.symm⟩

theorem Sound.forgetSession_absent (h : x.Sound) {sessionId : ℕ}
    (hopen : ∀ r, x.connections.Routes r → r.sessionId ≠ sessionId) :
    x.forgetSession sessionId = some x := by
  rw [TcpLookupState.forgetSession, h.connections.forgetSession_absent hopen]
  rfl

/-- What publishing does to the routes: the session's old ones go, its new one comes. -/
structure Published (x x' : TcpLookupState) (c : Endpoint) : Prop where
  sound : x'.Sound
  routes : ∀ r, x'.Routes r ↔ r = c.route ∨ x.Routes r ∧ r.sessionId ≠ c.session
  opened : ∀ r, x'.connections.Routes r →
    c.state ≠ .synSent ∧ r.sessionId = c.session ∨
      x.connections.Routes r ∧ r.sessionId ≠ c.session

theorem Sound.publishConnection (h : x.Sound) {c : Endpoint} (hc : c.state ≠ .closed)
    (room : x.HasRoom c)
    (apart : ∀ r, x.Routes r → r.sessionId ≠ c.session → r.tupleKey = c.route.tupleKey →
      c.route.tupleKey = none) {x' : TcpLookupState} {closed : Bool}
    (hx : x.publishConnection c.session c = some (x', closed)) : Published x x' c := by
  simp only [TcpLookupState.publishConnection, bind_eq_bind, bind_eq_some_iff] at hx
  obtain ⟨caps, -, y, hy, z, hz, hx⟩ := hx
  obtain ⟨sound, routesC, routes⟩ := h.forget hy hz
  have room := room y z hy hz
  have other {r : Route} (hr : z.Routes r) := ((routes r).mp hr).2
  have apartZ {r : Route} (hr : z.Routes r) := apart r ((routes r).mp hr).1 (other hr)
  split at hx
  · contradiction
  · rename_i hs
    rw [if_pos hs] at room
    obtain ⟨pending, hp, hx⟩ := bind_eq_some_iff.mp hx
    cases hx
    obtain ⟨hp, hpend⟩ := sound.pending.upsert (fun r hr => other (.inr hr))
      (fun r hr => apartZ (.inr hr)) room hp
    refine ⟨⟨sound.connections, hp⟩, fun r => ?_, fun r hr => .inr ((routesC r).mp hr)⟩
    rw [← routes r]
    exact (or_congr_right (hpend r)).trans or_left_comm
  · rename_i hs
    rw [if_neg hs] at room
    obtain ⟨connections, hp, hx⟩ := bind_eq_some_iff.mp hx
    cases hx
    obtain ⟨hp, hconn⟩ := sound.connections.upsert (fun r hr => other (.inl hr))
      (fun r hr => apartZ (.inl hr)) room hp
    refine ⟨⟨hp, sound.pending⟩, fun r => ?_, fun r hr => ?_⟩
    · rw [← routes r]
      exact (or_congr_left (hconn r)).trans or_assoc
    · exact ((hconn r).mp hr).imp (fun heq => ⟨hs, by rw [heq]⟩) (routesC r).mp

theorem Sound.inputRoute_eq (h : x.Sound) {r : Route} (hr : x.Routes r)
    (alone : ∀ r', x.Routes r' → r'.tupleKey = r.tupleKey → r' = r) {l remote : SocketAddr}
    (hk : tupleKey 0 l remote = some k) (hrk : r.tupleKey = some k) :
    x.inputRoute l remote = some (some (r.sessionId, r.owner)) := by
  unfold TcpLookupState.inputRoute
  by_cases hc : x.connections.Routes r
  · rw [h.connections.lookupByTuple_eq hc hk hrk]
    rfl
  · have hnone : x.connections.lookupByTuple l remote = some none := by
      apply h.connections.lookupByTuple_none
      intro r' hr' hk'
      rw [hk, ← hrk] at hk'
      exact hc (alone r' (.inl hr') hk' ▸ hr')
    rw [hnone]
    exact h.pending.lookupByTuple_eq (hr.resolve_left hc) hk hrk

theorem Sound.inputRoute_none (h : x.Sound) {l remote : SocketAddr}
    (hnone : ∀ r, x.Routes r → r.tupleKey ≠ tupleKey 0 l remote) :
    x.inputRoute l remote = some none := by
  unfold TcpLookupState.inputRoute
  rw [h.connections.lookupByTuple_none fun r hr => hnone r (.inl hr)]
  exact h.pending.lookupByTuple_none fun r hr => hnone r (.inr hr)

end TcpLookupState

end Tcp
