import Hammer.TcpLookup

/-! # Which connection an input packet reaches

The lookup of `next_slot_for_index_with_runtime` in `transport/tcp/src/input.rs` on one worker,
together with every step of `lib.rs`, `listen.rs`, `syn_sent.rs` and `worker.rs` that publishes or
forgets a connection.
-/

namespace Tcp

open KeyIndex Function Endpoint Option

structure SessionHandle where
  threadIndex : ℕ
  sessionIndex : ℕ
  deriving DecidableEq

/-- What the lookup and the cleanups read of a session. -/
structure SessionEntry where
  connectionIndex : ℕ
  transportDeleted : Bool

/-- A worker's connections with the tables that lead to them. The keys of the session table
carry the FIB index; only accepted connections are entered there. -/
structure Worker where
  workerIndex : ℕ
  lookup : TcpLookupState
  connections : Pool Endpoint
  sessions : ℕ → Option SessionEntry
  sessionTable : TupleKey → Option SessionHandle

/-- The key of the connection's `base.endpoint` in the session table. -/
def Endpoint.key (c : Endpoint) : Option TupleKey :=
  c.localAddr.bind fun l => tupleKey c.fibIndex l c.remote

namespace Worker

def new (workerIndex : ℕ) : Option Worker :=
  TcpLookupState.new.map fun lookup => ⟨workerIndex, lookup, .empty, fun _ => none, fun _ => none⟩

inductive InputDecision where
  | connection (sessionId connectionIndex : ℕ) (state : TcpState)
  | listener
  | drop (error : Option TcpError)
  deriving DecidableEq

/-- The route of a packet that arrives in FIB `fibIndex`. The next node of a routed packet is
looked up from the state of its connection, that of any other from its listener. -/
def nextSlot (w : Worker) (fibIndex : ℕ) (localAddr remote : SocketAddr) :
    Option InputDecision :=
  match tupleKey fibIndex localAddr remote with
  | none => some (.drop none)
  | some connection =>
    let exactSession := w.sessionTable connection
    if exactSession.any fun session => session.threadIndex ≠ w.workerIndex then
      some (.drop (some .wrongThread))
    else
      (w.lookup.inputRoute localAddr remote).map fun route =>
      match route with
      | some (sessionId, owner) =>
        if exactSession.any fun session =>
            session.sessionIndex ≠ sessionId || session.threadIndex ≠ owner then
          .drop (some .invalidConnection)
        else if owner ≠ w.workerIndex then .drop (some .wrongThread)
        else
          match w.sessions sessionId with
          | none => .drop (some .invalidConnection)
          | some session =>
            match w.connections.get session.connectionIndex with
            | none => .drop (some .invalidConnection)
            | some c => .connection sessionId session.connectionIndex c.state
      | none => if exactSession.isSome then .drop (some .invalidConnection) else .listener

/-- Inserts a connection that `attach_session` has bound to `session`, and publishes it. -/
def publishNew (w : Worker) (c : Endpoint) : Option Worker :=
  let inserted := w.connections.insert c
  (w.lookup.publishConnection c.session c).map fun published =>
    { w with
      connections := inserted.1
      sessions := Function.update w.sessions c.session (some ⟨inserted.2, false⟩)
      lookup := published.1 }

/-- The FIB index of an opening connection is 0, whatever its endpoint asks for. -/
def opening (w : Worker) (localAddr remote : SocketAddr) (session : ℕ) : Endpoint :=
  ⟨.synSent, 0, some localAddr, remote, w.workerIndex, some session, session⟩

def accepted (w : Worker) (fibIndex : ℕ) (localAddr remote : SocketAddr) (state : TcpState)
    (session : ℕ) : Endpoint :=
  ⟨state, fibIndex, some localAddr, remote, w.workerIndex, some session, session⟩

/-- An insertion into the session table that is not stored is not reported. -/
def addConnection (w : Worker) (c : Endpoint) (stored : Bool) : Worker :=
  match c.key with
  | none => w
  | some k =>
    if stored then
      { w with
        sessionTable := Function.update w.sessionTable k (some ⟨w.workerIndex, c.session⟩) }
    else w

def removeConnectionIfCurrent (w : Worker) (c : Endpoint) : Worker :=
  match c.key with
  | none => w
  | some k =>
    { w with sessionTable := removeIfCurrent w.sessionTable k ⟨w.workerIndex, c.session⟩ }

def removeConnection (w : Worker) (connectionIndex : ℕ) : Worker :=
  match w.connections.remove connectionIndex with
  | none => w
  | some (connections, _) => { w with connections := connections }

def releaseConnection (w : Worker) (connectionIndex : ℕ) : Option Worker := do
  match w.connections.get connectionIndex with
  | none => return w
  | some c =>
    let lookup ← w.lookup.forgetSession c.session
    let lookup ← lookup.forgetPendingOpen c.session
    return removeConnection { w with lookup } connectionIndex

def setState (w : Worker) (connectionIndex : ℕ) (state : TcpState) : Worker :=
  { w with connections := w.connections.modify connectionIndex fun c => { c with state := state } }

def freeSession (w : Worker) (session : ℕ) : Worker :=
  { w with sessions := Function.update w.sessions session none }

inductive Event where
  /-- An active open on a session just allocated. -/
  | connect (localAddr remote : SocketAddr) (session : ℕ)
  /-- A listener of FIB `fibIndex` accepts on a session just allocated. -/
  | accept (fibIndex : ℕ) (localAddr remote : SocketAddr) (state : TcpState) (session : ℕ)
    (stored : Bool)
  /-- The opening reply establishes a half-open connection and publishes it again. -/
  | established (connectionIndex : ℕ)
  /-- Any other change of state; none of them publishes. -/
  | transition (connectionIndex : ℕ) (state : TcpState)
  /-- A due cleanup request. `attached` says whether an application still holds the session. -/
  | runCleanup (connectionIndex : ℕ) (attached : Bool)
  /-- The application has seen the transport go. A detached session finds no connection; its
  index is taken to be free from here on. -/
  | finishCleanup (connectionIndex : ℕ)
  | cleanupHalfOpen (connectionIndex : ℕ)

def runCleanup (w : Worker) (connectionIndex : ℕ) (attached : Bool) : Option Worker :=
  match w.connections.get connectionIndex with
  | none => none
  | some c =>
    match w.sessions c.session with
    | none => (w.removeConnectionIfCurrent c).releaseConnection connectionIndex
    | some entry =>
      if entry.connectionIndex ≠ connectionIndex then none
      else
        let w := w.removeConnectionIfCurrent c
        if entry.transportDeleted then some w
        else if attached then
          some { w with
            sessions := Function.update w.sessions c.session
              (some { entry with transportDeleted := true }) }
        else (w.freeSession c.session).releaseConnection connectionIndex

def step (w : Worker) : Event → Option Worker
  | .connect localAddr remote session =>
    if localAddr.isIpv4 ≠ remote.isIpv4 ∨ localAddr.port = 0 ∨ remote.port = 0 then none
    else if (w.sessions session).isSome then none
    else w.publishNew (w.opening localAddr remote session)
  | .accept fibIndex localAddr remote state session stored =>
    if localAddr.isIpv4 ≠ remote.isIpv4 ∨ (state ≠ .established ∧ state ≠ .synRcvd) then none
    else if (w.sessions session).isSome then none
    else
      let c := w.accepted fibIndex localAddr remote state session
      (w.publishNew c).map (·.addConnection c stored)
  | .established connectionIndex =>
    match w.connections.get connectionIndex with
    | none => none
    | some c =>
      if c.state ≠ .synSent then none
      else
        let w := w.setState connectionIndex .established
        (w.lookup.publishConnection c.session { c with state := .established }).map fun published =>
          { w with lookup := published.1 }
  | .transition connectionIndex state =>
    if state = .synSent ∨ state = .listen ∨ (w.connections.get connectionIndex).isNone then none
    else some (w.setState connectionIndex state)
  | .runCleanup connectionIndex attached => w.runCleanup connectionIndex attached
  | .finishCleanup connectionIndex =>
    match w.connections.get connectionIndex with
    | none => none
    | some c =>
      match w.sessions c.session with
      | none => none
      | some entry =>
        if entry.connectionIndex ≠ connectionIndex ∨ entry.transportDeleted = false then none
        else (w.releaseConnection connectionIndex).map (·.freeSession c.session)
  | .cleanupHalfOpen connectionIndex =>
    match w.connections.get connectionIndex with
    | none => none
    | some c =>
      if c.state ≠ .synSent then none
      else
        (w.lookup.forgetPendingOpen c.session).map fun lookup =>
          (removeConnection { w with lookup } connectionIndex).freeSession c.session

def Live (w : Worker) (connectionIndex : ℕ) (c : Endpoint) : Prop :=
  w.connections.get connectionIndex = some c

/-- The connection an event brings in, if it brings one. -/
def Event.incoming (w : Worker) : Event → Option Endpoint
  | .connect localAddr remote session => some (w.opening localAddr remote session)
  | .accept fibIndex localAddr remote state session _ =>
    some (w.accepted fibIndex localAddr remote state session)
  | _ => none

/-- The connection an event publishes, if it publishes one. -/
def Event.published (w : Worker) : Event → Option Endpoint
  | .established connectionIndex =>
    (w.connections.get connectionIndex).map ({ · with state := .established })
  | e => e.incoming w

/-- Every history in which each connection that comes in meets `allowed` and the route tables
store what is published. -/
inductive Reaches (allowed : Worker → Endpoint → Prop) (workerIndex : ℕ) : Worker → Prop where
  | init {w : Worker} : new workerIndex = some w → Reaches allowed workerIndex w
  | step {w w' : Worker} {e : Event} : Reaches allowed workerIndex w →
      (∀ c, e.incoming w = some c → allowed w c) →
      (∀ c, e.published w = some c → w.lookup.HasRoom c) → w.step e = some w' →
      Reaches allowed workerIndex w'

/-- No live connection has the identity of `c`: its FIB index and endpoints. -/
def NewIdentity (w : Worker) (c : Endpoint) : Prop :=
  ∀ i d, w.Live i d → d.key ≠ c.key

/-- Every live connection with these endpoints is in FIB `fibIndex`. -/
def NotInOtherFib (w : Worker) (fibIndex : ℕ) (localAddr remote : SocketAddr) : Prop :=
  ∀ i d, w.Live i d → d.localAddr = some localAddr → d.remote = remote → d.fibIndex = fibIndex

theorem tupleKey_isSome (f g : ℕ) (l r : SocketAddr) :
    (tupleKey f l r).isSome = (tupleKey g l r).isSome := by
  cases l <;> cases r <;> rfl

theorem tupleKey_sameFamily {l r : SocketAddr} (h : l.isIpv4 = r.isIpv4) (f : ℕ) :
    ∃ k, tupleKey f l r = some k := by
  cases l <;> cases r
  · exact ⟨_, rfl⟩
  · cases h
  · cases h
  · exact ⟨_, rfl⟩

variable {c d : Endpoint}

theorem route_key_eq {k : TupleKey} (hc : c.route.tupleKey = some k)
    (h : d.route.tupleKey = c.route.tupleKey) :
    d.localAddr = c.localAddr ∧ d.remote = c.remote := by
  rw [hc] at h
  simp only [Route.tupleKey, route, bind_eq_some_iff] at hc h
  obtain ⟨l, hl, hk⟩ := hc
  obtain ⟨l', hl', hk'⟩ := h
  obtain ⟨-, rfl, hr⟩ := tupleKey_inj hk' hk
  exact ⟨hl'.trans hl.symm, hr⟩

/-- What the tables keep of a live connection. -/
structure Filed (w : Worker) (i : ℕ) (c : Endpoint) : Prop where
  route : w.lookup.Routes c.route
  opened : c.state = .synSent → ∀ r, w.lookup.connections.Routes r → r.sessionId ≠ c.session
  session : ∃ d, w.sessions c.session = some ⟨i, d⟩
  owner : c.ownerWorker = w.workerIndex
  key : ∃ k, c.route.tupleKey = some k

/-- Only live connections have a route, and no two of them share endpoints; the session table leads
only to opened ones whose transport is not deleted. -/
structure Sound (w : Worker) : Prop where
  lookup : w.lookup.Sound
  live : ∀ i c, w.Live i c → w.Filed i c
  routes : ∀ r, w.lookup.Routes r → ∃ i c, w.Live i c ∧ c.route = r
  table : ∀ k h, w.sessionTable k = some h → ∃ i c, w.Live i c ∧ c.key = some k ∧
    h = ⟨w.workerIndex, c.session⟩ ∧ c.state ≠ .synSent ∧ w.sessions c.session = some ⟨i, false⟩
  apart : ∀ i c j d, w.Live i c → w.Live j d → c.route.tupleKey = d.route.tupleKey → i = j

variable {i : ℕ}

theorem live_unique {w : Worker} (hc : w.Live i c) (hd : w.Live i d) : c = d :=
  some.inj (hc.symm.trans hd)

namespace Sound

variable {w : Worker}

theorem session_inj (h : w.Sound) {j : ℕ} (hc : w.Live i c) (hd : w.Live j d)
    (hs : c.session = d.session) : i = j := by
  obtain ⟨x, hx⟩ := (h.live i c hc).session
  obtain ⟨y, hy⟩ := (h.live j d hd).session
  rw [hs, hy] at hx
  cases hx
  rfl

theorem key_inj (h : w.Sound) {j : ℕ} (hc : w.Live i c) (hd : w.Live j d) {k : TupleKey}
    (hck : c.key = some k) (hdk : d.key = some k) : i = j := by
  simp only [key, bind_eq_some_iff] at hck hdk
  obtain ⟨l, hl, hk⟩ := hck
  obtain ⟨l', hl', hk'⟩ := hdk
  obtain ⟨-, rfl, hr⟩ := tupleKey_inj hk hk'
  apply h.apart i c j d hc hd
  simp [Route.tupleKey, route, hl, hl', hr]

theorem new {workerIndex : ℕ} (hw : Worker.new workerIndex = some w) : w.Sound := by
  obtain ⟨lookup, hl, rfl⟩ := map_eq_some_iff.mp hw
  obtain ⟨sound, noRoute, -⟩ := TcpLookupState.sound_new hl
  refine ⟨sound, fun i c hc => ?_, fun r hr => absurd hr (noRoute r), fun k h hk => ?_,
    fun i c j d hc => ?_⟩
  all_goals contradiction

variable {w' : Worker}

theorem live_publishNew (hw : w.publishNew c = some w') (i : ℕ) (d : Endpoint) :
    w'.Live i d ↔ i = (w.connections.insert c).2 ∧ d = c ∨ w.Live i d := by
  obtain ⟨p, -, rfl⟩ := map_eq_some_iff.mp hw
  unfold Live
  by_cases hi : i = (w.connections.insert c).2
  · rw [hi, Pool.get_insert_self, Pool.get_insert_index]
    simp [eq_comm]
  · rw [Pool.get_insert_of_ne _ _ hi]
    simp [hi]

theorem publishNew (h : w.Sound) (hfree : w.sessions c.session = none)
    (hstate : c.state ≠ .closed) (howner : c.ownerWorker = w.workerIndex)
    (hkey : ∃ k, c.route.tupleKey = some k)
    (apart : ∀ i d, w.Live i d → d.route.tupleKey ≠ c.route.tupleKey)
    (room : w.lookup.HasRoom c) (hw : w.publishNew c = some w') :
    w'.Sound ∧ w'.sessions c.session = some ⟨(w.connections.insert c).2, false⟩ := by
  have live := live_publishNew hw
  have fresh : ∀ i d, w.Live i d → d.session ≠ c.session := by
    intro i d hd heq
    obtain ⟨x, hx⟩ := (h.live i d hd).session
    simp [heq, hfree] at hx
  obtain ⟨⟨x, closed⟩, hpub, rfl⟩ := map_eq_some_iff.mp hw
  have pub := h.lookup.publishConnection hstate room (by
    intro r hr _ hrk
    obtain ⟨i, d, hd, rfl⟩ := h.routes r hr
    exact absurd hrk (apart i d hd)) hpub
  refine ⟨⟨pub.sound, fun i d hd => ?_, fun r hr => ?_, fun k x hk => ?_,
    fun i d j e hd he hk => ?_⟩, update_self ..⟩
  · rcases (live ..).mp hd with ⟨rfl, rfl⟩ | hd
    · refine ⟨(pub.routes _).mpr (.inl rfl), fun hs r hr => ?_, ⟨false, update_self ..⟩, howner, hkey⟩
      rcases pub.opened r hr with ⟨hopen, -⟩ | ⟨-, hne⟩
      · exact absurd hs hopen
      · exact hne
    · have f := h.live i d hd
      refine ⟨(pub.routes _).mpr (.inr ⟨f.route, fresh i d hd⟩), fun hs r hr => ?_,
        f.session.imp fun _ => (update_of_ne (fresh i d hd) ..).trans, f.owner, f.key⟩
      rcases pub.opened r hr with ⟨-, hrs⟩ | ⟨hr, -⟩
      · rw [hrs]
        exact (fresh i d hd).symm
      · exact f.opened hs r hr
  · rcases (pub.routes r).mp hr with rfl | ⟨hr, -⟩
    · exact ⟨_, c, (live ..).mpr (.inl ⟨rfl, rfl⟩), rfl⟩
    · obtain ⟨i, d, hd, rfl⟩ := h.routes r hr
      exact ⟨i, d, (live ..).mpr (.inr hd), rfl⟩
  · obtain ⟨i, d, hd, hdk, rfl, hs, hdel⟩ := h.table k x hk
    exact ⟨i, d, (live ..).mpr (.inr hd), hdk, rfl, hs,
      (update_of_ne (fresh i d hd) ..).trans hdel⟩
  · rcases (live ..).mp hd with ⟨hi, rfl⟩ | hd'
    · rcases (live ..).mp he with ⟨hj, -⟩ | he'
      · rw [hi, hj]
      · exact absurd hk.symm (apart j e he')
    · rcases (live ..).mp he with ⟨-, rfl⟩ | he'
      · exact absurd hk (apart i d hd')
      · exact h.apart i d j e hd' he' hk

theorem addConnection (h : w.Sound) {stored : Bool} (hc : w.Live i c)
    (hs : c.state ≠ .synSent) (hdel : w.sessions c.session = some ⟨i, false⟩) :
    (w.addConnection c stored).Sound := by
  unfold Worker.addConnection
  cases hk : c.key with
  | none => exact h
  | some k =>
    cases stored with
    | false => exact h
    | true =>
    refine ⟨h.lookup, fun i d hd => { h.live i d hd with }, h.routes, ?_, h.apart⟩
    intro k' x hx
    have hx : update w.sessionTable k (some ⟨w.workerIndex, c.session⟩) k' = some x := hx
    by_cases hkk : k' = k
    · subst hkk
      rw [update_self] at hx
      obtain rfl := some.inj hx
      exact ⟨i, c, hc, hk, rfl, hs, hdel⟩
    · rw [update_of_ne hkk] at hx
      exact h.table k' x hx

theorem removeConnectionIfCurrent (h : w.Sound) (hc : w.Live i c) :
    (w.removeConnectionIfCurrent c).Sound ∧
      ∀ k x, (w.removeConnectionIfCurrent c).sessionTable k = some x →
        w.sessionTable k = some x ∧ c.key ≠ some k := by
  unfold Worker.removeConnectionIfCurrent
  cases hk : c.key with
  | none => exact ⟨h, fun k x hx => ⟨hx, by simp⟩⟩
  | some k =>
    have keep : ∀ k' x, removeIfCurrent w.sessionTable k ⟨w.workerIndex, c.session⟩ k' = some x →
        w.sessionTable k' = some x ∧ some k ≠ some k' := by
      intro k' x hx
      rw [removeIfCurrent_apply] at hx
      split at hx
      · cases hx
      · rename_i hno
        refine ⟨hx, ?_⟩
        intro hkk
        obtain rfl := some.inj hkk
        obtain ⟨j, d, hd, hdk, rfl, -⟩ := h.table _ _ hx
        obtain rfl := h.key_inj hc hd hk hdk
        obtain rfl := live_unique hc hd
        exact hno ⟨rfl, hx⟩
    exact ⟨⟨h.lookup, fun i d hd => { h.live i d hd with }, h.routes,
      fun k' x hx => h.table k' x (keep k' x hx).1, h.apart⟩, keep⟩

theorem live_removeConnection (hc : w.Live i c) (j : ℕ) (d : Endpoint) :
    (w.removeConnection i).Live j d ↔ w.Live j d ∧ j ≠ i := by
  obtain ⟨p, hp, hget, -⟩ := Pool.remove_spec hc
  simp only [Live, Worker.removeConnection, hp, hget]
  split
  · simp_all
  · simp_all

theorem removeConnection_fields (hc : w.Live i c) :
    w.removeConnection i = { w with connections := (w.removeConnection i).connections } := by
  obtain ⟨p, hp, -⟩ := Pool.remove_spec hc
  simp only [Worker.removeConnection, hp]

theorem removed (h : w.Sound) (hc : w.Live i c) {x : TcpLookupState}
    (hx : x.Sound) (routes : ∀ r, x.Routes r ↔ w.lookup.Routes r ∧ r.sessionId ≠ c.session)
    (opened : ∀ r, x.connections.Routes r → w.lookup.connections.Routes r)
    (hunlinked : ∀ k h, w.sessionTable k = some h → c.key ≠ some k) :
    ((removeConnection { w with lookup := x } i).freeSession c.session).Sound := by
  have hc' : Live { w with lookup := x } i c := hc
  have live : ∀ j d, ((removeConnection { w with lookup := x } i).freeSession c.session).Live j d ↔
      w.Live j d ∧ j ≠ i := fun j d => live_removeConnection hc' j d
  have other : ∀ j d, w.Live j d → j ≠ i → d.session ≠ c.session :=
    fun j d hd hj hs => hj (h.session_inj hd hc hs)
  rw [removeConnection_fields hc'] at live ⊢
  refine ⟨hx, fun j d hd => ?_, fun r hr => ?_, fun k y hy => ?_, fun j d k e hd he => ?_⟩
  · obtain ⟨hd, hj⟩ := (live j d).mp hd
    have f := h.live j d hd
    exact ⟨(routes _).mpr ⟨f.route, other j d hd hj⟩, fun hs r hr => f.opened hs r (opened r hr),
      f.session.imp fun _ => (update_of_ne (other j d hd hj) ..).trans, f.owner, f.key⟩
  · obtain ⟨hr, hne⟩ := (routes r).mp hr
    obtain ⟨j, d, hd, rfl⟩ := h.routes r hr
    refine ⟨j, d, (live j d).mpr ⟨hd, ?_⟩, rfl⟩
    rintro rfl
    exact hne (by rw [live_unique hd hc]; rfl)
  · obtain ⟨j, d, hd, hdk, rfl, hs, hdel⟩ := h.table k y hy
    have hj : j ≠ i := by
      rintro rfl
      rw [live_unique hd hc] at hdk
      exact hunlinked k _ hy hdk
    exact ⟨j, d, (live j d).mpr ⟨hd, hj⟩, hdk, rfl, hs,
      (update_of_ne (other j d hd hj) ..).trans hdel⟩
  · exact h.apart j d k e ((live j d).mp hd).1 ((live k e).mp he).1

theorem releaseConnection (h : w.Sound) (hc : w.Live i c)
    (hunlinked : ∀ k h, w.sessionTable k = some h → c.key ≠ some k)
    (hw : w.releaseConnection i = some w') : (w'.freeSession c.session).Sound := by
  have hget : w.connections.get i = some c := hc
  simp only [Worker.releaseConnection, hget, bind_eq_bind, bind_eq_some_iff] at hw
  obtain ⟨y, hy, x, hx, hw⟩ := hw
  obtain rfl := some.inj hw
  obtain ⟨hx, opened, routes⟩ := h.lookup.forget hy hx
  exact h.removed hc hx routes (fun r hr => ((opened r).mp hr).1) hunlinked

theorem releaseConnection_freeSession (hc : w.Live i c) (session : ℕ) :
    (w.freeSession session).releaseConnection i =
      (w.releaseConnection i).map (·.freeSession session) := by
  have hg : w.connections.get i = some c := hc
  obtain ⟨p, hp, -⟩ := Pool.remove_spec hg
  simp only [Worker.releaseConnection, Worker.freeSession, hg, Worker.removeConnection, hp,
    bind_eq_bind, Option.map_bind, Function.comp_def]
  rfl

theorem setState_live (w : Worker) (i : ℕ) (state : TcpState) (j : ℕ) (d : Endpoint) :
    (w.setState i state).Live j d ↔
      ∃ c, w.Live j c ∧ d = if i = j then { c with state := state } else c := by
  unfold Live Worker.setState
  rw [Pool.get_modify]
  split <;> cases w.connections.get j <;> simp [eq_comm]

theorem setState (h : w.Sound) {state : TcpState} (hs : state ≠ .synSent) :
    (w.setState i state).Sound := by
  have back : ∀ j d, (w.setState i state).Live j d →
      ∃ c s, w.Live j c ∧ d = { c with state := s } ∧ (s = .synSent → c.state = .synSent) := by
    intro j d hd
    obtain ⟨c, hc, rfl⟩ := (setState_live ..).mp hd
    split
    · exact ⟨c, state, hc, rfl, fun h => absurd h hs⟩
    · exact ⟨c, c.state, hc, rfl, id⟩
  have forth : ∀ j c, w.Live j c → ∃ s, (w.setState i state).Live j { c with state := s } ∧
      (c.state ≠ .synSent → s ≠ .synSent) := by
    intro j c hc
    by_cases hj : i = j
    · exact ⟨state, (setState_live ..).mpr ⟨c, hc, (if_pos hj).symm⟩, fun _ => hs⟩
    · exact ⟨c.state, (setState_live ..).mpr ⟨c, hc, (if_neg hj).symm⟩, id⟩
  refine ⟨h.lookup, fun j d hd => ?_, fun r hr => ?_, fun k x hx => ?_, fun j d k e hd he => ?_⟩
  · obtain ⟨c, s, hc, rfl, hst⟩ := back j d hd
    have f := h.live j c hc
    exact ⟨f.route, fun hs => f.opened (hst hs), f.session, f.owner, f.key⟩
  · obtain ⟨j, c, hc, rfl⟩ := h.routes r hr
    obtain ⟨s, hd, -⟩ := forth j c hc
    exact ⟨j, _, hd, rfl⟩
  · obtain ⟨j, c, hc, hk, rfl, hst, hdel⟩ := h.table k x hx
    obtain ⟨s, hd, hst'⟩ := forth j c hc
    exact ⟨j, _, hd, hk, rfl, hst' hst, hdel⟩
  · obtain ⟨c, s, hc, rfl, -⟩ := back j d hd
    obtain ⟨c', s', hc', rfl, -⟩ := back k e he
    exact h.apart j c k c' hc hc'

theorem established (h : w.Sound) (hc : w.Live i c)
    (room : w.lookup.HasRoom { c with state := .established }) {x : TcpLookupState} {closed : Bool}
    (hx : w.lookup.publishConnection c.session { c with state := .established } =
      some (x, closed)) : Sound { w.setState i .established with lookup := x } := by
  have hset : (w.setState i .established).Sound := h.setState (by decide)
  set d : Endpoint := { c with state := .established } with hd
  have hlive : (w.setState i .established).Live i d :=
    (setState_live ..).mpr ⟨c, hc, by rw [if_pos rfl]⟩
  have pub := hset.lookup.publishConnection (c := d) (fun h => by cases h) room (by
    intro r hr hne hrk
    obtain ⟨j, e, he, rfl⟩ := hset.routes r hr
    obtain rfl := hset.apart j e i d he hlive hrk
    rw [live_unique he hlive] at hne
    exact absurd rfl hne) hx
  refine ⟨pub.sound, fun j e he => ?_, fun r hr => ?_, hset.table, hset.apart⟩
  · have f := hset.live j e he
    by_cases hj : e.session = d.session
    · obtain rfl := hset.session_inj he hlive hj
      obtain rfl := live_unique he hlive
      exact ⟨(pub.routes _).mpr (.inl rfl), fun hs => (nomatch hs), f.session, f.owner, f.key⟩
    · refine ⟨(pub.routes _).mpr (.inr ⟨f.route, hj⟩), fun hs r hr => ?_, f.session, f.owner, f.key⟩
      rcases pub.opened r hr with ⟨-, hrs⟩ | ⟨hr, -⟩
      · rw [hrs]
        exact Ne.symm hj
      · exact f.opened hs r hr
  · rcases (pub.routes r).mp hr with rfl | ⟨hr, -⟩
    · exact ⟨i, d, hlive, rfl⟩
    · exact hset.routes r hr

/-- The transport of a session that an application still holds is marked as deleted. -/
theorem markDeleted (h : w.Sound) (hc : w.Live i c)
    (hunlinked : ∀ k h, w.sessionTable k = some h → c.key ≠ some k) :
    Sound { w with sessions := update w.sessions c.session (some ⟨i, true⟩) } := by
  refine ⟨h.lookup, fun j d hd => ?_, h.routes, fun k x hx => ?_, h.apart⟩
  · have f := h.live j d hd
    refine ⟨f.route, f.opened, ?_, f.owner, f.key⟩
    by_cases hs : d.session = c.session
    · obtain rfl := h.session_inj hd hc hs
      exact ⟨true, (congrArg _ hs).trans (update_self ..)⟩
    · exact f.session.imp fun _ => (update_of_ne hs ..).trans
  · obtain ⟨j, d, hd, hdk, rfl, hs, hdel⟩ := h.table k x hx
    refine ⟨j, d, hd, hdk, rfl, hs, (update_of_ne (fun heq => ?_) ..).trans hdel⟩
    obtain rfl := h.session_inj hd hc heq
    rw [live_unique hd hc] at hdk
    exact hunlinked k _ hx hdk

theorem runCleanup (h : w.Sound) {attached : Bool}
    (hw : w.runCleanup i attached = some w') : w'.Sound := by
  unfold Worker.runCleanup at hw
  cases hget : w.connections.get i with
  | none => simp [hget] at hw
  | some c =>
    have hc : w.Live i c := hget
    obtain ⟨del, hses⟩ := (h.live i c hc).session
    obtain ⟨hun, gone⟩ := h.removeConnectionIfCurrent hc
    have hlive : (w.removeConnectionIfCurrent c).Live i c := by
      unfold Worker.removeConnectionIfCurrent
      cases c.key <;> exact hc
    have hunlinked k x hx := (gone k x hx).2
    simp only [hget, hses, ne_eq, not_true_eq_false, if_false] at hw
    cases del with
    | true =>
      obtain rfl := some.inj hw
      exact hun
    | false =>
      simp only [Bool.false_eq_true, if_false] at hw
      cases attached with
      | false =>
        rw [releaseConnection_freeSession hlive] at hw
        obtain ⟨v, hv, rfl⟩ := map_eq_some_iff.mp hw
        exact hun.releaseConnection hlive hunlinked hv
      | true =>
        obtain rfl := some.inj hw
        exact hun.markDeleted hlive hunlinked

/-- `c` may come in: its identity is new, and its endpoints are used in no other FIB. -/
def Admissible (w : Worker) (c : Endpoint) : Prop :=
  w.NewIdentity c ∧ ∀ l, c.localAddr = some l → w.NotInOtherFib c.fibIndex l c.remote

theorem Admissible.apart (hc : Admissible w c) (hkey : ∃ k, c.route.tupleKey = some k)
    (hd : w.Live i d) : d.route.tupleKey ≠ c.route.tupleKey := by
  intro heq
  obtain ⟨k, hk⟩ := hkey
  obtain ⟨hl, hr⟩ := route_key_eq hk heq
  have hsome : ∃ l, c.localAddr = some l := by
    cases hc' : c.localAddr with
    | none => simp [Route.tupleKey, route, hc'] at hk
    | some l => exact ⟨l, rfl⟩
  obtain ⟨l, hcl⟩ := hsome
  have hf := hc.2 l hcl i d hd (hl.trans hcl) hr
  apply hc.1 i d hd
  unfold key
  rw [hl, hr, hf]

theorem step (h : w.Sound) {e : Event} (hin : ∀ c, e.incoming w = some c → Admissible w c)
    (room : ∀ c, e.published w = some c → w.lookup.HasRoom c) (hw : w.step e = some w') :
    w'.Sound := by
  cases e with
  | connect l r s =>
    simp only [Worker.step] at hw
    split at hw
    · cases hw
    rename_i hargs
    split at hw
    · cases hw
    rename_i hses
    have hfree : w.sessions s = none := by simpa using hses
    have hkey : ∃ k, (w.opening l r s).route.tupleKey = some k :=
      tupleKey_sameFamily (not_not.mp fun hne => hargs (.inl hne)) 0
    exact (h.publishNew hfree (fun hst => by cases hst) rfl hkey
      (fun i d hd => (hin _ rfl).apart hkey hd) (room _ rfl) hw).1
  | accept f l r st s stored =>
    simp only [Worker.step] at hw
    split at hw
    · cases hw
    rename_i hargs
    split at hw
    · cases hw
    rename_i hses
    have hfree : w.sessions s = none := by simpa using hses
    obtain ⟨v, hv, rfl⟩ := map_eq_some_iff.mp hw
    set c := w.accepted f l r st s with hcdef
    have hkey : ∃ k, c.route.tupleKey = some k :=
      tupleKey_sameFamily (not_not.mp fun hne => hargs (.inl hne)) 0
    have hst : st = .established ∨ st = .synRcvd := by
      by_contra hno
      exact hargs (.inr (not_or.mp hno))
    have hopen : c.state ≠ .closed := by
      rintro (hcl : st = .closed)
      rcases hst with rfl | rfl <;> cases hcl
    obtain ⟨hpub, hsess⟩ := h.publishNew hfree hopen rfl hkey
      (fun i d hd => (hin _ rfl).apart hkey hd) (room _ rfl) hv
    refine hpub.addConnection ((live_publishNew hv _ c).mpr (.inl ⟨rfl, rfl⟩)) ?_ hsess
    rintro (hcl : st = .synSent)
    rcases hst with rfl | rfl <;> cases hcl
  | established i =>
    simp only [Worker.step] at hw
    cases hget : w.connections.get i with
    | none => simp [hget] at hw
    | some c =>
      simp only [hget] at hw
      split at hw
      · cases hw
      · obtain ⟨⟨x, closed⟩, hx, rfl⟩ := map_eq_some_iff.mp hw
        exact h.established hget (room _ (by simp [Event.published, hget])) hx
  | transition i state =>
    simp only [Worker.step] at hw
    split at hw
    · cases hw
    · rename_i hargs
      obtain rfl := some.inj hw
      exact h.setState fun hs => hargs (.inl hs)
  | runCleanup i attached => exact h.runCleanup hw
  | finishCleanup i =>
    simp only [Worker.step] at hw
    cases hget : w.connections.get i with
    | none => simp [hget] at hw
    | some c =>
      obtain ⟨del, hses⟩ := (h.live i c hget).session
      simp only [hget, hses] at hw
      split at hw
      · cases hw
      · rename_i hargs
        obtain ⟨v, hv, rfl⟩ := map_eq_some_iff.mp hw
        refine h.releaseConnection hget ?_ hv
        intro k x hx hck
        -- an entry of the session table belongs to a session whose transport is not deleted
        obtain ⟨j, d, hd, hdk, -, -, hdel⟩ := h.table k x hx
        obtain rfl := h.key_inj hget hd hck hdk
        rw [live_unique hd hget, hses] at hdel
        cases hdel
        exact hargs (.inr rfl)
  | cleanupHalfOpen i =>
    simp only [Worker.step] at hw
    cases hget : w.connections.get i with
    | none => simp [hget] at hw
    | some c =>
      simp only [hget] at hw
      split at hw
      · cases hw
      · rename_i hs
        have hs : c.state = .synSent := not_not.mp hs
        obtain ⟨x, hx, rfl⟩ := map_eq_some_iff.mp hw
        obtain ⟨hx, opened, routes⟩ :=
          h.lookup.forget (h.lookup.forgetSession_absent ((h.live i c hget).opened hs)) hx
        refine h.removed hget hx routes (fun r hr => ((opened r).mp hr).1) ?_
        intro k x hx hck
        obtain ⟨j, d, hd, hdk, -, hds, -⟩ := h.table k x hx
        obtain rfl := h.key_inj hget hd hck hdk
        rw [live_unique hd hget] at hds
        exact hds hs

end Sound

theorem Reaches.sound {n : ℕ} {w : Worker} (h : Reaches Sound.Admissible n w) : w.Sound := by
  induction h with
  | init hw => exact Sound.new hw
  | step _ hin room hw ih => exact ih.step hin room hw

namespace Sound

variable {w : Worker} {f : ℕ} {l r : SocketAddr}

theorem nextSlot_live (h : w.Sound) (hc : w.Live i c)
    (hf : c.fibIndex = f) (hl : c.localAddr = some l) (hr : c.remote = r) :
    w.nextSlot f l r = some (.connection c.session i c.state) := by
  have filed := h.live i c hc
  obtain ⟨k0, hk0⟩ := filed.key
  have hk0' : tupleKey 0 l r = some k0 := by
    simpa [Route.tupleKey, route, hl, hr] using hk0
  obtain ⟨k, hk⟩ : ∃ k, tupleKey f l r = some k := by
    apply isSome_iff_exists.mp
    rw [tupleKey_isSome f 0, hk0']
    rfl
  have hck : c.key = some k := by rw [key, hl, hf, hr]; exact hk
  have hexact : ∀ x, w.sessionTable k = some x → x = ⟨w.workerIndex, c.session⟩ := by
    intro x hx
    obtain ⟨j, d, hd, hdk, rfl, -⟩ := h.table k x hx
    obtain rfl := h.key_inj hc hd hck hdk
    rw [live_unique hd hc]
  have hroute : w.lookup.inputRoute l r = some (some (c.session, w.workerIndex)) := by
    rw [← filed.owner]
    apply h.lookup.inputRoute_eq (r := c.route) filed.route _ hk0' hk0
    intro r' hr' hkey
    obtain ⟨j, d, hd, rfl⟩ := h.routes r' hr'
    obtain rfl := h.apart j d i c hd hc hkey
    rw [live_unique hd hc]
  obtain ⟨del, hses⟩ := filed.session
  have hget : w.connections.get i = some c := hc
  cases ht : w.sessionTable k with
  | none => simp [nextSlot, hk, ht, hroute, hses, hget]
  | some x => simp [nextSlot, hk, ht, hexact x ht, hroute, hses, hget]

theorem nextSlot_none (h : w.Sound) (hfam : l.isIpv4 = r.isIpv4)
    (hno : ∀ i c, w.Live i c → ¬(c.localAddr = some l ∧ c.remote = r)) :
    w.nextSlot f l r = some .listener := by
  obtain ⟨k, hk⟩ := tupleKey_sameFamily hfam f
  obtain ⟨k0, hk0⟩ := tupleKey_sameFamily hfam 0
  have ht : w.sessionTable k = none := by
    cases ht : w.sessionTable k with
    | none => rfl
    | some x =>
      obtain ⟨j, d, hd, hdk, -⟩ := h.table k x ht
      simp only [key, bind_eq_some_iff] at hdk
      obtain ⟨l', hl', hk'⟩ := hdk
      obtain ⟨-, rfl, hr⟩ := tupleKey_inj hk' hk
      exact absurd ⟨hl', hr⟩ (hno j d hd)
  have hroute : w.lookup.inputRoute l r = some none := by
    apply h.lookup.inputRoute_none
    intro r' hr' hkey
    obtain ⟨j, d, hd, rfl⟩ := h.routes r' hr'
    rw [hk0] at hkey
    simp only [Route.tupleKey, route, bind_eq_some_iff] at hkey
    obtain ⟨l', hl', hk'⟩ := hkey
    obtain ⟨-, rfl, hr⟩ := tupleKey_inj hk' hk0
    exact hno j d hd ⟨hl', hr⟩
  simp [nextSlot, hk, ht, hroute]

end Sound

/-- While endpoints are not shared across FIBs, a packet reaches the connection with its FIB
index and endpoints, and if there is none it is left to the listeners. -/
theorem input_reaches_identity {n : ℕ} {w : Worker} (h : Reaches Sound.Admissible n w) (f : ℕ)
    (l r : SocketAddr) (hfam : l.isIpv4 = r.isIpv4) (hpacket : w.NotInOtherFib f l r) :
    (∀ i c, w.Live i c → c.fibIndex = f → c.localAddr = some l → c.remote = r →
      w.nextSlot f l r = some (.connection c.session i c.state)) ∧
    ((∀ i c, w.Live i c → ¬(c.fibIndex = f ∧ c.localAddr = some l ∧ c.remote = r)) →
      w.nextSlot f l r = some .listener) := by
  constructor
  · intro i c hc hf hl hr
    exact h.sound.nextSlot_live hc hf hl hr
  · intro hno
    apply h.sound.nextSlot_none hfam
    rintro i c hc ⟨hl, hr⟩
    exact hno i c hc ⟨hpacket i c hc hl hr, hl, hr⟩

def exampleLocal : SocketAddr := .v4 0x0a000001#32 80#16
def exampleRemote : SocketAddr := .v4 0x0a000002#32 4000#16

/-- A listener of FIB 1 on worker 0 accepts one connection as session 5. -/
def exampleRun : Option Worker :=
  (Worker.new 0).bind (·.step (.accept 1 exampleLocal exampleRemote .established 5 true))

theorem exampleRun_reaches (allowed : Worker → Endpoint → Prop)
    (hallowed : ∀ w c, (∀ i d, ¬w.Live i d) → allowed w c) :
    ∃ w, exampleRun = some w ∧ Reaches allowed 0 w ∧
      w.Live 0 ⟨.established, 1, some exampleLocal, exampleRemote, 0, some 5, 5⟩ ∧
      ∀ i c, w.Live i c → c.fibIndex = 1 := by
  obtain ⟨w, hw⟩ : ∃ w, exampleRun = some w := ⟨_, rfl⟩
  obtain ⟨w₀, hnew, hstep⟩ := bind_eq_some_iff.mp hw
  have hreach : Reaches allowed 0 w := by
    refine .step (.init hnew) (fun c _ => hallowed w₀ c ?_) (fun c _ => ?_) hstep
    · obtain ⟨lookup, -, rfl⟩ := map_eq_some_iff.mp hnew
      rintro i d hd
      cases hd
    · obtain ⟨lookup, hl, rfl⟩ := map_eq_some_iff.mp hnew
      exact (TcpLookupState.sound_new hl).2.2 c
  obtain rfl := some.inj hw
  refine ⟨_, rfl, hreach, rfl, fun i c hc => ?_⟩
  match i with
  | 0 => exact some.inj hc ▸ rfl
  | _ + 1 => cases hc

theorem input_reaches_identity_accepted :
    exampleRun.bind (·.nextSlot 1 exampleLocal exampleRemote) =
      some (.connection 5 0 .established) := by
  obtain ⟨w, hw, hreach, hlive, hfib⟩ := exampleRun_reaches Sound.Admissible
    fun w c dead => ⟨fun i d hd => (dead i d hd).elim, fun l _ i d hd => (dead i d hd).elim⟩
  rw [hw]
  exact (input_reaches_identity hreach 1 exampleLocal exampleRemote rfl
    fun i c hc _ _ => hfib i c hc).1 0 _ hlive rfl rfl rfl

/-- The route tables ignore the FIB: a packet of FIB 2 reaches the connection of FIB 1 that has
its endpoints, and no connection of FIB 2 exists. -/
theorem input_reaches_other_fib :
    ∃ w, exampleRun = some w ∧ Reaches NewIdentity 0 w ∧ (∀ i c, w.Live i c → c.fibIndex ≠ 2) ∧
      w.nextSlot 2 exampleLocal exampleRemote = some (.connection 5 0 .established) := by
  obtain ⟨w, hw, hreach, -, hfib⟩ := exampleRun_reaches NewIdentity
    fun w c dead i d hd => (dead i d hd).elim
  refine ⟨w, hw, hreach, fun i c hc => by rw [hfib i c hc]; decide, ?_⟩
  obtain rfl := some.inj hw
  rfl

end Worker

end Tcp
