import Hammer.FibRuns

/-! # Interface addresses and their routes

`hammer-plugins/net/ip/src/interface.rs` over the tables of `lookup.rs`: adding and deleting an
address of an interface, taking an interface up or down, and the routes of source `INTERFACE` that
follow. `none` is a panic: every route change there is an `expect`.
-/

namespace InterfaceRoutes

open Fib OrderedMap

variable {w : ℕ}

/-- What the load balance object of a route forwards to. -/
inductive RouteDpo (w : ℕ) where
  | receive (swIfIndex : ℕ) (address : BitVec w)
  | glean (swIfIndex : ℕ) (net : Net w)
  | neighbor (swIfIndex : ℕ) (nextHop : BitVec w)
  | drop
  | other (index : ℕ)
  deriving DecidableEq

instance : ForwardingDpo (RouteDpo w) := ⟨fun _ => true⟩

def INTERFACE : ℕ := 4

structure IpInterfaceAddress (w : ℕ) where
  address : BitVec w
  addressLength : ℕ
  swIfIndex : ℕ
  deriving DecidableEq

/-- The addresses in the order they were added, the prefixes with their reference counts, the
enable counts of the interfaces and the tables of one address family. -/
structure IpMain (w : ℕ) where
  interfaceAddresses : List (IpInterfaceAddress w)
  interfacePrefixes : List ((Net w × ℕ) × ℕ)
  ipEnabled : ℕ → ℕ
  tables : ℕ → FibState w (RouteDpo w)

structure Ip6Link where
  linkLocalAddress : BitVec 128
  locks : ℕ
  deriving DecidableEq

/-- What does not change: the table of an interface, by family, which interfaces are point to
point, and the local interface. -/
structure Interfaces where
  fib4 : ℕ → ℕ
  fib6 : ℕ → ℕ
  isP2p : ℕ → Bool
  localInterface : ℕ

structure State where
  ip4 : IpMain 32
  ip6 : IpMain 128
  links : ℕ → Option Ip6Link
  adminUp : ℕ → Bool

inductive IpInterfaceAddressError where
  | unsupported
  | addressInUse
  | duplicateIfAddress
  | addressLengthMismatch
  | addressNotFoundForInterface
  | addressNotDeletable
  deriving DecidableEq, Repr

def lockInterfacePrefix (prefixes : List ((Net w × ℕ) × ℕ)) (key : Net w × ℕ) :
    Option (List ((Net w × ℕ) × ℕ) × Bool) :=
  match get routeCmp key prefixes with
  | some n => if n + 1 < 2 ^ 32 then some (modify routeCmp key (· + 1) prefixes, false) else none
  | none => some (insert routeCmp key 1 prefixes, true)

/-- `Some(true)` with the last reference. -/
def unlockInterfacePrefix (prefixes : List ((Net w × ℕ) × ℕ)) (key : Net w × ℕ) :
    Option (List ((Net w × ℕ) × ℕ) × Option Bool) :=
  match get routeCmp key prefixes with
  | none => some (prefixes, none)
  | some 0 => none
  | some (n + 1) =>
    if n ≠ 0 then some (modify routeCmp key (· - 1) prefixes, some false)
    else some (erase routeCmp key prefixes, some true)

section Routes

variable (registration : ℕ → FibSourceRegistration)

def addRoutes (t : FibState w (RouteDpo w)) :
    List (Net w × RouteDpo w) → Option (FibState w (RouteDpo w))
  | [] => some t
  | (p, d) :: routes =>
    match t.addRoute registration p INTERFACE d with
    | (t', .ok _) => addRoutes t' routes
    | (_, .error _) => none

def removeRoutes (t : FibState w (RouteDpo w)) : List (Net w) → Option (FibState w (RouteDpo w))
  | [] => some t
  | p :: nets =>
    match t.removeRoute p INTERFACE with
    | (t', .ok _) => removeRoutes t' nets
    | (_, .error _) => none

def IpMain.setTable (m : IpMain w) (fib : ℕ) (t : FibState w (RouteDpo w)) : IpMain w :=
  { m with tables := Function.update m.tables fib t }

def interfaceNet (address : BitVec w) (length : ℕ) (h : length < w) : Net w :=
  Net.trunc ⟨address, length, Nat.le_of_lt h⟩

/-- The route to an address itself, and with the first address of a prefix those of the prefix:
the body of `ip4_add_interface_routes` and of `ip6_add_interface_routes`. -/
def addInterfaceRoutes (shared : Net w → List (Net w × RouteDpo w)) (m : IpMain w)
    (swIfIndex : ℕ) (address : BitVec w) (length fib : ℕ) : Option (IpMain w) := do
  let t ← addRoutes registration (m.tables fib) [(.host address, .receive swIfIndex address)]
  let m := m.setTable fib t
  if h : length < w then
    let p := interfaceNet address length h
    let (prefixes, first) ← lockInterfacePrefix m.interfacePrefixes (p, swIfIndex)
    let m := { m with interfacePrefixes := prefixes }
    if first then
      let t ← addRoutes registration (m.tables fib) (shared p)
      some (m.setTable fib t)
    else some m
  else some m

/-- The connected route: through the point-to-point neighbour or by gleaning. -/
def connected (isP2p : ℕ → Bool) (swIfIndex : ℕ) (p : Net w) : RouteDpo w :=
  if isP2p swIfIndex then .neighbor swIfIndex 0 else .glean swIfIndex p

/-- The routes beside the connected one: drops for the network and the broadcast address, or the
peer of a /31. -/
def ip4Specials (isP2p : ℕ → Bool) (swIfIndex : ℕ) (address : BitVec 32) (p : Net 32) :
    List (Net 32 × RouteDpo 32) :=
  if p.prefixLen ≤ 30 then
    ([p.network, p.broadcast].filter (· ≠ address)).map fun special => (.host special, .drop)
  else if p.prefixLen = 31 then
    let peer := address ^^^ 1
    [(.host peer, .neighbor swIfIndex (if isP2p swIfIndex then 0 else peer))]
  else []

def ip4AddInterfaceRoutes (isP2p : ℕ → Bool) (m : IpMain 32) (swIfIndex : ℕ)
    (address : BitVec 32) (length fib : ℕ) : Option (IpMain 32) :=
  addInterfaceRoutes registration
    (fun p => (p, connected isP2p swIfIndex p) :: ip4Specials isP2p swIfIndex address p)
    m swIfIndex address length fib

def ip6AddInterfaceRoutes (isP2p : ℕ → Bool) (m : IpMain 128) (swIfIndex : ℕ)
    (address : BitVec 128) (length fib : ℕ) : Option (IpMain 128) :=
  addInterfaceRoutes registration (fun p => [(p, connected isP2p swIfIndex p)])
    m swIfIndex address length fib

def ip4DelInterfaceRoutes (isP2p : ℕ → Bool) (m : IpMain 32) (swIfIndex : ℕ)
    (address : BitVec 32) (length fib : ℕ) : Option (IpMain 32) := do
  let t ← removeRoutes (m.tables fib) [.host address]
  let m := m.setTable fib t
  if h : length < 32 then
    let p := interfaceNet address length h
    let (prefixes, last) ← unlockInterfacePrefix m.interfacePrefixes (p, swIfIndex)
    let m := { m with interfacePrefixes := prefixes }
    if last ≠ some true then some m
    else
      let specials := (ip4Specials isP2p swIfIndex address p).map Prod.fst
      let t ← removeRoutes (m.tables fib) (specials ++ [p])
      some (m.setTable fib t)
  else some m

/-- The connected route goes with the last address of its prefix. -/
def ip6DelConnectedRoute (m : IpMain 128) (swIfIndex : ℕ) (address : BitVec 128)
    (length fib : ℕ) : Option (IpMain 128) :=
  if h : length < 128 then do
    let p := interfaceNet address length h
    let (prefixes, last) ← unlockInterfacePrefix m.interfacePrefixes (p, swIfIndex)
    let m := { m with interfacePrefixes := prefixes }
    if last = some true then
      let t ← removeRoutes (m.tables fib) [p]
      some (m.setTable fib t)
    else some m
  else some m

/-- The prefix goes before the address here. -/
def ip6DelInterfaceRoutes (m : IpMain 128) (swIfIndex : ℕ) (address : BitVec 128)
    (length fib : ℕ) : Option (IpMain 128) := do
  let m ← ip6DelConnectedRoute m swIfIndex address length fib
  let t ← removeRoutes (m.tables fib) [.host address]
  some (m.setTable fib t)

end Routes

/-- `ipv4_prefix_matches` and `ipv6_prefix_matches`. -/
def prefixMatches (left right : BitVec w) (length : ℕ) : Bool :=
  if length = 0 then true
  else if length > w then false
  else (left ^^^ right) &&& Net.mask w length == 0

/-- An address of the same table that overlaps the new one, other than a further address of the
same prefix on the same interface. -/
def conflicts (fibOf : ℕ → ℕ) (swIfIndex : ℕ) (address : BitVec w) (length : ℕ)
    (existing : IpInterfaceAddress w) : Bool :=
  fibOf existing.swIfIndex == fibOf swIfIndex &&
    (prefixMatches address existing.address existing.addressLength ||
      prefixMatches existing.address address length) &&
    !(existing.swIfIndex == swIfIndex && existing.addressLength == length &&
      existing.address != address)

/-- The record under a key: an address in the table of an interface. -/
def findAddress (fibOf : ℕ → ℕ) (m : IpMain w) (address : BitVec w) (fib : ℕ) :
    Option (IpInterfaceAddress w) :=
  m.interfaceAddresses.find? fun a => a.address == address && fibOf a.swIfIndex == fib

/-- `add_interface_address` behind the checks of the callers, which differ in the error of an
overlap. -/
def addInterfaceAddress (fibOf : ℕ → ℕ) (overlap : IpInterfaceAddressError) (m : IpMain w)
    (swIfIndex : ℕ) (address : BitVec w) (length : ℕ) : Except IpInterfaceAddressError (IpMain w) :=
  if m.interfaceAddresses.any (conflicts fibOf swIfIndex address length) then .error overlap
  else if (findAddress fibOf m address (fibOf swIfIndex)).isSome then .error .duplicateIfAddress
  else if length = 0 ∨ w < length then .error .addressLengthMismatch
  else .ok { m with
    interfaceAddresses := m.interfaceAddresses ++ [⟨address, length, swIfIndex⟩] }

def deleteInterfaceAddress (fibOf : ℕ → ℕ) (m : IpMain w) (swIfIndex : ℕ) (address : BitVec w) :
    Except IpInterfaceAddressError (IpMain w) :=
  match findAddress fibOf m address (fibOf swIfIndex) with
  | none => .error .addressNotFoundForInterface
  | some a =>
    if a.swIfIndex ≠ swIfIndex then .error .addressNotFoundForInterface
    else .ok { m with interfaceAddresses := m.interfaceAddresses.erase a }

/-- The enable count of an interface is a `u8`. -/
def enable (m : IpMain w) (swIfIndex : ℕ) : Option (IpMain w) :=
  if m.ipEnabled swIfIndex + 1 < 2 ^ 8 then
    some { m with
      ipEnabled := Function.update m.ipEnabled swIfIndex (m.ipEnabled swIfIndex + 1) }
  else none

def disable (zeroDisableIsNoop : Bool) (m : IpMain w) (swIfIndex : ℕ) : Option (IpMain w) :=
  if m.ipEnabled swIfIndex = 0 then if zeroDisableIsNoop then some m else none
  else some { m with
    ipEnabled := Function.update m.ipEnabled swIfIndex (m.ipEnabled swIfIndex - 1) }

section Calls

variable (registration : ℕ → FibSourceRegistration) (interfaces : Interfaces)

def ip4AddDelInterfaceAddress (s : State) (swIfIndex : ℕ) (address : BitVec 32) (length : ℕ)
    (isDelete : Bool) : Option (State × Except IpInterfaceAddressError Unit) :=
  if swIfIndex = interfaces.localInterface then some (s, .error .unsupported)
  else
    let fib := interfaces.fib4 swIfIndex
    if isDelete then
      match deleteInterfaceAddress interfaces.fib4 s.ip4 swIfIndex address with
      | .error e => some (s, .error e)
      | .ok m => do
        let m ← disable false m swIfIndex
        let m ← (if s.adminUp swIfIndex then
            ip4DelInterfaceRoutes interfaces.isP2p m swIfIndex address length fib
          else some m)
        some ({ s with ip4 := m }, .ok ())
    else
      match addInterfaceAddress interfaces.fib4 .addressInUse s.ip4 swIfIndex address length with
      | .error e => some (s, .error e)
      | .ok m => do
        let m ← enable m swIfIndex
        let m ← (if s.adminUp swIfIndex then
            ip4AddInterfaceRoutes registration interfaces.isP2p m swIfIndex address length fib
          else some m)
        some ({ s with ip4 := m }, .ok ())

def isUnicastLinkLocal (address : BitVec 128) : Bool := address >>> 118 == 0x3fa#128

/-- A reference to the link of an interface, or a new link-local address for it. -/
def ip6LinkEnable (s : State) (swIfIndex : ℕ) (address : Option (BitVec 128))
    (generated : BitVec 128) : Option State :=
  match s.links swIfIndex with
  | some link =>
    match address with
    | some address =>
      let link := { link with linkLocalAddress := address }
      some { s with links := Function.update s.links swIfIndex (some link) }
    | none =>
      if link.locks + 1 < 2 ^ 32 then
        let link := { link with locks := link.locks + 1 }
        some { s with links := Function.update s.links swIfIndex (some link) }
      else none
  | none => do
    let link : Ip6Link := ⟨address.getD generated, 1⟩
    let m ← enable s.ip6 swIfIndex
    some { s with ip6 := m, links := Function.update s.links swIfIndex (some link) }

def ip6LinkDisable (s : State) (swIfIndex : ℕ) : Option State :=
  match s.links swIfIndex with
  | none => some s
  | some link =>
    if link.locks = 0 then none
    else if link.locks - 1 ≠ 0 then
      let link := { link with locks := link.locks - 1 }
      some { s with links := Function.update s.links swIfIndex (some link) }
    else do
      let m ← disable true s.ip6 swIfIndex
      some { s with ip6 := m, links := Function.update s.links swIfIndex none }

def ip6LinkLocalAddress (s : State) (swIfIndex : ℕ) (address : BitVec 128) (length : ℕ)
    (isDelete : Bool) (generated : BitVec 128) :
    Option (State × Except IpInterfaceAddressError Unit) :=
  if length ≠ 128 then some (s, .error .addressLengthMismatch)
  else if isDelete then
    if (s.links swIfIndex).any fun link => link.linkLocalAddress == address then
      some (s, .error .addressNotDeletable)
    else some (s, .error .addressNotFoundForInterface)
  else do
    let s ← ip6LinkEnable s swIfIndex (some address) generated
    some (s, .ok ())

def ip6AddDelInterfaceAddress (s : State) (swIfIndex : ℕ) (address : BitVec 128) (length : ℕ)
    (isDelete : Bool) (generated : BitVec 128) :
    Option (State × Except IpInterfaceAddressError Unit) :=
  if swIfIndex = interfaces.localInterface then some (s, .error .unsupported)
  else if isUnicastLinkLocal address then
    ip6LinkLocalAddress s swIfIndex address length isDelete generated
  else
    let fib := interfaces.fib6 swIfIndex
    if isDelete then
      match deleteInterfaceAddress interfaces.fib6 s.ip6 swIfIndex address with
      | .error e => some (s, .error e)
      | .ok m => do
        let m ← disable true m swIfIndex
        let m ← (if s.adminUp swIfIndex then ip6DelInterfaceRoutes m swIfIndex address length fib
          else some m)
        let s ← ip6LinkDisable { s with ip6 := m } swIfIndex
        some (s, .ok ())
    else
      match addInterfaceAddress interfaces.fib6 .duplicateIfAddress s.ip6 swIfIndex address length
        with
      | .error e => some (s, .error e)
      | .ok m => do
        let m ← enable m swIfIndex
        let s ← ip6LinkEnable { s with ip6 := m } swIfIndex none generated
        let m ← (if s.adminUp swIfIndex then
            ip6AddInterfaceRoutes registration interfaces.isP2p s.ip6 swIfIndex address length fib
          else some s.ip6)
        some ({ s with ip6 := m }, .ok ())

/-- The addresses of an interface, in the order of its chain. -/
def IpMain.addressesOf (m : IpMain w) (swIfIndex : ℕ) : List (IpInterfaceAddress w) :=
  m.interfaceAddresses.filter fun a => a.swIfIndex == swIfIndex

/-- `ip4_sw_interface_admin_up_down`. -/
def ip4AdminUpDown (m : IpMain 32) (swIfIndex : ℕ) (isUp : Bool) : Option (IpMain 32) :=
  (m.addressesOf swIfIndex).foldlM (fun m a =>
    if isUp then
      ip4AddInterfaceRoutes registration interfaces.isP2p m swIfIndex a.address a.addressLength
        (interfaces.fib4 swIfIndex)
    else
      ip4DelInterfaceRoutes interfaces.isP2p m swIfIndex a.address a.addressLength
        (interfaces.fib4 swIfIndex)) m

/-- `ip6_sw_interface_admin_up_down`. -/
def ip6AdminUpDown (m : IpMain 128) (swIfIndex : ℕ) (isUp : Bool) : Option (IpMain 128) :=
  (m.addressesOf swIfIndex).foldlM (fun m a =>
    if isUp then
      ip6AddInterfaceRoutes registration interfaces.isP2p m swIfIndex a.address a.addressLength
        (interfaces.fib6 swIfIndex)
    else
      ip6DelInterfaceRoutes m swIfIndex a.address a.addressLength
        (interfaces.fib6 swIfIndex)) m

/-- `set_software_flags`: the callbacks run when the flag changes. Those of the device and of its
hardware class, which run last, are taken to succeed: where one fails, the source puts the flag back
and leaves the routes. -/
def setSoftwareFlags (s : State) (swIfIndex : ℕ) (isUp : Bool) : Option State :=
  if s.adminUp swIfIndex = isUp then some s
  else do
    let ip4 ← ip4AdminUpDown registration interfaces s.ip4 swIfIndex isUp
    let ip6 ← ip6AdminUpDown registration interfaces s.ip6 swIfIndex isUp
    some { s with ip4 := ip4, ip6 := ip6, adminUp := Function.update s.adminUp swIfIndex isUp }

inductive Event where
  | address4 (swIfIndex : ℕ) (address : BitVec 32) (length : ℕ) (isDelete : Bool)
  | address6 (swIfIndex : ℕ) (address : BitVec 128) (length : ℕ) (isDelete : Bool)
      (generated : BitVec 128)
  | flags (swIfIndex : ℕ) (isUp : Bool)

def step (s : State) : Event → Option State
  | .address4 sw a l del => (ip4AddDelInterfaceAddress registration interfaces s sw a l del).map
      Prod.fst
  | .address6 sw a l del generated =>
    (ip6AddDelInterfaceAddress registration interfaces s sw a l del generated).map Prod.fst
  | .flags sw isUp => setSoftwareFlags registration interfaces s sw isUp

end Calls

end InterfaceRoutes
