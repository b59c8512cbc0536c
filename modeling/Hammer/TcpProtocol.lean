import Hammer.Recovery

/-! # Segments, endpoints and states

`transport/tcp/src/protocol/mod.rs` and the packet and segment records of `segment.rs`.
-/

namespace Tcp

open Recovery (TcpSackBlock)

inductive TcpState where
  | closed
  | listen
  | synSent
  | synRcvd
  | established
  | finWait1
  | finWait2
  | closeWait
  | closing
  | lastAck
  | timeWait
  deriving DecidableEq, Repr

inductive TcpError where
  | wrongThread
  | length
  | noListener
  | segmentInvalid
  | invalidConnection
  | dispatch
  deriving DecidableEq, Repr

/-- A socket address without the flow label and scope of IPv6. -/
inductive SocketAddr where
  | v4 (ip : BitVec 32) (port : BitVec 16)
  | v6 (ip : BitVec 128) (port : BitVec 16)
  deriving DecidableEq

def SocketAddr.isIpv4 : SocketAddr → Bool
  | .v4 _ _ => true
  | .v6 _ _ => false

def SocketAddr.port : SocketAddr → BitVec 16
  | .v4 _ port => port
  | .v6 _ port => port

structure TransportConnectionKey (A : Type) where
  scopeId : ℕ
  localAddr : A
  localPort : BitVec 16
  remoteAddr : A
  remotePort : BitVec 16
  deriving DecidableEq, Inhabited

structure TcpCapabilities where
  maxSegmentSize : Option UInt16
  windowScale : Option UInt8
  sack : Bool
  timestamps : Bool
  ecn : Bool
  accurateEcn : Bool
  fastOpen : Bool
  deriving DecidableEq

def TcpCapabilities.default : TcpCapabilities := ⟨none, none, false, false, false, false, false⟩

structure TcpSegmentFlags where
  fin : Bool := false
  syn : Bool := false
  rst : Bool := false
  psh : Bool := false
  ack : Bool := false
  urg : Bool := false
  ece : Bool := false
  cwr : Bool := false
  ns : Bool := false
  deriving DecidableEq, Repr

namespace TcpSegmentFlags

def SYN : TcpSegmentFlags := { syn := true }
def ACK : TcpSegmentFlags := { ack := true }
def RST : TcpSegmentFlags := { rst := true }
def SYN_ACK : TcpSegmentFlags := { syn := true, ack := true }
def FIN_ACK : TcpSegmentFlags := { fin := true, ack := true }
def RST_ACK : TcpSegmentFlags := { rst := true, ack := true }

def bits (f : TcpSegmentFlags) : ℕ :=
  f.fin.toNat + 2 * f.syn.toNat + 4 * f.rst.toNat + 8 * f.psh.toNat + 16 * f.ack.toNat +
    32 * f.urg.toNat + 64 * f.ece.toNat + 128 * f.cwr.toNat + 256 * f.ns.toNat

end TcpSegmentFlags

structure TcpNegotiatedOptions where
  sendMaxSegmentSize : Option ℕ
  sendWindowScale : Option ℕ
  receiveWindowScale : Option ℕ
  sack : Bool
  timestamps : Bool
  deriving DecidableEq

def TcpNegotiatedOptions.default : TcpNegotiatedOptions := ⟨none, none, none, false, false⟩

/-- An input segment. `payloadLen` counts the payload of its first buffer only. The round-trip
time that an echoed timestamp gives is read off the clock and comes with the packet. -/
structure TcpPacket where
  sequence : TcpSeq
  acknowledgmentNumber : TcpSeq
  advertisedWindow : BitVec 16
  flags : TcpSegmentFlags
  capabilities : TcpCapabilities
  sackBlocks : List TcpSackBlock
  timestamp : Option TcpSeq
  timestampRtt : Option Recovery.Duration
  payloadLen : ℕ

def TcpPacket.acknowledgment (p : TcpPacket) : Option TcpSeq :=
  if p.flags.ack then some p.acknowledgmentNumber else none

structure TcpSegment where
  sequence : TcpSeq
  acknowledgment : TcpSeq
  advertisedWindow : ℕ
  flags : TcpSegmentFlags
  payloadLen : ℕ
  deriving DecidableEq

end Tcp
