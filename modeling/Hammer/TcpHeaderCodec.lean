import Hammer.NetworkBytes
import Hammer.TcpProtocol

/-! # The TCP header on the wire

`transport/tcp/src/protocol/segment.rs` and `options.rs`: the writer of a header with its options
and the option iterator that reads them back.
-/
namespace TcpCodec

open NetworkBytes
open Recovery (TcpSackBlock)
open Tcp (TcpCapabilities TcpError TcpSegmentFlags)

def TCP_HEADER_MIN_LEN : ℕ := 20
def TCP_OPTION_EOL : UInt8 := 0
def TCP_OPTION_NOP : UInt8 := 1
def TCP_OPTION_MSS : UInt8 := 2
def TCP_OPTION_WINDOW_SCALE : UInt8 := 3
def TCP_OPTION_SACK_PERMITTED : UInt8 := 4
def TCP_OPTION_SACK : UInt8 := 5
def TCP_OPTION_TIMESTAMPS : UInt8 := 8
def TCP_OPTION_FAST_OPEN : UInt8 := 34
def TCP_OPTION_ACCURATE_ECN_ORDER_0 : UInt8 := 172
def TCP_OPTION_ACCURATE_ECN_ORDER_1 : UInt8 := 174
def TCP_OPTION_SACK_BLOCK_BYTES : ℕ := 8
def TCP_MAX_SACK_BLOCKS : ℕ := 4
def TCP_MAX_WINDOW_SCALE : UInt8 := 14

structure TcpTimestampOption where
  tsval : UInt32
  tsecr : UInt32
  deriving DecidableEq, Repr

def isValidLen (len : ℕ) : Bool := 4 ≤ len && len ≤ 16 && len % 2 == 0

/-- Its constructors check the length. -/
structure TcpFastOpenCookie where
  asSlice : List UInt8
  valid : isValidLen asSlice.length = true

structure TcpSegmentHeader where
  sourcePort : UInt16
  destinationPort : UInt16
  sequenceNumber : UInt32
  acknowledgmentNumber : UInt32
  flags : TcpSegmentFlags
  advertisedWindow : UInt16
  urgentPointer : UInt16
  capabilities : TcpCapabilities
  timestamp : Option TcpTimestampOption
  fastOpenCookie : Option TcpFastOpenCookie

def roundTcpOptionsLen (len : ℕ) : ℕ := (len + 3) / 4 * 4

def limitedSackLen (sackBlocks : Option (List TcpSackBlock)) : ℕ :=
  sackBlocks.elim 0 fun blocks => min blocks.length TCP_MAX_SACK_BLOCKS

def tcpOptionsLen (header : TcpSegmentHeader) (sackBlocks : Option (List TcpSackBlock)) : ℕ :=
  if header.flags.syn then
    roundTcpOptionsLen <|
      (if header.capabilities.maxSegmentSize.isSome then 4 else 0) +
      (if header.capabilities.windowScale.isSome then 4 else 0) +
      (if header.capabilities.sack then 4 else 0) +
      (if header.capabilities.timestamps then 12 else 0) +
      (if header.capabilities.fastOpen then
        2 + header.fastOpenCookie.elim 0 (·.asSlice.length) else 0) +
      (if header.capabilities.accurateEcn then 3 else 0)
  else if !header.flags.ack then 0
  else
    roundTcpOptionsLen <|
      (if header.capabilities.timestamps then 12 else 0) +
      (if limitedSackLen sackBlocks ≠ 0 then
        4 + limitedSackLen sackBlocks * TCP_OPTION_SACK_BLOCK_BYTES else 0)

def TcpSegmentHeader.headerLen (header : TcpSegmentHeader)
    (sackBlocks : Option (List TcpSackBlock)) : ℕ :=
  TCP_HEADER_MIN_LEN + tcpOptionsLen header sackBlocks

def tcpDataOffsetFlags (headerLen : ℕ) (flags : TcpSegmentFlags) : UInt16 :=
  UInt16.ofNat (headerLen / 4 % 256 * 4096 + flags.ns.toNat * 256 + flags.bits % 256)

def mssOption (maxSegmentSize : UInt16) : List UInt8 :=
  [TCP_OPTION_MSS, 4] ++ toBe16 maxSegmentSize

def windowScaleOption (windowScale : UInt8) : List UInt8 :=
  [TCP_OPTION_NOP, TCP_OPTION_WINDOW_SCALE, 3, min windowScale TCP_MAX_WINDOW_SCALE]

def sackPermittedOption : List UInt8 :=
  [TCP_OPTION_NOP, TCP_OPTION_NOP, TCP_OPTION_SACK_PERMITTED, 2]

def tcpTimestampOption (timestamp : Option TcpTimestampOption) : List UInt8 :=
  let timestamp := timestamp.getD ⟨0, 0⟩
  [TCP_OPTION_NOP, TCP_OPTION_NOP, TCP_OPTION_TIMESTAMPS, 10] ++ toBe32 timestamp.tsval ++
    toBe32 timestamp.tsecr

def fastOpenOption (cookie : Option TcpFastOpenCookie) : List UInt8 :=
  let cookie := cookie.elim [] (·.asSlice)
  [TCP_OPTION_FAST_OPEN, UInt8.ofNat (2 + cookie.length)] ++ cookie

def accurateEcnOption : List UInt8 := [TCP_OPTION_NOP, TCP_OPTION_ACCURATE_ECN_ORDER_0, 2]

def sackBlockBytes (block : TcpSackBlock) : List UInt8 :=
  toBe32 (.ofBitVec block.leftEdge) ++ toBe32 (.ofBitVec block.rightEdge)

def sackOption (blocks : List TcpSackBlock) : List UInt8 :=
  [TCP_OPTION_NOP, TCP_OPTION_NOP, TCP_OPTION_SACK,
    UInt8.ofNat (2 + blocks.length * TCP_OPTION_SACK_BLOCK_BYTES)] ++ blocks.flatMap sackBlockBytes

/-- The bytes before the final fill: each option goes where the last one ended. -/
def writtenOptions (header : TcpSegmentHeader) (sackBlocks : Option (List TcpSackBlock)) :
    List UInt8 :=
  if header.flags.syn then
    header.capabilities.maxSegmentSize.elim [] mssOption ++
    header.capabilities.windowScale.elim [] windowScaleOption ++
    (if header.capabilities.sack then sackPermittedOption else []) ++
    (if header.capabilities.timestamps then tcpTimestampOption header.timestamp else []) ++
    (if header.capabilities.fastOpen then fastOpenOption header.fastOpenCookie else []) ++
    (if header.capabilities.accurateEcn then accurateEcnOption else [])
  else if header.flags.ack then
    (if header.capabilities.timestamps then tcpTimestampOption header.timestamp else []) ++
    sackBlocks.elim [] fun blocks =>
      let limited := blocks.take (min blocks.length TCP_MAX_SACK_BLOCKS)
      if limited.length ≠ 0 then sackOption limited else []
  else []

/-- `none` is a write past the end of the slice. -/
def writeTcpOptions (outputLen : ℕ) (header : TcpSegmentHeader)
    (sackBlocks : Option (List TcpSackBlock)) : Option (List UInt8) :=
  let written := writtenOptions header sackBlocks
  if outputLen < written.length then none
  else some (written ++ List.replicate (outputLen - written.length) TCP_OPTION_EOL)

/-- The fields of `TcpHeader` in the order of its C layout, with a checksum of zero. -/
def headerBytes (header : TcpSegmentHeader) (headerLen : ℕ) : List UInt8 :=
  toBe16 header.sourcePort ++ toBe16 header.destinationPort ++ toBe32 header.sequenceNumber ++
    toBe32 header.acknowledgmentNumber ++ toBe16 (tcpDataOffsetFlags headerLen header.flags) ++
    toBe16 header.advertisedWindow ++ toBe16 0 ++ toBe16 header.urgentPointer

/-- The buffer afterwards and the length written; the outer `none` is a panic. -/
def TcpSegmentHeader.writeToBuffer (header : TcpSegmentHeader) (output : List UInt8)
    (sackBlocks : Option (List TcpSackBlock)) : Option (Except TcpError (List UInt8 × ℕ)) :=
  let headerLen := header.headerLen sackBlocks
  if 60 < headerLen ∨ headerLen % 4 ≠ 0 ∨ output.length < headerLen then some (.error .length)
  else
    (writeTcpOptions (headerLen - TCP_HEADER_MIN_LEN) header sackBlocks).map fun options =>
      .ok (headerBytes header headerLen ++ options ++ output.drop headerLen, headerLen)

/-- A view of the first twenty bytes of a packet. -/
structure TcpHeader where
  bytes : List UInt8

namespace TcpHeader

def headerLen (h : TcpHeader) : ℕ := byteAt h.bytes 12 / 16 * 4
def sourcePort (h : TcpHeader) : UInt16 := u16At h.bytes 0
def destinationPort (h : TcpHeader) : UInt16 := u16At h.bytes 2
def sequenceNumber (h : TcpHeader) : UInt32 := u32At h.bytes 4
def acknowledgmentNumber (h : TcpHeader) : UInt32 := u32At h.bytes 8
def advertisedWindow (h : TcpHeader) : UInt16 := u16At h.bytes 14
def urgentPointer (h : TcpHeader) : UInt16 := u16At h.bytes 18

def flags (h : TcpHeader) : TcpSegmentFlags :=
  let first := byteAt h.bytes 12
  let second := byteAt h.bytes 13
  { ns := first.testBit 0
    fin := second.testBit 0
    syn := second.testBit 1
    rst := second.testBit 2
    psh := second.testBit 3
    ack := second.testBit 4
    urg := second.testBit 5
    ece := second.testBit 6
    cwr := second.testBit 7 }

end TcpHeader

def tcpHeader (packet : List UInt8) : Except TcpError TcpHeader :=
  if packet.length < TCP_HEADER_MIN_LEN then .error .segmentInvalid
  else
    let header : TcpHeader := ⟨packet.take TCP_HEADER_MIN_LEN⟩
    let headerLen := header.headerLen
    if headerLen < TCP_HEADER_MIN_LEN ∨ 60 < headerLen ∨ headerLen % 4 ≠ 0 then
      .error .segmentInvalid
    else if packet.length < headerLen then .error .segmentInvalid
    else .ok header

inductive TcpOption where
  | «end»
  | noOperation
  | maximumSegmentSize (value : UInt16)
  | windowScale (value : UInt8)
  | sackPermitted
  | sackBlock (block : TcpSackBlock)
  | timestamp (value : TcpTimestampOption)
  | fastOpenCookie (bytes : List UInt8)
  | accurateEcn
  | unknown (number : UInt8) (bytes : List UInt8)
  deriving DecidableEq

structure TcpOptionIter where
  options : List UInt8
  offset : ℕ
  sackBlocks : List UInt8
  sackOffset : ℕ
  finished : Bool

def isValidSackOptionLen (len : ℕ) : Bool :=
  2 < len && (len - 2) % TCP_OPTION_SACK_BLOCK_BYTES == 0

def isValidFastOpenOptionLen (len : ℕ) : Bool := len - 2 == 0 || isValidLen (len - 2)

def readSackBlock (block : List UInt8) : TcpSackBlock :=
  ⟨(u32At block 0).toBitVec, (u32At block 4).toBitVec⟩

namespace TcpOptionIter

def new (options : List UInt8) : TcpOptionIter := ⟨options, 0, [], 0, false⟩

def stopWithError (it : TcpOptionIter) : Except TcpError TcpOption × TcpOptionIter :=
  (.error .segmentInvalid, { it with finished := true })

/-- The inner match of `next`, with the offset already past the option. -/
def decode (it : TcpOptionIter) (number : UInt8) (len : ℕ) (option : List UInt8) :
    Except TcpError TcpOption × TcpOptionIter :=
  if number = TCP_OPTION_MSS then
    if len = 4 then (.ok (.maximumSegmentSize (u16At option 2)), it) else it.stopWithError
  else if number = TCP_OPTION_WINDOW_SCALE then
    if len = 3 then (.ok (.windowScale (min (option.getD 2 0) TCP_MAX_WINDOW_SCALE)), it)
    else it.stopWithError
  else if number = TCP_OPTION_SACK_PERMITTED then
    if len = 2 then (.ok .sackPermitted, it) else it.stopWithError
  else if number = TCP_OPTION_SACK then
    if isValidSackOptionLen len then
      let sackLen := min (len - 2) (TCP_MAX_SACK_BLOCKS * TCP_OPTION_SACK_BLOCK_BYTES)
      let sackBlocks := (option.drop 2).take sackLen
      (.ok (.sackBlock (readSackBlock (sackBlocks.take TCP_OPTION_SACK_BLOCK_BYTES))),
        { it with sackBlocks := sackBlocks, sackOffset := TCP_OPTION_SACK_BLOCK_BYTES })
    else it.stopWithError
  else if number = TCP_OPTION_TIMESTAMPS then
    if len = 10 then (.ok (.timestamp ⟨u32At option 2, u32At option 6⟩), it)
    else it.stopWithError
  else if number = TCP_OPTION_FAST_OPEN then
    if isValidFastOpenOptionLen len then (.ok (.fastOpenCookie (option.drop 2)), it)
    else it.stopWithError
  else if number = TCP_OPTION_ACCURATE_ECN_ORDER_0 ∨ number = TCP_OPTION_ACCURATE_ECN_ORDER_1 then
    (.ok .accurateEcn, it)
  else (.ok (.unknown number (option.drop 2)), it)

/-- The option at the offset, `number` being its first byte and `tail` what follows. -/
def nextOption (it : TcpOptionIter) (number : UInt8) (tail : List UInt8) :
    Except TcpError TcpOption × TcpOptionIter :=
  if number = TCP_OPTION_EOL then (.ok .«end», { it with finished := true })
  else if number = TCP_OPTION_NOP then (.ok .noOperation, { it with offset := it.offset + 1 })
  else
    match tail with
    | [] => it.stopWithError
    | lenByte :: _ =>
      let len := lenByte.toNat
      if len < 2 ∨ tail.length + 1 < len then it.stopWithError
      else decode { it with offset := it.offset + len } number len ((number :: tail).take len)

def next (it : TcpOptionIter) : Option (Except TcpError TcpOption × TcpOptionIter) :=
  if it.sackOffset < it.sackBlocks.length then
    some (.ok (.sackBlock (readSackBlock
        ((it.sackBlocks.drop it.sackOffset).take TCP_OPTION_SACK_BLOCK_BYTES))),
      { it with sackOffset := it.sackOffset + TCP_OPTION_SACK_BLOCK_BYTES })
  else if it.finished then none
  else
    match it.options.drop it.offset with
    | [] => none
    | number :: tail => some (it.nextOption number tail)

/-- What is left to read; a SACK option counts again while its blocks are handed out. -/
def remaining (it : TcpOptionIter) : ℕ :=
  2 * (it.options.length - it.offset) + (it.sackBlocks.length - it.sackOffset) +
    (if it.finished then 0 else 1)

theorem remaining_idle (it : TcpOptionIter) (hidle : it.sackBlocks.length ≤ it.sackOffset) :
    it.remaining = 2 * (it.options.length - it.offset) + (if it.finished then 0 else 1) := by
  rw [remaining, Nat.sub_eq_zero_of_le hidle, Nat.add_zero]

variable {it : TcpOptionIter}

theorem remaining_stopWithError (hidle : it.sackBlocks.length ≤ it.sackOffset) :
    it.stopWithError.2.remaining = 2 * (it.options.length - it.offset) :=
  remaining_idle { it with finished := true } hidle

theorem remaining_decode (it : TcpOptionIter) (hidle : it.sackBlocks.length ≤ it.sackOffset)
    (number : UInt8) (len : ℕ) (option : List UInt8) :
    (it.decode number len option).2.remaining ≤
      2 * (it.options.length - it.offset) + (len - 2) + 1 := by
  have hsame : it.remaining ≤ 2 * (it.options.length - it.offset) + (len - 2) + 1 := by
    rw [remaining_idle it hidle]
    split <;> omega
  have hstop : it.stopWithError.2.remaining ≤
      2 * (it.options.length - it.offset) + (len - 2) + 1 := by
    rw [remaining_stopWithError hidle]
    omega
  have hsack : ∀ n, n ≤ len - 2 → ({ it with
      sackBlocks := (option.drop 2).take n
      sackOffset := TCP_OPTION_SACK_BLOCK_BYTES } : TcpOptionIter).remaining ≤
      2 * (it.options.length - it.offset) + (len - 2) + 1 := by
    intro n hn
    have hle := List.length_take_le n (option.drop 2)
    simp only [remaining]
    split <;> omega
  unfold decode
  split_ifs
  all_goals first
    | exact hsame
    | exact hstop
    | exact hsack _ (Nat.min_le_left ..)

theorem remaining_nextOption (number : UInt8) {tail : List UInt8}
    (hidle : it.sackBlocks.length ≤ it.sackOffset) (hfin : it.finished = false)
    (hlen : it.options.length - it.offset = tail.length + 1) :
    (it.nextOption number tail).2.remaining < it.remaining := by
  have hit : it.remaining = 2 * (it.options.length - it.offset) + 1 := by
    rw [remaining_idle it hidle, hfin]
    rfl
  have hstop : it.stopWithError.2.remaining < it.remaining := by
    rw [remaining_stopWithError hidle, hit]
    exact Nat.lt_succ_self _
  unfold nextOption
  split
  · exact hstop
  · split
    · rw [remaining_idle { it with offset := it.offset + 1 } hidle, hfin]
      simp only [Bool.false_eq_true, if_false]
      omega
    · split
      · exact hstop
      · rename_i lenByte rest
        dsimp only
        split
        · exact hstop
        · have := remaining_decode { it with offset := it.offset + lenByte.toNat } hidle
            number lenByte.toNat ((number :: lenByte :: rest).take lenByte.toNat)
          simp only at this ⊢
          omega

theorem next_decreases {it it' : TcpOptionIter} {item : Except TcpError TcpOption}
    (h : it.next = some (item, it')) : it'.remaining < it.remaining := by
  unfold next at h
  split at h
  · obtain ⟨-, rfl⟩ := by simpa using h
    simp only [remaining, TCP_OPTION_SACK_BLOCK_BYTES]
    omega
  · rename_i hidle
    split at h
    · cases h
    · rename_i hfin
      split at h
      · cases h
      · rename_i number tail hdrop
        have hlen : it.options.length - it.offset = tail.length + 1 := by
          rw [← List.length_drop, hdrop, List.length_cons]
        have := remaining_nextOption number (Nat.le_of_not_lt hidle) (by simpa using hfin) hlen
        rwa [Option.some.inj h] at this

def toList (it : TcpOptionIter) : List (Except TcpError TcpOption) :=
  match _h : it.next with
  | none => []
  | some (item, it') => item :: it'.toList
termination_by it.remaining
decreasing_by exact next_decreases _h

theorem toList_of_none (h : it.next = none) : it.toList = [] := by
  rw [toList]
  split
  · rfl
  · rename_i h'
    rw [h] at h'
    cases h'

theorem toList_of_some {it it' : TcpOptionIter} {item : Except TcpError TcpOption}
    (h : it.next = some (item, it')) : it.toList = item :: it'.toList := by
  rw [toList]
  split
  · rename_i h'
    rw [h] at h'
    cases h'
  · rename_i h'
    rw [h] at h'
    obtain ⟨rfl, rfl⟩ := by simpa using h'
    rfl

end TcpOptionIter

end TcpCodec
