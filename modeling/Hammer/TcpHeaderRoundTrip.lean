import Hammer.TcpHeaderCodec

/-! # What was written is read back

`Spells bytes opts` says what the option bytes mean to the iterator, whatever stands before and
after them. Each option the writer can produce spells itself, so the whole option area does, and
the rest of it is padding.
-/
namespace TcpCodec

open NetworkBytes TcpOptionIter List
open Recovery (TcpSackBlock)
open Tcp (TcpError TcpSegmentFlags)

def isPadding : Except TcpError TcpOption → Bool
  | .ok .noOperation => true
  | .ok .«end» => true
  | _ => false

def visible (items : List (Except TcpError TcpOption)) : List (Except TcpError TcpOption) :=
  items.filter fun item => !isPadding item

variable {bytes : List UInt8}

namespace TcpOptionIter

structure Idle (it : TcpOptionIter) : Prop where
  blocks : it.sackBlocks.length ≤ it.sackOffset
  unfinished : it.finished = false

theorem next_idle {it : TcpOptionIter} (h : it.Idle) {number : UInt8} {tail : List UInt8}
    (hdrop : it.options.drop it.offset = number :: tail) :
    it.next = some (it.nextOption number tail) := by
  unfold next
  rw [if_neg (Nat.not_lt.mpr h.blocks), h.unfinished, hdrop]
  rfl

theorem drop_advance {it : TcpOptionIter} {rest : List UInt8}
    (hdrop : it.options.drop it.offset = bytes ++ rest) :
    it.options.drop (it.offset + bytes.length) = rest := by
  rw [← drop_drop, hdrop, drop_left]

end TcpOptionIter

/-- Wherever `bytes` stand, the iterator yields `opts` for them and goes on behind them. -/
def Spells (bytes : List UInt8) (opts : List TcpOption) : Prop :=
  ∀ (it : TcpOptionIter) (rest : List UInt8) (items : List (Except TcpError TcpOption)),
    it.Idle → it.options.drop it.offset = bytes ++ rest →
    (∀ it' : TcpOptionIter, it'.Idle → it'.options.drop it'.offset = rest →
      visible it'.toList = items) →
    visible it.toList = opts.map .ok ++ items

namespace Spells

theorem nil : Spells [] [] := fun _ _ _ hidle hdrop hrest => hrest _ hidle hdrop

theorem append {b1 b2 : List UInt8} {o1 o2 : List TcpOption} (h1 : Spells b1 o1)
    (h2 : Spells b2 o2) : Spells (b1 ++ b2) (o1 ++ o2) := by
  intro it rest items hidle hdrop hrest
  rw [map_append, append_assoc]
  apply h1 it (b2 ++ rest) _ hidle (by rw [hdrop, append_assoc])
  intro it' hidle' hdrop'
  exact h2 it' rest items hidle' hdrop' hrest

theorem elim {α : Type} {f : α → List UInt8} {o : α → List TcpOption}
    (h : ∀ a, Spells (f a) (o a)) (x : Option α) : Spells (x.elim [] f) (x.elim [] o) := by
  cases x with
  | none => exact nil
  | some a => exact h a

theorem ite {b : Bool} {opts : List TcpOption} (h : Spells bytes opts) :
    Spells (if b then bytes else []) (if b then opts else []) := by
  cases b with
  | false => exact nil
  | true => exact h

theorem of_next {o : TcpOption} (hvis : isPadding (.ok o) = false)
    (h : ∀ (it : TcpOptionIter) (rest : List UInt8), it.Idle →
      it.options.drop it.offset = bytes ++ rest →
      it.next = some (.ok o, { it with offset := it.offset + bytes.length })) :
    Spells bytes [o] := by
  intro it rest items hidle hdrop hrest
  rw [toList_of_some (h it rest hidle hdrop), visible, filter_cons_of_pos (by simp [hvis])]
  exact congrArg _ (hrest { it with offset := it.offset + bytes.length }
    ⟨hidle.blocks, hidle.unfinished⟩ (drop_advance hdrop))

theorem nop : Spells [TCP_OPTION_NOP] [] := by
  intro it rest items hidle hdrop hrest
  have hnext := next_idle hidle hdrop
  rw [toList_of_some hnext]
  exact hrest { it with offset := it.offset + 1 } ⟨hidle.blocks, hidle.unfinished⟩
    (drop_advance hdrop)

theorem nop_append {opts : List TcpOption} (h : Spells bytes opts) :
    Spells (TCP_OPTION_NOP :: bytes) opts := nop.append h

/-- An option with a length byte reaches `decode` with exactly its own bytes. -/
theorem next_tlv {number lenByte : UInt8} {body : List UInt8} (heol : number ≠ TCP_OPTION_EOL)
    (hnop : number ≠ TCP_OPTION_NOP) (hlen : lenByte.toNat = body.length + 2)
    {it : TcpOptionIter} {rest : List UInt8} (hidle : it.Idle)
    (hdrop : it.options.drop it.offset = (number :: lenByte :: body) ++ rest) :
    it.next = some (decode { it with offset := it.offset + (body.length + 2) } number
      (body.length + 2) (number :: lenByte :: body)) := by
  rw [next_idle hidle hdrop]
  unfold nextOption
  rw [if_neg heol, if_neg hnop]
  simp only [cons_append, append_eq, hlen]
  simp

theorem tlv {number lenByte : UInt8} (body : List UInt8) {o : TcpOption}
    (heol : number ≠ TCP_OPTION_EOL) (hnop : number ≠ TCP_OPTION_NOP)
    (hlen : lenByte.toNat = body.length + 2) (hvis : isPadding (.ok o) = false)
    (hdec : ∀ it : TcpOptionIter,
      it.decode number (body.length + 2) (number :: lenByte :: body) = (.ok o, it)) :
    Spells (number :: lenByte :: body) [o] := by
  refine of_next hvis fun it rest hidle hdrop => ?_
  rw [next_tlv heol hnop hlen hidle hdrop, hdec]
  rfl

theorem mss (v : UInt16) : Spells (mssOption v) [.maximumSegmentSize v] := by
  refine tlv (toBe16 v) (by decide) (by decide) rfl rfl fun it => ?_
  have hv : u16At ([TCP_OPTION_MSS, 4] ++ (toBe16 v ++ [])) 2 = v :=
    (u16At_append_right (l := [TCP_OPTION_MSS, 4]) (i := 0) rfl).trans (u16At_toBe16 v)
  exact congrArg (fun w => (Except.ok (TcpOption.maximumSegmentSize w), it)) hv

theorem windowScale (w : UInt8) :
    Spells (windowScaleOption w) [.windowScale (min w TCP_MAX_WINDOW_SCALE)] := by
  refine .nop_append (tlv _ (by decide) (by decide) rfl rfl fun it => ?_)
  unfold decode
  have hcap : min (min w TCP_MAX_WINDOW_SCALE) TCP_MAX_WINDOW_SCALE =
      min w TCP_MAX_WINDOW_SCALE := by grind
  rw [if_neg (by decide), if_pos rfl, if_pos (by rfl)]
  simp [hcap]

theorem sackPermitted : Spells sackPermittedOption [.sackPermitted] := by
  refine .nop_append (.nop_append ?_)
  refine tlv _ (by decide) (by decide) rfl rfl fun it => ?_
  unfold decode
  rw [if_neg (by decide), if_neg (by decide), if_pos rfl, if_pos (by rfl)]

theorem timestamp (t : Option TcpTimestampOption) :
    Spells (tcpTimestampOption t) [.timestamp (t.getD ⟨0, 0⟩)] := by
  rw [tcpTimestampOption]
  obtain ⟨tsval, tsecr⟩ := t.getD ⟨0, 0⟩
  refine .nop_append (.nop_append ?_)
  refine tlv (toBe32 tsval ++ toBe32 tsecr) (by decide) (by decide) rfl rfl fun it => ?_
  have h1 : u32At ([TCP_OPTION_TIMESTAMPS, 10] ++ (toBe32 tsval ++ toBe32 tsecr)) 2 = tsval :=
    (u32At_append_right (l := [TCP_OPTION_TIMESTAMPS, 10]) (i := 0) rfl).trans (u32At_toBe32 tsval)
  have h2 : u32At ([TCP_OPTION_TIMESTAMPS, 10] ++ toBe32 tsval ++ (toBe32 tsecr ++ [])) 6 = tsecr :=
    (u32At_append_right (l := [TCP_OPTION_TIMESTAMPS, 10] ++ toBe32 tsval) (i := 0) rfl).trans
      (u32At_toBe32 tsecr)
  exact congrArg₂ (fun x y => (Except.ok (TcpOption.timestamp ⟨x, y⟩), it)) h1 h2

theorem fastOpen (c : Option TcpFastOpenCookie) :
    Spells (fastOpenOption c) [.fastOpenCookie (c.elim [] (·.asSlice))] := by
  have hvalid : isValidFastOpenOptionLen ((c.elim [] (·.asSlice)).length + 2) = true := by
    cases c with
    | none => rfl
    | some c => simp [isValidFastOpenOptionLen, c.valid]
  have hlen : (c.elim [] (·.asSlice)).length ≤ 16 := by
    cases c with
    | none => exact Nat.zero_le _
    | some c =>
      have := c.valid
      simp only [isValidLen, Bool.and_eq_true, decide_eq_true_eq] at this
      exact this.1.2
  refine tlv (c.elim [] (·.asSlice)) (by decide) (by decide) ?_ rfl fun it => ?_
  · rw [UInt8.toNat_ofNat']
    omega
  · unfold decode
    rw [if_pos hvalid]
    rfl

theorem accurateEcn : Spells accurateEcnOption [.accurateEcn] := by
  refine .nop_append (tlv _ (by decide) (by decide) rfl rfl fun it => ?_)
  unfold decode
  rw [if_neg (by decide), if_neg (by decide), if_neg (by decide), if_neg (by decide),
    if_neg (by decide), if_neg (by decide), if_pos (by decide)]

/-! SACK blocks come out one by one, before the iterator looks at the options again. -/

@[simp] theorem length_sackBlockBytes (b : TcpSackBlock) : (sackBlockBytes b).length = 8 := rfl

theorem length_sackBlocks (bs : List TcpSackBlock) :
    (bs.flatMap sackBlockBytes).length = 8 * bs.length := by
  induction bs with
  | nil => rfl
  | cons b bs ih =>
    rw [flatMap_cons, length_append, ih, length_sackBlockBytes, length_cons]
    ring

theorem readSackBlock_bytes (b : TcpSackBlock) (rest : List UInt8) :
    readSackBlock ((sackBlockBytes b ++ rest).take TCP_OPTION_SACK_BLOCK_BYTES) = b := by
  have htake : (sackBlockBytes b ++ rest).take TCP_OPTION_SACK_BLOCK_BYTES = sackBlockBytes b :=
    take_left' rfl
  have h1 : u32At (sackBlockBytes b) 0 = .ofBitVec b.leftEdge := u32At_toBe32 _
  have h2 : u32At (toBe32 (.ofBitVec b.leftEdge) ++ (toBe32 (.ofBitVec b.rightEdge) ++ [])) 4 =
      .ofBitVec b.rightEdge := (u32At_append_right (i := 0) rfl).trans (u32At_toBe32 _)
  rw [htake, readSackBlock, h1]
  exact congrArg (TcpSackBlock.mk b.leftEdge) (congrArg UInt32.toBitVec h2)

/-- The pending blocks: induction on those not handed out yet. -/
theorem pending (bs : List TcpSackBlock) : ∀ (it : TcpOptionIter) {rest : List UInt8}
    {items : List (Except TcpError TcpOption)},
    it.sackBlocks.drop it.sackOffset = bs.flatMap sackBlockBytes →
    it.finished = false → it.options.drop it.offset = rest →
    (∀ it' : TcpOptionIter, it'.Idle → it'.options.drop it'.offset = rest →
      visible it'.toList = items) →
    visible it.toList = bs.map (.ok ∘ .sackBlock) ++ items := by
  induction bs with
  | nil =>
    intro it rest items hblocks hfin hdrop hrest
    exact hrest it ⟨drop_eq_nil_iff.mp hblocks, hfin⟩ hdrop
  | cons b bs ih =>
    intro it rest items hblocks hfin hdrop hrest
    have hlt : it.sackOffset < it.sackBlocks.length := by
      have := congrArg length hblocks
      rw [length_drop, length_sackBlocks, length_cons] at this
      omega
    have hnext : it.next = some (.ok (.sackBlock b),
        { it with sackOffset := it.sackOffset + TCP_OPTION_SACK_BLOCK_BYTES }) := by
      unfold TcpOptionIter.next
      rw [if_pos hlt, hblocks, flatMap_cons, readSackBlock_bytes]
    rw [toList_of_some hnext, visible, filter_cons_of_pos (by simp [isPadding])]
    refine congrArg _ (ih _ ?_ hfin hdrop hrest)
    rw [← drop_drop, hblocks]
    exact drop_left' rfl

/-- A SACK option hands out its first block and keeps the bytes of all. -/
theorem decode_sack (it : TcpOptionIter) (lenByte : UInt8) {b : TcpSackBlock}
    {bs : List TcpSackBlock} {bytes : List UInt8} (hbytes : bytes = (b :: bs).flatMap sackBlockBytes)
    (hle : bytes.length ≤ 32) :
    it.decode TCP_OPTION_SACK (bytes.length + 2) (TCP_OPTION_SACK :: lenByte :: bytes) =
      (.ok (.sackBlock b), { it with
        sackBlocks := bytes
        sackOffset := TCP_OPTION_SACK_BLOCK_BYTES }) := by
  have hvalid : isValidSackOptionLen (bytes.length + 2) = true := by
    simp [hbytes, isValidSackOptionLen, TCP_OPTION_SACK_BLOCK_BYTES]
  have hall : bytes.take (min (bytes.length + 2 - 2)
      (TCP_MAX_SACK_BLOCKS * TCP_OPTION_SACK_BLOCK_BYTES)) = bytes := by
    rw [TCP_MAX_SACK_BLOCKS, TCP_OPTION_SACK_BLOCK_BYTES]
    exact take_of_length_le (by omega)
  unfold decode
  rw [if_neg (by decide), if_neg (by decide), if_neg (by decide), if_pos rfl, if_pos hvalid]
  simp only [drop_succ_cons, drop_zero, hall]
  rw [hbytes, flatMap_cons, readSackBlock_bytes]

theorem sack {bs : List TcpSackBlock} (hne : bs ≠ []) (hle : bs.length ≤ TCP_MAX_SACK_BLOCKS) :
    Spells (sackOption bs) (bs.map .sackBlock) := by
  refine .nop_append (.nop_append ?_)
  obtain ⟨b, bs, rfl⟩ := exists_cons_of_ne_nil hne
  have hlen := length_sackBlocks (b :: bs)
  simp only [TCP_MAX_SACK_BLOCKS, length_cons] at hle hlen
  intro it rest items hidle hdrop hrest
  have hbyte : (UInt8.ofNat (2 + (b :: bs).length * TCP_OPTION_SACK_BLOCK_BYTES)).toNat =
      ((b :: bs).flatMap sackBlockBytes).length + 2 := by
    rw [UInt8.toNat_ofNat', length_cons, TCP_OPTION_SACK_BLOCK_BYTES]
    omega
  have hnext := next_tlv (by decide) (by decide) hbyte hidle hdrop
  rw [decode_sack _ _ rfl (by omega)] at hnext
  rw [toList_of_some hnext, map_cons, map_cons, map_map]
  refine congrArg _ (pending bs _ ?_ ?_ ?_ hrest)
  · exact drop_left' rfl
  · exact hidle.unfinished
  · exact drop_advance hdrop

end Spells

/-- The options the writer encodes, in the order it encodes them. -/
def encodedOptions (header : TcpSegmentHeader) (sackBlocks : Option (List TcpSackBlock)) :
    List TcpOption :=
  if header.flags.syn then
    header.capabilities.maxSegmentSize.elim [] (fun v => [.maximumSegmentSize v]) ++
    header.capabilities.windowScale.elim []
      (fun w => [.windowScale (min w TCP_MAX_WINDOW_SCALE)]) ++
    (if header.capabilities.sack then [.sackPermitted] else []) ++
    (if header.capabilities.timestamps then [.timestamp (header.timestamp.getD ⟨0, 0⟩)] else []) ++
    (if header.capabilities.fastOpen then
      [.fastOpenCookie (header.fastOpenCookie.elim [] (·.asSlice))] else []) ++
    (if header.capabilities.accurateEcn then [.accurateEcn] else [])
  else if header.flags.ack then
    (if header.capabilities.timestamps then [.timestamp (header.timestamp.getD ⟨0, 0⟩)] else []) ++
    sackBlocks.elim [] fun blocks => (blocks.take TCP_MAX_SACK_BLOCKS).map .sackBlock
  else []

theorem spells_limited (blocks : List TcpSackBlock) :
    Spells (let limited := blocks.take (min blocks.length TCP_MAX_SACK_BLOCKS)
      if limited.length ≠ 0 then sackOption limited else [])
      ((blocks.take TCP_MAX_SACK_BLOCKS).map .sackBlock) := by
  have htake : blocks.take (min blocks.length TCP_MAX_SACK_BLOCKS) =
      blocks.take TCP_MAX_SACK_BLOCKS := by
    rcases Nat.le_total blocks.length TCP_MAX_SACK_BLOCKS with h | h
    · rw [Nat.min_eq_left h, take_length, take_of_length_le h]
    · rw [Nat.min_eq_right h]
  rw [htake]
  dsimp only
  split
  · rename_i hne
    exact .sack (ne_nil_of_length_pos (Nat.pos_of_ne_zero hne)) (length_take_le ..)
  · rename_i hnil
    rw [length_eq_zero_iff.mp (not_not.mp hnil)]
    exact .nil

theorem spells_written (header : TcpSegmentHeader) (sackBlocks : Option (List TcpSackBlock)) :
    Spells (writtenOptions header sackBlocks) (encodedOptions header sackBlocks) := by
  unfold writtenOptions encodedOptions
  split
  · refine .append (.append (.append (.append (.append ?_ ?_) ?_) ?_) ?_) ?_
    · exact .elim .mss _
    · exact .elim .windowScale _
    · exact .ite .sackPermitted
    · exact .ite (.timestamp _)
    · exact .ite (.fastOpen _)
    · exact .ite .accurateEcn
  · split
    · refine .append (.ite (.timestamp _)) ?_
      exact .elim spells_limited _
    · exact .nil

theorem visible_padding (n : ℕ) {it : TcpOptionIter} (hidle : it.Idle)
    (hdrop : it.options.drop it.offset = replicate n TCP_OPTION_EOL) :
    visible it.toList = [] := by
  cases n with
  | zero =>
    have hnone : it.next = none := by
      unfold TcpOptionIter.next
      rw [if_neg (Nat.not_lt.mpr hidle.blocks), hidle.unfinished, hdrop]
      rfl
    rw [toList_of_none hnone]
    rfl
  | succ n =>
    have hnext := next_idle hidle hdrop
    have hend : ({ it with finished := true } : TcpOptionIter).next = none := by
      unfold TcpOptionIter.next
      rw [if_neg (Nat.not_lt.mpr hidle.blocks)]
      rfl
    rw [toList_of_some hnext]
    rw [toList_of_none hend]
    rfl

theorem writeTcpOptions_read {outputLen : ℕ} {header : TcpSegmentHeader}
    {sackBlocks : Option (List TcpSackBlock)} {options : List UInt8}
    (h : writeTcpOptions outputLen header sackBlocks = some options) :
    options.length = outputLen ∧
      visible (new options).toList = (encodedOptions header sackBlocks).map .ok := by
  simp only [writeTcpOptions] at h
  split at h
  · cases h
  · obtain rfl := by simpa using h
    refine ⟨by simp; omega, ?_⟩
    set n := outputLen - (writtenOptions header sackBlocks).length
    have := spells_written header sackBlocks
      (.new (writtenOptions header sackBlocks ++ replicate n TCP_OPTION_EOL))
      (replicate n TCP_OPTION_EOL) [] ⟨le_rfl, rfl⟩ rfl
      fun it hidle hdrop => visible_padding n hidle hdrop
    rwa [append_nil] at this

theorem tcpDataOffsetFlags_bytes {headerLen : ℕ} (hle : headerLen ≤ 60) (f : TcpSegmentFlags) :
    (tcpDataOffsetFlags headerLen f >>> 8).toUInt8.toNat = headerLen / 4 * 16 + f.ns.toNat ∧
      (tcpDataOffsetFlags headerLen f).toUInt8.toNat = f.bits % 256 := by
  have hns : f.ns.toNat ≤ 1 := f.ns.toNat_le
  have hnat : (tcpDataOffsetFlags headerLen f).toNat =
      headerLen / 4 * 4096 + f.ns.toNat * 256 + f.bits % 256 := by
    rw [tcpDataOffsetFlags, UInt16.toNat_ofNat']
    omega
  constructor
  · simp [Nat.shiftRight_eq_div_pow]
    omega
  · rw [UInt16.toNat_toUInt8]
    omega

theorem flags_of_bits : ∀ fin syn rst psh ack urg ece cwr ns : Bool,
    let second := TcpSegmentFlags.bits ⟨fin, syn, rst, psh, ack, urg, ece, cwr, ns⟩ % 256
    second.testBit 0 = fin ∧ second.testBit 1 = syn ∧ second.testBit 2 = rst ∧
      second.testBit 3 = psh ∧ second.testBit 4 = ack ∧ second.testBit 5 = urg ∧
      second.testBit 6 = ece ∧ second.testBit 7 = cwr := by
  decide +kernel

theorem headerBytes_read (header : TcpSegmentHeader) (headerLen : ℕ) (hle : headerLen ≤ 60)
    (hmod : headerLen % 4 = 0) :
    let h : TcpHeader := ⟨headerBytes header headerLen⟩
    h.headerLen = headerLen ∧ h.sourcePort = header.sourcePort ∧
      h.destinationPort = header.destinationPort ∧ h.sequenceNumber = header.sequenceNumber ∧
      h.acknowledgmentNumber = header.acknowledgmentNumber ∧ h.flags = header.flags ∧
      h.advertisedWindow = header.advertisedWindow ∧ h.urgentPointer = header.urgentPointer := by
  obtain ⟨h1, h2⟩ := tcpDataOffsetFlags_bytes hle header.flags
  have hns : header.flags.ns.toNat ≤ 1 := header.flags.ns.toNat_le
  have b12 : byteAt (headerBytes header headerLen) 12 =
      headerLen / 4 * 16 + header.flags.ns.toNat := h1
  have b13 : byteAt (headerBytes header headerLen) 13 = header.flags.bits % 256 := h2
  refine ⟨?_, ?_, ?_, ?_, ?_, ?_, ?_, ?_⟩
  · rw [TcpHeader.headerLen, b12]
    omega
  · exact u16At_toBe16 header.sourcePort
  · exact u16At_toBe16 (l := []) header.destinationPort
  · exact u32At_toBe32 (l := []) header.sequenceNumber
  · exact u32At_toBe32 (l := []) header.acknowledgmentNumber
  · generalize header.flags = f at b12 b13
    obtain ⟨fin, syn, rst, psh, ack, urg, ece, cwr, ns⟩ := f
    obtain ⟨f0, f1, f2, f3, f4, f5, f6, f7⟩ := flags_of_bits fin syn rst psh ack urg ece cwr ns
    have hns : (headerLen / 4 * 16 + ns.toNat).testBit 0 = ns := by
      rw [Nat.testBit_zero]
      cases ns with
      | false => exact decide_eq_false (by simp only [Bool.toNat_false]; omega)
      | true => exact decide_eq_true (by simp only [Bool.toNat_true]; omega)
    simp only [TcpHeader.flags, b12, b13, hns, f0, f1, f2, f3, f4, f5, f6, f7]
  · exact u16At_toBe16 (l := []) header.advertisedWindow
  · exact u16At_toBe16 (l := []) header.urgentPointer

theorem length_ite (b : Bool) {n : ℕ} (h : bytes.length = n) :
    (if b then bytes else []).length = if b then n else 0 := by
  cases b with
  | false => rfl
  | true => exact h

theorem length_elim {α : Type} {f : α → List UInt8} {n : ℕ} (h : ∀ a, (f a).length = n)
    (x : Option α) : (x.elim [] f).length = if x.isSome then n else 0 := by
  cases x with
  | none => rfl
  | some a => exact h a

theorem length_sackPermittedOption : sackPermittedOption.length = 4 := rfl

theorem length_tcpTimestampOption (t : Option TcpTimestampOption) :
    (tcpTimestampOption t).length = 12 := rfl

theorem length_accurateEcnOption : accurateEcnOption.length = 3 := rfl

theorem length_fastOpenOption (c : Option TcpFastOpenCookie) :
    (fastOpenOption c).length = 2 + c.elim 0 (·.asSlice.length) := by
  cases c with
  | none => rfl
  | some c =>
    simp only [fastOpenOption, Option.elim_some, length_append, length_cons, length_nil]

theorem length_sackOption (bs : List TcpSackBlock) :
    (sackOption bs).length = 4 + bs.length * TCP_OPTION_SACK_BLOCK_BYTES := by
  rw [sackOption, length_append, Spells.length_sackBlocks, Nat.mul_comm]
  rfl

theorem written_length_le (header : TcpSegmentHeader) (sackBlocks : Option (List TcpSackBlock)) :
    (writtenOptions header sackBlocks).length ≤ tcpOptionsLen header sackBlocks := by
  have hround : ∀ n, n ≤ roundTcpOptionsLen n := fun n => by
    rw [roundTcpOptionsLen]
    omega
  have htime := length_ite header.capabilities.timestamps
    (length_tcpTimestampOption header.timestamp)
  unfold writtenOptions tcpOptionsLen
  cases header.flags.syn with
  | true =>
    refine le_trans (le_of_eq ?_) (hround _)
    have h1 := length_elim (f := mssOption) (n := 4) (fun _ => rfl)
    have h2 := length_elim (f := windowScaleOption) (n := 4) (fun _ => rfl)
    have h3 := length_ite header.capabilities.sack length_sackPermittedOption
    have h4 := length_ite header.capabilities.accurateEcn length_accurateEcnOption
    simp only [if_true, length_append, h1, h2, h3, h4, htime,
      length_ite _ (length_fastOpenOption header.fastOpenCookie)]
  | false =>
    cases header.flags.ack with
    | false => exact Nat.zero_le _
    | true =>
      refine le_trans (le_of_eq ?_) (hround _)
      simp only [Bool.false_eq_true, if_false, if_true, length_append, htime]
      cases sackBlocks with
      | none => rfl
      | some blocks =>
        have hlimit : (blocks.take (min blocks.length TCP_MAX_SACK_BLOCKS)).length =
            limitedSackLen (some blocks) := by
          rw [length_take]
          show _ = min blocks.length TCP_MAX_SACK_BLOCKS
          omega
        simp only [Option.elim_some, hlimit]
        by_cases hzero : limitedSackLen (some blocks) = 0
        · rw [if_neg (not_not.mpr hzero), if_neg (not_not.mpr hzero)]
          rfl
        · rw [if_pos hzero, if_pos hzero, length_sackOption, hlimit]

theorem headerLen_mod_four (header : TcpSegmentHeader)
    (sackBlocks : Option (List TcpSackBlock)) : header.headerLen sackBlocks % 4 = 0 := by
  unfold TcpSegmentHeader.headerLen tcpOptionsLen roundTcpOptionsLen TCP_HEADER_MIN_LEN
  split_ifs <;> omega

/-- Writing never runs past the option area. -/
theorem writeTcpOptions_isSome (header : TcpSegmentHeader)
    (sackBlocks : Option (List TcpSackBlock)) :
    ∃ options, writeTcpOptions (header.headerLen sackBlocks - TCP_HEADER_MIN_LEN) header
      sackBlocks = some options := by
  have hlen := written_length_le header sackBlocks
  rw [writeTcpOptions, TcpSegmentHeader.headerLen, Nat.add_sub_cancel_left,
    if_neg (Nat.not_lt.mpr hlen)]
  exact ⟨_, rfl⟩

/-- Every header of at most 60 bytes is written into any buffer that has room for it, and what was
written is read back field by field and option by option, with nothing but padding beside. -/
theorem header_round_trip (header : TcpSegmentHeader) (output : List UInt8)
    (sackBlocks : Option (List TcpSackBlock)) :
    (header.writeToBuffer output sackBlocks).isSome ∧
    (header.headerLen sackBlocks ≤ 60 → header.headerLen sackBlocks ≤ output.length →
      ∃ written, header.writeToBuffer output sackBlocks =
        some (.ok (written, header.headerLen sackBlocks))) ∧
    ∀ written n, header.writeToBuffer output sackBlocks = some (.ok (written, n)) →
      n = header.headerLen sackBlocks ∧ written.length = output.length ∧
      written.drop n = output.drop n ∧
      ∃ h, tcpHeader written = .ok h ∧ h.headerLen = n ∧
        h.sourcePort = header.sourcePort ∧ h.destinationPort = header.destinationPort ∧
        h.sequenceNumber = header.sequenceNumber ∧
        h.acknowledgmentNumber = header.acknowledgmentNumber ∧ h.flags = header.flags ∧
        h.advertisedWindow = header.advertisedWindow ∧ h.urgentPointer = header.urgentPointer ∧
        visible (TcpOptionIter.new ((written.take n).drop TCP_HEADER_MIN_LEN)).toList =
          (encodedOptions header sackBlocks).map .ok := by
  obtain ⟨options, hopts⟩ := writeTcpOptions_isSome header sackBlocks
  have hmod := headerLen_mod_four header sackBlocks
  have hmin : header.headerLen sackBlocks = 20 + tcpOptionsLen header sackBlocks := rfl
  refine ⟨?_, ?_, ?_⟩
  · unfold TcpSegmentHeader.writeToBuffer
    dsimp only
    rw [hopts]
    split <;> rfl
  · intro hle hroom
    unfold TcpSegmentHeader.writeToBuffer
    dsimp only
    rw [if_neg (by omega), hopts]
    exact ⟨_, rfl⟩
  · intro written n hw
    unfold TcpSegmentHeader.writeToBuffer at hw
    dsimp only at hw
    split at hw
    · cases hw
    · obtain ⟨options, hopts, hw⟩ := Option.map_eq_some_iff.mp hw
      obtain ⟨rfl, rfl⟩ := Prod.mk.inj (Except.ok.inj hw)
      obtain ⟨holen, hread⟩ := writeTcpOptions_read hopts
      set n := header.headerLen sackBlocks with hn
      have hb : (headerBytes header n).length = 20 := rfl
      have hpre : (headerBytes header n ++ options).length = n := by
        rw [List.length_append, holen, TCP_HEADER_MIN_LEN]
        omega
      have htake : (headerBytes header n ++ options ++ output.drop n).take 20 =
          headerBytes header n := by
        exact List.take_left' hb
      obtain ⟨r1, r⟩ := headerBytes_read header n (by omega) (by omega)
      refine ⟨rfl, ?_, List.drop_left' hpre, ⟨headerBytes header n⟩, ?_, r1, ?_⟩
      · rw [List.length_append, List.length_drop]
        omega
      · have hlong : n ≤ (headerBytes header n ++ options ++ output.drop n).length := by
          rw [List.length_append, hpre]
          exact Nat.le_add_right ..
        unfold tcpHeader
        simp only [TCP_HEADER_MIN_LEN, htake, r1]
        rw [if_neg (by omega), if_neg (by omega), if_neg (by omega)]
      · refine ⟨r.1, r.2.1, r.2.2.1, r.2.2.2.1, r.2.2.2.2.1, r.2.2.2.2.2.1, r.2.2.2.2.2.2, ?_⟩
        rw [List.take_left' hpre]
        exact hread

theorem header_round_trip_syn :
    let header : TcpSegmentHeader := ⟨443, 1024, 7, 0, .SYN, 65535, 0,
      ⟨some 1460, some 20, true, true, false, false, false⟩, none, none⟩
    ∃ written h, header.writeToBuffer (replicate 64 0) none = some (.ok (written, 44)) ∧
      tcpHeader written = .ok h ∧ h.flags = .SYN ∧
      visible (TcpOptionIter.new ((written.take 44).drop TCP_HEADER_MIN_LEN)).toList =
        [.ok (.maximumSegmentSize 1460), .ok (.windowScale 14), .ok .sackPermitted,
          .ok (.timestamp ⟨0, 0⟩)] := by
  intro header
  obtain ⟨-, hok, hread⟩ := header_round_trip header (replicate 64 0) none
  have hlen : header.headerLen none = 44 := by decide
  have henc : encodedOptions header none = [.maximumSegmentSize 1460, .windowScale 14,
      .sackPermitted, .timestamp ⟨0, 0⟩] := by decide
  rw [hlen] at hok
  rw [henc] at hread
  obtain ⟨written, hw⟩ := hok (by decide) (by decide)
  obtain ⟨-, -, -, h, hh, -, -, -, -, -, hflags, -, -, hopts⟩ := hread _ _ hw
  exact ⟨written, h, hw, hh, hflags, hopts⟩

end TcpCodec
