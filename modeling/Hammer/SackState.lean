import Hammer.OrderedMap
import Hammer.TcpSeq

/-! # The receiver's SACK state

`transport/tcp/src/sack.rs`. Blocks are keyed by their left edge in an ordered map, and
chained in a recency list through those keys.
-/
namespace SackState

def TCP_MAX_SACK_BLOCKS : ℕ := 255

structure TcpSackRange where
  left : TcpSeq
  right : TcpSeq
  deriving DecidableEq, Repr

structure TcpSackBlockState where
  right : TcpSeq
  prevRecent : Option TcpSeq
  nextRecent : Option TcpSeq
  deriving DecidableEq, Repr

structure TcpSackState where
  blocks : List (TcpSeq × TcpSackBlockState)
  recentHead : Option TcpSeq
  recentTail : Option TcpSeq
  pendingDsack : Option TcpSackRange
  outputPos : ℕ
  deriving DecidableEq, Repr

def TcpSackState.default : TcpSackState := ⟨[], none, none, none, 0⟩

def TcpSackState.get (s : TcpSackState) (left : TcpSeq) : Option TcpSackBlockState :=
  OrderedMap.get TcpSeq.cmp left s.blocks

def TcpSackState.modify (s : TcpSackState) (left : TcpSeq)
    (f : TcpSackBlockState → TcpSackBlockState) : TcpSackState :=
  { s with blocks := OrderedMap.modify TcpSeq.cmp left f s.blocks }

def rangesOverlapOrTouch (left right : TcpSackRange) : Bool :=
  TcpSeq.ge left.right right.left && TcpSeq.ge right.right left.left

def clearBlocks (s : TcpSackState) : TcpSackState :=
  { s with blocks := [], recentHead := none, recentTail := none, outputPos := 0 }

/-- Writes the `next_recent` of the block at `node`, or `recent_head` if there is no node. -/
def setNextRecent (s : TcpSackState) (node value : Option TcpSeq) : TcpSackState :=
  match node with
  | some left => s.modify left fun state => { state with nextRecent := value }
  | none => { s with recentHead := value }

def setPrevRecent (s : TcpSackState) (node value : Option TcpSeq) : TcpSackState :=
  match node with
  | some left => s.modify left fun state => { state with prevRecent := value }
  | none => { s with recentTail := value }

def clampOutputPos (s : TcpSackState) : TcpSackState :=
  if s.outputPos > s.blocks.length then { s with outputPos := 0 } else s

def detachRecent (s : TcpSackState) (state : TcpSackBlockState) : TcpSackState :=
  let s := setNextRecent s state.prevRecent state.nextRecent
  let s := setPrevRecent s state.nextRecent state.prevRecent
  clampOutputPos s

def removeBlock (s : TcpSackState) (left : TcpSeq) : TcpSackState × Option TcpSackRange :=
  match s.get left with
  | none => (s, none)
  | some state =>
    let s := detachRecent s state
    match s.get left with
    | none => (s, none)
    | some state =>
      ({ s with blocks := OrderedMap.erase TcpSeq.cmp left s.blocks }, some ⟨left, state.right⟩)

def renameBlockLeft (s : TcpSackState) (oldLeft newLeft : TcpSeq) : TcpSackState :=
  if TcpSeq.ge oldLeft newLeft || OrderedMap.containsKey TcpSeq.cmp newLeft s.blocks then s
  else
    match s.get oldLeft with
    | none => s
    | some state =>
      let blocks := OrderedMap.erase TcpSeq.cmp oldLeft s.blocks
      let s := { s with blocks := OrderedMap.insert TcpSeq.cmp newLeft state blocks }
      let s := setNextRecent s state.prevRecent (some newLeft)
      setPrevRecent s state.nextRecent (some newLeft)

/-- Each round but the last removes a block, so the number of blocks bounds the rounds. -/
def pruneLoop (rcvNxt : TcpSeq) : ℕ → TcpSackState → TcpSackState
  | 0, s => s
  | fuel + 1, s =>
    match s.blocks.head? with
    | none => s
    | some (left, state) =>
      if TcpSeq.le state.right rcvNxt then pruneLoop rcvNxt fuel (removeBlock s left).1
      else if TcpSeq.lt left rcvNxt then renameBlockLeft s left rcvNxt
      else s

def pruneDelivered (s : TcpSackState) (rcvNxt : TcpSeq) : TcpSackState :=
  pruneLoop rcvNxt (s.blocks.length + 1) s

def insertBlockAsMostRecent (s : TcpSackState) (block : TcpSackRange) : TcpSackState :=
  let previousHead := s.recentHead
  let state : TcpSackBlockState := ⟨block.right, none, s.recentHead⟩
  let s := { s with blocks := OrderedMap.insert TcpSeq.cmp block.left state s.blocks }
  let s := setPrevRecent s previousHead (some block.left)
  { s with recentHead := some block.left, outputPos := 0 }

def trimLoop : ℕ → TcpSackState → TcpSackState
  | 0, s => s
  | fuel + 1, s =>
    if s.blocks.length > TCP_MAX_SACK_BLOCKS then
      match s.recentTail with
      | none => s
      | some left => trimLoop fuel (removeBlock s left).1
    else s

def trimBlockCapacity (s : TcpSackState) : TcpSackState :=
  clampOutputPos (trimLoop s.blocks.length s)

/-- `merged` grown by the block it touches, which leaves the map. `none` is the early return. -/
def absorb (s : TcpSackState) (merged : TcpSackRange) (blockLeft : TcpSeq) :
    TcpSackState × Option TcpSackRange :=
  match removeBlock s blockLeft with
  | (s, none) => (s, none)
  | (s, some removed) =>
    (s, some ⟨TcpSeq.min merged.left removed.left, TcpSeq.max merged.right removed.right⟩)

def absorbExisting (s : TcpSackState) (merged : TcpSackRange) :
    TcpSackState × Option TcpSackRange :=
  match s.get merged.left with
  | some existing =>
    if rangesOverlapOrTouch merged ⟨merged.left, existing.right⟩ then absorb s merged merged.left
    else (s, some merged)
  | none => (s, some merged)

def absorbPredecessor (s : TcpSackState) (merged : TcpSackRange) :
    TcpSackState × Option TcpSackRange :=
  match OrderedMap.predecessor TcpSeq.cmp merged.left s.blocks with
  | some (blockLeft, blockState) =>
    if rangesOverlapOrTouch merged ⟨blockLeft, blockState.right⟩ then absorb s merged blockLeft
    else (s, some merged)
  | none => (s, some merged)

/-- The `loop` over successors; every round removes a block. -/
def absorbSuccessors : ℕ → TcpSackState → TcpSackRange → TcpSackState × Option TcpSackRange
  | 0, s, merged => (s, some merged)
  | fuel + 1, s, merged =>
    match OrderedMap.successor TcpSeq.cmp merged.left s.blocks with
    | none => (s, some merged)
    | some (blockLeft, blockState) =>
      if rangesOverlapOrTouch merged ⟨blockLeft, blockState.right⟩ then
        match absorb s merged blockLeft with
        | (s, none) => (s, none)
        | (s, some merged) => absorbSuccessors fuel s merged
      else (s, some merged)

def updateRange (s : TcpSackState) (enabled : Bool) (rcvNxt left right : TcpSeq) :
    TcpSackState :=
  if !enabled then { clearBlocks s with pendingDsack := none }
  else
    let s := pruneDelivered s rcvNxt
    if TcpSeq.le right left then s
    else
      let merged : TcpSackRange := ⟨TcpSeq.max left rcvNxt, right⟩
      if TcpSeq.le merged.right merged.left then s
      else
        match absorbExisting s merged with
        | (s, none) => s
        | (s, some merged) =>
          match absorbPredecessor s merged with
          | (s, none) => s
          | (s, some merged) =>
            match absorbSuccessors (s.blocks.length + 1) s merged with
            | (s, none) => s
            | (s, some merged) => trimBlockCapacity (insertBlockAsMostRecent s merged)

end SackState
