import Mathlib.Data.List.GetD
import Mathlib.Data.Nat.Basic

/-! # A FIFO for a stream

A bounded FIFO that takes bytes in order at its tail and out of order beyond it. Positions count
from the first byte ever written. Storage behind the tail may be refused at any write.
-/

/-- The positions from `tail` on that are filled were written out of order. -/
@[ext] structure StreamFifo (α : Type*) where
  size : ℕ
  head : ℕ
  tail : ℕ
  cell : ℕ → Option α
  head_le_tail : head ≤ tail
  tail_le : tail ≤ head + size
  filled : ∀ i < tail, (cell i).isSome
  gap : cell tail = none
  bounded : ∀ i, head + size ≤ i → cell i = none

namespace StreamFifo

open List

variable {α : Type*}

def fill (cell : ℕ → Option α) (start : ℕ) (bytes : List α) : ℕ → Option α := fun i =>
  if start ≤ i ∧ i < start + bytes.length then bytes[i - start]? else cell i

variable {start : ℕ}

section

variable {cell : ℕ → Option α} {i : ℕ} {bytes : List α}

theorem fill_inside (h1 : start ≤ i) (h2 : i < start + bytes.length) :
    fill cell start bytes i = bytes[i - start]? :=
  if_pos ⟨h1, h2⟩

theorem fill_outside (h : i < start ∨ start + bytes.length ≤ i) :
    fill cell start bytes i = cell i :=
  if_neg (by omega)

theorem fill_isSome (h : (cell i).isSome) : (fill cell start bytes i).isSome := by
  by_cases hin : start ≤ i ∧ i < start + bytes.length
  · rw [fill_inside hin.1 hin.2]
    simp
    omega
  · rw [fill_outside (by omega)]
    exact h

theorem fill_isSome_inside (h1 : start ≤ i) (h2 : i < start + bytes.length) :
    (fill cell start bytes i).isSome := by
  rw [fill_inside h1 h2]
  simp
  omega

end

/-- The first empty cell from a position on, among the next `fuel` cells. -/
def runEnd (cell : ℕ → Option α) : ℕ → ℕ → ℕ
  | 0, i => i
  | fuel + 1, i => if (cell i).isSome then runEnd cell fuel (i + 1) else i

/-- The first cell of the filled run that ends before a position. -/
def runStart (cell : ℕ → Option α) : ℕ → ℕ
  | 0 => 0
  | i + 1 => if (cell i).isSome then runStart cell i else i + 1

section

variable (cell : ℕ → Option α)

theorem le_runEnd (fuel i : ℕ) : i ≤ runEnd cell fuel i := by
  induction fuel generalizing i with
  | zero => exact le_rfl
  | succ fuel ih =>
    unfold runEnd
    split
    · have := ih (i + 1)
      omega
    · exact le_rfl

theorem runEnd_le (fuel i : ℕ) : runEnd cell fuel i ≤ i + fuel := by
  induction fuel generalizing i with
  | zero => exact le_rfl
  | succ fuel ih =>
    unfold runEnd
    split
    · have := ih (i + 1)
      omega
    · omega

theorem filled_of_lt_runEnd {fuel i j : ℕ} (h1 : i ≤ j) (h2 : j < runEnd cell fuel i) :
    (cell j).isSome := by
  induction fuel generalizing i with
  | zero =>
    unfold runEnd at h2
    omega
  | succ fuel ih =>
    unfold runEnd at h2
    split at h2
    · next hi =>
      rcases Nat.eq_or_lt_of_le h1 with rfl | hlt
      · exact hi
      · exact ih hlt h2
    · omega

theorem gap_runEnd {fuel i : ℕ} (h : cell (i + fuel) = none) :
    cell (runEnd cell fuel i) = none := by
  induction fuel generalizing i with
  | zero => exact h
  | succ fuel ih =>
    unfold runEnd
    split
    · apply ih
      rw [← h]
      congr 1
      omega
    · next hi => simpa using hi

end

inductive FifoError where
  | outOfOrderCapacityExceeded
  | segmentExhausted
  deriving DecidableEq

structure OooResult where
  accepted : ℕ
  delivered : ℕ
  newest : Option (ℕ × ℕ)
  deriving DecidableEq

def empty (size : ℕ) : StreamFifo α where
  size := size
  head := 0
  tail := 0
  cell := fun _ => none
  head_le_tail := le_rfl
  tail_le := by omega
  filled := by simp
  gap := rfl
  bounded := fun _ _ => rfl

def maxDequeue (f : StreamFifo α) : ℕ := f.tail - f.head

def maxEnqueue (f : StreamFifo α) : ℕ := f.size - f.maxDequeue

theorem tail_add_maxEnqueue (f : StreamFifo α) : f.tail + f.maxEnqueue = f.head + f.size := by
  have h1 := f.head_le_tail
  have h2 := f.tail_le
  unfold maxEnqueue maxDequeue
  omega

def contents (f : StreamFifo α) : List α :=
  (List.range' f.head f.maxDequeue).filterMap f.cell

/-- The bytes taken in order since the start, those already consumed among them. -/
def received (f : StreamFifo α) : List α := (List.range f.tail).filterMap f.cell

/-- Append at the tail what fits and has storage, and pass over what is already there. -/
def append (f : StreamFifo α) (bytes : List α) (h : bytes.length ≤ f.maxEnqueue) :
    StreamFifo α where
  size := f.size
  head := f.head
  tail := runEnd (fill f.cell f.tail bytes) (f.maxEnqueue - bytes.length) (f.tail + bytes.length)
  cell := fill f.cell f.tail bytes
  head_le_tail := by
    have h1 := f.head_le_tail
    have h2 := le_runEnd (fill f.cell f.tail bytes) (f.maxEnqueue - bytes.length)
      (f.tail + bytes.length)
    omega
  tail_le := by
    have h1 := f.tail_add_maxEnqueue
    have h2 := runEnd_le (fill f.cell f.tail bytes) (f.maxEnqueue - bytes.length)
      (f.tail + bytes.length)
    omega
  filled := by
    intro i hi
    by_cases h1 : i < f.tail
    · exact fill_isSome (f.filled i h1)
    · by_cases h2 : i < f.tail + bytes.length
      · exact fill_isSome_inside (by omega) h2
      · exact filled_of_lt_runEnd _ (by omega) hi
  gap := by
    apply gap_runEnd
    have h1 := f.tail_add_maxEnqueue
    rw [fill_outside (by omega)]
    exact f.bounded _ (by omega)
  bounded := by
    intro i hi
    have h1 := f.tail_add_maxEnqueue
    rw [fill_outside (by omega)]
    exact f.bounded i hi

def place (f : StreamFifo α) (offset : ℕ) (bytes : List α) (h0 : offset ≠ 0)
    (h : offset + bytes.length ≤ f.maxEnqueue) : StreamFifo α where
  size := f.size
  head := f.head
  tail := f.tail
  cell := fill f.cell (f.tail + offset) bytes
  head_le_tail := f.head_le_tail
  tail_le := f.tail_le
  filled := fun i hi => fill_isSome (f.filled i hi)
  gap := by
    rw [fill_outside (by omega)]
    exact f.gap
  bounded := by
    intro i hi
    have h1 := f.tail_add_maxEnqueue
    rw [fill_outside (by omega)]
    exact f.bounded i hi

/-- The number of bytes taken and of those passed over; `backed` bytes past the tail have storage
once the FIFO has asked for more. -/
def enqueueInOrder (f : StreamFifo α) (backed : ℕ) (bytes : List α) : StreamFifo α × ℕ × ℕ :=
  let toWrite := min (min bytes.length f.maxEnqueue) backed
  if toWrite = 0 then (f, 0, 0)
  else
    have h : (bytes.take toWrite).length ≤ f.maxEnqueue := by
      rw [List.length_take]
      omega
    let g := f.append (bytes.take toWrite) h
    (g, toWrite, g.tail - (f.tail + toWrite))

/-- The run that a write out of order made or extended, relative to the tail. -/
def newestAfter (f : StreamFifo α) (offset length : ℕ) (cell : ℕ → Option α) : Option (ℕ × ℕ) :=
  if (List.range' (f.tail + offset) length).all fun i => (f.cell i).isSome then none
  else
    let start := runStart cell (f.tail + offset)
    some (start - f.tail, runEnd cell (f.maxEnqueue - offset) (f.tail + offset) - start)

def enqueueOoo (f : StreamFifo α) (backed offset : ℕ) (bytes : List α) :
    Except FifoError (StreamFifo α × OooResult) :=
  if h0 : offset = 0 then
    let (g, accepted, delivered) := f.enqueueInOrder backed bytes
    .ok (g, ⟨accepted, delivered, none⟩)
  else if h : offset + bytes.length ≤ f.maxEnqueue then
    if offset + bytes.length ≤ backed then
      let g := f.place offset bytes h0 h
      .ok (g, ⟨bytes.length, 0, f.newestAfter offset bytes.length g.cell⟩)
    else .error .segmentExhausted
  else .error .outOfOrderCapacityExceeded

def dropDequeue (f : StreamFifo α) (length : ℕ) : StreamFifo α :=
  { f with
    head := f.head + min length f.maxDequeue
    head_le_tail := by
      have := f.head_le_tail
      unfold maxDequeue
      omega
    tail_le := by
      have := f.tail_le
      omega
    bounded := fun i hi => f.bounded i (by omega) }

section

variable {f g : StreamFifo α} {backed offset n : ℕ} {bytes : List α} {r : OooResult}

/-- Every stored byte is the byte of the stream at its position. -/
def Agrees (f : StreamFifo α) (stream : List α) : Prop :=
  ∀ i b, f.cell i = some b → stream[i]? = some b

/-- The bytes stand at a position of the stream. -/
def CutAt (stream : List α) (start : ℕ) (bytes : List α) : Prop :=
  ∀ j < bytes.length, stream[start + j]? = bytes[j]?

instance [DecidableEq α] (stream : List α) (start : ℕ) (bytes : List α) :
    Decidable (CutAt stream start bytes) :=
  inferInstanceAs (Decidable (∀ j < bytes.length, stream[start + j]? = bytes[j]?))

variable {stream : List α}

theorem CutAt.take (h : CutAt stream start bytes) (n : ℕ) : CutAt stream start (bytes.take n) := by
  intro j hj
  rw [length_take] at hj
  rw [getElem?_take_of_lt (by omega)]
  exact h j (by omega)

theorem CutAt.drop (h : CutAt stream start bytes) (n : ℕ) :
    CutAt stream (start + n) (bytes.drop n) := by
  intro j hj
  rw [length_drop] at hj
  rw [getElem?_drop, Nat.add_assoc]
  exact h (n + j) (by omega)

theorem agrees_fill {i : ℕ} {b : α} (h : f.Agrees stream)
    (hb : CutAt stream start bytes) (hi : fill f.cell start bytes i = some b) :
    stream[i]? = some b := by
  by_cases hin : start ≤ i ∧ i < start + bytes.length
  · rw [fill_inside hin.1 hin.2] at hi
    have hcut := hb (i - start) (by omega)
    rw [Nat.add_sub_cancel' hin.1] at hcut
    rw [hcut, hi]
  · rw [fill_outside (by omega)] at hi
    exact h i b hi

/-- What `enqueue_ooo` keeps, whatever it accepts. -/
structure Enqueued (f g : StreamFifo α) (offset : ℕ) (bytes : List α) (r : OooResult) : Prop where
  head : g.head = f.head
  size : g.size = f.size
  tail : g.tail = if offset = 0 then f.tail + r.accepted + r.delivered else f.tail
  accepted : r.accepted ≤ bytes.length
  agrees : ∀ stream, f.Agrees stream → CutAt stream (f.tail + offset) bytes → g.Agrees stream

theorem le_append (f : StreamFifo α) (bytes : List α) (h : bytes.length ≤ f.maxEnqueue) :
    f.tail + bytes.length ≤ (f.append bytes h).tail := le_runEnd _ _ _

theorem enqueueInOrder_spec (f : StreamFifo α) (backed : ℕ) (bytes : List α) :
    ∃ g accepted delivered, f.enqueueInOrder backed bytes = (g, accepted, delivered) ∧
      Enqueued f g 0 bytes ⟨accepted, delivered, none⟩ := by
  unfold enqueueInOrder
  dsimp only
  split
  · exact ⟨f, 0, 0, rfl, rfl, rfl, rfl, Nat.zero_le _, fun _ h _ => h⟩
  · next hn =>
    refine ⟨_, _, _, rfl, rfl, rfl, ?_, ?_, ?_⟩
    · have hlen : (bytes.take (min (min bytes.length f.maxEnqueue) backed)).length =
          min (min bytes.length f.maxEnqueue) backed := by
        rw [length_take]
        omega
      have hle := f.le_append (bytes.take (min (min bytes.length f.maxEnqueue) backed)) (by omega)
      rw [if_pos rfl]
      dsimp only
      omega
    · dsimp only
      omega
    · intro stream hf hb i b hi
      exact agrees_fill hf (hb.take _) hi

theorem enqueueInOrder_none (h : (f.enqueueInOrder backed bytes).2.1 = 0) :
    f.enqueueInOrder backed bytes = (f, 0, 0) := by
  unfold enqueueInOrder at h ⊢
  dsimp only at h ⊢
  split at h
  · next hn => rw [if_pos hn]
  · contradiction

theorem enqueueInOrder_room (h : bytes ≠ []) :
    (f.enqueueInOrder backed bytes).2.1 = 0 ↔ f.maxEnqueue = 0 ∨ backed = 0 := by
  have hlen := length_pos_iff.mpr h
  unfold enqueueInOrder
  dsimp only
  split
  · next hn => exact iff_of_true rfl (by omega)
  · next hn => exact iff_of_false hn (by omega)

theorem enqueueOoo_spec (h : f.enqueueOoo backed offset bytes = .ok (g, r)) :
    Enqueued f g offset bytes r := by
  unfold enqueueOoo at h
  split at h
  · next h0 =>
    obtain ⟨g', accepted, delivered, hg, hspec⟩ := f.enqueueInOrder_spec backed bytes
    rw [hg] at h
    cases h
    rw [h0]
    exact { hspec with }
  · split at h
    · split at h
      · cases h
        refine ⟨rfl, rfl, ?_, le_rfl, ?_⟩
        · rw [if_neg (by assumption)]
          rfl
        · intro stream hf hb i b hi
          exact agrees_fill hf hb hi
      · cases h
    · cases h

theorem place_nil (f : StreamFifo α) (h0 : offset ≠ 0)
    (h : offset + ([] : List α).length ≤ f.maxEnqueue) : f.place offset [] h0 h = f := by
  apply StreamFifo.ext
  · rfl
  · rfl
  · rfl
  · funext i
    exact fill_outside (by rw [length_nil]; omega)

theorem enqueueOoo_nil (f : StreamFifo α) (backed : ℕ) (h : offset ≠ 0) :
    (∃ error, f.enqueueOoo backed offset [] = .error error) ∨
      ∃ r, f.enqueueOoo backed offset [] = .ok (f, r) ∧ r.accepted = 0 := by
  unfold enqueueOoo
  rw [dif_neg h]
  split
  · split
    · rw [f.place_nil h]
      exact Or.inr ⟨_, rfl, rfl⟩
    · exact Or.inl ⟨_, rfl⟩
  · exact Or.inl ⟨_, rfl⟩

theorem agrees_empty (size : ℕ) (stream : List α) : (empty size).Agrees stream := by
  intro i b h
  cases h

theorem Agrees.cell (h : f.Agrees stream) {i : ℕ} (hi : i < f.tail) : f.cell i = stream[i]? := by
  obtain ⟨b, hb⟩ := Option.isSome_iff_exists.mp (f.filled i hi)
  rw [hb, h i b hb]

theorem Agrees.tail_le_length (h : f.Agrees stream) : f.tail ≤ stream.length := by
  by_contra hlt
  have hcell := h.cell (Nat.lt_of_not_le hlt)
  rw [getElem?_eq_none le_rfl] at hcell
  have hsome := f.filled _ (Nat.lt_of_not_le hlt)
  rw [hcell] at hsome
  cases hsome

theorem Agrees.received (h : f.Agrees stream) : f.received = stream.take f.tail := by
  have htake (n : ℕ) (hn : n ≤ f.tail) : (range n).filterMap f.cell = stream.take n := by
    induction n with
    | zero => rfl
    | succ n ih =>
      rw [range_succ, filterMap_append, ih (by omega), take_add_one, ← h.cell (by omega)]
      cases hc : f.cell n <;> simp [hc]
  exact htake f.tail le_rfl

theorem contents_eq (f : StreamFifo α) : f.contents = f.received.drop f.head := by
  have hle := f.head_le_tail
  have hsplit : range f.tail = range f.head ++ range' f.head f.maxDequeue := by
    rw [range_eq_range', range_eq_range']
    have := range'_append_1 (s := 0) (m := f.head) (n := f.tail - f.head)
    rw [Nat.zero_add, Nat.add_sub_cancel' hle] at this
    exact this.symm
  have hlength (n : ℕ) (hn : n ≤ f.tail) : ((range n).filterMap f.cell).length = n := by
    induction n with
    | zero => rfl
    | succ n ih =>
      obtain ⟨b, hb⟩ := Option.isSome_iff_exists.mp (f.filled n (by omega))
      rw [range_succ, filterMap_append, length_append, ih (by omega)]
      simp [hb]
  unfold StreamFifo.received
  rw [hsplit, filterMap_append, drop_left' (hlength f.head hle)]
  rfl

theorem Agrees.dropDequeue (h : f.Agrees stream) (n : ℕ) : (f.dropDequeue n).Agrees stream := h

end

end StreamFifo
