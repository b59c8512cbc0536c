import Mathlib.Data.List.Rotate

/-! # The queue of two vectors

The head of the queue is kept in reverse order, so that a pop takes the last element of a vector.
-/
structure FifoQueue (α : Type*) where
  front : List α
  back : List α

namespace FifoQueue

open List

variable {α : Type*}

def len (q : FifoQueue α) : ℕ := q.front.length + q.back.length

def pushBack (q : FifoQueue α) (value : α) : FifoQueue α := { q with back := q.back ++ [value] }

/-- `rotate_right(1)` of the elements from `start` on. -/
def rotateRightFrom (start : ℕ) (v : List α) : List α :=
  v.take start ++ (v.drop start).rotate ((v.drop start).length - 1)

/-- A failed assertion is `none`, here and below. -/
def insert (q : FifoQueue α) (index : ℕ) (value : α) : Option (FifoQueue α) :=
  if q.len < index then none
  else if index = q.len then some (q.pushBack value)
  else if index < q.front.length then
    some { q with front := rotateRightFrom (q.front.length - index) (q.front ++ [value]) }
  else some { q with back := rotateRightFrom (index - q.front.length) (q.back ++ [value]) }

def get (q : FifoQueue α) (index : ℕ) : Option α :=
  if q.len ≤ index then none
  else if index < q.front.length then q.front[q.front.length - 1 - index]?
  else q.back[index - q.front.length]?

/-- The loop of `move_back_to_front`, with the length of `back` as fuel. -/
def moveBackToFront : ℕ → FifoQueue α → FifoQueue α
  | 0, q => q
  | n + 1, q =>
    match q.back.getLast? with
    | some value => moveBackToFront n ⟨q.front ++ [value], q.back.dropLast⟩
    | none => q

def popFront (q : FifoQueue α) : FifoQueue α × Option α :=
  let q := if q.front.isEmpty then moveBackToFront q.back.length q else q
  ({ q with front := q.front.dropLast }, q.front.getLast?)

def remove (q : FifoQueue α) (index : ℕ) : Option (FifoQueue α × Option α) :=
  if q.len ≤ index then none
  else if index < q.front.length then
    some ({ q with front := q.front.eraseIdx (q.front.length - 1 - index) },
      q.front[q.front.length - 1 - index]?)
  else some ({ q with back := q.back.eraseIdx (index - q.front.length) },
    q.back[index - q.front.length]?)

inductive Op (α : Type*)
  | pushBack (value : α)
  | insert (index : ℕ) (value : α)
  | remove (index : ℕ)
  | popFront
  | get (index : ℕ)

/-- The queue after an operation and what the operation returns. -/
def step (q : FifoQueue α) : Op α → Option (FifoQueue α × Option α)
  | .pushBack value => some (q.pushBack value, none)
  | .insert index value => (q.insert index value).map fun q => (q, none)
  | .remove index => q.remove index
  | .popFront => some q.popFront
  | .get index => some (q, q.get index)

/-- The same operation on a list. -/
def listStep (l : List α) : Op α → Option (List α × Option α)
  | .pushBack value => some (l ++ [value], none)
  | .insert index value =>
    if l.length < index then none else some (l.take index ++ value :: l.drop index, none)
  | .remove index => if l.length ≤ index then none else some (l.eraseIdx index, l[index]?)
  | .popFront => some (l.tail, l.head?)
  | .get index => some (l, l[index]?)

/-- The results of a sequence of operations, and the state at its end. -/
def runWith {σ : Type*} (step : σ → Op α → Option (σ × Option α)) :
    σ → List (Op α) → Option (σ × List (Option α))
  | s, [] => some (s, [])
  | s, op :: ops =>
    (step s op).bind fun (s', r) => (runWith step s' ops).map fun (s'', rs) => (s'', r :: rs)

def toList (q : FifoQueue α) : List α := q.front.reverse ++ q.back

variable {q : FifoQueue α} {index : ℕ} {value : α}

theorem length_toList : q.toList.length = q.len := by simp [toList, len]

theorem rotateRightFrom_concat {l : List α} {start : ℕ} (h : start ≤ l.length) :
    rotateRightFrom start (l ++ [value]) = l.take start ++ value :: l.drop start := by
  rw [rotateRightFrom, take_append_of_le_length h, drop_append_of_le_length h,
    length_append, length_singleton, Nat.add_sub_cancel, rotate_append_length_eq]
  rfl

/-- An operation of the queue read on the list of its elements. -/
def Agrees (q : FifoQueue α) (op : Op α) : Prop :=
  (q.step op).map (fun r => (r.1.toList, r.2)) = listStep q.toList op

theorem agrees_insert : q.Agrees (.insert index value) := by
  have hlen : q.len = q.front.length + q.back.length := rfl
  simp only [Agrees, step, insert, listStep, length_toList]
  split_ifs with h₁ h₂ h₃
  · rfl
  · rw [h₂, ← length_toList, take_length, drop_length]
    simp [toList, pushBack]
  · have hfront : index ≤ q.front.reverse.length := by
      rw [length_reverse]
      omega
    simp only [Option.map_some, toList, rotateRightFrom_concat (Nat.sub_le ..)]
    rw [take_append_of_le_length hfront, drop_append_of_le_length hfront,
      take_reverse, drop_reverse]
    simp
  · have hback : index - q.front.length ≤ q.back.length := by omega
    have hle : q.front.reverse.length ≤ index := by simpa using h₃
    simp only [Option.map_some, toList, rotateRightFrom_concat hback]
    rw [take_append, drop_append, take_of_length_le hle, drop_of_length_le hle]
    simp

theorem get_eq : q.get index = q.toList[index]? := by
  unfold get toList len
  split_ifs with h₁ h₂
  · rw [getElem?_eq_none (by simpa using h₁)]
  · rw [getElem?_append_left (by simpa using h₂), getElem?_reverse h₂]
  · rw [getElem?_append_right (by simpa using h₂), length_reverse]

theorem agrees_remove : q.Agrees (.remove index) := by
  simp only [Agrees, step, remove, listStep, length_toList, ← get_eq, get]
  split_ifs with h₁ h₂
  · rfl
  · have hsucc : q.front.length - 1 - index + 1 = q.front.length - index := by omega
    simp only [Option.map_some, toList]
    rw [eraseIdx_append_of_lt_length (by simpa using h₂), eraseIdx_eq_take_drop_succ,
      eraseIdx_eq_take_drop_succ, take_reverse, drop_reverse, hsucc,
      reverse_append, Nat.sub_sub, Nat.add_comm 1]
  · simp only [Option.map_some, toList]
    rw [eraseIdx_append_of_length_le (by simpa using h₂), length_reverse]

theorem moveBackToFront_eq {n : ℕ} (q : FifoQueue α) (h : q.back.length = n) :
    moveBackToFront n q = ⟨q.front ++ q.back.reverse, []⟩ := by
  obtain ⟨front, back⟩ := q
  induction n generalizing front back with
  | zero =>
    rw [moveBackToFront, show back = [] from length_eq_zero_iff.mp h]
    simp
  | succ n ih =>
    obtain ⟨init, last, rfl⟩ := (eq_nil_or_concat back).resolve_left fun hnil => by
      simp [hnil] at h
    simp [moveBackToFront, ih _ init (by simpa using h)]

theorem agrees_popFront : q.Agrees .popFront := by
  obtain ⟨front, back⟩ := q
  simp only [Agrees, step, popFront, listStep, toList]
  cases front using reverseRecOn with
  | nil => cases back <;> simp [moveBackToFront_eq]
  | append_singleton front last => simp

theorem step_agrees (q : FifoQueue α) (op : Op α) : q.Agrees op := by
  cases op with
  | pushBack value => simp [Agrees, step, listStep, pushBack, toList]
  | insert index value => exact agrees_insert
  | remove index => exact agrees_remove
  | popFront => exact agrees_popFront
  | get index => simp [Agrees, step, listStep, get_eq]

/-- Every sequence of operations returns what it returns on a list, and leaves that list. -/
theorem fifo_queue_is_list (q : FifoQueue α) (ops : List (Op α)) :
    (runWith step q ops).map (fun r => (r.1.toList, r.2)) = runWith listStep q.toList ops := by
  induction ops generalizing q with
  | nil => rfl
  | cons op ops ih =>
    rw [runWith, runWith, ← step_agrees q op]
    cases step q op with
    | none => rfl
    | some r =>
      simp only [Option.bind_some, Option.map_some, ← ih, Option.map_map]
      rfl

end FifoQueue
