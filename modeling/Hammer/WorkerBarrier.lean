import Mathlib.Data.Fin.Basic
import Mathlib.Logic.Function.Basic

/-! # The worker barrier

The barrier of `hammer-runtime/src/worker_thread.rs` between the main thread and the Data Workers,
as the atomic steps each of them takes. The main thread arms the barrier before the workers are
launched; a call of it is one step and then polls of the counter it waits for. Graphs are of any
type.
-/

namespace WorkerBarrier

/-- Where a Data Worker stands in `check` and `refork`. -/
inductive Worker where
  | running
  | acknowledge
  | waiting
  | resume
  | testRefork
  | refork
  | reforked
  | awaitOthers
  deriving DecidableEq, Repr

/-- Which count the main thread polls, or which store of `wait_at_barrier` is next. -/
inductive Main where
  | idle
  | initialWait
  | initialRelease
  | syncWait
  | releaseOpen (refork : Bool)
  | releaseWait (refork : Bool)
  | reforkWait
  deriving DecidableEq, Repr

/-- The barrier with its threads. Whether the last round was the initial barrier, the graphs
requested in the open scope and in the scopes that were released, and the graphs each worker has
cloned, are recorded. -/
structure State (n : ℕ) (G : Type*) where
  waitAtBarrier : Bool
  workersAtBarrier : ℕ
  nodeReforksRequired : ℕ
  barrierRecursion : ℕ
  nodeRuntime : Option G
  main : Main
  workers : Fin n → Worker
  afterInitial : Bool
  requests : List G
  scopes : List (List G)
  clones : Fin n → List G

variable {n : ℕ} {G : Type*}

namespace State

def new (n : ℕ) (G : Type*) : State n G :=
  ⟨false, 0, 0, 0, none, .idle, fun _ => .running, false, [], [], fun _ => []⟩

def arm (s : State n G) : Option (State n G) :=
  if s.waitAtBarrier then none else some { s with waitAtBarrier := true }

def threadCount (_ : State n G) : ℕ := n + 1

def initialBarrierSyncAndRelease (s : State n G) : State n G :=
  if s.threadCount - 1 = 0 then s
  else { s with waitAtBarrier := true, main := .initialWait, afterInitial := true }

def sync (s : State n G) : State n G :=
  if s.threadCount < 2 then s
  else if 1 < s.barrierRecursion + 1 then
    { s with barrierRecursion := s.barrierRecursion + 1 }
  else
    { s with
      barrierRecursion := s.barrierRecursion + 1
      waitAtBarrier := true
      main := .syncWait
      afterInitial := false }

/-- `release` up to the store that opens the barrier. -/
def release (s : State n G) : Option (State n G) :=
  if s.threadCount < 2 then some s
  else if s.barrierRecursion = 0 then none
  else if 1 < s.barrierRecursion then
    some { s with barrierRecursion := s.barrierRecursion - 1 }
  else
    let closed : State n G :=
      { s with
        barrierRecursion := s.barrierRecursion - 1
        main := .releaseOpen s.nodeRuntime.isSome
        requests := []
        scopes := s.scopes ++ [s.requests] }
    if s.nodeRuntime.isSome then
      if s.nodeReforksRequired ≠ 0 then none
      else some { closed with nodeReforksRequired := s.nodeReforksRequired + n }
    else some closed

def requestNodeRefork (s : State n G) (graph : G) : Option (State n G) :=
  if s.nodeReforksRequired ≠ 0 then none
  else some { s with nodeRuntime := some graph, requests := s.requests ++ [graph] }

/-- The next load of a counter, or the next store, of the call in progress. -/
def poll (s : State n G) : Option (State n G) :=
  match s.main with
  | .idle => some s
  | .initialWait =>
    some (if s.workersAtBarrier = s.threadCount - 1 then { s with main := .initialRelease } else s)
  | .initialRelease => some { s with waitAtBarrier := false, main := .idle }
  | .syncWait =>
    some (if s.workersAtBarrier = s.threadCount - 1 then { s with main := .idle } else s)
  | .releaseOpen refork =>
    if s.waitAtBarrier then some { s with waitAtBarrier := false, main := .releaseWait refork }
    else none
  | .releaseWait refork =>
    some (if s.workersAtBarrier = 0 then
      { s with main := if refork then .reforkWait else .idle } else s)
  | .reforkWait =>
    some (if s.nodeReforksRequired = 0 then { s with nodeRuntime := none, main := .idle } else s)

def setWorker (s : State n G) (i : Fin n) (w : Worker) : State n G :=
  { s with workers := Function.update s.workers i w }

/-- One step of a worker that calls `check` again and again and reforks when told to. -/
def work (s : State n G) (i : Fin n) : Option (State n G) :=
  match s.workers i with
  | .running => some (s.setWorker i (if s.waitAtBarrier then .acknowledge else .running))
  | .acknowledge =>
    some ({ s with workersAtBarrier := s.workersAtBarrier + 1 }.setWorker i .waiting)
  | .waiting => some (s.setWorker i (if s.waitAtBarrier then .waiting else .resume))
  | .resume =>
    some ({ s with workersAtBarrier := s.workersAtBarrier - 1 }.setWorker i .testRefork)
  | .testRefork =>
    some (s.setWorker i (if s.nodeReforksRequired ≠ 0 then .refork else .running))
  | .refork =>
    if s.nodeReforksRequired = 0 then none
    else s.nodeRuntime.map fun graph =>
      { s with clones := Function.update s.clones i (s.clones i ++ [graph]) }.setWorker i .reforked
  | .reforked =>
    if s.nodeReforksRequired = 0 then none
    else some ({ s with nodeReforksRequired := s.nodeReforksRequired - 1 }.setWorker i .awaitOthers)
  | .awaitOthers =>
    some (s.setWorker i (if s.nodeReforksRequired ≠ 0 then .awaitOthers else .running))

end State

inductive Event (n : ℕ) (G : Type*) where
  | initialBarrierSyncAndRelease
  | sync
  | release
  | requestNodeRefork (graph : G)
  | poll
  | work (i : Fin n)

/-- A call begins when the one before has returned; a scope is released once for each sync, and a
refork is requested inside a scope. -/
def Enabled (s : State n G) : Event n G → Prop
  | .initialBarrierSyncAndRelease => s.main = .idle ∧ s.barrierRecursion = 0
  | .sync => s.main = .idle
  | .release => s.main = .idle ∧ (s.barrierRecursion ≠ 0 ∨ n = 0)
  | .requestNodeRefork _ => s.main = .idle ∧ (s.barrierRecursion ≠ 0 ∨ n = 0)
  | .poll => s.main ≠ .idle
  | .work _ => True

def next (s : State n G) : Event n G → Option (State n G)
  | .initialBarrierSyncAndRelease => some s.initialBarrierSyncAndRelease
  | .sync => some s.sync
  | .release => s.release
  | .requestNodeRefork graph => s.requestNodeRefork graph
  | .poll => s.poll
  | .work i => s.work i

/-- Executions whose steps all meet a condition on the state before them. -/
inductive Execution (ok : State n G → Event n G → Prop) : State n G → Prop
  | arm {s : State n G} (armed : (State.new n G).arm = some s) : Execution ok s
  | step {s t : State n G} {e : Event n G} (before : Execution ok s) (enabled : Enabled s e)
      (meets : ok s e) (taken : next s e = some t) : Execution ok t

/-- A sync after the initial barrier finds no worker that has seen the barrier open and is still
counted. -/
def Settled (s : State n G) : Event n G → Prop
  | .sync => s.afterInitial = true → ∀ i, s.workers i ≠ .resume
  | _ => True

/-- From the return of an outermost sync until its release opens the barrier. -/
def Held (s : State n G) : Prop :=
  (s.main = .idle ∧ s.barrierRecursion ≠ 0) ∨ ∃ refork, s.main = .releaseOpen refork

/-- A run without end in which the workers keep calling `check` and the main thread keeps polling
the call it is in. -/
structure FairRun (ok : State n G → Event n G → Prop) (states : ℕ → State n G)
    (events : ℕ → Event n G) : Prop where
  enabled : ∀ k, Enabled (states k) (events k)
  meets : ∀ k, ok (states k) (events k)
  taken : ∀ k, next (states k) (events k) = some (states (k + 1))
  workers : ∀ i k, ∃ j, k ≤ j ∧ events j = .work i
  main : ∀ k, ∃ j, k ≤ j ∧ ((states j).main = .idle ∨ events j = .poll)

end WorkerBarrier
