import Hammer.FairRuns
import Hammer.WorkerBarrier

/-! # The barrier excludes the workers

A release waits until every worker has left, so that the count of the next sync belongs to its own
round; the initial barrier does not wait. The refork counter is the number of workers that have not cloned the graph yet.
-/

namespace WorkerBarrier

open Fairness Function State Main

variable {n : ℕ} {G : Type*} {s t : State n G} {i : Fin n}

/-- Counted in `workers_at_barrier`. -/
def Worker.present : Worker → ℕ
  | .waiting | .resume => 1
  | _ => 0

/-- Counted in `node_reforks_required` while a graph is published. -/
def Worker.owes : Worker → ℕ
  | .waiting | .resume | .testRefork | .refork | .reforked => 1
  | _ => 0

def Worker.behind : Worker → Bool
  | .waiting | .resume | .testRefork | .refork => true
  | _ => false

def Main.reforking : Main → Bool
  | .releaseOpen refork | .releaseWait refork => refork
  | .reforkWait => true
  | _ => false

inductive Phase where
  | opened
  | closing
  | held
  | leaving
  | reforking
  | released

/-- Between two scopes: the workers leave the initial barrier whenever they like, enter the one
armed at startup, or have left a released one. -/
def State.openPhase (s : State n G) : Phase :=
  if s.afterInitial then .opened else if s.waitAtBarrier then .closing else .released

def State.phase (s : State n G) : Phase :=
  match s.main with
  | .idle => if s.barrierRecursion = 0 then s.openPhase else .held
  | .initialWait | .initialRelease => .opened
  | .syncWait => .closing
  | .releaseOpen _ => .held
  | .releaseWait refork => if refork then .reforking else .leaving
  | .reforkWait => .reforking

/-- Where a worker can be in a phase. -/
def Phase.Place (reforks : ℕ) (w : Worker) : Phase → Prop
  | .opened => w ≠ .refork ∧ w ≠ .reforked
  | .closing => w ≠ .resume ∧ w ≠ .refork ∧ w ≠ .reforked
  | .held => w = .waiting
  | .leaving => w ≠ .acknowledge ∧ w ≠ .refork ∧ w ≠ .reforked
  | .reforking => w ≠ .acknowledge ∧ (w = .running → reforks = 0)
  | .released => w ≠ .acknowledge ∧ w.present = 0 ∧ w ≠ .refork ∧ w ≠ .reforked

def Phase.Shows (wait : Bool) : Phase → Prop
  | .opened => True
  | .closing | .held => wait = true
  | .leaving | .reforking | .released => wait = false

def State.due (s : State n G) (w : Worker) : List G :=
  if s.main.reforking && w.behind then s.nodeRuntime.toList else []

theorem State.openPhase_shows (s : State n G) : s.openPhase.Shows s.waitAtBarrier := by
  unfold openPhase
  split
  · trivial
  · split <;> simp_all [Phase.Shows]

theorem State.openPhase_place {reforks : ℕ} {w : Worker} (h : s.openPhase.Place reforks w) :
    (w ≠ .refork ∧ w ≠ .reforked) ∧ (s.afterInitial = false → w ≠ .resume) := by
  unfold openPhase at h
  split at h
  · next ha => exact ⟨h, fun hf => absurd (hf.symm.trans ha) (by decide)⟩
  · split at h
    · exact ⟨h.2, fun _ => h.1⟩
    · refine ⟨h.2.2, ?_⟩
      rintro - rfl
      exact one_ne_zero h.2.1

theorem State.reforking_of_phase (h : s.phase = .reforking) : s.main.reforking = true := by
  unfold phase openPhase at h
  cases hm : s.main <;> simp only [hm] at h <;> first | split_ifs at h <;> simp_all [reforking] |
    simp_all [reforking]

theorem State.not_reforking (hr : s.phase ≠ .reforking) (hh : s.phase ≠ .held) :
    s.main.reforking = false := by
  unfold phase at hr hh
  cases hm : s.main <;> simp_all [reforking]

def Worker.next (wait : Bool) (reforks : ℕ) : Worker → Worker
  | .running => if wait then .acknowledge else .running
  | .acknowledge => .waiting
  | .waiting => if wait then .waiting else .resume
  | .resume => .testRefork
  | .testRefork => if reforks ≠ 0 then .refork else .running
  | .refork => .reforked
  | .reforked => .awaitOthers
  | .awaitOthers => if reforks ≠ 0 then .awaitOthers else .running

/-- The two counters after it. -/
def Worker.countNext (count : ℕ) : Worker → ℕ
  | .acknowledge => count + 1
  | .resume => count - 1
  | _ => count

def Worker.reforksNext (reforks : ℕ) : Worker → ℕ
  | .reforked => reforks - 1
  | _ => reforks

section Next

variable {phase : Phase} {wait : Bool} {reforks : ℕ} {w : Worker}

theorem Phase.eq_reforking (hp : phase.Place reforks w) (hw : w = .refork ∨ w = .reforked) :
    phase = .reforking := by
  cases phase <;> rcases hw with rfl | rfl <;> simp [Phase.Place] at hp ⊢

theorem Phase.place_next (hp : phase.Place reforks w) (hs : phase.Shows wait)
    (howes : phase = .reforking → w.owes ≤ reforks)
    (hzero : phase ≠ .reforking → phase ≠ .held → reforks = 0) :
    phase.Place (w.reforksNext reforks) (w.next wait reforks) := by
  cases phase <;> cases w <;>
    grind [Phase.Place, Phase.Shows, Worker.next, Worker.owes, Worker.present, Worker.reforksNext]

/-- While a graph is published, a worker owes until it counts itself off, and is behind until it
clones the graph. -/
theorem Phase.owes_next (hp : phase.Place reforks w) (hs : phase.Shows wait)
    (hph : phase = .held ∨ phase = .reforking) (howes : w.owes ≤ reforks) :
    w.reforksNext reforks + w.owes = reforks + (w.next wait reforks).owes ∧
    (w ≠ .refork → (w.next wait reforks).behind = w.behind) := by
  rcases hph with rfl | rfl <;> cases w <;>
    grind [Phase.Place, Phase.Shows, Worker.next, Worker.owes, Worker.behind, Worker.reforksNext]

theorem Worker.present_next {count : ℕ} (h : w.present ≤ count) : w.countNext count + w.present =
      count + (w.next wait reforks).present := by
  cases w <;> grind [Worker.next, Worker.present, Worker.countNext]

theorem Worker.done_of_owes (h : w.owes = 0) :
    w.behind = false ∧ w.present = 0 ∧ w ≠ .refork ∧ w ≠ .reforked := by
  cases w <;> simp [Worker.owes, Worker.behind, Worker.present] at h ⊢

end Next

/-- A step of a worker changes its own place, its clones and the two counters. -/
def State.worked (s : State n G) (i : Fin n) : State n G :=
  { s with
    workersAtBarrier := (s.workers i).countNext s.workersAtBarrier
    nodeReforksRequired := (s.workers i).reforksNext s.nodeReforksRequired
    clones := Function.update s.clones i
      (if s.workers i = Worker.refork then s.clones i ++ s.nodeRuntime.toList else s.clones i)
    }.setWorker i ((s.workers i).next s.waitAtBarrier s.nodeReforksRequired)

theorem State.work_eq (hr : s.workers i = .refork ∨ s.workers i = .reforked →
    s.nodeReforksRequired ≠ 0) (hg : s.workers i = .refork → s.nodeRuntime.isSome = true) :
    s.work i = some (s.worked i) := by
  unfold work worked
  cases hw : s.workers i with
  | refork =>
    obtain ⟨g, hg⟩ := Option.isSome_iff_exists.mp (hg hw)
    simp [hr (Or.inl hw), hg, Worker.next, Worker.countNext, Worker.reforksNext]
  | reforked => simp [hr (Or.inr hw), Worker.next, Worker.countNext, Worker.reforksNext]
  | _ => simp [Worker.next, Worker.countNext, Worker.reforksNext]

structure Invariant (s : State n G) : Prop where
  count : s.workersAtBarrier = ∑ i, (s.workers i).present
  reforks : s.nodeReforksRequired = if s.main.reforking then ∑ i, (s.workers i).owes else 0
  place : ∀ i, s.phase.Place s.nodeReforksRequired (s.workers i)
  shows_wait : s.phase.Shows s.waitAtBarrier
  initial : s.main = .initialWait ∨ s.main = .initialRelease →
    s.waitAtBarrier = true ∧ s.afterInitial = true
  after_initial : s.afterInitial = true → s.phase = .opened
  recursion : s.main ≠ .idle → s.barrierRecursion = if s.main = .syncWait then 1 else 0
  runtime : if s.main.reforking then s.nodeRuntime.isSome = true
    else s.nodeRuntime = s.requests.getLast?
  closed : s.main ≠ .idle ∨ 0 < n → s.barrierRecursion = 0 → s.requests = []
  clones : ∀ i, s.clones i ++ s.due (s.workers i) = s.scopes.filterMap List.getLast?

namespace Invariant

theorem start (h : (new n G).arm = some s) : Invariant s := by
  cases h
  refine ⟨?_, rfl, fun i => ?_, rfl, by simp [new], by simp [new], fun _ => rfl, rfl,
    fun _ _ => rfl, fun i => rfl⟩
  · simp [new, Worker.present]
  · simp [phase, openPhase, new, Phase.Place]

theorem setWorker (h : Invariant s) {v : Worker} {count reforks : ℕ} {cloned : List G}
    (hcount : count + (s.workers i).present = s.workersAtBarrier + v.present)
    (hreforks : reforks + (if s.main.reforking then (s.workers i).owes else 0) =
      s.nodeReforksRequired + if s.main.reforking then v.owes else 0)
    (hle : reforks ≤ s.nodeReforksRequired) (hplace : s.phase.Place reforks v)
    (hclones : cloned ++ s.due v = s.clones i ++ s.due (s.workers i)) :
    Invariant ({ s with
      workersAtBarrier := count
      nodeReforksRequired := reforks
      clones := update s.clones i cloned }.setWorker i v) := by
  refine ⟨?_, ?_, fun j => ?_, h.shows_wait, h.initial, h.after_initial, h.recursion, h.runtime,
    h.closed, fun j => ?_⟩
  · have hsum := sum_update Worker.present s.workers i v
    have := h.count
    simp only [State.setWorker]
    omega
  · have hsum := sum_update Worker.owes s.workers i v
    have hold := h.reforks
    change reforks = if s.main.reforking then ∑ j, (update s.workers i v j).owes else 0
    by_cases hr : s.main.reforking = true
    · simp only [if_pos hr] at hreforks hold ⊢
      omega
    · simp only [if_neg hr] at hreforks hold ⊢
      omega
  · by_cases hj : j = i
    · subst hj
      simp only [State.setWorker, update_self]
      exact hplace
    · have hp := h.place j
      simp only [State.setWorker, update_of_ne hj]
      change s.phase.Place reforks (s.workers j)
      cases hs : s.phase <;> rw [hs] at hp <;> try exact hp
      exact ⟨hp.1, fun hr => by have := hp.2 hr; omega⟩
  · by_cases hj : j = i
    · subst hj
      have := h.clones j
      rw [← hclones] at this
      simp only [State.setWorker, update_self]
      exact this
    · simp only [State.setWorker, update_of_ne hj]
      exact h.clones j

theorem counted (h : Invariant s) (i : Fin n) : (s.workers i).present ≤ s.workersAtBarrier ∧
      (s.main.reforking = true → (s.workers i).owes ≤ s.nodeReforksRequired) ∧
      (s.main.reforking = false → s.nodeReforksRequired = 0) := by
  refine ⟨h.count ▸ le_sum Worker.present s.workers i, fun hr => ?_, fun hr => ?_⟩
  · rw [h.reforks, if_pos hr]
    exact le_sum Worker.owes s.workers i
  · rw [h.reforks, hr]
    rfl

theorem work (h : Invariant s) (i : Fin n) :
    s.work i = some (s.worked i) ∧ Invariant (s.worked i) := by
  obtain ⟨hpresent, howes, hzero⟩ := h.counted i
  have hp := h.place i
  have hrefork : s.workers i = .refork ∨ s.workers i = .reforked → s.main.reforking = true :=
    fun hw => reforking_of_phase (Phase.eq_reforking hp hw)
  have hphase : s.main.reforking = true → s.phase = .held ∨ s.phase = .reforking := by
    intro hr
    by_contra hne
    rw [not_or] at hne
    exact absurd (hr.symm.trans (not_reforking hne.2 hne.1)) (by decide)
  constructor
  · apply work_eq
    · intro hw
      have := howes (hrefork hw)
      rcases hw with hw | hw <;> simp only [hw, Worker.owes] at this <;> omega
    · intro hw
      have := h.runtime
      rwa [if_pos (hrefork (Or.inl hw))] at this
  · apply h.setWorker
    · exact Worker.present_next hpresent
    · by_cases hr : s.main.reforking = true
      · simp only [if_pos hr]
        exact (Phase.owes_next hp h.shows_wait (hphase hr) (howes hr)).1
      · cases hw : s.workers i <;> simp_all [Worker.reforksNext]
    · unfold Worker.reforksNext
      split <;> omega
    · exact Phase.place_next hp h.shows_wait (fun hph => howes (reforking_of_phase hph))
        (fun hr hh => hzero (not_reforking hr hh))
    · by_cases hr : s.main.reforking = true
      · have hbehind := (Phase.owes_next hp h.shows_wait (hphase hr) (howes hr)).2
        simp only [due, hr, Bool.true_and]
        by_cases hw : s.workers i = .refork
        · simp [hw, Worker.next, Worker.behind]
        · rw [hbehind hw, if_neg hw]
      · simp only [due, hr, Bool.false_and]
        rw [if_neg fun hw => hr (hrefork (Or.inl hw))]

end Invariant

/-- The invariant between two calls. -/
structure Idle (s : State n G) : Prop where
  count : s.workersAtBarrier = ∑ i, (s.workers i).present
  reforks : s.nodeReforksRequired = 0
  opened : s.barrierRecursion = 0 → ∀ i, s.openPhase.Place 0 (s.workers i)
  held : s.barrierRecursion ≠ 0 →
    s.waitAtBarrier = true ∧ s.afterInitial = false ∧ ∀ i, s.workers i = .waiting
  runtime : s.nodeRuntime = s.requests.getLast?
  closed : 0 < n → s.barrierRecursion = 0 → s.requests = []
  clones : ∀ i, s.clones i = s.scopes.filterMap List.getLast?

theorem State.phase_idle (hm : s.main = .idle) :
    s.phase = if s.barrierRecursion = 0 then s.openPhase else .held := by
  simp only [phase, hm]

theorem State.due_idle (hm : s.main = .idle) (w : Worker) : s.due w = [] := by
  simp [due, hm, reforking]

theorem Invariant.idle (h : Invariant s) (hm : s.main = .idle) : Idle s := by
  obtain ⟨hcount, hreforks, hplace, hwait, -, hafter, -, hruntime, hclosed, hclones⟩ := h
  simp only [hm, phase_idle hm, due_idle hm, List.append_nil] at *
  refine ⟨hcount, hreforks, fun hr i => ?_, fun hr => ?_, hruntime,
    fun hn => hclosed (Or.inr hn), hclones⟩
  · rw [if_pos hr, show s.nodeReforksRequired = 0 from hreforks] at hplace
    exact hplace i
  · rw [if_neg hr] at hplace hwait hafter
    exact ⟨hwait, Bool.eq_false_iff.mpr fun ha => by simpa using hafter ha, hplace⟩

theorem Idle.invariant (h : Idle s) (hm : s.main = .idle) : Invariant s := by
  refine ⟨h.count, by simpa [hm, reforking] using h.reforks, fun i => ?_, ?_, by simp [hm],
    fun ha => ?_, by simp [hm], by simpa [hm, reforking] using h.runtime,
    by simpa [hm] using h.closed, by simpa [due_idle hm] using h.clones⟩
  · rw [phase_idle hm, h.reforks]
    split
    · next hr => exact h.opened hr i
    · next hr => exact (h.held hr).2.2 i
  · rw [phase_idle hm]
    split
    · exact s.openPhase_shows
    · next hr => exact (h.held hr).1
  · rw [phase_idle hm]
    split
    · rw [openPhase, if_pos ha]
    · next hr => exact absurd ((h.held hr).2.1.symm.trans ha) (by decide)

namespace Idle

section

variable (h : Idle s) (hm : s.main = .idle)
include h hm

theorem initialBarrier (hr : s.barrierRecursion = 0) :
    Invariant s.initialBarrierSyncAndRelease := by
  unfold initialBarrierSyncAndRelease
  split
  · exact h.invariant hm
  · next hn =>
    have hpos : 0 < n := Nat.pos_of_ne_zero hn
    exact ⟨h.count, h.reforks, fun i => (openPhase_place (h.opened hr i)).1, trivial,
      fun _ => ⟨rfl, rfl⟩, fun _ => rfl, fun _ => hr, h.runtime,
      fun _ => h.closed hpos, fun i => (List.append_nil _).trans (h.clones i)⟩

/-- After a release no worker is still leaving; after the initial barrier that is assumed. -/
theorem sync (hsettled : s.afterInitial = true → ∀ i, s.workers i ≠ .resume) :
    Invariant s.sync := by
  unfold State.sync
  split
  · exact h.invariant hm
  split
  · next hrec =>
    have hne : s.barrierRecursion ≠ 0 := by omega
    exact Idle.invariant ⟨h.count, h.reforks, fun hz => absurd hz (Nat.succ_ne_zero _),
      fun _ => h.held hne, h.runtime, fun _ hz => absurd hz (Nat.succ_ne_zero _), h.clones⟩ hm
  · next hrec =>
    have hr : s.barrierRecursion = 0 := by omega
    have hresume : ∀ i, s.workers i ≠ .resume := by
      intro i
      cases ha : s.afterInitial with
      | false => exact (openPhase_place (h.opened hr i)).2 ha
      | true => exact hsettled ha i
    exact ⟨h.count, h.reforks, fun i => ⟨hresume i, (openPhase_place (h.opened hr i)).1⟩, rfl,
      by simp, by simp, fun _ => by simp [hr], h.runtime,
      fun _ hz => absurd hz (Nat.succ_ne_zero _), fun i => (List.append_nil _).trans (h.clones i)⟩

theorem requestNodeRefork (hscope : s.barrierRecursion ≠ 0 ∨ n = 0) (graph : G) :
    ∃ t, s.requestNodeRefork graph = some t ∧ Invariant t := by
  refine ⟨_, if_neg (not_not.mpr h.reforks), Idle.invariant
    ⟨h.count, h.reforks, h.opened, h.held, ?_, fun hn hr => ?_, h.clones⟩ hm⟩
  · simp
  · rcases hscope with hne | rfl
    · exact absurd hr hne
    · exact absurd hn (lt_irrefl 0)

theorem release (hscope : s.barrierRecursion ≠ 0 ∨ n = 0) :
    ∃ t, s.release = some t ∧ Invariant t := by
  unfold State.release State.threadCount
  by_cases hn : n = 0
  · exact ⟨s, if_pos (by omega), h.invariant hm⟩
  rw [if_neg (by omega)]
  have hne : s.barrierRecursion ≠ 0 := hscope.resolve_right hn
  obtain ⟨hwait, hafter, hall⟩ := h.held hne
  rw [if_neg hne]
  by_cases hnested : 1 < s.barrierRecursion
  · have hne' : s.barrierRecursion - 1 ≠ 0 := by omega
    exact ⟨_, if_pos hnested, Idle.invariant ⟨h.count, h.reforks, fun hz => absurd hz hne',
      fun _ => h.held hne, h.runtime, fun _ hz => absurd hz hne', h.clones⟩ hm⟩
  rw [if_neg hnested]
  have hzero : s.barrierRecursion - 1 = 0 := by omega
  -- the graph of the scope is the last one requested in it
  have hscopes : s.scopes.filterMap List.getLast? ++ s.nodeRuntime.toList =
      (s.scopes ++ [s.requests]).filterMap List.getLast? := by
    rw [h.runtime]
    cases hl : s.requests.getLast? <;> simp [List.filterMap, hl]
  have howes : ∑ i, (s.workers i).owes = n := by
    simp [hall, Worker.owes]
  cases hg : s.nodeRuntime with
  | none =>
    refine ⟨_, rfl, h.count, h.reforks, hall, hwait, by simp, by simp [hafter], fun _ => hzero,
      rfl, fun _ _ => rfl, fun i => ?_⟩
    simpa [State.due, hg, h.clones i] using hscopes
  | some g =>
    refine ⟨_, if_neg (not_not.mpr h.reforks), h.count, ?_, hall, hwait, by simp,
      by simp [hafter], fun _ => hzero, ?_, fun _ _ => rfl, fun i => ?_⟩
    · simp [h.reforks, howes, reforking]
    · simp [reforking]
    · simpa [State.due, reforking, hall i, Worker.behind, hg, h.clones i] using hscopes

end

end Idle

namespace Invariant

theorem all_waiting (h : Invariant s) (hm : s.main = .syncWait) (hc : s.workersAtBarrier = n)
    (i : Fin n) : s.workers i = .waiting := by
  have hle : ∀ w : Worker, w.present ≤ 1 := fun w => by cases w <;> decide
  have hone := eq_one_of_sum_eq_card hle (h.count.symm.trans (hc.trans (Fintype.card_fin n).symm)) i
  have hp := h.place i
  simp only [phase, hm] at hp
  cases hw : s.workers i <;> simp_all [Worker.present, Phase.Place]

theorem released (hwait : s.waitAtBarrier = false) (hafter : s.afterInitial = false) :
    s.openPhase = .released := by
  simp [openPhase, hwait, hafter]

theorem poll (h : Invariant s) : ∃ t, s.poll = some t ∧ Invariant t := by
  have hrec := h.recursion
  have hclosed := h.closed
  have hplace := h.place
  have hreforks := h.reforks
  have hruntime := h.runtime
  have hclones := h.clones
  have hafter : s.phase ≠ .opened → s.afterInitial = false :=
    fun hp => Bool.eq_false_iff.mpr fun ha => hp (h.after_initial ha)
  have hwait := h.shows_wait
  unfold State.poll
  cases hm : s.main <;>
    simp only [hm, State.phase, reforking, State.due, ne_eq, reduceCtorEq, not_false_eq_true,
      true_or, true_imp_iff, if_true, if_false, Bool.false_and, Bool.false_eq_true,
      List.append_nil] at hrec hclosed hplace hreforks hruntime hclones hafter hwait
  case idle => exact ⟨s, rfl, h⟩
  case initialWait =>
    refine ⟨_, rfl, ?_⟩
    split
    · exact ⟨h.count, hreforks, hplace, trivial, fun _ => h.initial (Or.inl hm), fun _ => rfl,
        fun _ => hrec, hruntime, fun _ => hclosed, fun i => (List.append_nil _).trans (hclones i)⟩
    · exact h
  case initialRelease =>
    refine ⟨_, rfl, Idle.invariant ⟨h.count, hreforks, fun _ i => ?_, fun hne => absurd hrec hne,
      hruntime, fun _ => hclosed, hclones⟩ rfl⟩
    simp only [openPhase, (h.initial (Or.inr hm)).2, if_true]
    exact hplace i
  case syncWait =>
    refine ⟨_, rfl, ?_⟩
    split
    · next hc =>
      exact Idle.invariant ⟨h.count, hreforks, fun hz => absurd (hrec.symm.trans hz) one_ne_zero,
        fun _ => ⟨hwait, hafter, h.all_waiting hm hc⟩, hruntime, fun _ => hclosed, hclones⟩ rfl
    · exact h
  case releaseOpen refork =>
    refine ⟨_, if_pos hwait, h.count, hreforks, fun i => ?_, ?_, by simp,
      fun ha => absurd (hafter.symm.trans ha) (by decide), fun _ => hrec, hruntime,
      fun _ => hclosed, hclones⟩
    · have hw : s.workers i = .waiting := hplace i
      simp only [State.phase, hw]
      cases refork <;> simp [Phase.Place]
    · cases refork <;> rfl
  case releaseWait refork =>
    refine ⟨_, rfl, ?_⟩
    split
    · next hz =>
      have hleft := Finset.sum_eq_zero_iff.mp (h.count.symm.trans hz)
      replace hafter := hafter (by cases refork <;> simp)
      cases refork
      · refine Idle.invariant ⟨h.count, hreforks, fun _ i => ?_, fun hne => absurd hrec hne,
          hruntime, fun _ => hclosed, fun i => (List.append_nil _).symm.trans (hclones i)⟩ rfl
        change s.openPhase.Place 0 (s.workers i)
        rw [released hwait hafter]
        exact ⟨(hplace i).1, hleft i (Finset.mem_univ i), (hplace i).2⟩
      · exact ⟨h.count, hreforks, hplace, hwait, by simp,
          fun ha => absurd (hafter.symm.trans ha) (by decide), fun _ => hrec, hruntime,
          fun _ => hclosed, hclones⟩
    · exact h
  case reforkWait =>
    refine ⟨_, rfl, ?_⟩
    split
    · next hz =>
      rw [hz] at hreforks
      have hdone := fun i => Worker.done_of_owes
        ((Finset.sum_eq_zero_iff.mp hreforks.symm) i (Finset.mem_univ i))
      refine Idle.invariant ⟨h.count, hz, fun _ i => ?_, fun hne => absurd hrec hne, ?_,
        fun _ => hclosed, fun i => ?_⟩ rfl
      · change s.openPhase.Place 0 (s.workers i)
        rw [released hwait hafter]
        exact ⟨(hplace i).1, (hdone i).2⟩
      · simp [hclosed hrec]
      · simpa [(hdone i).1] using hclones i
    · exact h

theorem next (h : Invariant s) {e : Event n G} (he : Enabled s e) (hs : Settled s e) :
    ∃ t, next s e = some t ∧ Invariant t := by
  cases e with
  | initialBarrierSyncAndRelease => exact ⟨_, rfl, (h.idle he.1).initialBarrier he.1 he.2⟩
  | sync => exact ⟨_, rfl, (h.idle he).sync he hs⟩
  | release => exact (h.idle he.1).release he.1 he.2
  | requestNodeRefork graph => exact (h.idle he.1).requestNodeRefork he.1 he.2 graph
  | poll => exact h.poll
  | work i => exact ⟨_, (h.work i).1, (h.work i).2⟩

theorem of_execution (run : Execution Settled s) : Invariant s := by
  induction run with
  | arm armed => exact start armed
  | step before enabled meets taken ih =>
    obtain ⟨t, ht, hinv⟩ := ih.next enabled meets
    rw [taken] at ht
    exact Option.some.inj ht ▸ hinv

end Invariant

/-- The steps a worker is away from the wait loop. -/
def Worker.enterRank : Worker → ℕ
  | .waiting => 0
  | .acknowledge => 1
  | .running => 2
  | .testRefork | .awaitOthers => 3
  | .resume => 4
  | .refork | .reforked => 0

/-- The steps a worker is away from having left it, with its clone made. -/
def Worker.leaveRank : Worker → ℕ
  | .waiting => 5
  | .resume => 4
  | .testRefork => 3
  | .refork => 2
  | .reforked => 1
  | _ => 0

theorem Worker.enterRank_next {w : Worker} (h : w ≠ .refork ∧ w ≠ .reforked) :
    (w.next true 0).enterRank = w.enterRank - 1 := by
  cases w <;> simp [Worker.next, Worker.enterRank] at h ⊢

theorem Worker.leaveRank_next {w : Worker} (h : w ≠ .acknowledge) (reforks : ℕ) :
    (w.next false reforks).leaveRank ≤ w.leaveRank - 1 := by
  by_cases hr : reforks = 0 <;> cases w <;> simp [Worker.next, Worker.leaveRank, hr] at h ⊢

def Main.rank (w : Worker) : Main → ℕ
  | .initialWait | .initialRelease | .syncWait => w.enterRank
  | _ => w.leaveRank

def Main.weight : Main → ℕ
  | .idle => 0
  | .initialRelease | .syncWait | .reforkWait => 1
  | .initialWait | .releaseWait _ => 2
  | .releaseOpen _ => 3

def Main.stores : Main → Bool
  | .initialRelease | .releaseOpen _ => true
  | _ => false

def State.measure (s : State n G) : ℕ := s.main.weight + ∑ i, s.main.rank (s.workers i)

/-- The main thread helps if it stores next or the count it polls is reached; otherwise every worker
does that is still on its way. -/
def State.Helpful (s : State n G) : Option (Fin n) → Prop
  | none => s.main.stores = true ∨ ∀ i, s.main.rank (s.workers i) = 0
  | some i => s.main.stores = false ∧ 0 < s.main.rank (s.workers i)

theorem State.exists_helpful (s : State n G) : ∃ a, s.Helpful a := by
  by_cases h : s.main.stores = true ∨ ∀ i, s.main.rank (s.workers i) = 0
  · exact ⟨none, h⟩
  · simp only [not_or, Bool.not_eq_true, not_forall] at h
    obtain ⟨hs, i, hi⟩ := h
    exact ⟨some i, hs, Nat.pos_of_ne_zero hi⟩

namespace Invariant

/-- A step of a worker on its way takes it on, and no step takes a worker back. -/
theorem rank_next (h : Invariant s) (hm : s.main ≠ .idle) (i : Fin n) :
    s.main.rank ((s.workers i).next s.waitAtBarrier s.nodeReforksRequired) ≤
        s.main.rank (s.workers i) ∧
      (s.main.stores = false → 0 < s.main.rank (s.workers i) →
        s.main.rank ((s.workers i).next s.waitAtBarrier s.nodeReforksRequired) <
          s.main.rank (s.workers i)) := by
  have hp := h.place i
  have hsh := h.shows_wait
  have hinit := h.initial
  have hzero := h.reforks
  have henter : s.waitAtBarrier = true → s.nodeReforksRequired = 0 →
      s.workers i ≠ .refork ∧ s.workers i ≠ .reforked →
      ((s.workers i).next s.waitAtBarrier s.nodeReforksRequired).enterRank =
        (s.workers i).enterRank - 1 := by
    intro hwait hnone hw
    rw [hwait, hnone]
    exact Worker.enterRank_next hw
  cases hmain : s.main <;> simp only [hmain, phase] at hp hsh hinit hzero hm
  case idle => exact absurd rfl hm
  case initialWait =>
    have := henter (hinit (.inl trivial)).1 hzero hp
    simp only [rank]
    omega
  case initialRelease =>
    have := henter (hinit (.inr trivial)).1 hzero hp
    simp only [rank]
    omega
  case syncWait =>
    have := henter hsh hzero hp.2
    simp only [rank]
    omega
  case releaseOpen refork =>
    rw [show s.workers i = .waiting from hp, show s.waitAtBarrier = true from hsh]
    exact ⟨le_rfl, fun hs => absurd hs (by simp [stores])⟩
  case releaseWait refork =>
    have hw : s.workers i ≠ .acknowledge ∧ s.waitAtBarrier = false := by
      cases refork
      · exact ⟨hp.1, hsh⟩
      · exact ⟨hp.1, hsh⟩
    have := Worker.leaveRank_next hw.1 s.nodeReforksRequired
    rw [hw.2]
    simp only [rank]
    omega
  case reforkWait =>
    have := Worker.leaveRank_next hp.1 s.nodeReforksRequired
    rw [show s.waitAtBarrier = false from hsh]
    simp only [rank]
    omega

theorem count_of_entered (h : Invariant s) (hm : s.main = .initialWait ∨ s.main = .syncWait)
    (hall : ∀ i, s.main.rank (s.workers i) = 0) : s.workersAtBarrier = n := by
  have hone : ∀ i, (s.workers i).present = 1 := by
    intro i
    have hp := h.place i
    have hi := hall i
    rcases hm with hm | hm <;> simp only [hm, phase, rank] at hp hi <;>
      cases hw : s.workers i <;> simp [hw, Phase.Place, Worker.enterRank, Worker.present] at hp hi ⊢
  rw [h.count, Finset.sum_congr rfl fun i _ => hone i]
  simp

theorem counts_of_left (h : Invariant s)
    (hm : (∃ r, s.main = .releaseWait r) ∨ s.main = .reforkWait)
    (hall : ∀ i, s.main.rank (s.workers i) = 0) :
    s.workersAtBarrier = 0 ∧ s.nodeReforksRequired = 0 := by
  have hzero : ∀ i, (s.workers i).present = 0 ∧ (s.workers i).owes = 0 := by
    intro i
    have hi := hall i
    rcases hm with ⟨r, hm⟩ | hm <;> simp only [hm, rank] at hi <;>
      cases hw : s.workers i <;> simp [hw, Worker.leaveRank, Worker.present, Worker.owes] at hi ⊢
  rw [h.count, h.reforks]
  simp [hzero]

/-- A poll passes or changes nothing, and it passes when the main thread is helpful. -/
theorem poll_lowers (h : Invariant s) (hm : s.main ≠ .idle) (ht : s.poll = some t) :
    (t = s ∧ ¬ s.Helpful none) ∨ t.main = .idle ∨ t.measure < s.measure := by
  have hstuck : s.main.stores = false → (¬ ∀ i, s.main.rank (s.workers i) = 0) →
      ¬ s.Helpful none := fun hs hall hh => hh.elim (by simp [hs]) hall
  unfold State.poll at ht
  cases hmain : s.main <;> simp only [hmain, Option.some.injEq] at ht
  case idle => exact absurd hmain hm
  case initialWait =>
    subst ht
    split
    · right; right
      simp [State.measure, hmain, weight, rank]
    · next hc =>
      exact Or.inl ⟨rfl, hstuck (by simp [hmain, stores]) fun hall =>
        hc (h.count_of_entered (Or.inl hmain) hall)⟩
  case initialRelease => exact Or.inr (Or.inl (ht ▸ rfl))
  case syncWait =>
    subst ht
    split
    · exact Or.inr (Or.inl rfl)
    · next hc =>
      exact Or.inl ⟨rfl, hstuck (by simp [hmain, stores]) fun hall =>
        hc (h.count_of_entered (Or.inr hmain) hall)⟩
  case releaseOpen r =>
    right; right
    split at ht
    · cases ht
      simp [State.measure, hmain, weight, rank]
    · cases ht
  case releaseWait r =>
    subst ht
    split
    · cases r
      · exact Or.inr (Or.inl rfl)
      · right; right
        simp [State.measure, hmain, weight, rank]
    · next hc =>
      exact Or.inl ⟨rfl, hstuck (by simp [hmain, stores]) fun hall =>
        hc (h.counts_of_left (Or.inl ⟨r, hmain⟩) hall).1⟩
  case reforkWait =>
    subst ht
    split
    · exact Or.inr (Or.inl rfl)
    · next hc =>
      exact Or.inl ⟨rfl, hstuck (by simp [hmain, stores]) fun hall =>
        hc (h.counts_of_left (Or.inr hmain) hall).2⟩

/-- A step of a worker that is helpful lowers the measure; any other worker leaves the helpful
agent as it is. -/
theorem work_lowers (h : Invariant s) (hm : s.main ≠ .idle) (i : Fin n) {a : Option (Fin n)}
    (ha : s.Helpful a) : (s.worked i).measure ≤ s.measure ∧
      (a = some i → (s.worked i).measure < s.measure) ∧ (a ≠ some i → (s.worked i).Helpful a) := by
  obtain ⟨hle, hlt⟩ := h.rank_next hm i
  have hsum := sum_update (fun w => s.main.rank w) s.workers i
    ((s.workers i).next s.waitAtBarrier s.nodeReforksRequired)
  have hmeasure : (s.worked i).measure = s.main.weight + ∑ j, s.main.rank
    (update s.workers i ((s.workers i).next s.waitAtBarrier s.nodeReforksRequired) j) :=
    rfl
  refine ⟨?_, ?_, fun hne => ?_⟩
  · rw [hmeasure, State.measure]
    omega
  · rintro rfl
    have := hlt ha.1 ha.2
    rw [hmeasure, State.measure]
    omega
  · have hself : (s.worked i).workers i = (s.workers i).next _ _ := update_self ..
    have hother : ∀ j, j ≠ i → (s.worked i).workers j = s.workers j :=
      fun j hj => update_of_ne hj ..
    cases a with
    | none =>
      refine ha.imp_right fun hall j => ?_
      change s.main.rank ((s.worked i).workers j) = 0
      by_cases hj : j = i
      · have := hall i
        rw [hj, hself]
        omega
      · rw [hother j hj]
        exact hall j
    | some j =>
      refine ⟨ha.1, ?_⟩
      rw [hother j fun hj => hne (by rw [hj])]
      exact ha.2

end Invariant

theorem FairRun.returns {states : ℕ → State n G} {events : ℕ → Event n G}
    (run : FairRun Settled states events) (h : Invariant (states 0)) (k : ℕ) :
    ∃ j, k ≤ j ∧ (states j).main = .idle := by
  have hinv : ∀ k, Invariant (states k) := by
    intro k
    induction k with
    | zero => exact h
    | succ k ih =>
      obtain ⟨t, ht, hinv⟩ := ih.next (run.enabled k) (run.meets k)
      rw [run.taken k] at ht
      exact Option.some.inj ht ▸ hinv
  let moves : ℕ → Option (Fin n) → Prop := fun k a => match a with
    | none => (states k).main = .idle ∨ events k = .poll
    | some i => events k = .work i
  have hfair : Fair moves := fun a k => match a with
    | none => run.main k
    | some i => run.workers i k
  refine hfair.meets (fun k => (states k).measure) (fun k => (states k).Helpful)
    (fun k _ => (states k).exists_helpful) ?_ k
  intro k a hgoal ha
  have htaken := run.taken k
  have henabled := run.enabled k
  cases he : events k with
  | poll =>
    rw [he] at htaken
    rcases (hinv k).poll_lowers hgoal htaken with ⟨hsame, hnone⟩ | hidle | hlt
    · right; right
      cases a with
      | none => exact absurd ha hnone
      | some i =>
        refine ⟨fun hw => ?_, ?_, ?_⟩
        · exact absurd (he.symm.trans hw) (by simp)
        · simp [hsame]
        · simp only [hsame]
          exact ha
    · exact Or.inl hidle
    · exact Or.inr (Or.inl hlt)
  | work i =>
    rw [he] at htaken
    have hworked : states (k + 1) = (states k).worked i :=
      Option.some.inj (htaken.symm.trans ((hinv k).work i).1)
    obtain ⟨hle, hlt, hstay⟩ := (hinv k).work_lowers hgoal i ha
    right
    simp only [hworked]
    by_cases hai : a = some i
    · exact Or.inl (hlt hai)
    · refine Or.inr ⟨fun hw => ?_, hle, hstay hai⟩
      cases a with
      | none => exact hw.elim hgoal (by simp [he])
      | some j =>
        have := he.symm.trans hw
        simp only [Event.work.injEq] at this
        exact hai (by rw [this])
  | initialBarrierSyncAndRelease | release | requestNodeRefork =>
    exact absurd (he ▸ henabled).1 hgoal
  | sync =>
    rw [he] at henabled
    exact absurd henabled hgoal

/-- In an execution in which no sync after the initial barrier finds a worker on its way out, the
workers are in the wait loop from the return of an outermost sync until its release opens the
barrier, each of them has cloned the graph of every released scope once, no thread panics, and every
call returns. -/
theorem barrier_excludes_workers (run : Execution Settled s) :
    (Held s → ∀ i, s.workers i = .waiting) ∧
    (s.main = .idle → ∀ i, s.clones i = s.scopes.filterMap List.getLast?) ∧
    (∀ e, Enabled s e → Settled s e → (next s e).isSome = true) ∧
    (∀ states events, states 0 = s → FairRun Settled states events →
      ∀ k, ∃ j, k ≤ j ∧ (states j).main = .idle) := by
  have h := Invariant.of_execution run
  refine ⟨?_, fun hm => (h.idle hm).clones, fun e he hs => ?_, fun states events h0 hrun => ?_⟩
  · rintro (⟨hm, hr⟩ | ⟨refork, hm⟩) i
    · exact ((h.idle hm).held hr).2.2 i
    · have hp := h.place i
      simp only [State.phase, hm] at hp
      exact hp
  · obtain ⟨t, ht, -⟩ := h.next he hs
    rw [ht]
    rfl
  · exact hrun.returns (h0 ▸ h)

instance (s : State n G) (e : Event n G) : Decidable (Enabled s e) := by
  cases e <;> unfold Enabled <;> infer_instance

instance (s : State n G) (e : Event n G) : Decidable (Settled s e) := by
  cases e <;> unfold Settled <;> infer_instance

instance (s : State n G) : Decidable (Held s) := by
  unfold Held
  infer_instance

/-- The state after a list of steps that are all enabled and meet the condition. -/
def State.run (ok : State n G → Event n G → Prop) [∀ s e, Decidable (ok s e)] :
    List (Event n G) → State n G → Option (State n G)
  | [], s => some s
  | e :: es, s => if Enabled s e ∧ ok s e then (next s e).bind (State.run ok es) else none

theorem Execution.run {ok : State n G → Event n G → Prop} [∀ s e, Decidable (ok s e)]
    {es : List (Event n G)} (before : Execution ok s) (h : s.run ok es = some t) :
    Execution ok t := by
  induction es generalizing s with
  | nil => exact Option.some.inj h ▸ before
  | cons e es ih =>
    simp only [run] at h
    split at h
    · next hok =>
      obtain ⟨u, hu, h⟩ := Option.bind_eq_some_iff.mp h
      exact ih (before.step hok.1 hok.2 hu) h
    · cases h

theorem Execution.exists_of_run (ok : State n G → Event n G → Prop) [∀ s e, Decidable (ok s e)]
    (es : List (Event n G)) (P : State n G → Prop) [DecidablePred P]
    (h : ((State.new n G).arm.bind (State.run ok es)).any (fun s => decide (P s)) = true) :
    ∃ s, Execution ok s ∧ P s := by
  cases ht : (State.new n G).arm.bind (State.run ok es) with
  | none => simp [ht] at h
  | some t =>
    obtain ⟨s, hs, hrun⟩ := Option.bind_eq_some_iff.mp ht
    exact ⟨t, (Execution.arm hs).run hrun, by simpa [ht] using h⟩

/-- One worker acknowledges a sync. -/
theorem barrier_excludes_workers_held : ∃ s : State 1 ℕ, Execution Settled s ∧ Held s ∧
    s.workers 0 = .waiting := by
  obtain ⟨s, run, hheld⟩ := Execution.exists_of_run Settled
    [.sync, .work (0 : Fin 1), .work 0, .poll] (fun s : State 1 ℕ => Held s) (by decide)
  exact ⟨s, run, hheld, (barrier_excludes_workers run).1 hheld 0⟩

/-- The initial barrier does not wait until the worker has left: the next sync counts it while it
leaves the loop. And of two graphs requested in one scope only the second is cloned. -/
theorem leaving_worker_counted :
    (∃ s : State 1 ℕ, Execution (fun _ _ => True) s ∧ Held s ∧ s.workers 0 ≠ .waiting) ∧
    ∃ s : State 1 ℕ, Execution Settled s ∧ s.main = .idle ∧ s.scopes = [[7, 8]] ∧
      s.clones 0 = [8] := by
  constructor
  · exact Execution.exists_of_run _ [.sync, .work 0, .work 0, .poll, .release, .poll, .work 0,
      .work 0, .poll, .initialBarrierSyncAndRelease, .work 0, .work 0, .work 0, .poll, .poll,
      .work 0, .sync, .poll] (fun s : State 1 ℕ => Held s ∧ s.workers 0 ≠ .waiting) (by decide)
  · exact Execution.exists_of_run Settled [.sync, .work 0, .work 0, .poll, .requestNodeRefork 7,
      .requestNodeRefork 8, .release, .poll, .work 0, .work 0, .poll, .work 0, .work 0, .work 0,
      .poll] (fun s : State 1 ℕ => s.main = .idle ∧ s.scopes = [[7, 8]] ∧ s.clones 0 = [8])
      (by decide)

end WorkerBarrier
