import Hammer.HandoffInvariant
import Mathlib.Data.Fintype.Basic
import Mathlib.Tactic.Abel

/-! # Runs of the handoff queue

Every interleaving keeps the three invariants, and from every state the calls under way can be
completed.
-/

namespace Handoff

open Function State List

namespace State

variable {n : ℕ} {s t : State n} {i : Fin n} {p : Producer} {arch : Arch} {spurious : Bool}

/-- The batches decided, the buffers freed and the number counted so far. -/
def settled (s : State n) : Multiset (List Entry) × Multiset ℕ × ℕ :=
  (↑(s.decided.map Call.batch), ↑s.freed, s.queue.nDropped)

/-- The batches handed over, the buffers that found no room and their number. -/
def due (s : State n) : Multiset (List Entry) × Multiset ℕ × ℕ :=
  (↑s.offered, ↑(s.decided.flatMap fun c => c.dropped.map Prod.fst),
    (s.decided.flatMap Call.dropped).length)

def Accounted (s : State n) : Prop := s.settled + ∑ i, (s.producers i).account = s.due

theorem sum_account_update (f : Fin n → Producer) :
    ∑ j, (update f i p j).account + (f i).account = ∑ j, (f j).account + p.account := by
  have hnew : ∑ j, (update f i p j).account =
      p.account + ∑ j ∈ Finset.univ.erase i, (f j).account := by
    rw [← Finset.add_sum_erase _ _ (Finset.mem_univ i), update_self]
    congr 1
    refine Finset.sum_congr rfl ?_
    intro j hj
    rw [update_of_ne (Finset.ne_of_mem_erase hj)]
  rw [hnew, ← Finset.add_sum_erase _ (fun j => (f j).account) (Finset.mem_univ i)]
  abel

/-- A step of one producer that settles `d` while `e` falls due. -/
theorem Accounted.step (h : s.Accounted) (hp : t.producers = update s.producers i p)
    (d e : Multiset (List Entry) × Multiset ℕ × ℕ) (hs : t.settled = s.settled + d)
    (hd : t.due = s.due + e) (hbalance : p.account + d = (s.producers i).account + e) :
    t.Accounted := by
  apply add_right_cancel (b := (s.producers i).account)
  calc t.settled + ∑ j, (t.producers j).account + (s.producers i).account
      = s.settled + d + (∑ j, (update s.producers i p j).account +
          (s.producers i).account) := by rw [hs, hp, add_assoc]
    _ = s.settled + d + (∑ j, (s.producers j).account + p.account) := by rw [sum_account_update]
    _ = s.settled + ∑ j, (s.producers j).account + (p.account + d) := by abel
    _ = t.due + (s.producers i).account := by
      rw [h, hbalance, hd]
      abel

theorem Accounted.decide (h : s.Accounted) {c : Call} (hdecided : t.decided = s.decided ++ [c])
    (hp : t.producers = update s.producers i p)
    (hold : (s.producers i).account = ({c.batch}, 0, 0))
    (hnew : p.account = (0, ↑(c.dropped.map Prod.fst), c.dropped.length))
    (hfreed : t.freed = s.freed) (hcount : t.queue.nDropped = s.queue.nDropped)
    (hoffered : t.offered = s.offered) : t.Accounted := by
  refine h.step hp ({c.batch}, 0, 0) (0, ↑(c.dropped.map Prod.fst), c.dropped.length) ?_ ?_ ?_
  · unfold settled
    rw [hdecided, hfreed, hcount, map_append, ← Multiset.coe_add]
    simp
  · unfold due
    rw [hdecided, hoffered]
    simp
  · rw [hold, hnew, add_comm]

theorem Accounted.produce (h : s.Accounted) : (s.produce i spurious).Accounted := by
  have hstay : ∀ {p : Producer}, p.account = (s.producers i).account →
      (s.setProducer i p).Accounted :=
    fun hp => h.step rfl 0 0 (add_zero _).symm (add_zero _).symm (by rw [hp])
  unfold State.produce
  cases hp : s.producers i with
  | idle => exact h
  | loadTail batch | loadHead batch tail => exact hstay (by rw [hp]; rfl)
  | reserve batch tail head =>
    dsimp only
    rcases tryReserve_cases s i batch tail head spurious with
      heq | heq | ⟨slots, -, -, -, -, heq⟩
    · rw [heq]
      exact hstay (by rw [hp]; rfl)
    · rw [heq]
      exact h.decide (c := ⟨batch, tail, 0⟩) rfl rfl (by rw [hp]; rfl) rfl rfl rfl rfl
    · rw [heq]
      exact h.decide (c := ⟨batch, tail, slots⟩) rfl rfl (by rw [hp]; rfl) rfl rfl rfl rfl
  | write call writes =>
    cases writes with
    | nil | cons x writes =>
      exact h.step rfl 0 0 (add_zero _).symm (add_zero _).symm (by rw [hp]; rfl)
  | drop call =>
    refine h.step rfl (0, 0, call.dropped.length) 0 ?_ (add_zero _).symm ?_
    · simp [settled, setProducer]
    · rw [hp]
      simp [Producer.account]
  | free call =>
    refine h.step rfl (0, ↑(call.dropped.map Prod.fst), 0) 0 ?_ (add_zero _).symm ?_
    · simp [settled, setProducer]
    · rw [hp]
      split
      · simp [Producer.account]
      · simp [Producer.account]
  | notify => exact h.step rfl 0 0 (add_zero _).symm (add_zero _).symm (by rw [hp]; rfl)

theorem consume_keeps (s : State n) (arch : Arch) : (s.consume arch).producers = s.producers ∧
    (s.consume arch).decided = s.decided ∧ (s.consume arch).offered = s.offered ∧
    (s.consume arch).freed = s.freed ∧ (s.consume arch).queue.nDropped = s.queue.nDropped ∧
    (s.consume arch).queue.dequeueVectorLimit = s.queue.dequeueVectorLimit ∧
    (s.consume arch).queue.tail = s.queue.tail := by
  unfold consume
  cases s.consumer with
  | test head count frame | copy head count frame | advance head count frame =>
    dsimp only
    split
    · exact ⟨rfl, rfl, rfl, rfl, rfl, rfl, rfl⟩
    · exact ⟨rfl, rfl, rfl, rfl, rfl, rfl, rfl⟩
  | _ => exact ⟨rfl, rfl, rfl, rfl, rfl, rfl, rfl⟩

theorem consume_limit (s : State n) (arch : Arch) :
    (s.consume arch).queue.dequeueVectorLimit = s.queue.dequeueVectorLimit :=
  (consume_keeps s arch).2.2.2.2.2.1

theorem Accounted.consume (h : s.Accounted) : (s.consume arch).Accounted := by
  obtain ⟨hp, hd, ho, hf, hn, -⟩ := consume_keeps s arch
  unfold Accounted settled due at h ⊢
  rw [hp, hd, ho, hf, hn]
  exact h

theorem resize_keeps (s : State n) (queueSize : ℕ) : (s.resize queueSize).producers = s.producers ∧
    (s.resize queueSize).decided = s.decided ∧ (s.resize queueSize).offered = s.offered ∧
    (s.resize queueSize).freed = s.freed ∧ (s.resize queueSize).pending = s.pending ∧
    (s.resize queueSize).queue.nDropped = s.queue.nDropped ∧
    (s.resize queueSize).queue.dequeueVectorLimit = s.queue.dequeueVectorLimit := by
  unfold resize
  split
  · exact ⟨rfl, rfl, rfl, rfl, rfl, rfl, rfl⟩
  · dsimp only
    split
    · exact ⟨rfl, rfl, rfl, rfl, rfl, rfl, rfl⟩
    · exact ⟨rfl, rfl, rfl, rfl, rfl, rfl, rfl⟩

theorem Accounted.resize (h : s.Accounted) (queueSize : ℕ) : (s.resize queueSize).Accounted := by
  obtain ⟨hp, hd, ho, hf, -, hn, -⟩ := resize_keeps s queueSize
  unfold Accounted settled due at h ⊢
  rw [hp, hd, ho, hf, hn]
  exact h

/-- A published slot at the consumer's position has someone who sees to it. -/
def Signalled (s : State n) : Prop :=
  s.first ≠ HANDOFF_INVALID_INDEX → s.pending = true ∨ (∃ i, (s.producers i).Raises) ∨
    s.consumer.Busy s.queue.dequeueVectorLimit

/-- A step of one producer after which the bit is raised if the producer was to raise it. -/
theorem Signalled.step (h : s.Signalled) (hp : t.producers = update s.producers i p)
    (hfirst : t.first = s.first) (hpending : s.pending = true → t.pending = true)
    (hconsumer : t.consumer = s.consumer)
    (hlimit : t.queue.dequeueVectorLimit = s.queue.dequeueVectorLimit)
    (hraise : (s.producers i).Raises → p.Raises ∨ t.pending = true) : t.Signalled := by
  intro hne
  rw [hfirst] at hne
  rcases h hne with hpend | ⟨j, hj⟩ | hbusy
  · exact Or.inl (hpending hpend)
  · by_cases hji : j = i
    · subst hji
      rcases hraise hj with hr | hpend
      · right
        left
        refine ⟨j, ?_⟩
        rwa [hp, update_self]
      · exact Or.inl hpend
    · right
      left
      refine ⟨j, ?_⟩
      rwa [hp, update_of_ne hji]
  · right
    right
    rwa [hconsumer, hlimit]

theorem Signalled.produce (h : s.Signalled) (hplaced : s.Placed) :
    (s.produce i spurious).Signalled := by
  have hstay : ∀ {p : Producer}, ¬ (s.producers i).Raises → (s.setProducer i p).Signalled :=
    fun hp => h.step rfl rfl id rfl rfl (fun hr => absurd hr hp)
  unfold State.produce
  cases hp : s.producers i with
  | idle => exact h
  | loadTail batch | loadHead batch tail => exact hstay (by rw [hp]; exact id)
  | reserve batch tail head =>
    dsimp only
    rcases tryReserve_cases s i batch tail head spurious with
      heq | heq | ⟨slots, -, -, -, -, heq⟩
    · rw [heq]
      exact hstay (by rw [hp]; exact id)
    · rw [heq]
      exact h.step rfl rfl id rfl rfl (fun hr => absurd hr (by rw [hp]; exact id))
    · rw [heq]
      exact h.step rfl rfl id rfl rfl (fun hr => absurd hr (by rw [hp]; exact id))
  | write call writes =>
    cases writes with
    | nil =>
      -- the producer is now the one that raises the bit
      intro _
      right
      left
      refine ⟨i, ?_⟩
      change (update s.producers i (.drop call) i).Raises
      rw [update_self]
      have hact := hplaced.ring.active i call [] (writing_of hp)
      exact Call.accepted_ne_zero hact.pos
    | cons x writes =>
      refine h.step rfl ?_ id rfl rfl (fun hr => absurd hr (by rw [hp]; exact id))
      exact hplaced.ring.first_write (writing_of hp) (mem_cons_self ..)
  | drop call => exact h.step rfl rfl id rfl rfl (fun hr => Or.inl (by rw [hp] at hr; exact hr))
  | free call =>
    refine h.step rfl rfl id rfl rfl ?_
    intro hr
    left
    rw [hp] at hr
    change call.accepted ≠ 0 at hr
    rw [if_pos hr]
    trivial
  | notify => exact h.step rfl rfl (fun _ => rfl) rfl rfl (fun _ => Or.inr rfl)

theorem Signalled.consume (h : s.Signalled) (hplaced : s.Placed)
    (hlimit : 0 < s.queue.dequeueVectorLimit) : (s.consume arch).Signalled := by
  cases hc : s.consumer with
  | idle =>
    rw [with_consumer hc] at h ⊢
    exact h
  | test head count frame =>
    rw [with_consumer hc]
    dsimp only [State.consume]
    split
    · intro _
      exact Or.inr (Or.inr trivial)
    · next hcond =>
      intro hne
      have hle : s.queue.dequeueVectorLimit ≤ count := by
        by_contra hlt
        apply hcond
        rw [hplaced.slotOf]
        exact ⟨not_le.mp hlt, hne⟩
      exact Or.inr (Or.inr ⟨by omega, hle⟩)
  | copy head count frame =>
    rw [with_consumer hc]
    dsimp only [State.consume]
    split
    · exact fun _ => Or.inr (Or.inr trivial)
    · exact fun _ => Or.inr (Or.inr trivial)
  | clear head count written frame =>
    rw [with_consumer hc]
    exact fun _ => Or.inr (Or.inr trivial)
  | advance head count frame =>
    rw [with_consumer hc] at h hplaced ⊢
    dsimp only [State.consume]
    split
    · exact h
    · next hzero =>
      obtain rfl : head = s.queue.head := hplaced.consumer (not_not.mp hzero)
      exact h
  | rearm count frame =>
    rw [with_consumer hc] at h ⊢
    intro hne
    rcases h hne with hpend | hraise | ⟨hcount, hle⟩
    · left
      change (s.pending || _) = true
      rw [hpend, Bool.true_or]
    · exact Or.inr (Or.inl hraise)
    · left
      change (s.pending || (count != 0 && decide (s.queue.dequeueVectorLimit ≤ count))) = true
      rw [decide_eq_true hle, bne_iff_ne.mpr hcount, Bool.and_true, Bool.or_true]
  | flush frame =>
    rw [with_consumer hc] at h ⊢
    intro hne
    rcases h hne with hpend | hraise | hbusy
    · exact Or.inl hpend
    · exact Or.inr (Or.inl hraise)
    · exact hbusy.elim

theorem Signalled.resize (h : s.Signalled) (hplaced : s.Placed) (hp : ∀ i, s.producers i = .idle)
    (hc : s.consumer = .idle) (queueSize : ℕ) : (s.resize queueSize).Signalled := by
  obtain ⟨hproducers, -, -, -, hpending, -, -⟩ := resize_keeps s queueSize
  have hnew := hplaced.resize hp hc queueSize
  have hpos : (s.resize queueSize).position = s.position ∧
      (s.resize queueSize).queue.tail = s.queue.tail := by
    have hle : s.position ≤ s.queue.tail := hplaced.ring.le_tail
    have hhead := position_idle hc
    unfold State.resize
    rw [hplaced.pendingSlots_eq hp hc]
    split
    · exact ⟨rfl, rfl⟩
    · dsimp only
      split
      · exact ⟨rfl, rfl⟩
      · refine ⟨rfl, ?_⟩
        change s.queue.head + (s.queue.tail - s.queue.head) = s.queue.tail
        omega
  intro hne
  have hlt : s.position < s.queue.tail := by
    rw [← hpos.1, ← hpos.2]
    exact (hnew.ring.published hne).1
  rw [hpending, hproducers]
  rcases h (hplaced.first_ne hp le_rfl hlt) with hpend | hraise | hbusy
  · exact Or.inl hpend
  · exact Or.inr (Or.inl hraise)
  · rw [hc] at hbusy
    exact hbusy.elim

structure Inv (s : State n) : Prop where
  limit : 0 < s.queue.dequeueVectorLimit
  placed : s.Placed
  accounted : s.Accounted
  signalled : s.Signalled

theorem inv_new {queueSize dequeueVectorLimit : ℕ} {withAux : Bool} {queue : HandoffQueue}
    (h : handoffAllocQueues queueSize dequeueVectorLimit withAux = some queue) :
    (new n queue).Inv := by
  unfold handoffAllocQueues at h
  dsimp only at h
  generalize (if queueSize = 0 then 4096 else queueSize) = q at h
  split at h
  · next hok =>
    have hsize := isSize_of_queueSize hok.1 hok.2
    cases h
    refine ⟨?_, ⟨?_, fun c hc => (nomatch hc), fun i => trivial, trivial, fun hr => hr.elim,
      rfl, fun f hf => (nomatch hf), Nat.zero_le _⟩, ?_, ?_⟩
    · change 0 < if _ then _ else _
      split
      · decide
      · omega
    · refine ⟨hsize, rfl, fun c hc => (nomatch hc), le_rfl, le_rfl, Nat.zero_le _,
        fun i c ws ha => (nomatch ha), fun i j c d ws ws' _ ha => (nomatch ha),
        fun _ _ _ => rfl, ?_⟩
      intro p _ hp
      exact absurd hp (Nat.not_lt_zero p)
    · change (0 : Multiset (List Entry) × Multiset ℕ × ℕ) + ∑ i : Fin n, 0 = 0
      rw [Finset.sum_const_zero, add_zero]
    · intro hne
      exact absurd rfl hne
  · nomatch h

theorem produce_keeps (s : State n) (i : Fin n) (spurious : Bool) :
    (∀ j, j ≠ i → (s.produce i spurious).producers j = s.producers j) ∧
      (s.produce i spurious).consumer = s.consumer ∧
      (s.produce i spurious).offered = s.offered ∧
      (s.produce i spurious).queue.dequeueVectorLimit = s.queue.dequeueVectorLimit := by
  have hset : ∀ (u : State n) p j, j ≠ i → (u.setProducer i p).producers j = u.producers j :=
    fun u p j hj => update_of_ne hj ..
  unfold produce
  cases hp : s.producers i with
  | reserve batch tail head =>
    dsimp only
    rcases tryReserve_cases s i batch tail head spurious with heq | heq | ⟨_, -, -, -, -, heq⟩
    · rw [heq]
      exact ⟨hset s _, rfl, rfl, rfl⟩
    · rw [heq]
      exact ⟨hset _ _, rfl, rfl, rfl⟩
    · rw [heq]
      exact ⟨hset _ _, rfl, rfl, rfl⟩
  | write call writes =>
    cases writes with
    | nil | cons x writes => exact ⟨hset _ _, rfl, rfl, rfl⟩
  | idle => exact ⟨fun j _ => rfl, rfl, rfl, rfl⟩
  | _ => exact ⟨hset _ _, rfl, rfl, rfl⟩

theorem Inv.produce (h : s.Inv) : (s.produce i spurious).Inv :=
  ⟨(produce_keeps s i spurious).2.2.2.symm ▸ h.limit, h.placed.produce i spurious, h.accounted.produce,
    h.signalled.produce h.placed⟩

theorem Inv.consume (h : s.Inv) : (s.consume arch).Inv :=
  ⟨(consume_limit s arch).symm ▸ h.limit, h.placed.consume arch, h.accounted.consume,
    h.signalled.consume h.placed h.limit⟩

theorem Inv.dequeue (h : s.Inv) (hc : s.consumer = .idle) : s.dequeue.Inv :=
  ⟨h.limit, h.placed.dequeue hc, h.accounted, fun _ => Or.inr (Or.inr trivial)⟩

variable {batch : List Entry} {call : Call}

theorem Inv.enqueue (h : s.Inv) (hidle : s.producers i = .idle)
    (hbatch : ValidBatch s.queue.withAux batch) :
    ({ s with offered := s.offered ++ [batch] }.setProducer i (.loadTail batch)).Inv := by
  have hplaced : ({ s with offered := s.offered ++ [batch] } : State n).Placed :=
    ⟨h.placed.ring, h.placed.calls, h.placed.producers, h.placed.consumer, h.placed.published,
      h.placed.delivered, h.placed.frames, h.placed.inHand⟩
  refine ⟨h.limit, hplaced.setProducer ?_ hbatch, ?_, ?_⟩
  · rw [hidle]
    rfl
  · refine h.accounted.step rfl 0 ({batch}, 0, 0) (add_zero _).symm ?_ ?_
    · unfold due setProducer
      rw [← Multiset.coe_add]
      simp
    · rw [hidle]
      simp [Producer.account]
  · exact h.signalled.step rfl rfl id rfl rfl (fun hr => absurd hr (by rw [hidle]; exact id))

theorem Inv.next (h : s.Inv) {e : Event n} (he : Enabled s e) : (next arch s e).Inv := by
  cases e with
  | enqueue i batch => exact h.enqueue he.1 he.2.2
  | produce i spurious => exact h.produce
  | dequeue => exact h.dequeue he
  | consume => exact h.consume
  | resize queueSize =>
    exact ⟨(resize_keeps s queueSize).2.2.2.2.2.2.symm ▸ h.limit,
      h.placed.resize he.1 he.2 queueSize, h.accounted.resize queueSize,
      h.signalled.resize h.placed he.1 he.2 queueSize⟩

theorem Inv.execution (h : s.Inv) (hrun : Execution arch s t) : t.Inv := by
  induction hrun with
  | refl => exact h
  | tail before enabled ih => exact ih.next enabled

/-- Steps of calls under way and of the consumer. -/
inductive Internal (arch : Arch) (s : State n) : State n → Prop
  | produce (i : Fin n) : Internal arch s (s.produce i false)
  | consume : Internal arch s (s.consume arch)
  | dequeue (h : s.consumer = .idle) : Internal arch s s.dequeue

/-- No call is under way, and the consumer has no reason to come. -/
structure Quiescent (s : State n) : Prop where
  producers : ∀ i, s.producers i = .idle
  consumer : s.consumer = .idle
  pending : s.pending = false

abbrev Completes (arch : Arch) : State n → State n → Prop := Relation.ReflTransGen (Internal arch)

theorem Inv.completes (h : s.Inv) (hrun : Completes arch s t) : t.Inv := by
  induction hrun with
  | refl => exact h
  | tail _ hstep ih =>
    cases hstep with
    | produce i => exact ih.produce
    | consume => exact ih.consume
    | dequeue hc => exact ih.dequeue hc

/-- A producer can come to the end of its call. -/
def Finishes (arch : Arch) (i : Fin n) (s : State n) : Prop :=
  ∃ t, Completes arch s t ∧ t.producers i = .idle ∧ (∀ j, j ≠ i → t.producers j = s.producers j) ∧
    t.consumer = s.consumer ∧ t.offered = s.offered

theorem Finishes.of_produce (h : Finishes arch i (s.produce i false)) : Finishes arch i s := by
  obtain ⟨t, hrun, hidle, hother, hc, ho⟩ := h
  obtain ⟨hother', hc', ho', -⟩ := produce_keeps s i false
  exact ⟨t, .head (.produce i) hrun, hidle, fun j hj => (hother j hj).trans (hother' j hj),
    hc.trans hc', ho.trans ho'⟩

theorem producers_setProducer : (s.setProducer i p).producers i = p := update_self ..

theorem finishes_idle (hp : s.producers i = .idle) : Finishes arch i s :=
  ⟨s, .refl, hp, fun _ _ => rfl, rfl, rfl⟩

theorem finishes_notify (hp : s.producers i = .notify) : Finishes arch i s := by
  apply Finishes.of_produce
  apply finishes_idle
  unfold produce
  rw [hp]
  exact producers_setProducer

theorem finishes_free (hp : s.producers i = .free call) : Finishes arch i s := by
  apply Finishes.of_produce
  unfold produce
  rw [hp]
  dsimp only
  split
  · exact finishes_notify producers_setProducer
  · exact finishes_idle producers_setProducer

theorem finishes_drop (hp : s.producers i = .drop call) : Finishes arch i s := by
  apply Finishes.of_produce
  apply finishes_free
  unfold produce
  rw [hp]
  exact producers_setProducer

theorem finishes_write {writes : List Write} (hp : s.producers i = .write call writes) :
    Finishes arch i s := by
  induction writes generalizing s with
  | nil =>
    apply Finishes.of_produce
    apply finishes_drop
    unfold produce
    rw [hp]
    exact producers_setProducer
  | cons x writes ih =>
    apply Finishes.of_produce
    apply ih
    unfold produce
    rw [hp]
    exact producers_setProducer

theorem finishes_reserve {tail head : ℕ} (hp : s.producers i = .reserve batch tail head)
    (hretry : ∀ {u : State n}, u.Placed → u.producers i = .loadTail batch → Finishes arch i u)
    (h : s.Placed) : Finishes arch i s := by
  have hnext : s.produce i false = s.tryReserve i batch tail head false := by
    unfold produce
    rw [hp]
  have hplaced := h.produce i false
  apply Finishes.of_produce
  rw [hnext] at hplaced ⊢
  rcases tryReserve_cases s i batch tail head false with heq | heq | ⟨_, -, -, -, -, heq⟩
  · rw [heq] at hplaced ⊢
    exact hretry hplaced producers_setProducer
  · rw [heq]
    exact finishes_drop producers_setProducer
  · rw [heq]
    exact finishes_write producers_setProducer

theorem finishes_loadTail (h : s.Placed)
    (hp : s.producers i = .loadTail batch) : Finishes arch i s := by
  apply Finishes.of_produce
  have hone : s.produce i false = s.setProducer i (.loadHead batch s.queue.tail) := by
    unfold produce
    rw [hp]
  rw [hone]
  apply Finishes.of_produce
  have htwo : (s.setProducer i (.loadHead batch s.queue.tail)).produce i false =
      (s.setProducer i (.loadHead batch s.queue.tail)).setProducer i
        (.reserve batch s.queue.tail s.queue.head) := by
    unfold produce
    rw [producers_setProducer]
    rfl
  rw [htwo]
  apply Finishes.of_produce
  unfold produce
  rw [producers_setProducer]
  dsimp only
  have hle : s.queue.head ≤ s.queue.tail := h.ring.head_le.trans h.ring.le_tail
  unfold tryReserve
  rw [if_neg (not_lt.mpr hle)]
  dsimp only
  split
  · exact finishes_drop producers_setProducer
  · have hsame : (false || s.queue.tail != s.queue.tail) = false := by simp
    change Finishes arch i (if (false || s.queue.tail != s.queue.tail) = true then _ else _)
    rw [hsame]
    exact finishes_write producers_setProducer

theorem finishes (arch : Arch) (h : s.Placed) (i : Fin n) : Finishes arch i s := by
  cases hp : s.producers i with
  | idle => exact finishes_idle hp
  | loadTail batch => exact finishes_loadTail h hp
  | loadHead batch tail =>
    have hplaced := h.produce i false
    have hnext : s.produce i false = s.setProducer i (.reserve batch tail s.queue.head) := by
      unfold produce
      rw [hp]
    apply Finishes.of_produce
    rw [hnext] at hplaced ⊢
    exact finishes_reserve producers_setProducer finishes_loadTail hplaced
  | reserve batch tail head => exact finishes_reserve hp finishes_loadTail h
  | write call writes => exact finishes_write hp
  | drop call => exact finishes_drop hp
  | free call => exact finishes_free hp
  | notify => exact finishes_notify hp

/-- All producers can come to the end of their calls, one after the other. -/
theorem Inv.finish_all (h : s.Inv) (arch : Arch) (l : List (Fin n)) :
    ∃ t, Completes arch s t ∧ (∀ i ∈ l, t.producers i = .idle) ∧ t.offered = s.offered := by
  induction l with
  | nil => exact ⟨s, .refl, fun i hi => (nomatch hi), rfl⟩
  | cons i l ih =>
    obtain ⟨t, hrun, hidle, ho⟩ := ih
    obtain ⟨u, hrun', hi, hother, -, ho'⟩ := finishes arch (h.completes hrun).placed i
    refine ⟨u, hrun.trans hrun', ?_, ho'.trans ho⟩
    intro j hj
    by_cases hji : j = i
    · rw [hji]
      exact hi
    · rw [hother j hji]
      exact hidle j ((mem_cons.mp hj).resolve_left hji)

/-- The consumer comes to the end of its turn. -/
def Settles (arch : Arch) (s : State n) : Prop :=
  ∃ k, ((State.consume arch)^[k] s).consumer = .idle

theorem Settles.of_consume (h : Settles arch (s.consume arch)) : Settles arch s := by
  obtain ⟨k, hk⟩ := h
  exact ⟨k + 1, hk⟩

variable {frame : Option (List Entry)}

theorem settles_flush (hc : s.consumer = .flush frame) : Settles arch s := by
  refine ⟨1, ?_⟩
  change (s.consume arch).consumer = .idle
  unfold consume
  rw [hc]

theorem settles_rearm {count : ℕ} (hc : s.consumer = .rearm count frame) : Settles arch s := by
  apply Settles.of_consume
  apply settles_flush
  unfold consume
  rw [hc]

variable {head count : ℕ}

theorem settles_advance (hc : s.consumer = .advance head count frame) : Settles arch s := by
  apply Settles.of_consume
  apply settles_rearm
  unfold consume
  rw [hc]

theorem consume_clear (arch : Arch) {head count written : ℕ}
    (hc : s.consumer = .clear head count written frame) :
    (s.consume arch).consumer = .test (head + 1) (count + written) frame := by
  unfold consume
  rw [hc]

theorem consume_copy (arch : Arch) (hc : s.consumer = .copy head count frame) :
    ∃ written frame', (s.consume arch).consumer = .clear head count written frame' := by
  unfold consume
  rw [hc]
  dsimp only
  split
  · exact ⟨_, _, rfl⟩
  · exact ⟨_, _, rfl⟩

theorem settles_test (h : s.Placed)
    (hc : s.consumer = .test head count frame) : Settles arch s := by
  -- every turn of the loop copies at least one index
  generalize hm : s.queue.dequeueVectorLimit - count = m
  induction m using Nat.strong_induction_on generalizing s head count frame with
  | _ m ih =>
    have hnext : (s.consume arch).consumer = .advance head count frame ∨
        count < s.queue.dequeueVectorLimit ∧
          (s.consume arch).consumer = .copy head count frame := by
      unfold consume
      rw [hc]
      dsimp only
      split
      · next hcond => exact Or.inr ⟨hcond.1, rfl⟩
      · exact Or.inl rfl
    apply Settles.of_consume
    rcases hnext with hadvance | ⟨hlt, hcopy⟩
    · exact settles_advance hadvance
    · have hplaced1 := h.consume arch
      have hlimit1 := consume_limit s arch
      generalize s.consume arch = t at hcopy hplaced1 hlimit1
      obtain ⟨written, frame', hclear⟩ := consume_copy arch hcopy
      have hplaced2 := hplaced1.consume arch
      have hlimit2 := consume_limit t arch
      apply Settles.of_consume
      generalize t.consume arch = u at hclear hplaced2 hlimit2
      have hwritten : 0 < written := by
        have := hplaced2.consumer
        rw [hclear] at this
        exact this.2
      have hlimit3 := consume_limit u arch
      apply Settles.of_consume
      refine ih _ ?_ (hplaced2.consume arch) (consume_clear arch hclear) rfl
      omega

theorem settles (arch : Arch) (h : s.Placed) : Settles arch s := by
  have hclear : ∀ {u : State n} {head count written frame}, u.Placed →
      u.consumer = .clear head count written frame → Settles arch u :=
    fun hu hc => Settles.of_consume (settles_test (hu.consume arch) (consume_clear arch hc))
  cases hc : s.consumer with
  | idle => exact ⟨0, hc⟩
  | test head count frame => exact settles_test h hc
  | copy head count frame =>
    obtain ⟨written, frame', hnext⟩ := consume_copy arch hc
    exact Settles.of_consume (hclear (h.consume arch) hnext)
  | clear head count written frame => exact hclear h hc
  | advance head count frame => exact settles_advance hc
  | rearm count frame => exact settles_rearm hc
  | flush frame => exact settles_flush hc

/-- A turn of the consumer that began at a position raises the pending bit again only after it has
come further. -/
structure Ahead (start : ℕ) (s : State n) : Prop where
  le : start ≤ s.position
  pending : s.pending = true → start < s.position
  count : s.consumer.count ≠ 0 → start < s.position

theorem Ahead.consume {start : ℕ} (h : s.Ahead start) (hplaced : s.Placed) (arch : Arch) :
    (s.consume arch).Ahead start := by
  cases hc : s.consumer with
  | idle =>
    rw [with_consumer hc] at h ⊢
    exact h
  | test head count frame | copy head count frame =>
    rw [with_consumer hc] at h ⊢
    dsimp only [State.consume]
    split
    · exact ⟨h.le, h.pending, h.count⟩
    · exact ⟨h.le, h.pending, h.count⟩
  | clear head count written frame =>
    rw [with_consumer hc] at h ⊢
    have hlt : start < head + 1 := Nat.lt_succ_of_le h.le
    exact ⟨hlt.le, fun _ => hlt, fun _ => hlt⟩
  | advance head count frame =>
    rw [with_consumer hc] at h hplaced ⊢
    dsimp only [State.consume]
    split
    · exact ⟨h.le, h.pending, h.count⟩
    · next hzero =>
      obtain rfl : head = s.queue.head := hplaced.consumer (not_not.mp hzero)
      exact ⟨h.le, h.pending, h.count⟩
  | rearm count frame =>
    rw [with_consumer hc] at h ⊢
    refine ⟨h.le, ?_, fun hne => absurd rfl hne⟩
    intro hraised
    dsimp only [State.consume] at hraised
    rw [Bool.or_eq_true, Bool.and_eq_true, bne_iff_ne] at hraised
    rcases hraised with hp | hp
    · exact h.pending hp
    · exact h.count hp.1
  | flush frame =>
    rw [with_consumer hc] at h ⊢
    exact ⟨h.le, h.pending, fun hne => absurd rfl hne⟩

theorem iterate_keeps (s : State n) (arch : Arch) (k : ℕ) :
    Completes arch s ((consume arch)^[k] s) ∧ ((consume arch)^[k] s).producers = s.producers ∧
      ((consume arch)^[k] s).queue.tail = s.queue.tail ∧
      ((consume arch)^[k] s).offered = s.offered := by
  induction k with
  | zero => exact ⟨.refl, rfl, rfl, rfl⟩
  | succ k ih =>
    obtain ⟨hrun, hp, ht, ho⟩ := ih
    rw [iterate_succ_apply']
    obtain ⟨hp', -, ho', -, -, -, ht'⟩ := consume_keeps ((consume arch)^[k] s) arch
    exact ⟨hrun.tail .consume, hp'.trans hp, ht'.trans ht, ho'.trans ho⟩

theorem Ahead.iterate {start : ℕ} (hahead : s.Ahead start) (h : s.Inv) (arch : Arch) (k : ℕ) :
    ((State.consume arch)^[k] s).Ahead start := by
  induction k with
  | zero => exact hahead
  | succ k ih =>
    rw [iterate_succ_apply']
    exact ih.consume (h.completes (iterate_keeps s arch k).1).placed arch

theorem Inv.empty (h : s.Inv) (hp : ∀ i, s.producers i = .idle) (hc : s.consumer = .idle) :
    ∃ t, Completes arch s t ∧ t.Quiescent ∧ t.offered = s.offered := by
  generalize hm : s.queue.tail - s.position = m
  induction m using Nat.strong_induction_on generalizing s with
  | _ m ih =>
    have hinv := h.dequeue hc
    have hhead := position_idle hc
    have hahead : s.dequeue.Ahead s.position :=
      ⟨hhead.le, fun hpend => Bool.noConfusion hpend, fun hne => absurd rfl hne⟩
    obtain ⟨k, hk⟩ := settles arch hinv.placed
    have ha := hahead.iterate hinv arch k
    obtain ⟨hrun, hproducers, htail, hoffered⟩ := iterate_keeps s.dequeue arch k
    have hrun' : Completes arch s ((State.consume arch)^[k] s.dequeue) :=
      .head (.dequeue hc) hrun
    have hinv' := h.completes hrun'
    generalize (State.consume arch)^[k] s.dequeue = t at *
    have hidle : ∀ i, t.producers i = .idle := fun i => by
      rw [hproducers]
      exact hp i
    cases hpend : t.pending with
    | false => exact ⟨t, hrun', ⟨hidle, hk, hpend⟩, hoffered⟩
    | true =>
      have hlt := ha.pending hpend
      have hle : t.position ≤ t.queue.tail := hinv'.placed.ring.le_tail
      have htail' : t.queue.tail = s.queue.tail := htail
      obtain ⟨u, hrun'', hquiet, ho⟩ := ih _ (by omega) hinv' hidle hk rfl
      exact ⟨u, hrun'.trans hrun'', hquiet, ho.trans hoffered⟩

/-- From every state the calls under way can be completed and the queue emptied. -/
theorem Inv.exists_quiescent (h : s.Inv) (arch : Arch) :
    ∃ t, Completes arch s t ∧ t.Quiescent ∧ t.offered = s.offered := by
  obtain ⟨t, hrun, hidle, ho⟩ := h.finish_all arch (finRange n)
  obtain ⟨k, hk⟩ := settles arch (h.completes hrun).placed
  obtain ⟨hturn, hproducers, -, hoffered⟩ := iterate_keeps t arch k
  have hrun' := hrun.trans hturn
  have hidle' : ∀ i, ((State.consume arch)^[k] t).producers i = .idle := by
    intro i
    rw [hproducers]
    exact hidle i (mem_finRange i)
  obtain ⟨u, hrun'', hquiet, ho'⟩ := (h.completes hrun').empty hidle' hk
  exact ⟨u, hrun'.trans hrun'', hquiet, ho'.trans (hoffered.trans ho)⟩

/-- What the queue took, call after call in the order in which they got their slots. -/
def accepted (s : State n) : List Entry := s.decided.flatMap Call.taken

def dropped (s : State n) : List Entry := s.decided.flatMap Call.dropped

/-- All that was accepted is delivered, and all that was not is freed and counted. -/
structure Complete (s : State n) : Prop where
  delivered : s.frames.flatten = s.accepted
  decided : (s.decided.map Call.batch).Perm s.offered
  freed : s.freed.Perm (s.dropped.map Prod.fst)
  counted : s.queue.nDropped = s.dropped.length

theorem Placed.flatten_chunks (h : s.Placed) : s.chunks.flatten = s.accepted := by
  unfold chunks accepted
  have hcalls := h.calls
  generalize s.decided = l at hcalls
  induction l with
  | nil => rfl
  | cons c l ih =>
    rw [flatMap_cons, flatMap_cons, flatten_append,
      Call.flatten_chunks (hcalls c (mem_cons_self ..)),
      ih fun d hd => hcalls d (mem_cons_of_mem _ hd)]

theorem Placed.delivered_beginning (h : s.Placed) :
    s.frames.flatten ++ s.consumer.inHand <+: s.accepted := by
  rw [h.delivered, ← h.flatten_chunks]
  refine ⟨(s.chunks.drop (s.consumer.copied s.queue.head)).flatten, ?_⟩
  rw [← flatten_append, take_append_drop]

theorem Inv.complete (h : s.Inv) (hq : s.Quiescent) : s.Complete := by
  have haccount := h.accounted
  unfold Accounted settled due at haccount
  have hsum : ∑ i, (s.producers i).account = 0 := by
    apply Finset.sum_eq_zero
    intro i _
    rw [hq.producers i]
    rfl
  rw [hsum, add_zero, Prod.mk.injEq, Prod.mk.injEq] at haccount
  obtain ⟨hdecided, hfreed, hcounted⟩ := haccount
  refine ⟨?_, Multiset.coe_eq_coe.mp hdecided, ?_, hcounted⟩
  · -- a slot left in the queue would be published, and nobody would see to it
    have hpos := position_idle hq.consumer
    have hall : s.queue.tail ≤ s.position := by
      by_contra hlt
      have hfirst := h.placed.first_ne hq.producers le_rfl (not_le.mp hlt)
      rcases h.signalled hfirst with hpend | ⟨i, hraise⟩ | hbusy
      · rw [hq.pending] at hpend
        cases hpend
      · rw [hq.producers i] at hraise
        exact hraise
      · rw [hq.consumer] at hbusy
        exact hbusy
    have hlen : s.chunks.length = s.queue.tail := h.placed.ring.length
    have hdel := h.placed.delivered
    rw [hq.consumer] at hdel
    change s.frames.flatten ++ [] = (s.chunks.take s.queue.head).flatten at hdel
    rw [append_nil, take_of_length_le (by omega)] at hdel
    rw [hdel, h.placed.flatten_chunks]
  · unfold dropped
    rw [map_flatMap]
    exact Multiset.coe_eq_coe.mp hfreed

/-- The word that publishes a call. -/
def publication (s : State n) (c : Call) : Write :=
  ⟨s.queue.slotOf c.start, 0, (c.taken.map Prod.fst).headD HANDOFF_INVALID_INDEX⟩

/-- A write into a slot of this position. -/
def Hits (s : State n) (x : Write) (q : ℕ) : Prop :=
  x.slot = q % s.queue.size ∨ x.slot = s.queue.size + q % s.queue.size

theorem Placed.hits_own (h : s.Placed) {c : Call} {ws : List Write}
    (hp : s.producers i = .write c ws) {x : Write} (hx : x ∈ ws ++ [s.publication c]) {q : ℕ}
    (hq : s.position ≤ q) (hq' : q < s.queue.tail) (hhit : s.Hits x q) : c.Covers q := by
  have ha := writing_of hp
  have hact := h.ring.active i c ws ha
  have htarget : ∃ p, c.Covers p ∧ s.Hits x p := by
    rcases mem_append.mp hx with hx | hx
    · exact hact.targets x hx
    · rw [mem_singleton.mp hx]
      exact ⟨c.start, ⟨le_rfl, Nat.lt_add_of_pos_right hact.pos⟩, Or.inl (h.slotOf c.start)⟩
  obtain ⟨p, hp, hslot⟩ := htarget
  obtain ⟨hp1, -, hp2⟩ := h.ring.covers_bounds ha hp
  have hroom : s.queue.tail ≤ s.position + s.queue.size :=
    h.ring.room.trans (Nat.add_le_add_right h.ring.head_le _)
  by_contra hc
  have hne := mod_ne_of_window hp1 hp2 hq (hq'.trans_le hroom) (fun heq => hc (heq ▸ hp))
  change p % s.queue.size ≠ q % s.queue.size at hne
  have hlt := Nat.mod_lt p h.ring.size.pos
  have hlt' := Nat.mod_lt q h.ring.size.pos
  change p % s.queue.size < s.queue.size at hlt
  change q % s.queue.size < s.queue.size at hlt'
  unfold Hits at hslot hhit
  omega

end State

/-- The handoff queue of a worker under every interleaving of any number of producers, its consumer
and resizes: what is delivered is a beginning of what was accepted, entry by entry; every batch is
decided once, and what it drops is freed and counted; a producer writes into no slot that waits for
the consumer; the assertion of a resize holds; when nothing is under way all is delivered, and from
every state this is reached without further calls. -/
theorem handoff_queue_delivers_once {n : ℕ} {arch : Arch} {queueSize dequeueVectorLimit : ℕ}
    {withAux : Bool} {queue : HandoffQueue} {s : State n}
    (halloc : handoffAllocQueues queueSize dequeueVectorLimit withAux = some queue)
    (hrun : Execution arch (State.new n queue) s) :
    s.frames.flatten ++ s.consumer.inHand <+: s.accepted ∧
    s.settled + ∑ i, (s.producers i).account = s.due ∧
    (∀ i c ws, s.producers i = .write c ws → ∀ x ∈ ws ++ [s.publication c],
      ∀ q, s.position ≤ q → q < s.queue.tail → s.Hits x q → c.Covers q) ∧
    ((∀ i, s.producers i = .idle) → s.consumer = .idle →
      State.pendingSlots s.queue = s.queue.tail - s.queue.head) ∧
    (s.Quiescent → s.Complete) ∧
    ∃ t, State.Completes arch s t ∧ t.Quiescent ∧ t.Complete ∧ t.offered = s.offered := by
  have hinv : s.Inv := (State.inv_new halloc).execution hrun
  refine ⟨hinv.placed.delivered_beginning, hinv.accounted, ?_, hinv.placed.pendingSlots_eq,
    hinv.complete, ?_⟩
  · intro i c ws hp x hx q hq hq' hhit
    exact hinv.placed.hits_own hp hx hq hq' hhit
  · obtain ⟨t, hcompletes, hquiet, hoffered⟩ := hinv.exists_quiescent arch
    exact ⟨t, hcompletes, hquiet, (hinv.completes hcompletes).complete hquiet, hoffered⟩

instance {n : ℕ} (s : State n) (e : Event n) : Decidable (Enabled s e) := by
  cases e <;> unfold Enabled <;> infer_instance

/-- Events that are enabled one after the other. -/
def EnabledAll {n : ℕ} (arch : Arch) : State n → List (Event n) → Prop
  | _, [] => True
  | s, e :: l => Enabled s e ∧ EnabledAll arch (next arch s e) l

instance {n : ℕ} (arch : Arch) (s : State n) (l : List (Event n)) :
    Decidable (EnabledAll arch s l) := by
  induction l generalizing s with
  | nil => exact isTrue trivial
  | cons e l ih => exact inferInstanceAs (Decidable (_ ∧ _))

theorem Execution.events {n : ℕ} {arch : Arch} {s t : State n} {l : List (Event n)}
    (hrun : Execution arch s t) (hl : EnabledAll arch t l) :
    Execution arch s (l.foldl (next arch) t) := by
  induction l generalizing t with
  | nil => exact hrun
  | cons e l ih => exact ih (.tail hrun hl.1) hl.2

/-- Two producers at a queue of one slot. -/
def oneSlotRun : List (Event 2) :=
  [.enqueue 0 [(7, some 3)], .enqueue 1 [(9, some 4)]] ++
    List.replicate 3 (.produce 0 false) ++ List.replicate 3 (.produce 1 false) ++
    List.replicate 36 (.produce 0 false) ++ List.replicate 2 (.produce 1 false) ++
    [.dequeue] ++ List.replicate 7 .consume

def oneSlotState : State 2 :=
  oneSlotRun.foldl (next .v4) (State.new 2 (HandoffQueue.new 1 512 true))

/-- The second producer finds the slot taken; the first one's index arrives with its aux value. -/
theorem one_slot_queue : oneSlotState.frames = [[(7, some 3)]] ∧ oneSlotState.freed = [9] ∧
    oneSlotState.Complete := by
  have hrun : Execution .v4 (State.new 2 (HandoffQueue.new 1 512 true)) oneSlotState :=
    Execution.events (.refl _) (by decide +kernel)
  have hquiet : oneSlotState.Quiescent :=
    ⟨by decide +kernel, by decide +kernel, by decide +kernel⟩
  have halloc : handoffAllocQueues 32 0 true = some (HandoffQueue.new 1 512 true) := rfl
  refine ⟨by decide +kernel, by decide +kernel, ?_⟩
  exact (handoff_queue_delivers_once halloc hrun).2.2.2.2.1 hquiet

end Handoff
