import Hammer.MsgQueueRuns

/-! # A drained message queue

A slot that is allocated and never added is lost: a ring frees its elements only from its head.
-/
namespace MsgQueue

open SvmMsgQ

variable {p : Platform} {config : SvmMsgQConfig} {q : SvmMsgQ} {h : History}
  {d : SvmMsgQDescriptor} {ring : SvmMsgQRing}

/-- The producer writes and adds the slot `d`, the consumer takes and frees it, and nothing of the
message is left. -/
def Completes (p : Platform) (config : SvmMsgQConfig) (q : SvmMsgQ) (d : SvmMsgQDescriptor)
    (elsize : ℕ) : Prop :=
  ∀ bs : Bytes, bs.length = elsize → ∃ q₁ q₂ q₃ q₄ h₄, q.write p d bs = .ok q₁ ∧
    q₁.add p d = .ok q₂ ∧ q₂.sub p = .ok (q₃, d) ∧ q₃.freeMsg p d = .ok q₄ ∧
    Reaches p config q₄ h₄ ∧ h₄.live = []

theorem History.live_eq_nil : h.live = [] ↔ h.taken = [] ∧ h.waiting = [] ∧ h.pending = [] := by
  simp [History.live]

theorem Sound.not_full (s : Sound q h) (hw : h.waiting = []) : q.isFull = false := by
  have hcount := s.queue.cursize
  have hpos := s.queue.pos
  rw [hw] at hcount
  simp only [isFull, beq_eq_false_iff_ne, hcount, List.map_nil, List.length_nil]
  omega

section

variable (hsignal : ∀ op, p.signal op = .ok ())
  (hsmall : ∀ ring ∈ config.rings, ring.nitems ≤ 2147483648)
include hsignal hsmall

theorem Reaches.completes (hr : Reaches p config q (h.alloc d)) (hlive : h.live = [])
    (hring : q.rings[d.ringIndex]? = some ring) : Completes p config q d ring.elsize := by
  intro bs hlen
  obtain ⟨ht, hw, hp⟩ := History.live_eq_nil.mp hlive
  have hpending : (h.alloc d).pending = [(d, none)] := by
    simp [History.alloc, hp]
  have hmem : d ∈ (h.alloc d).pending.map (·.1) := by simp [hpending]
  have s := hr.sound hsignal hsmall
  obtain ⟨q₁, hwrite⟩ : ∃ q₁, q.write p d bs = .ok q₁ :=
    ⟨_, (write_eq s.rings (List.mem_append_right _ hmem) hring bs).trans
      (if_neg (not_not.mpr hlen))⟩
  have hr₁ := Reaches.write bs hr hmem hwrite
  have s₁ := hr₁.sound hsignal hsmall
  have hpending₁ : ((h.alloc d).write d bs).pending = [(d, some bs)] := by
    simp [History.write, hpending]
  have hold : Oldest d (((h.alloc d).write d bs).pending.map (·.1)) := by
    simp [Oldest, hpending₁, onRing_singleton]
  obtain ⟨q₂, hadd⟩ : ∃ q₂, q₁.add p d = .ok q₂ :=
    ⟨_, (add_eq hsignal s₁.rings (List.mem_append_right _ hold.mem)).trans
      (if_neg (by rw [s₁.not_full hw]; decide))⟩
  have hr₂ := Reaches.add bs hr₁ (by simp [hpending₁]) hold hadd
  have s₂ := hr₂.sound hsignal hsmall
  have hwaiting : (((h.alloc d).write d bs).add d bs).waiting = [(d, bs)] :=
    (List.drop_append_of_le_length s₁.subbed_le).trans (congrArg (· ++ [(d, bs)]) hw)
  obtain ⟨q₃, hsub⟩ : ∃ q₃, q₂.sub p = .ok (q₃, d) := by
    have hcount := s₂.queue.cursize
    rw [hwaiting] at hcount
    rw [sub_eq hsignal, if_neg (by simp [isEmpty, hcount]), (s₂.sub hwaiting).1]
    exact ⟨_, rfl⟩
  have hr₃ := Reaches.sub hr₂ hsub
  have htaken : ((((h.alloc d).write d bs).add d bs).sub d).taken = [(h.subbed.length, d)] := by
    simp [History.sub, History.add, History.write, History.alloc, ht]
  have hfirst : Oldest d (((((h.alloc d).write d bs).add d bs).sub d).taken.map (·.2)) := by
    simp [Oldest, htaken, onRing_singleton]
  obtain ⟨q₄, hfree, -⟩ := (hr₃.sound hsignal hsmall).free hfirst hsignal
  refine ⟨q₁, q₂, q₃, q₄, _, hwrite, hadd, hsub, hfree, .freeMsg hr₃ hfirst hfree, ?_⟩
  rw [History.live_eq_nil]
  refine ⟨?_, ?_, ?_⟩
  · simp [History.free, htaken]
  · have := congrArg (List.drop 1) hwaiting
    simpa [History.waiting, History.free, History.sub] using this
  · simp [History.free, History.sub, History.add, hpending₁]

theorem Reaches.completes_alloc (hr : Reaches p config q (h.alloc d)) (hlive : h.live = [])
    {q₀ : SvmMsgQ} {r : ℕ} (hring : q₀.rings[r]? = some ring)
    (heq : q₀.allocMsgWRingUnchecked r ring = (q, d)) : Completes p config q d ring.elsize := by
  obtain ⟨rfl, rfl⟩ := Prod.mk.inj heq
  have hafter := hr.completes hsignal hsmall hlive
    ((RingsSound.getElem?_set hring r).trans (if_pos rfl))
  exact hafter

end

theorem foldl_max_lt {l : List ℕ} {a n : ℕ} :
    l.foldl max a < n ↔ a < n ∧ ∀ x ∈ l, x < n := by
  induction l generalizing a with
  | nil => simp
  | cons x l ih => simp [ih, and_assoc]

/-- In a run in which the producers add every slot they allocate, in the order of the allocation and
again after a queue that was full, a drained queue has all its slots free, and every message goes
through: on the ring the producer names, or on the one that is found for its size. -/
theorem drained_queue_serves (p : Platform) (hsignal : ∀ op, p.signal op = .ok ())
    (config : SvmMsgQConfig) (hsmall : ∀ ring ∈ config.rings, ring.nitems ≤ 2147483648)
    (q : SvmMsgQ) (h : History) (hr : Reaches p config q h) :
    (∀ d ∈ h.pending.map (·.1), q.isFull = true → q.add p d = .error .queueFull) ∧
    (h.live = [] → (∀ ring ∈ q.rings, ring.cursize = 0) ∧
      (∀ (r : ℕ) (ring : SvmMsgQRing), q.rings[r]? = some ring → ∃ q' d,
        q.allocMsgOnRing r = .ok (q', d) ∧ Completes p config q' d ring.elsize) ∧
      ∀ nbytes, (∃ ring ∈ q.rings, nbytes ≤ ring.elsize) → ∃ q' d elsize,
        q.allocMsg nbytes = .ok (q', d) ∧ nbytes ≤ elsize ∧ Completes p config q' d elsize) := by
  have s := hr.sound hsignal hsmall
  refine ⟨fun d hd hfull => ?_, fun hlive => ?_⟩
  · exact (add_eq hsignal s.rings (List.mem_append_right _ hd)).trans (if_pos hfull)
  have hfree : ∀ (r : ℕ) (ring : SvmMsgQRing), q.rings[r]? = some ring →
      ring.cursize = 0 ∧ 0 < ring.nitems := by
    intro r ring hring
    refine ⟨?_, (s.rings.ok r ring hring).pos⟩
    rw [s.rings.cursize_eq hring, hlive]
    rfl
  have hfull := s.not_full (History.live_eq_nil.mp hlive).2.1
  refine ⟨fun ring hring => ?_, fun r ring hring => ?_, fun nbytes hsize => ?_⟩
  · obtain ⟨r, hr⟩ := List.mem_iff_getElem?.mp hring
    exact (hfree r ring hr).1
  · have halloc : q.allocMsgOnRing r = .ok (q.allocMsgWRingUnchecked r ring) := by
      obtain ⟨hzero, hpos⟩ := hfree r ring hring
      simp only [allocMsgOnRing, ring_eq hring, bind, Except.bind, hfull, hzero, Bool.false_or]
      rw [if_neg (by simpa using hpos.ne')]
      rfl
    exact ⟨_, _, halloc, (Reaches.allocMsgOnRing r hr halloc).completes_alloc hsignal hsmall hlive
      hring rfl⟩
  · obtain ⟨big, hbig, hle⟩ := hsize
    have hlarge : ¬ (q.rings.map (·.elsize)).foldl max 0 < nbytes := by
      rw [foldl_max_lt]
      intro hall
      exact absurd (hall.2 _ (List.mem_map_of_mem hbig)) (not_lt.mpr hle)
    obtain ⟨r, hfind⟩ : ∃ r, findRing q.rings nbytes = some r := by
      obtain ⟨j, hj⟩ := List.mem_iff_getElem?.mp hbig
      obtain ⟨hzero, hpos⟩ := hfree j big hj
      apply Option.isSome_iff_exists.mp
      rw [findRing, List.findIdx?_isSome, List.any_eq_true]
      exact ⟨big, hbig, by simp [hle, hzero, hpos]⟩
    obtain ⟨hlt, hfit, -⟩ := List.findIdx?_eq_some_iff_getElem.mp hfind
    have hring := List.getElem?_eq_getElem hlt
    simp only [Bool.and_eq_true, decide_eq_true_eq] at hfit
    have halloc : q.allocMsg nbytes = .ok (q.allocMsgWRingUnchecked r q.rings[r]) := by
      simp only [allocMsg, if_neg hlarge, hfind, bind, Except.bind, ring_eq hring]
      rfl
    exact ⟨_, _, _, halloc, hfit.1,
      (Reaches.allocMsg nbytes hr halloc).completes_alloc hsignal hsmall hlive hring rfl⟩

theorem drained_queue_serves_again :
    ∃ q h, Reaches (quiet true) ⟨1, [⟨2, 1⟩]⟩ q h ∧ h.subbed = [⟨0, 0⟩] ∧ h.live = [] ∧
      ∃ q' d, q.allocMsg 1 = .ok (q', d) := by
  have hr : Reaches (quiet true) ⟨1, [⟨2, 1⟩]⟩ _ _ :=
    .freeMsg (d := ⟨0, 0⟩) (.sub (.add (d := ⟨0, 0⟩) [7] (.write (d := ⟨0, 0⟩) [7]
      (.allocMsg 1 (.init rfl) rfl) (by decide) rfl) (by decide) (by decide +kernel) rfl) rfl)
      (by decide +kernel) rfl
  obtain ⟨q', d, -, halloc, -⟩ := ((drained_queue_serves _ (fun _ => rfl) _ (by simp) _ _ hr).2
    (by decide +kernel)).2.2 1 ⟨_, List.mem_cons_self, by decide +kernel⟩
  exact ⟨_, _, hr, rfl, by decide +kernel, q', d, halloc⟩

/-- The queue is full when the second slot is added. Given up, that slot keeps the head of the ring:
the message after it is taken and cannot be freed. -/
theorem abandoned_slot_blocks_frees :
    ∃ q h q₁ q₂ q₃ q₄ q₅ q₆, Reaches (quiet true) ⟨1, [⟨2, 1⟩]⟩ q h ∧
      h.pending = [(⟨0, 1⟩, some [8])] ∧ q.add (quiet true) ⟨0, 1⟩ = .error .queueFull ∧
      q.sub (quiet true) = .ok (q₁, ⟨0, 0⟩) ∧ q₁.freeMsg (quiet true) ⟨0, 0⟩ = .ok q₂ ∧
      q₂.isEmpty = true ∧ q₂.allocMsg 1 = .ok (q₃, ⟨0, 0⟩) ∧
      q₃.write (quiet true) ⟨0, 0⟩ [9] = .ok q₄ ∧ q₄.add (quiet true) ⟨0, 0⟩ = .ok q₅ ∧
      q₅.sub (quiet true) = .ok (q₆, ⟨0, 0⟩) ∧
      q₆.freeMsg (quiet true) ⟨0, 0⟩ = .error (.descriptorNotAllocated 0 0) := by
  have hr : Reaches (quiet true) ⟨1, [⟨2, 1⟩]⟩ _ _ :=
    .write (d := ⟨0, 1⟩) [8] (.allocMsg 1 (.add (d := ⟨0, 0⟩) [7] (.write (d := ⟨0, 0⟩) [7]
      (.allocMsg 1 (.init rfl) rfl) (by decide) rfl) (by decide) (by decide +kernel) rfl) rfl)
      (by decide +kernel) rfl
  exact ⟨_, _, _, _, _, _, _, _, hr, by decide +kernel, rfl, rfl, rfl, rfl, rfl, rfl, rfl, rfl, rfl⟩

end MsgQueue
