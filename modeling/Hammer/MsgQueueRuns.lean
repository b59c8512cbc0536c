import Hammer.MsgQueueRings

/-! # Runs of the message queue

Producers allocate, write and add; the consumer takes, reads and frees. The history records what
they have done, and every reachable queue agrees with it.
-/
namespace MsgQueue

open SvmMsgQ Function

variable {p : Platform} {q q' : SvmMsgQ} {d : SvmMsgQDescriptor} {ring : SvmMsgQRing}

/-- What the two sides have done: the slots allocated and not yet added, with what was written to
them; the messages added; the descriptors `sub` returned; and those not yet freed, each with its
number among them. -/
structure History where
  pending : List (SvmMsgQDescriptor × Option Bytes)
  added : List (SvmMsgQDescriptor × Bytes)
  subbed : List SvmMsgQDescriptor
  taken : List (ℕ × SvmMsgQDescriptor)

namespace History

def empty : History := ⟨[], [], [], []⟩

def waiting (h : History) : List (SvmMsgQDescriptor × Bytes) := h.added.drop h.subbed.length

/-- The slots in use, oldest use first within a ring. -/
def live (h : History) : List SvmMsgQDescriptor :=
  h.taken.map (·.2) ++ h.waiting.map (·.1) ++ h.pending.map (·.1)

/-- The slot of `d` has to hold `bs`. -/
def Stored (h : History) (d : SvmMsgQDescriptor) (bs : Bytes) : Prop :=
  (∃ k, (k, d) ∈ h.taken ∧ h.added[k]? = some (d, bs)) ∨ (d, bs) ∈ h.waiting ∨
    (d, some bs) ∈ h.pending

def alloc (h : History) (d : SvmMsgQDescriptor) : History :=
  { h with pending := h.pending ++ [(d, none)] }

def write (h : History) (d : SvmMsgQDescriptor) (bs : Bytes) : History :=
  { h with pending := h.pending.map fun e => if e.1 = d then (d, some bs) else e }

def add (h : History) (d : SvmMsgQDescriptor) (bs : Bytes) : History :=
  { h with
    pending := h.pending.filter (·.1 ≠ d)
    added := h.added ++ [(d, bs)] }

def sub (h : History) (d : SvmMsgQDescriptor) : History :=
  { h with
    subbed := h.subbed ++ [d]
    taken := h.taken ++ [(h.subbed.length, d)] }

def free (h : History) (d : SvmMsgQDescriptor) : History :=
  { h with taken := h.taken.filter (·.2 ≠ d) }

end History

/-- `d` is the first of its ring in `l`. -/
def Oldest (d : SvmMsgQDescriptor) (l : List SvmMsgQDescriptor) : Prop :=
  (onRing d.ringIndex l).head? = some d

instance (d : SvmMsgQDescriptor) (l : List SvmMsgQDescriptor) : Decidable (Oldest d l) :=
  inferInstanceAs (Decidable (_ = _))

theorem Oldest.onRing_eq {l : List SvmMsgQDescriptor} (h : Oldest d l) :
    ∃ rest, onRing d.ringIndex l = d :: rest :=
  List.head?_eq_some_iff.mp h

theorem Oldest.mem {l : List SvmMsgQDescriptor} (h : Oldest d l) : d ∈ l := by
  obtain ⟨rest, hrest⟩ := h.onRing_eq
  have : d ∈ onRing d.ringIndex l := by
    rw [hrest]
    exact List.mem_cons_self
  exact (mem_onRing.mp this).1

/-- The states a queue reaches under the API's rules: whole calls, a slot written and added by the
producer that allocated it, messages of one ring added in the order of their allocation and freed
in the order they were taken. -/
inductive Reaches (p : Platform) (config : SvmMsgQConfig) : SvmMsgQ → History → Prop
  | init {q : SvmMsgQ} : SvmMsgQ.init config = .ok q → Reaches p config q .empty
  | allocMsgOnRing {q q' h d} (r : ℕ) : Reaches p config q h →
      q.allocMsgOnRing r = .ok (q', d) → Reaches p config q' (h.alloc d)
  | allocMsg {q q' h d} (nbytes : ℕ) : Reaches p config q h →
      q.allocMsg nbytes = .ok (q', d) → Reaches p config q' (h.alloc d)
  | write {q q' h d} (bs : Bytes) : Reaches p config q h → d ∈ h.pending.map (·.1) →
      q.write p d bs = .ok q' → Reaches p config q' (h.write d bs)
  | add {q q' h d} (bs : Bytes) : Reaches p config q h → (d, some bs) ∈ h.pending →
      Oldest d (h.pending.map (·.1)) → q.add p d = .ok q' → Reaches p config q' (h.add d bs)
  | sub {q q' h d} : Reaches p config q h → q.sub p = .ok (q', d) →
      Reaches p config q' (h.sub d)
  | freeMsg {q q' h d} : Reaches p config q h → Oldest d (h.taken.map (·.2)) →
      q.freeMsg p d = .ok q' → Reaches p config q' (h.free d)

theorem allocMsgOnRing_ok {r : ℕ} (h : q.allocMsgOnRing r = .ok (q', d)) :
    ∃ ring, q.rings[r]? = some ring ∧ ring.cursize < ring.nitems ∧
      q.allocMsgWRingUnchecked r ring = (q', d) := by
  unfold allocMsgOnRing ring at h
  rcases hr : q.rings[r]? with _ | ring
  · rw [hr] at h
    cases h
  · rw [hr] at h
    simp only [bind, Except.bind] at h
    split at h
    · cases h
    · rename_i hfull
      simp only [Bool.or_eq_true, decide_eq_true_eq, not_or] at hfull
      exact ⟨ring, rfl, by omega, Except.ok.inj h⟩

theorem allocMsg_ok {nbytes : ℕ} (h : q.allocMsg nbytes = .ok (q', d)) :
    ∃ r ring, q.rings[r]? = some ring ∧ ring.cursize < ring.nitems ∧
      q.allocMsgWRingUnchecked r ring = (q', d) := by
  unfold allocMsg ring findRing at h
  simp only [bind, Except.bind] at h
  split at h
  · cases h
  · rcases hfind : q.rings.findIdx? (fun ring =>
        decide (nbytes ≤ ring.elsize) && decide (ring.cursize < ring.nitems)) with _ | r
    · rw [hfind] at h
      cases h
    · obtain ⟨hlt, hring, -⟩ := List.findIdx?_eq_some_iff_getElem.mp hfind
      simp only [hfind, List.getElem?_eq_getElem hlt] at h
      simp only [Bool.and_eq_true, decide_eq_true_eq] at hring
      exact ⟨r, _, List.getElem?_eq_getElem hlt, hring.2, Except.ok.inj h⟩

variable {live : List SvmMsgQDescriptor}

theorem write_eq (s : RingsSound q.rings live) (hd : d ∈ live)
    (hr : q.rings[d.ringIndex]? = some ring) (bs : Bytes) :
    q.write p d bs = if bs.length ≠ ring.elsize then
        .error (.elementSizeMismatch bs.length ring.elsize)
      else .ok (q.setRing d.ringIndex
        { ring with data := ring.data.write (d.eltIndex * ring.elsize) bs }) := by
  unfold write
  rw [validateDescriptor_live s hd]
  simp only [bind, Except.bind, ring_eq hr]
  rfl

theorem read_eq (s : RingsSound q.rings live) (hd : d ∈ live)
    (hr : q.rings[d.ringIndex]? = some ring) :
    q.read p d = .ok (ring.data.read (d.eltIndex * ring.elsize) ring.elsize) := by
  unfold SvmMsgQ.read
  rw [validateDescriptor_live s hd]
  simp only [bind, Except.bind, ring_eq hr]
  rfl

section

variable (hsignal : ∀ op, p.signal op = .ok ())

include hsignal

theorem add_eq (s : RingsSound q.rings live) (hd : d ∈ live) :
    q.add p d = if q.isFull then .error .queueFull
      else .ok { q with
        descriptors := update q.descriptors q.tail d
        tail := nextIndex q.tail q.maxsize
        cursize := q.cursize + 1 } := by
  unfold add addRaw
  rw [validateDescriptor_live s hd]
  simp only [bind, Except.bind, hsignal, ite_self]
  rfl

theorem sub_eq : q.sub p = if q.isEmpty then .error .empty
    else .ok ({ q with head := nextIndex q.head q.maxsize, cursize := q.cursize - 1 },
      q.descriptors q.head) := by
  unfold sub
  simp only [bind, Except.bind, hsignal, ite_self]
  rfl

theorem freeMsg_eq (s : RingsSound q.rings live) (hd : d ∈ live)
    (hr : q.rings[d.ringIndex]? = some ring) (hhead : d.eltIndex = ring.head)
    (hpos : 0 < ring.cursize) :
    q.freeMsg p d = .ok (q.setRing d.ringIndex { ring with
      head := nextIndex ring.head ring.nitems
      cursize := ring.cursize - 1 }) := by
  unfold freeMsg
  rw [validateDescriptor_live s hd]
  simp only [bind, Except.bind, ring_eq hr, hsignal, ite_self]
  rw [if_neg (by omega)]
  rfl

end

/-- The descriptors between `head` and `tail` are those of the messages that wait. -/
structure QueueSound (q : SvmMsgQ) (waiting : List SvmMsgQDescriptor) : Prop where
  pos : 0 < q.maxsize
  head : q.head < q.maxsize
  cursize : q.cursize = waiting.length
  room : q.cursize ≤ q.maxsize
  tail : q.tail = (q.head + q.cursize) % q.maxsize
  descriptors : ∀ (j : ℕ) d, waiting[j]? = some d →
    q.descriptors ((q.head + j) % q.maxsize) = d

namespace QueueSound

variable {waiting : List SvmMsgQDescriptor}

theorem setRing (s : QueueSound q waiting) (r : ℕ) (ring : SvmMsgQRing) :
    QueueSound (q.setRing r ring) waiting := { s with }

theorem add (s : QueueSound q waiting) (hroom : q.cursize < q.maxsize) : QueueSound { q with
      descriptors := update q.descriptors q.tail d
      tail := nextIndex q.tail q.maxsize
      cursize := q.cursize + 1 } (waiting ++ [d]) := by
  have hcount := s.cursize
  refine ⟨s.pos, s.head, ?_, hroom, ?_, ?_⟩
  · rw [List.length_append, ← hcount]
    rfl
  · rw [s.tail, nextIndex_slot s.pos]
  · intro j e hj
    change update q.descriptors q.tail d ((q.head + j) % q.maxsize) = e
    have hlt := (List.getElem?_eq_some_iff.mp hj).1
    rw [List.length_append, List.length_singleton] at hlt
    rcases Nat.lt_or_ge j q.cursize with hj' | hj'
    · rw [List.getElem?_append_left (by omega)] at hj
      rw [update_of_ne, s.descriptors j e hj]
      intro heq
      rw [s.tail] at heq
      have := slot_injective (by omega) hroom heq
      omega
    · have hlast : j = q.cursize := by omega
      rw [hlast, hcount, List.getElem?_concat_length, Option.some.injEq] at hj
      rw [hlast, ← s.tail, update_self, hj]

theorem sub (s : QueueSound q (d :: waiting)) : q.descriptors q.head = d ∧
      QueueSound { q with head := nextIndex q.head q.maxsize, cursize := q.cursize - 1 }
        waiting := by
  have hcount := s.cursize
  have hroom := s.room
  rw [List.length_cons] at hcount
  constructor
  · have := s.descriptors 0 d rfl
    rwa [Nat.add_zero, Nat.mod_eq_of_lt s.head] at this
  · refine ⟨s.pos, ?_, ?_, ?_, ?_, ?_⟩
    · rw [nextIndex_eq s.head]
      exact Nat.mod_lt _ s.pos
    · change q.cursize - 1 = waiting.length
      omega
    · change q.cursize - 1 ≤ q.maxsize
      omega
    · rw [s.tail, nextIndex_eq s.head, Nat.mod_add_mod,
        show q.head + 1 + (q.cursize - 1) = q.head + q.cursize by omega]
    · intro j e hj
      rw [nextIndex_eq s.head, Nat.mod_add_mod, Nat.add_assoc, Nat.add_comm 1 j]
      exact s.descriptors (j + 1) e hj

end QueueSound

def Holds (rings : List SvmMsgQRing) (d : SvmMsgQDescriptor) (bs : Bytes) : Prop :=
  ∃ ring, rings[d.ringIndex]? = some ring ∧ bs.length = ring.elsize ∧
    ring.data.read (d.eltIndex * ring.elsize) ring.elsize = bs

namespace Holds

variable {rings : List SvmMsgQRing} {r : ℕ} {bs : Bytes} {e : SvmMsgQDescriptor}

theorem set (s : Holds rings d bs) (hr : rings[r]? = some ring) {ring' : SvmMsgQRing}
    (hsize : ring'.elsize = ring.elsize)
    (hdata : d.ringIndex = r → ring'.data.read (d.eltIndex * ring.elsize) ring.elsize =
      ring.data.read (d.eltIndex * ring.elsize) ring.elsize) :
    Holds (rings.set r ring') d bs := by
  obtain ⟨ring1, hring1, hlen, hread⟩ := s
  by_cases hd : d.ringIndex = r
  · have heq : ring1 = ring := by
      rw [hd, hr] at hring1
      exact (Option.some.inj hring1).symm
    refine ⟨ring', ?_, ?_, ?_⟩
    · rw [RingsSound.getElem?_set hr, if_pos hd]
    · rw [hsize, ← heq, hlen]
    · rw [hsize, hdata hd, ← heq, hread]
  · refine ⟨ring1, ?_, hlen, hread⟩
    rw [RingsSound.getElem?_set hr, if_neg hd, hring1]

theorem write_of_ne (s : Holds rings d bs) (hr : rings[e.ringIndex]? = some ring) (hne : d ≠ e)
    {value : Bytes} (hvalue : value.length = ring.elsize) :
    Holds (rings.set e.ringIndex
      { ring with data := ring.data.write (e.eltIndex * ring.elsize) value }) d bs := by
  refine s.set hr ?_ ?_
  · rfl
  intro hring
  apply Memory.read_write_of_disjoint
  have helt : d.eltIndex ≠ e.eltIndex := by
    intro h
    cases d
    simp_all
  -- slots of different elements do not meet
  rcases Nat.lt_or_gt_of_ne helt with h | h
  · have := Nat.mul_le_mul_right ring.elsize (show d.eltIndex + 1 ≤ e.eltIndex from h)
    rw [Nat.succ_mul] at this
    omega
  · have := Nat.mul_le_mul_right ring.elsize (show e.eltIndex + 1 ≤ d.eltIndex from h)
    rw [Nat.succ_mul] at this
    omega

theorem write_self (hr : rings[d.ringIndex]? = some ring) (hbs : bs.length = ring.elsize) :
    Holds (rings.set d.ringIndex
      { ring with data := ring.data.write (d.eltIndex * ring.elsize) bs }) d bs := by
  refine ⟨{ ring with data := ring.data.write (d.eltIndex * ring.elsize) bs }, ?_, hbs, ?_⟩
  · rw [RingsSound.getElem?_set hr, if_pos rfl]
  · rw [← hbs, Memory.read_write_self]

theorem read_eq (s : Holds q.rings d bs)
    (hrings : RingsSound q.rings live) (hd : d ∈ live) : q.read p d = .ok bs := by
  obtain ⟨ring, hr, -, hread⟩ := s
  rw [MsgQueue.read_eq hrings hd hr, hread]

end Holds

/-- The queue and its rings are what the history says. -/
structure Sound (q : SvmMsgQ) (h : History) : Prop where
  queue : QueueSound q (h.waiting.map (·.1))
  rings : RingsSound q.rings h.live
  order : h.subbed <+: h.added.map (·.1)
  numbers : ∀ e ∈ h.taken, ∃ bs, h.added[e.1]? = some (e.2, bs)
  contents : ∀ d bs, h.Stored d bs → Holds q.rings d bs

namespace Sound

variable {h : History} {r : ℕ}

section

variable (s : Sound q h)
include s

theorem subbed_le : h.subbed.length ≤ h.added.length := by
  simpa using s.order.length_le

theorem alloc (hr : q.rings[r]? = some ring) (hroom : ring.cursize < ring.nitems)
    (heq : q.allocMsgWRingUnchecked r ring = (q', d)) : Sound q' (h.alloc d) ∧ d ∉ h.live := by
  obtain ⟨rfl, rfl⟩ := Prod.mk.inj heq
  refine ⟨⟨s.queue.setRing _ _, ?_, s.order, s.numbers, ?_⟩, s.rings.fresh hr hroom⟩
  · have hlive : (h.alloc ⟨r, ring.tail⟩).live = h.live ++ [⟨r, ring.tail⟩] := by
      simp [History.live, History.alloc, History.waiting]
    rw [hlive]
    exact s.rings.alloc hr hroom
  · intro e bs hstored
    refine Holds.set (s.contents e bs ?_) hr ?_ ?_
    case refine_2 => rfl
    case refine_3 => exact fun _ => rfl
    rcases hstored with ht | hw | hp
    · exact .inl ht
    · exact .inr (.inl hw)
    · right
      right
      simpa [History.alloc] using hp

theorem write (hd : d ∈ h.pending.map (·.1)) {bs : Bytes} (heq : q.write p d bs = .ok q') :
    Sound q' (h.write d bs) := by
  have hlive : d ∈ h.live := List.mem_append_right _ hd
  obtain ⟨ring, hr⟩ := s.rings.ring_of_mem hlive
  rw [write_eq s.rings hlive hr] at heq
  split at heq
  · cases heq
  rename_i hlen
  rw [not_not] at hlen
  obtain rfl := Except.ok.inj heq
  have hother : d ∉ h.taken.map (·.2) ++ h.waiting.map (·.1) := fun hmem =>
    (List.nodup_append.mp s.rings.nodup).2.2 d hmem d hd rfl
  have hpending : (h.write d bs).pending.map (·.1) = h.pending.map (·.1) := by
    simp only [History.write, List.map_map]
    apply List.map_congr_left
    intro e _
    by_cases he : e.1 = d
    · simp [he]
    · simp [he]
  refine ⟨s.queue.setRing _ _, ?_, s.order, s.numbers, ?_⟩
  · have : (h.write d bs).live = h.live := by
      simp only [History.live, hpending]
      rfl
    rw [this]
    exact s.rings.setData hr _
  · intro e bs' hstored
    rcases hstored with ⟨k, ht, hk⟩ | hw | hp
    · apply Holds.write_of_ne (s.contents e bs' (.inl ⟨k, ht, hk⟩)) hr _ hlen
      rintro rfl
      exact hother (List.mem_append_left _ (List.mem_map.mpr ⟨_, ht, rfl⟩))
    · apply Holds.write_of_ne (s.contents e bs' (.inr (.inl hw))) hr _ hlen
      rintro rfl
      exact hother (List.mem_append_right _ (List.mem_map.mpr ⟨_, hw, rfl⟩))
    · obtain ⟨e0, he0, hmap⟩ := List.mem_map.mp hp
      by_cases he : e0.1 = d
      · rw [if_pos he, Prod.mk.injEq, Option.some.injEq] at hmap
        obtain ⟨rfl, rfl⟩ := hmap
        exact Holds.write_self hr hlen
      · rw [if_neg he] at hmap
        subst hmap
        exact Holds.write_of_ne (s.contents e bs' (.inr (.inr he0))) hr he hlen

theorem add {bs : Bytes} (hd : (d, some bs) ∈ h.pending) (hold : Oldest d (h.pending.map (·.1)))
    (hroom : q.cursize < q.maxsize) : Sound { q with
      descriptors := update q.descriptors q.tail d
      tail := nextIndex q.tail q.maxsize
      cursize := q.cursize + 1 } (h.add d bs) := by
  have hwaiting : (h.add d bs).waiting = h.waiting ++ [(d, bs)] :=
    List.drop_append_of_le_length s.subbed_le
  have hpending : (h.add d bs).pending.map (·.1) = (h.pending.map (·.1)).filter (· ≠ d) := by
    rw [List.filter_map]
    rfl
  refine ⟨?_, ?_, ?_, ?_, ?_⟩
  · rw [hwaiting, List.map_append]
    exact s.queue.add hroom
  · apply s.rings.congr_live
    intro r
    have hnd : (h.pending.map (·.1)).Nodup := (List.nodup_append.mp s.rings.nodup).2.1
    obtain ⟨rest, hrest⟩ := hold.onRing_eq
    simp only [History.live, hwaiting, hpending, onRing_append, List.map_append, List.map_cons,
      List.map_nil]
    rw [List.append_assoc, List.append_assoc, List.append_assoc]
    congr 2
    -- on its ring, `d` moves from the front of the pending slots to the end of the waiting ones
    by_cases hr : r = d.ringIndex
    · rw [hr, onRing_filter_ne hnd hrest, onRing_singleton rfl, hrest]
      rfl
    · rw [onRing_filter_ne_of_ne hr, onRing_singleton_of_ne (Ne.symm hr), List.nil_append]
  · exact s.order.trans (by
      simp only [History.add, List.map_append]
      exact List.prefix_append _ _)
  · intro e he
    obtain ⟨bs', hbs'⟩ := s.numbers e he
    exact ⟨bs', List.getElem?_append_left (List.getElem?_eq_some_iff.mp hbs').1 ▸ hbs'⟩
  · intro e bs' hstored
    apply s.contents e bs'
    rcases hstored with ⟨k, ht, hk⟩ | hw | hp
    · obtain ⟨bs0, hbs0⟩ := s.numbers _ ht
      left
      refine ⟨k, ht, ?_⟩
      have hlt := (List.getElem?_eq_some_iff.mp hbs0).1
      rw [← hk]
      exact (List.getElem?_append_left hlt).symm
    · rw [hwaiting, List.mem_append, List.mem_singleton] at hw
      rcases hw with hw | hw
      · exact .inr (.inl hw)
      · obtain ⟨rfl, rfl⟩ := Prod.mk.inj hw
        exact .inr (.inr hd)
    · exact .inr (.inr (List.mem_of_mem_filter hp))

theorem sub {e : SvmMsgQDescriptor × Bytes} {rest : List (SvmMsgQDescriptor × Bytes)}
    (hw : h.waiting = e :: rest) : q.descriptors q.head = e.1 ∧
      Sound { q with head := nextIndex q.head q.maxsize, cursize := q.cursize - 1 }
        (h.sub e.1) := by
  have hqueue := s.queue
  rw [hw] at hqueue
  have hnext : h.added[h.subbed.length]? = some e := by
    have := congrArg (·[0]?) hw
    simpa [History.waiting] using this
  have hwaiting : (h.sub e.1).waiting = rest := by
    have := congrArg (List.drop 1) hw
    simpa [History.waiting, History.sub] using this
  refine ⟨hqueue.sub.1, ?_, ?_, ?_, ?_, ?_⟩
  · rw [hwaiting]
    exact hqueue.sub.2
  · have hlive : (h.sub e.1).live = h.live := by
      rw [History.live, hwaiting]
      simp [History.live, hw, History.sub]
    rw [hlive]
    exact s.rings
  · apply List.prefix_iff_eq_take.mpr
    have hmap : (h.added.map (·.1))[h.subbed.length]? = some e.1 := by
      rw [List.getElem?_map, hnext]
      rfl
    change h.subbed ++ [e.1] = (h.added.map (·.1)).take (h.subbed ++ [e.1]).length
    rw [List.length_append, List.length_singleton, List.take_add_one, hmap,
      ← List.prefix_iff_eq_take.mp s.order]
    rfl
  · intro t ht
    rcases List.mem_append.mp ht with ht | ht
    · exact s.numbers t ht
    · rw [List.mem_singleton] at ht
      exact ⟨e.2, ht ▸ hnext⟩
  · intro d bs hstored
    apply s.contents d bs
    rcases hstored with ⟨k, ht, hk⟩ | hwait | hp
    · rcases List.mem_append.mp ht with ht | ht
      · exact .inl ⟨k, ht, hk⟩
      · rw [List.mem_singleton, Prod.mk.injEq] at ht
        right
        left
        have hk' : h.added[k]? = some (d, bs) := hk
        rw [ht.1, hnext, Option.some.injEq] at hk'
        rw [hw, hk']
        exact List.mem_cons_self
    · rw [hwaiting] at hwait
      right
      left
      rw [hw]
      exact List.mem_cons_of_mem _ hwait
    · exact .inr (.inr hp)

theorem free (hold : Oldest d (h.taken.map (·.2))) (hsignal : ∀ op, p.signal op = .ok ()) :
    ∃ q', q.freeMsg p d = .ok q' ∧ Sound q' (h.free d) := by
  have hlive : d ∈ h.live := List.mem_append_left _ (List.mem_append_left _ hold.mem)
  obtain ⟨ring, hr⟩ := s.rings.ring_of_mem hlive
  obtain ⟨rest, hrest⟩ := hold.onRing_eq
  have hfirst : onRing d.ringIndex h.live = d :: (rest ++ onRing d.ringIndex
      (h.waiting.map (·.1) ++ h.pending.map (·.1))) := by
    rw [History.live, List.append_assoc, onRing_append, hrest]
    rfl
  obtain ⟨hhead, hpos, hrings⟩ := s.rings.free hfirst hr
  refine ⟨_, freeMsg_eq hsignal s.rings hlive hr hhead hpos, s.queue.setRing _ _, ?_, s.order, ?_,
    ?_⟩
  · have hnd := s.rings.nodup
    rw [History.live, List.append_assoc] at hnd
    have hkeep : (h.waiting.map (·.1) ++ h.pending.map (·.1)).filter (· ≠ d) =
        h.waiting.map (·.1) ++ h.pending.map (·.1) := by
      apply List.filter_eq_self.mpr
      intro e he
      have : e ≠ d := fun h' => (List.nodup_append.mp hnd).2.2 d hold.mem e he h'.symm
      simpa using this
    have hfree : (h.free d).live = h.live.filter (· ≠ d) := by
      rw [History.live, History.live, List.append_assoc, List.append_assoc, List.filter_append,
        hkeep, List.filter_map]
      rfl
    rw [hfree]
    exact hrings
  · intro e he
    exact s.numbers e (List.mem_of_mem_filter he)
  · intro e bs hstored
    refine Holds.set (s.contents e bs ?_) hr ?_ ?_
    case refine_2 => rfl
    case refine_3 => exact fun _ => rfl
    rcases hstored with ⟨k, ht, hk⟩ | hw | hp
    · exact .inl ⟨k, List.mem_of_mem_filter ht, hk⟩
    · exact .inr (.inl hw)
    · exact .inr (.inr hp)

end

end Sound

theorem validateRings_ok {rings : List SvmMsgQRingConfig} {index : ℕ}
    (h : validateRings index rings = .ok ()) :
    ∀ ring ∈ rings, 0 < ring.nitems ∧ 0 < ring.elsize := by
  induction rings generalizing index with
  | nil => simp
  | cons ring rings ih =>
    unfold validateRings at h
    split at h
    · cases h
    split at h
    · cases h
    intro ring' hmem
    rcases List.mem_cons.mp hmem with rfl | hmem
    · omega
    · exact ih h ring' hmem

variable {config : SvmMsgQConfig}

theorem validateConfig_ok (h : validateConfig config = .ok ()) :
    0 < config.qNitems ∧ config.rings ≠ [] ∧
      ∀ ring ∈ config.rings, 0 < ring.nitems ∧ 0 < ring.elsize := by
  unfold validateConfig at h
  split at h
  · cases h
  split at h
  · cases h
  rename_i hrings
  exact ⟨by omega, by simpa using hrings, validateRings_ok h⟩

theorem init_ok (h : init config = .ok q) : validateConfig config = .ok () ∧ q = {
      maxsize := config.qNitems
      cursize := 0
      head := 0
      tail := 0
      descriptors := fun _ => ⟨0, 0⟩
      rings := config.rings.map fun ring => ⟨ring.nitems, ring.elsize, 0, 0, 0, fun _ => 0⟩ } := by
  unfold init sizeToAlloc at h
  rcases hv : validateConfig config with err | _
  · rw [hv] at h
    cases h
  · refine ⟨rfl, ?_⟩
    simp only [bind, Except.bind] at h
    split at h
    · cases h
    · exact (Except.ok.inj h).symm

theorem init_sound (h : init config = .ok q)
    (hsmall : ∀ ring ∈ config.rings, ring.nitems ≤ 2147483648) : Sound q .empty := by
  obtain ⟨hv, rfl⟩ := init_ok h
  obtain ⟨hq, -, hrings⟩ := validateConfig_ok hv
  refine ⟨⟨hq, hq, rfl, Nat.zero_le _, (Nat.zero_mod _).symm, ?_⟩, ⟨?_, ?_, ?_⟩, ?_, ?_, ?_⟩
  · intro j d hj
    simp [History.waiting, History.empty] at hj
  · intro r ring hr
    obtain ⟨ring0, hmem, rfl⟩ := List.mem_map.mp (List.mem_of_getElem? hr)
    have hpos := (hrings ring0 hmem).1
    exact ⟨hpos, hsmall ring0 hmem, hpos, Nat.zero_le _, (Nat.zero_mod _).symm⟩
  · intro r ring hr
    obtain ⟨ring0, hmem, rfl⟩ := List.mem_map.mp (List.mem_of_getElem? hr)
    rfl
  · intro d hd
    simp [History.live, History.waiting, History.empty] at hd
  · exact List.prefix_rfl
  · intro e he
    simp [History.empty] at he
  · intro d bs hstored
    simp [History.Stored, History.waiting, History.empty] at hstored

theorem Reaches.sound {h : History} (hsignal : ∀ op, p.signal op = .ok ())
    (hsmall : ∀ ring ∈ config.rings, ring.nitems ≤ 2147483648)
    (hr : Reaches p config q h) : Sound q h := by
  induction hr with
  | init hinit => exact init_sound hinit hsmall
  | allocMsgOnRing r _ hstep ih =>
    obtain ⟨ring, hring, hroom, heq⟩ := allocMsgOnRing_ok hstep
    exact (ih.alloc hring hroom heq).1
  | allocMsg nbytes _ hstep ih =>
    obtain ⟨r, ring, hring, hroom, heq⟩ := allocMsg_ok hstep
    exact (ih.alloc hring hroom heq).1
  | write bs _ hd hstep ih => exact ih.write hd hstep
  | add bs _ hd hold hstep ih =>
    rw [add_eq hsignal ih.rings (List.mem_append_right _ hold.mem)] at hstep
    split at hstep
    · cases hstep
    · rename_i hfull
      have hne : ¬ _ = _ := fun h' => hfull (beq_iff_eq.mpr h')
      have := ih.queue.room
      obtain rfl := Except.ok.inj hstep
      exact ih.add hd hold (by omega)
  | @sub q q' h d _ hstep ih =>
    rw [sub_eq hsignal] at hstep
    split at hstep
    · cases hstep
    · rename_i hempty
      have hne : ¬ q.cursize = 0 := fun h' => hempty (beq_iff_eq.mpr h')
      have hcount := ih.queue.cursize
      rcases hw : h.waiting with _ | ⟨e, rest⟩
      · rw [hw] at hcount
        exact absurd hcount hne
      · obtain ⟨hd, hsub⟩ := ih.sub hw
        obtain ⟨rfl, rfl⟩ := Prod.mk.inj (Except.ok.inj hstep)
        rw [hd]
        exact hsub
  | freeMsg _ hold hstep ih =>
    obtain ⟨q'', heq, hsound⟩ := ih.free hold hsignal
    rw [hstep] at heq
    obtain rfl := Except.ok.inj heq
    exact hsound

/-- What users of the queue rely on. -/
structure Delivers (p : Platform) (q : SvmMsgQ) (h : History) : Prop where
  /-- Messages are taken once each, in the order in which they were added. -/
  inOrder : h.subbed <+: h.added.map (·.1)
  /-- The next message added is the next one taken. -/
  next : ∀ e rest, h.waiting = e :: rest → ∃ q', q.sub p = .ok (q', e.1)
  none : h.waiting = [] → q.sub p = .error .empty
  /-- A message that was taken has the bytes that were written before it was added. -/
  bytes : ∀ k d, (k, d) ∈ h.taken → ∃ bs, h.added[k]? = some (d, bs) ∧ q.read p d = .ok bs
  fresh : ∀ r q' d, q.allocMsgOnRing r = .ok (q', d) → d ∉ h.live
  fresh' : ∀ nbytes q' d, q.allocMsg nbytes = .ok (q', d) → d ∉ h.live
  queueCount : q.cursize = h.waiting.length ∧ q.cursize ≤ q.maxsize ∧
    q.tail = (q.head + q.cursize) % q.maxsize
  ringCount : ∀ (r : ℕ) (ring : SvmMsgQRing), q.rings[r]? = some ring →
    ring.cursize = (onRing r h.live).length ∧ ring.cursize ≤ ring.nitems ∧
      ring.tail = (ring.head + ring.cursize) % ring.nitems
  writes : ∀ (d : SvmMsgQDescriptor) (ring : SvmMsgQRing) (bs : Bytes),
    d ∈ h.pending.map (·.1) → q.rings[d.ringIndex]? = some ring → bs.length = ring.elsize →
      ∃ q', q.write p d bs = .ok q'
  adds : ∀ d ∈ h.pending.map (·.1), q.cursize < q.maxsize → ∃ q', q.add p d = .ok q'
  frees : ∀ d, Oldest d (h.taken.map (·.2)) → ∃ q', q.freeMsg p d = .ok q'

/-- Every message is delivered once, in order and with its bytes, from every reachable state, as
long as no ring has more than `2^31` elements. -/
theorem msg_queue_delivers (p : Platform) (hsignal : ∀ op, p.signal op = .ok ())
    (config : SvmMsgQConfig) (hsmall : ∀ ring ∈ config.rings, ring.nitems ≤ 2147483648)
    (q : SvmMsgQ) (h : History) (hr : Reaches p config q h) : Delivers p q h := by
  have s := hr.sound hsignal hsmall
  have hcount := s.queue.cursize
  rw [List.length_map] at hcount
  refine ⟨s.order, ?_, ?_, ?_, ?_, ?_, ⟨hcount, s.queue.room, s.queue.tail⟩, ?_, ?_, ?_, ?_⟩
  · intro e rest hw
    rw [hw, List.length_cons] at hcount
    refine ⟨{ q with head := nextIndex q.head q.maxsize, cursize := q.cursize - 1 }, ?_⟩
    rw [sub_eq hsignal, if_neg (by simp [isEmpty]; omega), (s.sub hw).1]
  · intro hw
    rw [hw] at hcount
    rw [sub_eq hsignal, if_pos (by simp [isEmpty, hcount])]
  · intro k d hd
    obtain ⟨bs, hbs⟩ := s.numbers _ hd
    have hlive : d ∈ h.live :=
      List.mem_append_left _ (List.mem_append_left _ (List.mem_map.mpr ⟨_, hd, rfl⟩))
    exact ⟨bs, hbs, (s.contents d bs (.inl ⟨k, hd, hbs⟩)).read_eq s.rings hlive⟩
  · intro r q' d heq
    obtain ⟨ring, hring, hroom, halloc⟩ := allocMsgOnRing_ok heq
    exact (s.alloc hring hroom halloc).2
  · intro nbytes q' d heq
    obtain ⟨r, ring, hring, hroom, halloc⟩ := allocMsg_ok heq
    exact (s.alloc hring hroom halloc).2
  · intro r ring hring
    have ok := s.rings.ok r ring hring
    exact ⟨s.rings.cursize_eq hring, ok.cursize, ok.tail⟩
  · intro d ring bs hd hring hlen
    exact ⟨_, (write_eq s.rings (List.mem_append_right _ hd) hring bs).trans
      (if_neg (not_not.mpr hlen))⟩
  · intro d hd hroom
    have hfull : ¬ q.isFull = true := by
      simp only [isFull, beq_iff_eq]
      omega
    exact ⟨_, (add_eq hsignal s.rings (List.mem_append_right _ hd)).trans (if_neg hfull)⟩
  · intro d hold
    obtain ⟨q', heq, -⟩ := s.free hold hsignal
    exact ⟨q', heq⟩

def quiet (overflowChecks : Bool) : Platform := ⟨overflowChecks, fun _ => .ok ()⟩

theorem msg_queue_delivers_taken :
    ∃ q h, Reaches (quiet true) ⟨2, [⟨2, 1⟩]⟩ q h ∧ h.taken = [(0, ⟨0, 0⟩)] ∧
      Delivers (quiet true) q h := by
  have hr : Reaches (quiet true) ⟨2, [⟨2, 1⟩]⟩ _ _ :=
    .allocMsgOnRing 0 (.sub (.add (d := ⟨0, 0⟩) [7] (.write (d := ⟨0, 0⟩) [7]
      (.allocMsgOnRing 0 (.init rfl) rfl) (by decide) rfl) (by decide) (by decide +kernel) rfl)
      rfl) rfl
  exact ⟨_, _, hr, rfl,
    msg_queue_delivers _ (fun _ => rfl) _ (by simp) _ _ hr⟩

/-- In a ring of `2^32 - 2` elements the sum of `tail` and `nitems` wraps around once two of them
are in use, and the message just taken can not be freed. -/
theorem large_ring_not_freed :
    ¬ ∀ (p : Platform) (config : SvmMsgQConfig) (q : SvmMsgQ) (h : History),
      (∀ op, p.signal op = .ok ()) → Reaches p config q h → Delivers p q h := by
  intro hall
  have hr : Reaches (quiet false) ⟨2, [⟨4294967294, 1⟩]⟩ _ _ :=
    .allocMsgOnRing 0 (.sub (.add (d := ⟨0, 0⟩) [7] (.write (d := ⟨0, 0⟩) [7]
      (.allocMsgOnRing 0 (.init rfl) rfl) (by decide) rfl) (by decide) (by decide +kernel) rfl)
      rfl) rfl
  obtain ⟨q', hq'⟩ := (hall _ _ _ _ (fun _ => rfl) hr).frees ⟨0, 0⟩ (by decide)
  have herr : (Except.error (.descriptorNotAllocated 0 0) : Except SvmMsgQError SvmMsgQ) = .ok q' :=
    hq'
  cases herr

end MsgQueue
