import Mathlib.Data.List.Nodup
import Mathlib.Data.Nat.ModEq
import Hammer.MsgQueue

/-! # Rings of the message queue

The descriptors that are in use on a ring are the elements from its `head` to its `tail`, in the
order in which they were handed out.
-/
namespace MsgQueue

open SvmMsgQ List Nat

variable {p : Platform} {q q' : SvmMsgQ} {d : SvmMsgQDescriptor} {ring : SvmMsgQRing} {r head n : ℕ}

theorem nextIndex_eq {i : ℕ} (h : i < n) : nextIndex i n = (i + 1) % n := by
  unfold nextIndex
  split
  · rename_i h'
    rw [h', mod_self]
  · rw [mod_eq_of_lt (by omega)]

theorem nextIndex_slot {a j : ℕ} (hn : 0 < n) : nextIndex ((a + j) % n) n = (a + (j + 1)) % n := by
  rw [nextIndex_eq (mod_lt _ hn), mod_add_mod, add_assoc]

theorem slot_injective {a i j : ℕ} (hi : i < n) (hj : j < n) (h : (a + i) % n = (a + j) % n) :
    i = j := by
  have := Nat.ModEq.add_left_cancel' a (show a + i ≡ a + j [MOD n] from h)
  rwa [Nat.ModEq, mod_eq_of_lt hi, mod_eq_of_lt hj] at this

/-- With at most `2^31` elements the sums stay below `2^32`. -/
theorem ringDistance_eq {index nitems : ℕ} (hn : nitems ≤ 2147483648) (hi : index < nitems)
    (hh : head < nitems) :
    ringDistance p index nitems head = .ok ((index + nitems - head) % nitems) := by
  unfold ringDistance addU32 subU32
  rw [if_pos (by omega)]
  simp only [bind, Except.bind]
  rw [if_pos (by omega)]
  rfl

theorem distance_slot {j : ℕ} (hh : head < n) (hj : j < n) :
    ((head + j) % n + n - head) % n = j := by
  rcases lt_or_ge (head + j) n with h | h
  · rw [mod_eq_of_lt h, show head + j + n - head = j + n by omega, add_mod_right,
      mod_eq_of_lt hj]
  · have hmod : (head + j) % n = head + j - n := by
      rw [mod_eq_sub_mod h, mod_eq_of_lt (by omega)]
    rw [hmod, show head + j - n + n - head = j by omega, mod_eq_of_lt hj]

/-- A ring whose `tail` is `cursize` elements after its `head`. -/
structure RingOk (ring : SvmMsgQRing) : Prop where
  pos : 0 < ring.nitems
  small : ring.nitems ≤ 2147483648
  head : ring.head < ring.nitems
  cursize : ring.cursize ≤ ring.nitems
  tail : ring.tail = (ring.head + ring.cursize) % ring.nitems

theorem ring_eq (h : q.rings[r]? = some ring) : q.ring r = .ok ring := by
  unfold SvmMsgQ.ring
  rw [h]

theorem validateDescriptor_eq (h : q.rings[d.ringIndex]? = some ring) (ok : RingOk ring) {j : ℕ}
    (hj : j < ring.cursize) (hd : d.eltIndex = (ring.head + j) % ring.nitems) :
    q.validateDescriptor p d = .ok (d.ringIndex, d.eltIndex) := by
  have hpos := ok.pos
  have hsmall := ok.small
  have hcur := ok.cursize
  have hlt : d.eltIndex < ring.nitems := by
    rw [hd]
    exact mod_lt _ hpos
  have hinv : d.isInvalid = false := by
    unfold SvmMsgQDescriptor.isInvalid
    have : (d.eltIndex == 4294967295) = false := by
      rw [beq_eq_false_iff_ne]
      omega
    rw [this, Bool.and_false]
  have hdist : ringDistance p d.eltIndex ring.nitems ring.head = .ok j := by
    rw [ringDistance_eq hsmall hlt ok.head, hd, distance_slot ok.head (by omega)]
  have htail : ring.tail < ring.nitems := by
    rw [ok.tail]
    exact mod_lt _ hpos
  unfold validateDescriptor
  rw [hinv, ring_eq h]
  simp only [bind, Except.bind, pure, Except.pure]
  rw [if_neg (by simp), if_neg (by omega), hdist]
  rcases lt_or_ge ring.cursize ring.nitems with hc | hc
  · have hne : ring.tail ≠ ring.head := by
      intro he
      have h0 : (ring.head + ring.cursize) % ring.nitems = (ring.head + 0) % ring.nitems := by
        rw [← ok.tail, he, add_zero, mod_eq_of_lt ok.head]
      have := slot_injective hc hpos h0
      omega
    have hspan : ringDistance p ring.tail ring.nitems ring.head = .ok ring.cursize := by
      rw [ringDistance_eq hsmall htail ok.head, ok.tail, distance_slot ok.head hc]
    simp only [if_neg hne, hspan]
    rw [if_neg (by omega)]
  · have he : ring.tail = ring.head := by
      rw [ok.tail, le_antisymm hcur hc, add_mod_right, mod_eq_of_lt ok.head]
    simp only [if_pos he]
    rw [if_neg]
    rw [if_neg (by omega)]
    omega

/-- The descriptors of `l` on ring `r`, in order. -/
def onRing (r : ℕ) (l : List SvmMsgQDescriptor) : List SvmMsgQDescriptor :=
  l.filter (·.ringIndex = r)

@[simp] theorem onRing_append (r : ℕ) (l m : List SvmMsgQDescriptor) :
    onRing r (l ++ m) = onRing r l ++ onRing r m := filter_append ..

variable {l : List SvmMsgQDescriptor}

theorem mem_onRing : d ∈ onRing r l ↔ d ∈ l ∧ d.ringIndex = r := by
  simp [onRing]

theorem onRing_singleton (h : d.ringIndex = r) : onRing r [d] = [d] := by
  simp [onRing, h]

theorem onRing_singleton_of_ne (h : d.ringIndex ≠ r) : onRing r [d] = [] := by
  simp [onRing, h]

theorem onRing_filter_ne {rest : List SvmMsgQDescriptor} (hnd : l.Nodup)
    (hfirst : onRing d.ringIndex l = d :: rest) :
    onRing d.ringIndex (l.filter (· ≠ d)) = rest := by
  have hcons : (d :: rest).Nodup := hfirst ▸ hnd.filter _
  rw [onRing, filter_comm]
  change (onRing d.ringIndex l).filter _ = rest
  rw [hfirst, filter_cons_of_neg (by simp), filter_eq_self]
  intro e he
  have : e ≠ d := fun h => (nodup_cons.mp hcons).1 (h ▸ he)
  simpa using this

theorem onRing_filter_ne_of_ne (h : r ≠ d.ringIndex) :
    onRing r (l.filter (· ≠ d)) = onRing r l := by
  rw [onRing, filter_comm]
  apply filter_eq_self.mpr
  intro e he
  have hei : e.ringIndex = r := by simpa using (mem_filter.mp he).2
  have : e ≠ d := fun h' => h (by rw [← hei, h'])
  simpa using this

theorem nodup_of_onRing (h : ∀ r, ((onRing r l).map (·.eltIndex)).Nodup) : l.Nodup := by
  induction l with
  | nil => exact nodup_nil
  | cons x l ih =>
    apply nodup_cons.mpr
    constructor
    · intro hx
      have hr := h x.ringIndex
      rw [onRing, filter_cons_of_pos (by simp), map_cons, nodup_cons] at hr
      apply hr.1
      exact mem_map.mpr ⟨x, mem_onRing.mpr ⟨hx, rfl⟩, rfl⟩
    · apply ih
      intro r
      apply List.Nodup.sublist _ (h r)
      apply List.Sublist.map
      exact List.Sublist.filter _ (sublist_cons_self x l)

def slots (head count n : ℕ) : List ℕ := (List.range count).map fun j => (head + j) % n

theorem slots_succ (head count n : ℕ) :
    slots head (count + 1) n = slots head count n ++ [(head + count) % n] := by
  simp [slots, range_succ]

theorem slots_cons {count : ℕ} (h : head < n) :
    slots head (count + 1) n = head :: slots (nextIndex head n) count n := by
  have hshift (j : ℕ) : (head + (j + 1)) % n = (nextIndex head n + j) % n := by
    rw [nextIndex_eq h, mod_add_mod, add_assoc, add_comm j 1]
  simp only [slots, range_succ_eq_map, map_cons, map_map, add_zero, mod_eq_of_lt h]
  congr 1
  apply map_congr_left
  intro j _
  exact hshift j

theorem mem_slots {count i : ℕ} : i ∈ slots head count n ↔ ∃ j < count, (head + j) % n = i := by
  simp [slots]

theorem nodup_slots {count : ℕ} (h : count ≤ n) : (slots head count n).Nodup := by
  apply List.Nodup.map_on _ nodup_range
  intro i hi j hj hij
  rw [mem_range] at hi hj
  exact slot_injective (by omega) (by omega) hij

/-- The live descriptors of each ring are, in order, the elements from its `head` to its `tail`. -/
structure RingsSound (rings : List SvmMsgQRing) (live : List SvmMsgQDescriptor) : Prop where
  ok : ∀ (r : ℕ) (ring : SvmMsgQRing), rings[r]? = some ring → RingOk ring
  elements : ∀ (r : ℕ) (ring : SvmMsgQRing), rings[r]? = some ring →
    (onRing r live).map (·.eltIndex) = slots ring.head ring.cursize ring.nitems
  known : ∀ d ∈ live, d.ringIndex < rings.length

namespace RingsSound

variable {rings : List SvmMsgQRing} {live live' : List SvmMsgQDescriptor} {r : ℕ}

section

variable (s : RingsSound rings live)
include s

theorem nodup : live.Nodup := by
  apply nodup_of_onRing
  intro r
  rcases hr : rings[r]? with _ | ring
  · have hempty : onRing r live = [] := by
      apply filter_eq_nil_iff.mpr
      intro d hd hdr
      have := s.known d hd
      rw [getElem?_eq_none_iff] at hr
      simp only [decide_eq_true_eq] at hdr
      omega
    rw [hempty]
    exact nodup_nil
  · rw [s.elements r ring hr]
    exact nodup_slots (s.ok r ring hr).cursize

theorem ring_of_mem (hd : d ∈ live) : ∃ ring, rings[d.ringIndex]? = some ring :=
  ⟨_, getElem?_eq_getElem (s.known d hd)⟩

theorem position (hd : d ∈ live) (hr : rings[d.ringIndex]? = some ring) :
    ∃ j < ring.cursize, d.eltIndex = (ring.head + j) % ring.nitems := by
  have hmem : d.eltIndex ∈ slots ring.head ring.cursize ring.nitems := by
    rw [← s.elements _ ring hr]
    exact mem_map.mpr ⟨d, mem_onRing.mpr ⟨hd, rfl⟩, rfl⟩
  obtain ⟨j, hj, hjd⟩ := mem_slots.mp hmem
  exact ⟨j, hj, hjd.symm⟩

theorem cursize_eq (hr : rings[r]? = some ring) : ring.cursize = (onRing r live).length := by
  have := congrArg length (s.elements r ring hr)
  simpa [slots] using this.symm

theorem fresh (hr : rings[r]? = some ring)
    (hroom : ring.cursize < ring.nitems) : (⟨r, ring.tail⟩ : SvmMsgQDescriptor) ∉ live := by
  intro hmem
  obtain ⟨j, hj, hjd⟩ := s.position hmem hr
  rw [(s.ok r ring hr).tail] at hjd
  have := slot_injective hroom (by omega) hjd
  omega

theorem congr_live (h : ∀ r, onRing r live' = onRing r live) : RingsSound rings live' where
  ok := s.ok
  elements r ring hr := by
    rw [h r]
    exact s.elements r ring hr
  known d hd := by
    apply s.known
    have := mem_onRing.mpr ⟨hd, rfl⟩
    rw [h] at this
    exact (mem_onRing.mp this).1

end

theorem getElem?_set {ring' : SvmMsgQRing} (hr : rings[r]? = some ring) (i : ℕ) :
    (rings.set r ring')[i]? = if i = r then some ring' else rings[i]? := by
  have hlt := (List.getElem?_eq_some_iff.mp hr).1
  rw [List.getElem?_set]
  by_cases h : r = i
  · rw [if_pos h, if_pos h.symm, if_pos (by omega)]
  · rw [if_neg h, if_neg (Ne.symm h)]

section

variable (s : RingsSound rings live)
include s

theorem set (hr : rings[r]? = some ring) {ring' : SvmMsgQRing} (hok : RingOk ring')
    (helements : (onRing r live').map (·.eltIndex) = slots ring'.head ring'.cursize ring'.nitems)
    (hothers : ∀ i ≠ r, onRing i live' = onRing i live) :
    RingsSound (rings.set r ring') live' where
  ok i ring1 h := by
    rw [getElem?_set hr] at h
    split at h
    · rw [Option.some.injEq] at h
      exact h ▸ hok
    · exact s.ok i ring1 h
  elements i ring1 h := by
    rw [getElem?_set hr] at h
    split at h
    · next hi =>
      rw [Option.some.injEq] at h
      rw [hi, ← h]
      exact helements
    · next hi =>
      rw [hothers i hi]
      exact s.elements i ring1 h
  known d hd := by
    rw [List.length_set]
    by_cases hi : d.ringIndex = r
    · rw [hi]
      exact (List.getElem?_eq_some_iff.mp hr).1
    · apply s.known
      have := mem_onRing.mpr ⟨hd, rfl⟩
      rw [hothers _ hi] at this
      exact (mem_onRing.mp this).1

theorem alloc (hr : rings[r]? = some ring) (hroom : ring.cursize < ring.nitems) :
    RingsSound (rings.set r { ring with
      tail := nextIndex ring.tail ring.nitems
      cursize := ring.cursize + 1 }) (live ++ [⟨r, ring.tail⟩]) := by
  have ok := s.ok r ring hr
  apply s.set hr
  · refine ⟨ok.pos, ok.small, ok.head, hroom, ?_⟩
    rw [ok.tail, nextIndex_slot ok.pos]
  · rw [onRing_append, onRing_singleton (d := ⟨r, ring.tail⟩) rfl, map_append, s.elements r ring hr, slots_succ,
      map_singleton, ok.tail]
  · intro i hi
    rw [onRing_append, onRing_singleton_of_ne (Ne.symm hi), append_nil]

theorem setData (hr : rings[r]? = some ring) (data : Memory) :
    RingsSound (rings.set r { ring with data := data }) live := by
  have ok := s.ok r ring hr
  exact s.set hr { ok with } (s.elements r ring hr)
    fun _ _ => rfl

theorem free {rest : List SvmMsgQDescriptor} (hfirst : onRing d.ringIndex live = d :: rest)
    (hr : rings[d.ringIndex]? = some ring) :
    d.eltIndex = ring.head ∧ 0 < ring.cursize ∧ RingsSound (rings.set d.ringIndex { ring with
        head := nextIndex ring.head ring.nitems
        cursize := ring.cursize - 1 }) (live.filter (· ≠ d)) := by
  have ok := s.ok _ ring hr
  have hcount := s.cursize_eq hr
  rw [hfirst, length_cons] at hcount
  have hel := s.elements _ ring hr
  rw [hfirst, hcount, slots_cons ok.head, map_cons, cons.injEq] at hel
  refine ⟨hel.1, by omega, ?_⟩
  apply s.set hr
  · refine ⟨ok.pos, ok.small, ?_, ?_, ?_⟩
    · rw [nextIndex_eq ok.head]
      exact mod_lt _ ok.pos
    · have := ok.cursize
      change ring.cursize - 1 ≤ ring.nitems
      omega
    · rw [ok.tail, nextIndex_eq ok.head, mod_add_mod,
        show ring.head + 1 + (ring.cursize - 1) = ring.head + ring.cursize by omega]
  · rw [onRing_filter_ne s.nodup hfirst, hel.2, hcount]
    rfl
  · intro i hi
    exact onRing_filter_ne_of_ne hi

end

end RingsSound

theorem validateDescriptor_live {live : List SvmMsgQDescriptor} (s : RingsSound q.rings live)
    (hd : d ∈ live) : q.validateDescriptor p d = .ok (d.ringIndex, d.eltIndex) := by
  obtain ⟨ring, hr⟩ := s.ring_of_mem hd
  obtain ⟨j, hj, hjd⟩ := s.position hd hr
  exact validateDescriptor_eq hr (s.ok _ ring hr) hj hjd

end MsgQueue
