import Hammer.HandoffRing
import Mathlib.Algebra.BigOperators.Group.Finset.Basic
import Mathlib.Algebra.Group.Prod
import Mathlib.Algebra.Order.Group.Multiset
import Mathlib.Data.List.TakeWhile

/-! # Invariants of the handoff queue

Three invariants of every interleaving. The ring holds the chunks of the decided calls, and what was
delivered is what the consumer has copied. Every batch is decided once, and what a call drops is
freed and counted. A published slot at the head has someone who sees to it: the pending bit, a
producer about to raise it, or the consumer at work.
-/

namespace Handoff

open Function List

/-- Buffers of the queue's kind. -/
def ValidBatch (withAux : Bool) (batch : List Entry) : Prop :=
  ∀ x ∈ batch, x.1 ≠ HANDOFF_INVALID_INDEX ∧ x.2.isSome = withAux

namespace Producer

def writing : Producer → Option (Call × List Write)
  | .write call writes => some (call, writes)
  | _ => none

def Valid (withAux : Bool) (head : ℕ) : Producer → Prop
  | .loadTail batch | .loadHead batch _ => ValidBatch withAux batch
  | .reserve batch _ h => ValidBatch withAux batch ∧ h ≤ head
  | _ => True

/-- A producer that has published slots and not yet raised the pending bit. -/
def Raises : Producer → Prop
  | .drop call | .free call => call.accepted ≠ 0
  | .notify => True
  | _ => False

/-- The batch to be decided, the buffers to be freed and how many are to be counted. -/
def account : Producer → Multiset (List Entry) × Multiset ℕ × ℕ
  | .loadTail batch | .loadHead batch _ | .reserve batch _ _ => ({batch}, 0, 0)
  | .write call _ | .drop call => (0, ↑(call.dropped.map Prod.fst), call.dropped.length)
  | .free call => (0, ↑(call.dropped.map Prod.fst), 0)
  | .idle | .notify => 0

theorem Valid.mono {p : Producer} {withAux : Bool} {head head' : ℕ} (hp : p.Valid withAux head)
    (hle : head ≤ head') : p.Valid withAux head' := by
  cases p with
  | reserve batch tail h => exact ⟨hp.1, hp.2.trans hle⟩
  | _ => exact hp

end Producer

namespace Consumer

/-- The slot the consumer looks at next. -/
def position (head : ℕ) : Consumer → ℕ
  | .test h _ _ | .copy h _ _ | .clear h _ _ _ | .advance h _ _ => h
  | .idle | .rearm _ _ | .flush _ => head

/-- The slots before this one are copied. -/
def copied (head : ℕ) : Consumer → ℕ
  | .clear h _ _ _ => h + 1
  | c => c.position head

def inHand : Consumer → List Entry
  | .test _ _ frame | .copy _ _ frame | .clear _ _ _ frame | .advance _ _ frame
  | .rearm _ frame | .flush frame => frame.getD []
  | .idle => []

def count : Consumer → ℕ
  | .test _ count _ | .copy _ count _ | .clear _ count _ _ | .advance _ count _
  | .rearm count _ => count
  | .idle | .flush _ => 0

/-- A consumer that found its slot published. -/
def Reading : Consumer → Prop
  | .copy .. | .clear .. => True
  | _ => False

/-- Without a vector the consumer is still at the head. -/
def Valid (head : ℕ) : Consumer → Prop
  | .test h count _ | .copy h count _ | .advance h count _ => count = 0 → h = head
  | .clear h count written _ => (count = 0 → h = head) ∧ 0 < written
  | _ => True

/-- A consumer that looks at its slot again or raises the pending bit itself. -/
def Busy (limit : ℕ) : Consumer → Prop
  | .test .. | .copy .. | .clear .. => True
  | .advance _ count _ | .rearm count _ => count ≠ 0 ∧ limit ≤ count
  | _ => False

end Consumer

namespace State

variable {n head : ℕ} {s t : State n} {i : Fin n} {p : Producer} {arch : Arch} {c : Call}

def chunks (s : State n) : List (List Entry) := s.decided.flatMap Call.chunks

def position (s : State n) : ℕ := s.consumer.position s.queue.head

def first (s : State n) : ℕ := s.queue.data (s.position % s.queue.size) 0

def ring (s : State n) : Ring n where
  size := s.queue.size
  withAux := s.queue.withAux
  head := s.queue.head
  h := s.position
  tail := s.queue.tail
  data := s.queue.data
  chunks := s.chunks
  writing := fun i => (s.producers i).writing

structure Placed (s : State n) : Prop where
  ring : s.ring.Inv
  calls : ∀ c ∈ s.decided, c.slots ≤ requested c.batch
  producers : ∀ i, (s.producers i).Valid s.queue.withAux s.queue.head
  consumer : s.consumer.Valid s.queue.head
  published : s.consumer.Reading → s.first ≠ HANDOFF_INVALID_INDEX
  delivered : s.frames.flatten ++ s.consumer.inHand =
    (s.chunks.take (s.consumer.copied s.queue.head)).flatten
  frames : ∀ f ∈ s.frames, f.length ≤ DEFAULT_BUFFER_FRAME_CAPACITY
  inHand : s.consumer.inHand.length ≤ DEFAULT_BUFFER_FRAME_CAPACITY

theorem writing_update (f : Fin n → Producer) : (fun j => (update f i p j).writing) =
      update (fun j => (f j).writing) i p.writing := by
  funext j
  by_cases hj : j = i
  · subst hj
    rw [update_self, update_self]
  · rw [update_of_ne hj, update_of_ne hj]

theorem valid_update {f : Fin n → Producer} {withAux : Bool} (h : ∀ j, (f j).Valid withAux head)
    (hp : p.Valid withAux head) (j : Fin n) : (update f i p j).Valid withAux head := by
  by_cases hj : j = i
  · subst hj
    rwa [update_self]
  · rw [update_of_ne hj]
    exact h j

theorem writing_of {ws : List Write} (hp : s.producers i = .write c ws) :
    s.ring.writing i = some (c, ws) := by
  change (s.producers i).writing = _
  rw [hp]
  rfl

theorem writing_idle (hp : ∀ i, s.producers i = .idle) (i : Fin n) : s.ring.writing i = none := by
  change (s.producers i).writing = _
  rw [hp i]
  rfl

theorem with_consumer {c : Consumer} (hc : s.consumer = c) : s = { s with consumer := c } := by
  rw [← hc]

theorem ring_setProducer (hw : p.writing = (s.producers i).writing) :
    (s.setProducer i p).ring = s.ring := by
  unfold ring setProducer
  rw [writing_update, hw, update_eq_self]
  rfl

theorem Placed.setProducer (h : s.Placed) (hw : p.writing = (s.producers i).writing)
    (hp : p.Valid s.queue.withAux s.queue.head) : (s.setProducer i p).Placed where
  ring := (ring_setProducer hw).symm ▸ h.ring
  calls := h.calls
  producers := valid_update h.producers hp
  consumer := h.consumer
  published := h.published
  delivered := h.delivered
  frames := h.frames
  inHand := h.inHand

theorem tryReserve_cases (s : State n) (i : Fin n) (batch : List Entry) (tail head : ℕ)
    (spurious : Bool) :
    s.tryReserve i batch tail head spurious = s.setProducer i (.loadTail batch) ∨
    s.tryReserve i batch tail head spurious =
      { s with decided := s.decided ++ [(⟨batch, tail, 0⟩ : Call)] }.setProducer i
        (.drop ⟨batch, tail, 0⟩) ∨
    ∃ slots, 0 < slots ∧ slots ≤ requested batch ∧ s.queue.tail = tail ∧
      tail + slots ≤ head + s.queue.size ∧
      s.tryReserve i batch tail head spurious = { s with
          queue := { s.queue with tail := tail + slots }
          decided := s.decided ++ [(⟨batch, tail, slots⟩ : Call)] }.setProducer i
            (.write ⟨batch, tail, slots⟩
              (Call.writes s.queue.size s.queue.withAux ⟨batch, tail, slots⟩)) := by
  unfold tryReserve
  dsimp only
  split
  · exact Or.inl rfl
  · next hle =>
    split
    · next hzero =>
      right
      left
      rw [hzero]
    · next hpos =>
      split
      · exact Or.inl rfl
      · next hsame =>
        right
        right
        have htail : s.queue.tail = tail := by
          rw [Bool.or_eq_true, not_or, bne_iff_ne, not_not] at hsame
          exact hsame.2
        exact ⟨_, Nat.pos_of_ne_zero hpos, min_le_left .., htail, by omega, rfl⟩

theorem chunks_append (c : Call) :
    (s.decided ++ [c]).flatMap Call.chunks = s.chunks ++ c.chunks := by
  rw [flatMap_append, flatMap_singleton]
  rfl

section

variable (h : s.Placed)
include h

theorem Placed.refuse (hw : (s.producers i).writing = none) (hc : c.slots = 0) :
    ({ s with decided := s.decided ++ [c] }.setProducer i (.drop c)).Placed := by
  have hchunks : (s.decided ++ [c]).flatMap Call.chunks = s.chunks := by
    rw [chunks_append, Call.chunks, hc, range_zero, map_nil, append_nil]
  have hring : ({ s with decided := s.decided ++ [c] } : State n).ring = s.ring := by
    unfold State.ring State.chunks
    rw [hchunks]
    rfl
  have hbase : ({ s with decided := s.decided ++ [c] } : State n).Placed := by
    refine ⟨hring.symm ▸ h.ring, ?_, h.producers, h.consumer, h.published, ?_, h.frames, h.inHand⟩
    · intro d hd
      rcases mem_append.mp hd with hd | hd
      · exact h.calls d hd
      · rw [mem_singleton.mp hd, hc]
        exact Nat.zero_le _
    · unfold State.chunks
      rw [hchunks]
      exact h.delivered
  exact hbase.setProducer hw.symm trivial

theorem Placed.reserve (hw : (s.producers i).writing = none) (hpos : 0 < c.slots)
    (hreq : c.slots ≤ requested c.batch) (hbatch : ValidBatch s.queue.withAux c.batch)
    (hstart : c.start = s.queue.tail)
    (hroom : s.queue.tail + c.slots ≤ s.queue.head + s.queue.size) : ({ s with
      queue := { s.queue with tail := s.queue.tail + c.slots }
      decided := s.decided ++ [c] }.setProducer i
        (.write c (c.writes s.queue.size s.queue.withAux))).Placed := by
  have hring := h.ring.reserve hw hstart hpos hroom (Call.validChunk hreq hbatch)
  have hcopied : s.consumer.copied s.queue.head ≤ s.chunks.length := by
    have hlen : s.chunks.length = s.queue.tail := h.ring.length
    have hle : s.position ≤ s.queue.tail := h.ring.le_tail
    unfold position at hle
    cases hcons : s.consumer with
    | clear head count written frame =>
      have hpub := h.published (by rw [hcons]; trivial)
      have hlt : s.position < s.queue.tail := (h.ring.published hpub).1
      unfold position at hlt
      rw [hcons] at hlt
      rw [hlen]
      exact hlt
    | _ =>
      rw [hcons] at hle
      rw [hlen]
      exact hle
  refine ⟨?_, ?_, valid_update h.producers trivial, h.consumer, h.published, ?_, h.frames, h.inHand⟩
  · unfold State.ring State.chunks State.setProducer
    rw [writing_update, chunks_append]
    exact hring
  · intro d hd
    rcases mem_append.mp hd with hd | hd
    · exact h.calls d hd
    · rwa [mem_singleton.mp hd]
  · change s.frames.flatten ++ s.consumer.inHand = (take (s.consumer.copied s.queue.head)
      ((s.decided ++ [c]).flatMap Call.chunks)).flatten
    rw [chunks_append, take_append_of_le_length hcopied]
    exact h.delivered

theorem Placed.setData {x : Write} (hp : p.Valid s.queue.withAux s.queue.head)
    (hring : Ring.Inv { s.ring with
      data := applyWrite s.queue.data x
      writing := update s.ring.writing i p.writing })
    (hfirst : s.consumer.Reading →
      applyWrite s.queue.data x (s.position % s.queue.size) 0 = s.first) :
    ((s.setData (applyWrite s.queue.data x)).setProducer i p).Placed := by
  refine ⟨?_, h.calls, valid_update h.producers hp, h.consumer, ?_, h.delivered, h.frames, h.inHand⟩
  · unfold State.ring State.setProducer State.setData
    rw [writing_update]
    exact hring
  · intro hread
    exact ne_of_eq_of_ne (hfirst hread) (h.published hread)

theorem Placed.write {x : Write} {ws : List Write} (hw : s.producers i = .write c (x :: ws)) :
    ((s.setData (applyWrite s.queue.data x)).setProducer i (.write c ws)).Placed := by
  have ha := writing_of hw
  exact h.setData trivial (h.ring.write ha) fun _ => h.ring.first_write ha (mem_cons_self ..)

theorem Placed.slotOf (q : ℕ) : s.queue.slotOf q = q % s.queue.size :=
  h.ring.size.and_mask q

theorem Placed.publish (hw : s.producers i = .write c []) :
    ((s.setData (applyWrite s.queue.data ⟨s.queue.slotOf c.start, 0,
      (c.taken.map Prod.fst).headD HANDOFF_INVALID_INDEX⟩)).setProducer i (.drop c)).Placed := by
  have ha := writing_of hw
  rw [h.slotOf]
  refine h.setData trivial (h.ring.publish ha) ?_
  intro hread
  have hact := h.ring.active i c [] ha
  have hcover := (h.ring.published (h.published hread)).2 i c [] ha
  have hstart : c.Covers c.start := ⟨le_rfl, Nat.lt_add_of_pos_right hact.pos⟩
  exact (h.ring.target_ne ha ⟨c.start, hstart, Or.inl rfl⟩ le_rfl
    (Nat.lt_add_of_pos_right h.ring.size.pos) hcover 0).1

theorem Placed.produce (i : Fin n) (spurious : Bool) : (s.produce i spurious).Placed := by
  have hvalid := h.producers i
  unfold State.produce
  cases hp : s.producers i with
  | idle => exact h
  | loadTail batch =>
    rw [hp] at hvalid
    exact h.setProducer (by rw [hp]; rfl) hvalid
  | loadHead batch tail =>
    rw [hp] at hvalid
    exact h.setProducer (by rw [hp]; rfl) ⟨hvalid, le_rfl⟩
  | reserve batch tail head =>
    rw [hp] at hvalid
    obtain ⟨hbatch, hhead⟩ := hvalid
    have hnone : (s.producers i).writing = none := by rw [hp]; rfl
    dsimp only
    rcases tryReserve_cases s i batch tail head spurious with
      heq | heq | ⟨slots, hpos, hreq, htail, hroom, heq⟩
    · rw [heq]
      exact h.setProducer hnone.symm hbatch
    · rw [heq]
      exact h.refuse hnone rfl
    · rw [heq]
      subst htail
      exact h.reserve (c := ⟨batch, s.queue.tail, slots⟩) hnone hpos hreq hbatch rfl
        (hroom.trans (Nat.add_le_add_right hhead _))
  | write call writes =>
    cases writes with
    | nil => exact h.publish hp
    | cons x writes => exact h.write hp
  | drop call =>
    have hbase : ({ s with queue := { s.queue with
        nDropped := s.queue.nDropped + call.dropped.length } } : State n).Placed :=
      { h with }
    exact hbase.setProducer (by rw [hp]; rfl) trivial
  | free call =>
    have hbase : ({ s with freed := s.freed ++ call.dropped.map Prod.fst } : State n).Placed :=
      { h with }
    refine hbase.setProducer ?_ ?_
    · rw [hp]
      split
      · rfl
      · rfl
    · split
      · trivial
      · trivial
  | notify =>
    have hbase : ({ s with pending := true } : State n).Placed :=
      { h with }
    exact hbase.setProducer (by rw [hp]; rfl) trivial

theorem Placed.validChunk {q : ℕ} (hq : q < s.chunks.length) :
    ValidChunk s.queue.withAux (s.chunks.getD q []) := by
  rw [getD_eq_getElem _ _ hq]
  exact h.ring.chunks _ (getElem_mem hq)

theorem Placed.copySlot_eq (arch : Arch) (hfirst : s.first ≠ HANDOFF_INVALID_INDEX) :
    copySlot arch s.queue s.position = s.chunks.getD s.position [] ∧
      s.position < s.chunks.length := by
  obtain ⟨hlt, hno⟩ := h.ring.published hfirst
  have hlen : s.position < s.chunks.length := h.ring.length.symm ▸ hlt
  have hfull := h.ring.full s.position le_rfl hlt hno
  have hvalid := h.validChunk hlen
  refine ⟨?_, hlen⟩
  have hwords := hfull.slotWords_eq hvalid.length
  change slotWords s.queue.data (s.position % s.queue.size) = _ at hwords
  change _ = (s.chunks.getD s.position []).map Prod.fst ++
    replicate (HANDOFF_SLOT_INDICES - (s.chunks.getD s.position []).length) 0 at hwords
  have haux := hfull.aux
  change s.queue.withAux = true → ∀ k < (s.chunks.getD s.position []).length,
    s.queue.data (s.queue.size + s.position % s.queue.size) k =
      ((s.chunks.getD s.position []).map fun x => x.2.getD 0).getD k 0 at haux
  generalize s.chunks.getD s.position [] = d at hvalid hwords haux
  have hindices : arch.copyIndicesFromSlot (slotWords s.queue.data (s.position % s.queue.size)) =
      d.map Prod.fst := by
    rw [hwords, ← length_map Prod.fst]
    refine arch.copyIndicesFromSlot_eq ?_ (by rw [length_map]; exact hvalid.length)
    intro x hx
    obtain ⟨y, hy, rfl⟩ := mem_map.mp hx
    exact (hvalid.entries y hy).1
  unfold copySlot
  rw [h.slotOf, hindices]
  split
  · next hw =>
    apply ext_getElem
    · simp only [slotWords, length_zip, length_map, length_range]
      exact min_eq_left hvalid.length
    · intro k hk hk'
      have hsome := (hvalid.entries _ (getElem_mem hk')).2
      rw [hw] at hsome
      have hword := haux hw k hk'
      rw [getD_eq_getElem _ _ (by rwa [length_map])] at hword
      simp only [getElem_zip, getElem_map, slotWords, getElem_range, hword]
      obtain ⟨v, hv⟩ := Option.isSome_iff_exists.mp hsome
      rw [hv]
      exact Prod.ext rfl hv.symm
  · next hw =>
    rw [map_map]
    refine (map_congr_left ?_).trans (map_id d)
    intro x hx
    have hnone := (hvalid.entries x hx).2
    rw [Bool.eq_false_of_not_eq_true hw] at hnone
    have hsnd : x.2 = none := Option.not_isSome_iff_eq_none.mp (by rw [hnone]; decide)
    exact Prod.ext rfl hsnd.symm

end

theorem makeRoom_spec (frame : Option (List Entry))
    (hframe : (frame.getD []).length ≤ DEFAULT_BUFFER_FRAME_CAPACITY) :
    (s.makeRoom frame).1.flatten ++ (s.makeRoom frame).2 = s.frames.flatten ++ frame.getD [] ∧
      (s.makeRoom frame).2.length + HANDOFF_SLOT_INDICES ≤ DEFAULT_BUFFER_FRAME_CAPACITY ∧
      ∀ f ∈ (s.makeRoom frame).1, f ∈ s.frames ∨ f.length ≤ DEFAULT_BUFFER_FRAME_CAPACITY := by
  have hempty : ([] : List Entry).length + HANDOFF_SLOT_INDICES ≤
    DEFAULT_BUFFER_FRAME_CAPACITY := by decide
  cases frame with
  | none => exact ⟨rfl, hempty, fun f hf => Or.inl hf⟩
  | some f =>
    change f.length ≤ _ at hframe
    unfold makeRoom
    dsimp only
    split
    · refine ⟨?_, hempty, ?_⟩
      · rw [flatten_append, flatten_singleton, append_nil]
        rfl
      · intro g hg
        rcases mem_append.mp hg with hg | hg
        · exact Or.inl hg
        · rw [mem_singleton.mp hg]
          exact Or.inr hframe
    · next hroom =>
      refine ⟨rfl, ?_, fun g hg => Or.inl hg⟩
      change f.length + _ ≤ _
      omega

variable {frame : Option (List Entry)} {count : ℕ}

theorem Placed.copy (h : s.Placed) (hc : s.consumer = .copy head count frame) :
    (s.consume arch).Placed := by
  rw [with_consumer hc] at h ⊢
  have hfirst := h.published trivial
  obtain ⟨hentries, hlt⟩ := h.copySlot_eq arch hfirst
  change copySlot arch s.queue head = s.chunks.getD head [] at hentries
  change head < s.chunks.length at hlt
  have hvalid : ValidChunk s.queue.withAux (s.chunks.getD head []) := h.validChunk hlt
  obtain ⟨hroom, hspace, hframes⟩ := makeRoom_spec (s := s) frame h.inHand
  have hlong : (s.makeRoom frame).2.length + (s.chunks.getD head []).length ≤
      DEFAULT_BUFFER_FRAME_CAPACITY := (Nat.add_le_add_left hvalid.length _).trans hspace
  have hwritten : 0 < (s.chunks.getD head []).length := length_pos_of_ne_nil hvalid.ne_nil
  have hnext : (s.makeRoom frame).1.flatten ++ ((s.makeRoom frame).2 ++ s.chunks.getD head []) =
      (s.chunks.take (head + 1)).flatten := by
    rw [← append_assoc, hroom, ← take_concat_get hlt, concat_eq_append,
      flatten_append, flatten_singleton, getD_eq_getElem _ _ hlt]
    exact congrArg (· ++ s.chunks[head]) h.delivered
  have hold : ∀ f ∈ (s.makeRoom frame).1, f.length ≤ DEFAULT_BUFFER_FRAME_CAPACITY := by
    intro f hf
    rcases hframes f hf with hf | hf
    · exact h.frames f hf
    · exact hf
  change State.Placed (if (_ ++ copySlot arch s.queue head).length = _ then _ else _)
  rw [hentries]
  split
  · refine { h with
      consumer := ⟨h.consumer, hwritten⟩
      published := fun _ => hfirst
      delivered := ?_
      frames := ?_
      inHand := Nat.zero_le _ }
    · change ((s.makeRoom frame).1 ++ [_]).flatten ++ [] = _
      rw [flatten_append, flatten_singleton, append_nil]
      exact hnext
    · intro f hf
      rcases mem_append.mp hf with hf | hf
      · exact hold f hf
      · rw [mem_singleton.mp hf, length_append]
        exact hlong
  · refine { h with
      consumer := ⟨h.consumer, hwritten⟩
      published := fun _ => hfirst
      delivered := hnext
      frames := hold
      inHand := ?_ }
    change ((s.makeRoom frame).2 ++ _).length ≤ _
    rw [length_append]
    exact hlong

theorem Placed.clear (h : s.Placed) {written : ℕ}
    (hc : s.consumer = .clear head count written frame) : (s.consume arch).Placed := by
  rw [with_consumer hc] at h ⊢
  have hring := h.ring.clear (h.published trivial)
  have hwritten : 0 < written := h.consumer.2
  dsimp only [State.consume]
  rw [h.slotOf head]
  exact { h with
    ring := hring
    consumer := fun hzero => by omega
    published := False.elim }

theorem Placed.advance (h : s.Placed) (hc : s.consumer = .advance head count frame) :
    (s.consume arch).Placed := by
  rw [with_consumer hc] at h ⊢
  dsimp only [State.consume]
  split
  · have hle : s.queue.head ≤ head := h.ring.head_le
    exact { h with
      ring := h.ring.advance
      producers := fun i => (h.producers i).mono hle
      consumer := trivial
      published := False.elim }
  · next hzero =>
    obtain rfl : head = s.queue.head := h.consumer (not_not.mp hzero)
    exact { h with consumer := trivial, published := False.elim }

theorem Placed.consume (h : s.Placed) (arch : Arch) : (s.consume arch).Placed := by
  cases hc : s.consumer with
  | idle =>
    rw [with_consumer hc] at h ⊢
    exact h
  | test head count frame =>
    rw [with_consumer hc] at h ⊢
    dsimp only [State.consume]
    rw [h.slotOf head]
    split
    · next hcond =>
      exact { h with published := fun _ => hcond.2 }
    · exact { h with published := False.elim }
  | copy head count frame => exact h.copy hc
  | clear head count written frame => exact h.clear hc
  | advance head count frame => exact h.advance hc
  | rearm count frame =>
    rw [with_consumer hc] at h ⊢
    exact { h with consumer := trivial, published := False.elim }
  | flush frame =>
    rw [with_consumer hc] at h ⊢
    refine { h with
      consumer := trivial
      published := False.elim
      delivered := ?_
      frames := ?_
      inHand := Nat.zero_le _ }
    · have htoList : frame.toList.flatten = frame.getD [] := by
        cases frame with
        | none => rfl
        | some f => exact flatten_singleton
      change (s.frames ++ frame.toList).flatten ++ [] = _
      rw [append_nil, flatten_append, htoList]
      exact h.delivered
    · intro f hf
      rcases mem_append.mp hf with hf | hf
      · exact h.frames f hf
      · cases frame with
        | none => nomatch hf
        | some g =>
          rw [Option.toList_some, mem_singleton] at hf
          rw [hf]
          exact h.inHand

theorem Placed.dequeue (h : s.Placed) (hc : s.consumer = .idle) : s.dequeue.Placed := by
  rw [with_consumer hc] at h ⊢
  exact { h with
    consumer := fun _ => rfl
    published := False.elim
    inHand := Nat.zero_le _ }

theorem foldl_copyPendingSlot {q t : HandoffQueue} (hold : IsSize q.size)
    (hsize : IsSize t.size) {m : ℕ} (hm : m ≤ t.size) (data : ℕ → ℕ → ℕ) :
    (∀ k < m, (range m).foldl (copyPendingSlot q t) data ((q.head + k) % t.size) =
        q.data ((q.head + k) % q.size) ∧
      (q.withAux = true → (range m).foldl (copyPendingSlot q t) data
          (t.size + (q.head + k) % t.size) = q.data (q.size + (q.head + k) % q.size))) ∧
    ∀ slot < t.size, (∀ k < m, slot ≠ (q.head + k) % t.size) →
      (range m).foldl (copyPendingSlot q t) data slot = data slot := by
  induction m with
  | zero => exact ⟨fun k hk => absurd hk (Nat.not_lt_zero k), fun _ _ _ => rfl⟩
  | succ m ih =>
    obtain ⟨hcopied, hrest⟩ := ih (by omega)
    rw [range_succ, foldl_append]
    generalize (range m).foldl (copyPendingSlot q t) data = d at hcopied hrest
    have hlt := Nat.mod_lt (q.head + m) hsize.pos
    have hself : copyPendingSlot q t d m ((q.head + m) % t.size) =
        q.data ((q.head + m) % q.size) := by
      unfold copyPendingSlot HandoffQueue.slotOf
      simp only [hold.and_mask, hsize.and_mask]
      split
      · rw [update_of_ne (by omega), update_self]
      · rw [update_self]
    have haux : q.withAux = true → copyPendingSlot q t d m
        (t.size + (q.head + m) % t.size) = q.data (q.size + (q.head + m) % q.size) := by
      intro hw
      unfold copyPendingSlot HandoffQueue.slotOf
      simp [hold.and_mask, hsize.and_mask, if_pos hw]
    have hother : ∀ slot, slot ≠ (q.head + m) % t.size →
        slot ≠ t.size + (q.head + m) % t.size → copyPendingSlot q t d m slot = d slot := by
      intro slot hne hne'
      unfold copyPendingSlot HandoffQueue.slotOf
      simp only [hold.and_mask, hsize.and_mask]
      split
      · rw [update_of_ne hne', update_of_ne hne]
      · rw [update_of_ne hne]
    refine ⟨?_, ?_⟩
    · intro k hk
      by_cases hkm : k = m
      · subst hkm
        exact ⟨hself, haux⟩
      · have hne : (q.head + k) % t.size ≠ (q.head + m) % t.size :=
          mod_ne_of_window (h := q.head) (by omega) (by omega) (by omega) (by omega) (by omega)
        have hlt' := Nat.mod_lt (q.head + k) hsize.pos
        obtain ⟨h1, h2⟩ := hcopied k (by omega)
        refine ⟨(hother _ hne (by omega)).trans h1, fun hw => (hother _ ?_ ?_).trans (h2 hw)⟩
        · omega
        · omega
    · intro slot hslot hno
      refine (hother slot (hno m (Nat.lt_succ_self m)) (by omega)).trans ?_
      exact hrest slot hslot fun k hk => hno k (by omega)

theorem copyPendingSlots_data {q : HandoffQueue} (hold : IsSize q.size) {size m : ℕ}
    (hsize : IsSize size) (hm : m ≤ size) :
    (∀ p, q.head ≤ p → p < q.head + m →
      (copyPendingSlots q size m).data (p % size) = q.data (p % q.size) ∧ (q.withAux = true →
          (copyPendingSlots q size m).data (size + p % size) = q.data (q.size + p % q.size))) ∧
    ∀ p, q.head + m ≤ p → p < q.head + size →
      (copyPendingSlots q size m).data (p % size) 0 = HANDOFF_INVALID_INDEX := by
  obtain ⟨hcopied, hrest⟩ := foldl_copyPendingSlot (q := q)
    (t := { HandoffQueue.new size q.dequeueVectorLimit q.withAux with
      head := q.head
      tail := q.head + m
      nDropped := q.nDropped
      nVectors := q.nVectors }) hold hsize hm fun _ _ => 0
  constructor
  · intro p hp hp'
    obtain ⟨k, rfl⟩ := Nat.exists_eq_add_of_le hp
    exact hcopied k (by omega)
  · intro p hp hp'
    refine congrFun (hrest (p % size) (Nat.mod_lt _ hsize.pos) ?_) 0
    intro k hk
    exact mod_ne_of_window (h := q.head) (by omega) hp' (by omega) (by omega) (by omega)

theorem position_idle (hc : s.consumer = .idle) : s.position = s.queue.head := by
  rw [position, hc]
  rfl

/-- With all producers stopped every reserved slot is published. -/
theorem Placed.first_ne (h : s.Placed) (hp : ∀ i, s.producers i = .idle) {q : ℕ}
    (hle : s.position ≤ q) (hlt : q < s.queue.tail) :
    s.queue.data (q % s.queue.size) 0 ≠ HANDOFF_INVALID_INDEX := by
  apply h.ring.first_ne hlt
  apply h.ring.full _ hle hlt
  intro i c ws ha
  rw [writing_idle hp i] at ha
  nomatch ha

theorem Placed.pendingSlots_eq (h : s.Placed) (hp : ∀ i, s.producers i = .idle)
    (hc : s.consumer = .idle) : pendingSlots s.queue = s.queue.tail - s.queue.head := by
  have hpos := position_idle hc
  unfold pendingSlots
  rw [takeWhile_eq_self_iff.mpr ?_, length_range]
  intro k hk
  rw [mem_range] at hk
  rw [bne_iff_ne, h.slotOf]
  exact h.first_ne hp (by omega) (by omega)

theorem isSize_of_queueSize {queueSize : ℕ} (h : HANDOFF_SLOT_INDICES ≤ queueSize)
    (hlog : queueSize = 2 ^ queueSize.log2) : IsSize (queueSize / HANDOFF_SLOT_INDICES) := by
  have hfive : 5 ≤ queueSize.log2 := by
    by_contra hlt
    have hle : 2 ^ queueSize.log2 ≤ 2 ^ 4 := Nat.pow_le_pow_right (by decide) (by omega)
    unfold HANDOFF_SLOT_INDICES at h
    omega
  refine ⟨queueSize.log2 - 5, ?_⟩
  conv_lhs => rw [hlog]
  exact Nat.pow_div hfive (by decide)

theorem Placed.resize (h : s.Placed) (hp : ∀ i, s.producers i = .idle) (hc : s.consumer = .idle)
    (queueSize : ℕ) : (s.resize queueSize).Placed := by
  have hpos := position_idle hc
  unfold State.resize
  rw [h.pendingSlots_eq hp hc]
  dsimp only
  split
  · exact h
  · next hbad =>
    rw [not_or, not_lt, not_not] at hbad
    have hsize := isSize_of_queueSize hbad.1 hbad.2
    generalize queueSize / HANDOFF_SLOT_INDICES = size at hsize
    split
    · exact h
    · next hroom =>
      have hle : s.position ≤ s.queue.tail := h.ring.le_tail
      have htail : s.queue.head + (s.queue.tail - s.queue.head) = s.queue.tail := by omega
      obtain ⟨hcopied, hfree⟩ :=
        copyPendingSlots_data (q := s.queue) h.ring.size hsize (not_lt.mp hroom)
      rw [htail] at hcopied hfree
      have hfit : s.queue.tail ≤ s.queue.head + size := by omega
      have hring := h.ring.resize (writing_idle hp) hsize hfit hpos hcopied hfree
      have hkeep : (copyPendingSlots s.queue size (s.queue.tail - s.queue.head)).tail =
        s.queue.tail := htail
      refine ⟨?_, h.calls, h.producers, h.consumer, ?_, h.delivered, h.frames, h.inHand⟩
      · unfold State.ring
        rw [hkeep]
        exact hring
      · intro hread
        rw [show _ = Consumer.idle from hc] at hread
        exact hread.elim

end State

end Handoff
