import Hammer.HandoffQueue

/-! # The ring between the head and the tail

A handoff queue seen by position: each reserved position has its chunk of a batch, from the moment
of the reservation on. A position that no producer is still writing holds its chunk; the first word
of a slot is invalid while its batch is unpublished and where nothing is reserved.
-/

namespace Handoff

open Function List

/-- The part of a queue that its invariant is about. `h` is how far the consumer has come, which is
the head after it has advanced it; `writing` is what each producer has still to write. -/
structure Ring (n : ℕ) where
  size : ℕ
  withAux : Bool
  head : ℕ
  h : ℕ
  tail : ℕ
  data : ℕ → ℕ → ℕ
  chunks : List (List Entry)
  writing : Fin n → Option (Call × List Write)

/-- Buffers of one kind for one slot. -/
structure ValidChunk (withAux : Bool) (c : List Entry) : Prop where
  ne_nil : c ≠ []
  length : c.length ≤ HANDOFF_SLOT_INDICES
  entries : ∀ x ∈ c, x.1 ≠ HANDOFF_INVALID_INDEX ∧ x.2.isSome = withAux

def Call.Covers (c : Call) (p : ℕ) : Prop := c.start ≤ p ∧ p < c.start + c.slots

namespace Call

variable {c : Call} {withAux : Bool} {j : ℕ}

/-- The slots of a call, each with its part of the batch. -/
def chunks (c : Call) : List (List Entry) := (List.range c.slots).map (chunk c.taken)

theorem length_chunks : c.chunks.length = c.slots := by
  rw [chunks, length_map, length_range]

theorem getD_chunks (hj : j < c.slots) : c.chunks.getD j [] = chunk c.taken j := by
  rw [chunks, getD_eq_getElem?_getD, getElem?_map, getElem?_range hj]
  rfl

theorem length_taken (hslots : c.slots ≤ requested c.batch) :
    c.taken.length ≤ c.slots * HANDOFF_SLOT_INDICES ∧
      (0 < c.slots → (c.slots - 1) * HANDOFF_SLOT_INDICES < c.taken.length) := by
  unfold taken accepted
  unfold requested at hslots ⊢
  unfold HANDOFF_SLOT_INDICES at *
  rw [length_take]
  split
  · omega
  · omega

theorem accepted_ne_zero (hpos : 0 < c.slots) : c.accepted ≠ 0 := by
  unfold accepted requested HANDOFF_SLOT_INDICES
  split
  · omega
  · omega

theorem flatten_chunks (hslots : c.slots ≤ requested c.batch) : c.chunks.flatten = c.taken := by
  have htake : ∀ m, ((range m).map (chunk c.taken)).flatten =
      c.taken.take (m * HANDOFF_SLOT_INDICES) := by
    intro m
    induction m with
    | zero => simp
    | succ m ih =>
      rw [range_succ, map_append, flatten_append, ih, Nat.succ_mul, take_add]
      simp [chunk]
  rw [chunks, htake, take_of_length_le (length_taken hslots).1]

theorem validChunk (hslots : c.slots ≤ requested c.batch)
    (hbatch : ∀ x ∈ c.batch, x.1 ≠ HANDOFF_INVALID_INDEX ∧ x.2.isSome = withAux) :
    ∀ d ∈ c.chunks, ValidChunk withAux d := by
  intro d hd
  obtain ⟨j, hj, rfl⟩ := mem_map.mp hd
  rw [mem_range] at hj
  refine ⟨?_, length_chunk_le .., ?_⟩
  · intro hnil
    have hlen := congrArg length hnil
    have hlong := (length_taken hslots).2 (by omega)
    rw [chunk, length_take, length_drop, length_nil] at hlen
    unfold HANDOFF_SLOT_INDICES at *
    omega
  · intro x hx
    exact hbatch x (mem_of_mem_take (mem_of_mem_drop (mem_of_mem_take hx)))

end Call

theorem map_chunk {α β : Type*} (f : α → β) (l : List α) (j : ℕ) :
    (chunk l j).map f = chunk (l.map f) j := by
  unfold chunk
  rw [map_take, map_drop]

namespace Ring

variable {n : ℕ} {r : Ring n} {p k : ℕ} {i : Fin n} {c : Call} {ws : List Write} {x : Write}

def indexWord (r : Ring n) (p k : ℕ) : ℕ := ((r.chunks.getD p []).map Prod.fst).getD k 0

def auxWord (r : Ring n) (p k : ℕ) : ℕ :=
  ((r.chunks.getD p []).map fun x => x.2.getD 0).getD k 0

/-- A position whose words are all there. -/
structure Full (r : Ring n) (p : ℕ) : Prop where
  index : ∀ k < HANDOFF_SLOT_INDICES, r.data (p % r.size) k = r.indexWord p k
  aux : r.withAux = true → ∀ k < (r.chunks.getD p []).length,
    r.data (r.size + p % r.size) k = r.auxWord p k

/-- A reservation that is still written: what is left to write completes it but for the first
index. -/
structure Active (r : Ring n) (c : Call) (ws : List Write) : Prop where
  pos : 0 < c.slots
  above : r.h ≤ c.start
  below : c.start + c.slots ≤ r.tail
  unpublished : r.data (c.start % r.size) 0 = HANDOFF_INVALID_INDEX
  targets : ∀ x ∈ ws, ∃ p, c.Covers p ∧ (x.slot = p % r.size ∨ x.slot = r.size + p % r.size)
  first : ∀ x ∈ ws, ¬ (x.slot = c.start % r.size ∧ x.word = 0)
  index : ∀ p, c.Covers p → ∀ k < HANDOFF_SLOT_INDICES, ¬ (p = c.start ∧ k = 0) →
    applyWrites r.data ws (p % r.size) k = r.indexWord p k
  aux : r.withAux = true → ∀ p, c.Covers p → ∀ k < (r.chunks.getD p []).length,
    applyWrites r.data ws (r.size + p % r.size) k = r.auxWord p k
  head : (c.taken.map Prod.fst).headD HANDOFF_INVALID_INDEX = r.indexWord c.start 0

structure Inv (r : Ring n) : Prop where
  size : IsSize r.size
  length : r.chunks.length = r.tail
  chunks : ∀ c ∈ r.chunks, ValidChunk r.withAux c
  head_le : r.head ≤ r.h
  le_tail : r.h ≤ r.tail
  room : r.tail ≤ r.head + r.size
  active : ∀ i c ws, r.writing i = some (c, ws) → r.Active c ws
  disjoint : ∀ i j c d ws ws', i ≠ j → r.writing i = some (c, ws) → r.writing j = some (d, ws') →
    c.start + c.slots ≤ d.start ∨ d.start + d.slots ≤ c.start
  free : ∀ p, r.tail ≤ p → p < r.h + r.size → r.data (p % r.size) 0 = HANDOFF_INVALID_INDEX
  full : ∀ p, r.h ≤ p → p < r.tail → (∀ i c ws, r.writing i = some (c, ws) → ¬ c.Covers p) →
    r.Full p

theorem applyWrite_of_ne {data : ℕ → ℕ → ℕ} {s : ℕ} (h : x.slot ≠ s) (k : ℕ) :
    applyWrite data x s k = data s k := if_neg fun hc => h hc.1.symm

theorem Inv.covers_bounds (h : r.Inv) (ha : r.writing i = some (c, ws)) (hp : c.Covers p) :
    r.h ≤ p ∧ p < r.tail ∧ p < r.h + r.size := by
  have hact := h.active i c ws ha
  have h1 := hact.above
  have h2 := hact.below
  have h3 := h.room
  have h4 := h.head_le
  unfold Call.Covers at hp
  omega

theorem Inv.target_ne (h : r.Inv) (ha : r.writing i = some (c, ws))
    (hx : ∃ p, c.Covers p ∧ (x.slot = p % r.size ∨ x.slot = r.size + p % r.size)) {q : ℕ}
    (hq : r.h ≤ q) (hq' : q < r.h + r.size) (hc : ¬ c.Covers q) (k : ℕ) :
    applyWrite r.data x (q % r.size) k = r.data (q % r.size) k ∧
      applyWrite r.data x (r.size + q % r.size) k = r.data (r.size + q % r.size) k := by
  obtain ⟨p, hp, hslot⟩ := hx
  obtain ⟨hp1, -, hp2⟩ := h.covers_bounds ha hp
  have hne := mod_ne_of_window hp1 hp2 hq hq' (fun heq => hc (heq ▸ hp))
  have hlt := Nat.mod_lt p h.size.pos
  have hlt' := Nat.mod_lt q h.size.pos
  exact ⟨applyWrite_of_ne (by omega) k, applyWrite_of_ne (by omega) k⟩

theorem Full.congr {r' : Ring n} (h : r.Full p) (hsize : r'.size = r.size)
    (haux : r'.withAux = r.withAux) (hchunks : r'.chunks.getD p [] = r.chunks.getD p [])
    (hdata : ∀ k, r'.data (p % r.size) k = r.data (p % r.size) k ∧
      r'.data (r.size + p % r.size) k = r.data (r.size + p % r.size) k) : r'.Full p := by
  constructor
  · intro k hk
    unfold indexWord
    rw [hsize, hchunks, (hdata k).1]
    exact h.index k hk
  · intro hw k hk
    unfold auxWord
    rw [hchunks] at hk ⊢
    rw [hsize, (hdata k).2]
    exact h.aux (haux ▸ hw) k hk

theorem Active.congr {r' : Ring n} (h : r.Active c ws) (hsize : r'.size = r.size)
    (haux : r'.withAux = r.withAux) (hh : r'.h ≤ c.start) (htail : r.tail ≤ r'.tail)
    (hchunks : ∀ p, c.Covers p → r'.chunks.getD p [] = r.chunks.getD p [])
    (hdata : ∀ p, c.Covers p → ∀ k, r'.data (p % r.size) k = r.data (p % r.size) k ∧
      r'.data (r.size + p % r.size) k = r.data (r.size + p % r.size) k) : r'.Active c ws := by
  have hstart : c.Covers c.start := ⟨le_refl _, Nat.lt_add_of_pos_right h.pos⟩
  have hindex : ∀ p, c.Covers p → ∀ k, r'.indexWord p k = r.indexWord p k := by
    intro p hp k
    unfold indexWord
    rw [hchunks p hp]
  refine ⟨h.pos, hh, h.below.trans htail, ?_, ?_, ?_, ?_, ?_, ?_⟩
  · rw [hsize, (hdata _ hstart 0).1]
    exact h.unpublished
  · rw [hsize]
    exact h.targets
  · rw [hsize]
    exact h.first
  · intro p hp k hk hne
    rw [hsize, hindex p hp, ← h.index p hp k hk hne]
    exact applyWrites_congr fun k => (hdata p hp k).1
  · intro hw p hp k hk
    rw [hchunks p hp] at hk
    have hword : r'.auxWord p k = r.auxWord p k := by
      unfold auxWord
      rw [hchunks p hp]
    rw [hsize, hword, ← h.aux (haux ▸ hw) p hp k hk]
    exact applyWrites_congr fun k => (hdata p hp k).2
  · rw [hindex _ hstart]
    exact h.head

/-- A producer writes into its reservation, and either goes on with it or completes it. -/
theorem Inv.own (h : r.Inv) (ha : r.writing i = some (c, ws))
    (hx : ∃ p, c.Covers p ∧ (x.slot = p % r.size ∨ x.slot = r.size + p % r.size))
    {v : Option (Call × List Write)} {r' : Ring n}
    (hr : r' = { r with
      data := applyWrite r.data x
      writing := update r.writing i v })
    (hactive : ∀ d ws', v = some (d, ws') → d = c ∧ r'.Active c ws')
    (hfull : v = none → ∀ p, c.Covers p → r'.Full p) : r'.Inv := by
  subst hr
  have hroom : r.tail ≤ r.h + r.size := h.room.trans (Nat.add_le_add_right h.head_le _)
  have hself : update r.writing i v i = v := update_self ..
  have hold : ∀ {j d ws'}, update r.writing i v j = some (d, ws') →
      ∃ ws'', r.writing j = some (d, ws'') := by
    intro j d ws' hd
    by_cases hj : j = i
    · subst hj
      rw [hself] at hd
      rw [(hactive d ws' hd).1]
      exact ⟨ws, ha⟩
    · rw [update_of_ne hj] at hd
      exact ⟨ws', hd⟩
  refine ⟨h.size, h.length, h.chunks, h.head_le, h.le_tail, h.room, ?_, ?_, ?_, ?_⟩
  · intro j d ws' hd
    change update r.writing i v j = _ at hd
    by_cases hj : j = i
    · subst hj
      rw [hself] at hd
      obtain ⟨rfl, hd⟩ := hactive d ws' hd
      exact hd
    · rw [update_of_ne hj] at hd
      refine (h.active j d ws' hd).congr rfl rfl (h.active j d ws' hd).above le_rfl
        (fun _ _ => rfl) ?_
      intro p hp
      obtain ⟨hp1, -, hp2⟩ := h.covers_bounds hd hp
      apply h.target_ne ha hx hp1 hp2
      intro hc
      have := h.disjoint i j c d _ _ (Ne.symm hj) ha hd
      unfold Call.Covers at hp hc
      omega
  · intro j k d e ws1 ws2 hjk hd he
    obtain ⟨_, hd⟩ := hold hd
    obtain ⟨_, he⟩ := hold he
    exact h.disjoint j k d e _ _ hjk hd he
  · intro p hp hp'
    change r.tail ≤ p at hp
    have hc : ¬ c.Covers p := by
      intro hc
      have := (h.active i c ws ha).below
      unfold Call.Covers at hc
      omega
    exact (h.target_ne ha hx (h.le_tail.trans hp) hp' hc 0).1.trans (h.free p hp hp')
  · intro p hp hp' hno
    by_cases hc : c.Covers p
    · by_cases hv : v = none
      · exact hfull hv p hc
      · obtain ⟨⟨d, ws'⟩, hd⟩ := Option.ne_none_iff_exists'.mp hv
        exact absurd ((hactive d ws' hd).1 ▸ hc) (hno i d ws' (hself.trans hd))
    · have hno' : ∀ j d ws', r.writing j = some (d, ws') → ¬ d.Covers p := by
        intro j d ws' hd
        by_cases hj : j = i
        · subst hj
          rw [ha] at hd
          cases hd
          exact hc
        · exact hno j d ws' ((update_of_ne hj ..).trans hd)
      have hp2 : p < r.h + r.size := hp'.trans_le hroom
      exact (h.full p hp hp' hno').congr rfl rfl rfl (h.target_ne ha hx hp hp2 hc)

theorem Inv.write (h : r.Inv) (ha : r.writing i = some (c, x :: ws)) : Inv { r with
      data := applyWrite r.data x
      writing := update r.writing i (some (c, ws)) } := by
  have hact := h.active i c _ ha
  have hx : x ∈ x :: ws := mem_cons_self ..
  refine h.own ha (hact.targets x hx) rfl ?_ (fun hc => nomatch hc)
  intro d ws' hv
  cases hv
  refine ⟨rfl, hact.pos, hact.above, hact.below, ?_, ?_, ?_, hact.index, hact.aux, hact.head⟩
  · have hkeep : ¬ (c.start % r.size = x.slot ∧ 0 = x.word) :=
      fun hc => hact.first x hx ⟨hc.1.symm, hc.2.symm⟩
    exact (if_neg hkeep).trans hact.unpublished
  · exact fun y hy => hact.targets y (mem_cons_of_mem _ hy)
  · exact fun y hy => hact.first y (mem_cons_of_mem _ hy)

theorem Inv.publish (h : r.Inv) (ha : r.writing i = some (c, [])) : Inv { r with
      data := applyWrite r.data
        ⟨c.start % r.size, 0, (c.taken.map Prod.fst).headD HANDOFF_INVALID_INDEX⟩
      writing := update r.writing i none } := by
  have hact := h.active i c _ ha
  have hstart : c.Covers c.start := ⟨le_refl _, Nat.lt_add_of_pos_right hact.pos⟩
  refine h.own ha ⟨c.start, hstart, Or.inl rfl⟩ rfl (fun _ _ hv => nomatch hv) ?_
  intro _ p hp
  obtain ⟨hp1, -, hp2⟩ := h.covers_bounds ha hp
  obtain ⟨hs1, -, hs2⟩ := h.covers_bounds ha hstart
  constructor
  · intro k hk
    by_cases hfirst : p = c.start ∧ k = 0
    · obtain ⟨rfl, rfl⟩ := hfirst
      exact (if_pos ⟨rfl, rfl⟩).trans hact.head
    · have hkeep : ¬ (p % r.size = c.start % r.size ∧ k = 0) := by
        rintro ⟨heq, hk⟩
        exact mod_ne_of_window hp1 hp2 hs1 hs2 (fun hc => hfirst ⟨hc, hk⟩) heq
      exact (if_neg hkeep).trans (hact.index p hp k hk hfirst)
  · intro hw k hk
    have hlt := Nat.mod_lt c.start h.size.pos
    refine (applyWrite_of_ne (Nat.ne_of_lt ?_) k).trans (hact.aux hw p hp k hk)
    exact hlt.trans_le (Nat.le_add_right ..)

/-- Until the first index is published, the first word at the consumer's position stays. -/
theorem Inv.first_write (h : r.Inv) (ha : r.writing i = some (c, ws)) (hx : x ∈ ws) :
    applyWrite r.data x (r.h % r.size) 0 = r.data (r.h % r.size) 0 := by
  have hact := h.active i c ws ha
  by_cases hc : c.Covers r.h
  · have hstart : c.start = r.h := Nat.le_antisymm hc.1 hact.above
    have hkeep : ¬ (r.h % r.size = x.slot ∧ 0 = x.word) :=
      fun heq => hact.first x hx (hstart ▸ ⟨heq.1.symm, heq.2.symm⟩)
    exact if_neg hkeep
  · exact (h.target_ne ha (hact.targets x hx) le_rfl (Nat.lt_add_of_pos_right h.size.pos) hc 0).1

variable {m : ℕ}

theorem getD_append_chunks_left (hlen : r.chunks.length = r.tail) (hp : p < r.tail) :
    (r.chunks ++ c.chunks).getD p [] = r.chunks.getD p [] :=
  getD_append _ _ _ _ (hlen.symm ▸ hp)

theorem getD_append_chunks_right (hlen : r.chunks.length = r.tail) (hstart : c.start = r.tail)
    (hp : c.Covers p) : (r.chunks ++ c.chunks).getD p [] = chunk c.taken (p - c.start) := by
  unfold Call.Covers at hp
  rw [getD_append_right _ _ _ _ (by omega), hlen, ← hstart]
  exact Call.getD_chunks (by omega)

theorem Inv.active_writes (h : r.Inv) (hstart : c.start = r.tail) (hpos : 0 < c.slots)
    (hroom : r.tail + c.slots ≤ r.head + r.size) {w : Fin n → Option (Call × List Write)} :
    Active { r with
      tail := r.tail + c.slots
      chunks := r.chunks ++ c.chunks
      writing := w } c (c.writes r.size r.withAux) := by
  have hh := h.head_le
  have ht := h.le_tail
  have hslots : c.slots ≤ r.size := by omega
  have hmem : ∀ x ∈ c.writes r.size r.withAux,
      (∃ p, c.Covers p ∧ (x.slot = p % r.size ∨ x.slot = r.size + p % r.size)) ∧
        ¬ (x.slot = c.start % r.size ∧ x.word = 0) := by
    intro x hx
    rcases mem_append.mp hx with hx | hx
    · split at hx
      · obtain ⟨j, hj, hslot⟩ := slot_of_mem_auxWrites h.size hx
        refine ⟨⟨c.start + j, ⟨by omega, by omega⟩, Or.inr hslot⟩, ?_⟩
        have := Nat.mod_lt c.start h.size.pos
        omega
      · nomatch hx
    · obtain ⟨⟨j, hj, hslot⟩, hfirst⟩ := slot_of_mem_indexWrites h.size hpos hx
      exact ⟨⟨c.start + j, ⟨by omega, by omega⟩, Or.inl hslot⟩, hfirst hslots⟩
  refine ⟨hpos, hstart ▸ ht, by rw [hstart], ?_, fun x hx => (hmem x hx).1,
    fun x hx => (hmem x hx).2, ?_, ?_, ?_⟩
  · rw [hstart]
    exact h.free r.tail le_rfl (by omega)
  · intro p hp k hk hne
    obtain ⟨j, rfl⟩ := Nat.exists_eq_add_of_le hp.1
    have hj : j < c.slots := by
      have := hp.2
      omega
    unfold indexWord Call.writes
    rw [getD_append_chunks_right h.length hstart hp, applyWrites_append,
      applyWrites_indexWrites h.size hslots hj hk fun hc => hne ⟨by omega, hc.2⟩,
      Nat.add_sub_cancel_left, map_chunk]
  · intro hw p hp k hk
    obtain ⟨j, rfl⟩ := Nat.exists_eq_add_of_le hp.1
    have hj : j < c.slots := by
      have := hp.2
      omega
    unfold auxWord Call.writes
    rw [getD_append_chunks_right h.length hstart hp, Nat.add_sub_cancel_left] at hk ⊢
    rw [if_pos hw, applyWrites_append, applyWrites_of_slot_ne,
      applyWrites_auxWrites h.size hslots hj, map_chunk]
    · rw [← map_chunk, length_map]
      exact hk
    · intro x hx heq
      change x.slot = r.size + _ % r.size at heq
      obtain ⟨⟨j', -, hslot⟩, -⟩ := slot_of_mem_indexWrites h.size hpos hx
      have := Nat.mod_lt (c.start + j') h.size.pos
      omega
  · unfold indexWord
    rw [getD_append_chunks_right h.length hstart ⟨le_rfl, by omega⟩, Nat.sub_self]
    cases c.taken with
    | nil => rfl
    | cons x l => rfl

theorem Inv.reserve (h : r.Inv) (hidle : r.writing i = none) (hstart : c.start = r.tail)
    (hpos : 0 < c.slots) (hroom : r.tail + c.slots ≤ r.head + r.size)
    (hchunks : ∀ d ∈ c.chunks, ValidChunk r.withAux d) :
    Inv { r with
      tail := r.tail + c.slots
      chunks := r.chunks ++ c.chunks
      writing := update r.writing i (some (c, c.writes r.size r.withAux)) } := by
  have hself : update r.writing i (some (c, c.writes r.size r.withAux)) i =
    some (c, c.writes r.size r.withAux) := update_self ..
  have hother : ∀ {j}, j ≠ i →
      update r.writing i (some (c, c.writes r.size r.withAux)) j = r.writing j :=
    fun hj => update_of_ne hj ..
  have hne : ∀ {j d ws'}, r.writing j = some (d, ws') → j ≠ i := by
    rintro j d ws' hd rfl
    rw [hidle] at hd
    nomatch hd
  refine ⟨h.size, ?_, ?_, h.head_le, h.le_tail.trans (Nat.le_add_right ..), hroom, ?_, ?_, ?_, ?_⟩
  · rw [length_append, h.length, Call.length_chunks]
  · intro d hd
    rcases mem_append.mp hd with hd | hd
    · exact h.chunks d hd
    · exact hchunks d hd
  · intro j d ws' hd
    change update r.writing i _ j = _ at hd
    by_cases hj : j = i
    · subst hj
      rw [hself] at hd
      cases hd
      exact h.active_writes hstart hpos hroom
    · rw [hother hj] at hd
      have hact := h.active j d ws' hd
      refine hact.congr rfl rfl hact.above (Nat.le_add_right ..) ?_ (fun _ _ _ => ⟨rfl, rfl⟩)
      intro p hp
      exact getD_append_chunks_left h.length (h.covers_bounds hd hp).2.1
  · intro j k d e ws1 ws2 hjk hd he
    change update r.writing i _ j = _ at hd
    change update r.writing i _ k = _ at he
    by_cases hj : j = i
    · subst hj
      rw [hself] at hd
      cases hd
      rw [hother (Ne.symm hjk)] at he
      have := (h.active k e _ he).below
      omega
    · rw [hother hj] at hd
      by_cases hk : k = i
      · subst hk
        rw [hself] at he
        cases he
        have := (h.active j d _ hd).below
        omega
      · rw [hother hk] at he
        exact h.disjoint j k d e _ _ hjk hd he
  · intro p hp hp'
    exact h.free p ((Nat.le_add_right ..).trans hp) hp'
  · intro p hp hp' hno
    have hout : ¬ c.Covers p := hno i c _ hself
    have hlt : p < r.tail := by
      change p < r.tail + c.slots at hp'
      unfold Call.Covers at hout
      omega
    refine (h.full p hp hlt ?_).congr rfl rfl (getD_append_chunks_left h.length hlt)
      (fun _ => ⟨rfl, rfl⟩)
    exact fun j d ws' hd => hno j d ws' ((hother (hne hd)).trans hd)

theorem Inv.published (h : r.Inv) (hne : r.data (r.h % r.size) 0 ≠ HANDOFF_INVALID_INDEX) :
    r.h < r.tail ∧ (∀ i c ws, r.writing i = some (c, ws) → ¬ c.Covers r.h) := by
  have hpos := h.size.pos
  constructor
  · by_contra hlt
    exact hne (h.free r.h (Nat.le_of_not_lt hlt) (Nat.lt_add_of_pos_right hpos))
  · intro i c ws ha hc
    have hact := h.active i c ws ha
    have heq : c.start = r.h := Nat.le_antisymm hc.1 hact.above
    exact hne (heq ▸ hact.unpublished)

theorem Inv.clear (h : r.Inv) (hne : r.data (r.h % r.size) 0 ≠ HANDOFF_INVALID_INDEX) : Inv { r with
      h := r.h + 1
      data := applyWrite r.data ⟨r.h % r.size, 0, HANDOFF_INVALID_INDEX⟩ } := by
  obtain ⟨hlt, hfree⟩ := h.published hne
  have hroom := h.room
  have hhead := h.head_le
  have hpos := h.size.pos
  have hkeep : ∀ p, r.h < p → p < r.h + r.size → ∀ k,
      applyWrite r.data ⟨r.h % r.size, 0, HANDOFF_INVALID_INDEX⟩ (p % r.size) k =
          r.data (p % r.size) k ∧
        applyWrite r.data ⟨r.h % r.size, 0, HANDOFF_INVALID_INDEX⟩ (r.size + p % r.size) k =
          r.data (r.size + p % r.size) k := by
    intro p hp hp' k
    have hslot := mod_ne_of_window le_rfl (Nat.lt_add_of_pos_right hpos) hp.le hp' (Nat.ne_of_lt hp)
    have := Nat.mod_lt r.h hpos
    refine ⟨applyWrite_of_ne hslot k, applyWrite_of_ne ?_ k⟩
    change r.h % r.size ≠ _
    omega
  refine ⟨h.size, h.length, h.chunks, hhead.trans (Nat.le_succ _), hlt, hroom, ?_, h.disjoint, ?_,
    ?_⟩
  · intro j d ws' hd
    have hact := h.active j d ws' hd
    have habove : r.h < d.start := by
      have hout := hfree j d ws' hd
      have h1 := hact.above
      have h2 := hact.pos
      unfold Call.Covers at hout
      omega
    refine hact.congr rfl rfl habove le_rfl (fun _ _ => rfl) ?_
    intro p hp
    exact hkeep p (habove.trans_le hp.1) (h.covers_bounds hd hp).2.2
  · intro p hp hp'
    change r.tail ≤ p at hp
    change p < r.h + 1 + r.size at hp'
    change applyWrite r.data _ (p % r.size) 0 = _
    by_cases hwrap : p = r.h + r.size
    · rw [hwrap, Nat.add_mod_right]
      exact if_pos ⟨rfl, rfl⟩
    · rw [(hkeep p (by omega) (by omega) 0).1]
      exact h.free p hp (by omega)
  · intro p hp hp' hno
    change r.h + 1 ≤ p at hp
    change p < r.tail at hp'
    exact (h.full p (by omega) hp' hno).congr rfl rfl rfl (hkeep p (by omega) (by omega))

theorem Inv.advance (h : r.Inv) : Inv { r with head := r.h } :=
  ⟨h.size, h.length, h.chunks, le_rfl, h.le_tail, h.room.trans (Nat.add_le_add_right h.head_le _),
    fun i c ws ha => (h.active i c ws ha).congr rfl rfl (h.active i c ws ha).above le_rfl
      (fun _ _ => rfl) (fun _ _ _ => ⟨rfl, rfl⟩),
    h.disjoint, h.free,
    fun p hp hp' hno => (h.full p hp hp' hno).congr rfl rfl rfl (fun _ => ⟨rfl, rfl⟩)⟩

theorem Full.slotWords_eq (h : r.Full p)
    (hlen : (r.chunks.getD p []).length ≤ HANDOFF_SLOT_INDICES) :
    slotWords r.data (p % r.size) = (r.chunks.getD p []).map Prod.fst ++
      replicate (HANDOFF_SLOT_INDICES - (r.chunks.getD p []).length) 0 := by
  apply ext_getElem
  · rw [slotWords, length_map, length_range, length_append, length_map, length_replicate]
    omega
  · intro k hk hk'
    have hlt : k < HANDOFF_SLOT_INDICES := by
      rwa [slotWords] at hk
    simp only [slotWords, getElem_map, getElem_range]
    rw [h.index k hlt, indexWord]
    rcases Nat.lt_or_ge k (r.chunks.getD p []).length with hin | hout
    · rw [getElem_append_left (by rwa [length_map]), getD_eq_getElem]
    · rw [getElem_append_right (by rwa [length_map]), getElem_replicate,
        getD_eq_default ((r.chunks.getD p []).map Prod.fst) _ (by rwa [length_map])]

theorem Inv.first_ne (h : r.Inv) (hp : p < r.tail) (hfull : r.Full p) :
    r.data (p % r.size) 0 ≠ HANDOFF_INVALID_INDEX := by
  have hlt : p < r.chunks.length := h.length.symm ▸ hp
  have hvalid := h.chunks _ (getElem_mem hlt)
  rw [hfull.index 0 (by decide), indexWord, getD_eq_getElem _ _ hlt]
  cases hc : r.chunks[p] with
  | nil => exact absurd hc hvalid.ne_nil
  | cons x l => exact (hvalid.entries x (hc ▸ mem_cons_self ..)).1

/-- With all users stopped, the slots between the head and the tail move to a ring of another
size. -/
theorem Inv.resize (h : r.Inv) (hidle : ∀ i, r.writing i = none) {size : ℕ} {data : ℕ → ℕ → ℕ}
    (hsize : IsSize size) (hroom : r.tail ≤ r.head + size) (hhead : r.h = r.head)
    (hcopy : ∀ p, r.head ≤ p → p < r.tail → data (p % size) = r.data (p % r.size) ∧
      (r.withAux = true → data (size + p % size) = r.data (r.size + p % r.size)))
    (hfree : ∀ p, r.tail ≤ p → p < r.head + size → data (p % size) 0 = HANDOFF_INVALID_INDEX) :
    Inv { r with size := size, data := data } := by
  rw [← hhead] at hcopy hfree
  refine ⟨hsize, h.length, h.chunks, h.head_le, h.le_tail, hroom, ?_, h.disjoint, hfree, ?_⟩
  · intro i c ws ha
    have hnone := hidle i
    rw [show r.writing i = some (c, ws) from ha] at hnone
    nomatch hnone
  · intro p hp hp' hno
    have hfull := h.full p hp hp' hno
    obtain ⟨hi, ha⟩ := hcopy p hp hp'
    refine ⟨fun k hk => (congrFun hi k).trans (hfull.index k hk), ?_⟩
    exact fun hw k hk => (congrFun (ha hw) k).trans (hfull.aux hw k hk)

end Ring

end Handoff
