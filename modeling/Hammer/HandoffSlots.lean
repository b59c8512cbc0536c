import Mathlib.Data.List.Basic
import Mathlib.Data.List.GetD
import Mathlib.Data.Nat.ModEq
import Mathlib.Order.Lattice
import Mathlib.Tactic.Ring

/-! # Slots of a handoff queue

A slot of `hammer-runtime/src/handoff.rs` holds 32 buffer indices. A reader takes the indices before
the first invalid one, by vectors of an architecture's width; a producer writes a batch of indices
over the slots it reserved, word by word, all but the first word of the first slot.
-/

namespace Handoff

open List

def HANDOFF_SLOT_INDICES : ℕ := 32

def HANDOFF_INVALID_INDEX : ℕ := 0

/-- The words in whole vectors without an invalid index. -/
def wholeVectors (lanes : ℕ) : ℕ → List ℕ → ℕ
  | 0, _ => 0
  | n + 1, words =>
    if (words.take lanes).all (· != HANDOFF_INVALID_INDEX) then
      lanes + wholeVectors lanes n (words.drop lanes)
    else 0

/-- Which of the three readers the machine has. -/
inductive Arch where
  | baseline | v3 | v4
  deriving DecidableEq, Repr

def Arch.lanes : Arch → ℕ
  | .baseline => 4
  | .v3 => 8
  | .v4 => 8

/-- `copy_indices_from_slot` and its `v3` and `v4`: the last vector tells a full slot; otherwise
whole vectors, then single words, where `v4` takes them from one masked vector. -/
def Arch.copyIndicesFromSlot (arch : Arch) (words : List ℕ) : List ℕ :=
  let lanes := arch.lanes
  let vectors := HANDOFF_SLOT_INDICES / lanes
  if (words.drop ((vectors - 1) * lanes)).all (· != HANDOFF_INVALID_INDEX) then words
  else
    let count := wholeVectors lanes vectors words
    let rest := match arch with
      | .v4 => (words.drop count).take lanes
      | _ => (words.drop count).take (HANDOFF_SLOT_INDICES - count)
    words.take count ++ rest.takeWhile (· != HANDOFF_INVALID_INDEX)

section Reading

variable {xs : List ℕ} {lanes m n : ℕ}

theorem takeWhile_valid (hxs : ∀ x ∈ xs, x ≠ 0) :
    (xs ++ replicate m 0).takeWhile (· != HANDOFF_INVALID_INDEX) = xs := by
  induction xs with
  | nil => cases m <;> rfl
  | cons x xs ih =>
    have hx : (x != HANDOFF_INVALID_INDEX) = true := by
      rw [bne_iff_ne]
      exact hxs x (mem_cons_self ..)
    rw [cons_append, takeWhile_cons, if_pos hx, ih fun y hy => hxs y (mem_cons_of_mem _ hy)]

theorem le_length_of_all_valid {k : ℕ} (hk : k ≤ (xs ++ replicate m 0).length)
    (hall : ((xs ++ replicate m 0).take k).all (· != HANDOFF_INVALID_INDEX) = true) :
    k ≤ xs.length := by
  by_contra hlt
  have hi : xs.length < ((xs ++ replicate m 0).take k).length := by
    rw [length_take]
    omega
  have hmem : (0 : ℕ) ∈ (xs ++ replicate m 0).take k := by
    rw [mem_iff_getElem]
    refine ⟨xs.length, hi, ?_⟩
    rw [getElem_take, getElem_append_right (le_refl _), getElem_replicate]
  have := all_eq_true.mp hall 0 hmem
  exact absurd this (by decide)

/-- The vectors hold valid indices; where they end, an invalid one follows within a vector or the
words end. -/
theorem wholeVectors_spec (hxs : ∀ x ∈ xs, x ≠ 0)
    (hlen : (xs ++ replicate m 0).length = n * lanes) :
    wholeVectors lanes n (xs ++ replicate m 0) ≤ xs.length ∧
      (wholeVectors lanes n (xs ++ replicate m 0) = n * lanes ∨
        xs.length < wholeVectors lanes n (xs ++ replicate m 0) + lanes) := by
  induction n generalizing xs with
  | zero => simp [wholeVectors]
  | succ n ih =>
    unfold wholeVectors
    split
    · next hall =>
      have hle : lanes ≤ xs.length := by
        apply le_length_of_all_valid _ hall
        rw [hlen]
        exact Nat.le_mul_of_pos_left lanes n.succ_pos
      have hdrop : (xs ++ replicate m 0).drop lanes = xs.drop lanes ++ replicate m 0 :=
        drop_append_of_le_length hle
      have hrest : (xs.drop lanes ++ replicate m 0).length = n * lanes := by
        rw [← hdrop, length_drop, hlen, Nat.succ_mul, Nat.add_sub_cancel]
      rw [hdrop]
      obtain ⟨hbound, hend⟩ := ih (fun x hx => hxs x (mem_of_mem_drop hx)) hrest
      rw [length_drop] at hbound hend
      refine ⟨by omega, ?_⟩
      rcases hend with heq | hlt
      · left
        rw [heq, Nat.succ_mul, Nat.add_comm]
      · right
        omega
    · next hall =>
      refine ⟨Nat.zero_le _, Or.inr ?_⟩
      by_contra hge
      apply hall
      rw [take_append_of_le_length (by omega), all_eq_true]
      intro x hx
      rw [bne_iff_ne]
      exact hxs x (mem_of_mem_take hx)

theorem Arch.copyIndicesFromSlot_eq (arch : Arch) (hxs : ∀ x ∈ xs, x ≠ 0)
    (hlen : xs.length ≤ HANDOFF_SLOT_INDICES) :
    arch.copyIndicesFromSlot (xs ++ replicate (HANDOFF_SLOT_INDICES - xs.length) 0) = xs := by
  set words := xs ++ replicate (HANDOFF_SLOT_INDICES - xs.length) 0 with hwords
  have hlanes : HANDOFF_SLOT_INDICES / arch.lanes * arch.lanes = HANDOFF_SLOT_INDICES ∧
      (HANDOFF_SLOT_INDICES / arch.lanes - 1) * arch.lanes < HANDOFF_SLOT_INDICES := by
    cases arch <;> decide
  have hwlen : words.length = HANDOFF_SLOT_INDICES := by
    rw [length_append, length_replicate]
    omega
  have hvectors : words.length = HANDOFF_SLOT_INDICES / arch.lanes * arch.lanes := by
    rw [hwlen, hlanes.1]
  obtain ⟨hle, hmax⟩ := wholeVectors_spec hxs hvectors
  unfold Arch.copyIndicesFromSlot
  dsimp only
  split
  · next hall =>
    -- the last word is valid, so the slot is full
    have hfull : HANDOFF_SLOT_INDICES ≤ xs.length := by
      by_contra hlt
      have hlast : words[HANDOFF_SLOT_INDICES - 1] = 0 := by
        rw [getElem_append_right (by omega), getElem_replicate]
      have hmem : (0 : ℕ) ∈ words.drop ((HANDOFF_SLOT_INDICES / arch.lanes - 1) * arch.lanes) := by
        rw [← hlast, mem_iff_getElem]
        refine ⟨HANDOFF_SLOT_INDICES - 1 -
          (HANDOFF_SLOT_INDICES / arch.lanes - 1) * arch.lanes, ?_, ?_⟩
        · rw [length_drop]
          omega
        · rw [getElem_drop]
          congr 1
          omega
      exact absurd (all_eq_true.mp hall 0 hmem) (by decide)
    rw [hwords, Nat.sub_eq_zero_of_le hfull]
    simp
  · next hnot =>
    set count := wholeVectors arch.lanes (HANDOFF_SLOT_INDICES / arch.lanes) words with hcount
    have htake : words.take count = xs.take count := take_append_of_le_length hle
    have hdrop : words.drop count =
        xs.drop count ++ replicate (HANDOFF_SLOT_INDICES - xs.length) 0 :=
      drop_append_of_le_length hle
    have hvalid : ∀ x ∈ xs.drop count, x ≠ 0 := fun x hx => hxs x (mem_of_mem_drop hx)
    have hrest : ∀ k, (xs.drop count).length ≤ k →
        ((words.drop count).take k).takeWhile (· != HANDOFF_INVALID_INDEX) = xs.drop count := by
      intro k hk
      rw [hdrop, take_append, take_of_length_le hk, take_replicate]
      exact takeWhile_valid hvalid
    have hlong : (xs.drop count).length ≤ HANDOFF_SLOT_INDICES - count := by
      rw [length_drop]
      omega
    have hone : (xs.drop count).length ≤ arch.lanes := by
      rw [length_drop]
      rcases hmax with heq | hlt
      · omega
      · omega
    rw [htake]
    cases arch with
    | baseline | v3 => rw [hrest _ hlong, take_append_drop]
    | v4 => rw [hrest _ hone, take_append_drop]

end Reading

structure Write where
  slot : ℕ
  word : ℕ
  value : ℕ
  deriving DecidableEq, Repr

def applyWrite (data : ℕ → ℕ → ℕ) (x : Write) : ℕ → ℕ → ℕ := fun s i =>
  if s = x.slot ∧ i = x.word then x.value else data s i

def applyWrites (data : ℕ → ℕ → ℕ) (ws : List Write) : ℕ → ℕ → ℕ := ws.foldl applyWrite data

def writeWords (slot : ℕ) : ℕ → List ℕ → List Write
  | _, [] => []
  | word, v :: vs => ⟨slot, word, v⟩ :: writeWords slot (word + 1) vs

def chunk {α : Type*} (l : List α) (j : ℕ) : List α :=
  (l.drop (j * HANDOFF_SLOT_INDICES)).take HANDOFF_SLOT_INDICES

/-- The slots after the first: full ones are copied over, the last one is cleared before. -/
def restWrites (mask : ℕ) : ℕ → ℕ → List ℕ → List Write
  | 0, _, _ => []
  | n + 1, slot, indices =>
    (if HANDOFF_SLOT_INDICES ≤ indices.length then
      writeWords slot 0 (indices.take HANDOFF_SLOT_INDICES)
    else
      writeWords slot 0 (List.replicate HANDOFF_SLOT_INDICES 0) ++ writeWords slot 0 indices) ++
    restWrites mask n ((slot + 1) &&& mask) (indices.drop HANDOFF_SLOT_INDICES)

/-- `copy_and_publish_indices_to_slots` up to the publication of the first index. -/
def indexWrites (mask slots start : ℕ) (indices : List ℕ) : List Write :=
  let slot := start &&& mask
  let firstCount := min indices.length HANDOFF_SLOT_INDICES
  (if firstCount < HANDOFF_SLOT_INDICES then
    writeWords slot 1 (List.replicate (HANDOFF_SLOT_INDICES - 1) 0) else []) ++
  writeWords slot 1 ((indices.take firstCount).drop 1) ++
  restWrites mask (slots - 1) ((slot + 1) &&& mask) (indices.drop firstCount)

/-- The aux values lie `size` slots behind the indices. -/
def auxWrites (size slots start : ℕ) (aux : List ℕ) : List Write :=
  (List.range slots).flatMap fun j =>
    writeWords (size + ((start + j) &&& (size - 1))) 0 (chunk aux j)

section Writing

variable {data data' : ℕ → ℕ → ℕ} {ws ws' : List Write} {slot word s i : ℕ} {vs : List ℕ}

theorem applyWrites_append :
    applyWrites data (ws ++ ws') = applyWrites (applyWrites data ws) ws' := foldl_append

theorem applyWrites_of_slot_ne (h : ∀ x ∈ ws, x.slot ≠ s) : applyWrites data ws s i = data s i := by
  induction ws generalizing data with
  | nil => rfl
  | cons x ws ih =>
    have hx : ¬ (s = x.slot ∧ i = x.word) :=
      fun hc => h x (mem_cons_self ..) hc.1.symm
    calc applyWrites data (x :: ws) s i = applyWrites (applyWrite data x) ws s i := rfl
      _ = applyWrite data x s i := ih fun y hy => h y (mem_cons_of_mem _ hy)
      _ = data s i := if_neg hx

theorem applyWrites_congr (h : ∀ i, data s i = data' s i) :
    applyWrites data ws s i = applyWrites data' ws s i := by
  induction ws generalizing data data' with
  | nil => exact h i
  | cons x ws ih =>
    apply ih
    intro j
    unfold applyWrite
    rw [h j]

variable {x : Write} {size p : ℕ}

theorem slot_of_mem_writeWords (hx : x ∈ writeWords slot word vs) :
    x.slot = slot ∧ word ≤ x.word ∧ x.word < word + vs.length := by
  induction vs generalizing word with
  | nil => nomatch hx
  | cons v vs ih =>
    rcases mem_cons.mp hx with rfl | hx
    · simp
    · obtain ⟨hslot, hle, hlt⟩ := ih hx
      rw [length_cons]
      omega

theorem applyWrites_writeWords : applyWrites data (writeWords slot word vs) s i =
      if s = slot ∧ word ≤ i ∧ i < word + vs.length then vs.getD (i - word) 0 else data s i := by
  induction vs generalizing word data with
  | nil =>
    rw [if_neg (by simp)]
    rfl
  | cons v vs ih =>
    have hstep : applyWrites data (writeWords slot word (v :: vs)) s i =
        applyWrites (applyWrite data ⟨slot, word, v⟩) (writeWords slot (word + 1) vs) s i := rfl
    rw [hstep, ih, length_cons]
    by_cases hs : s = slot
    · by_cases hi : i = word
      · subst hs hi
        unfold applyWrite
        simp
      · by_cases hin : word + 1 ≤ i ∧ i < word + 1 + vs.length
        · rw [if_pos ⟨hs, hin⟩, if_pos (by omega)]
          obtain ⟨k, hk⟩ := Nat.exists_eq_add_of_le hin.1
          rw [show i - word = k + 1 by omega, show i - (word + 1) = k by omega, getD_cons_succ]
        · rw [if_neg fun hc => hin hc.2, if_neg (by omega)]
          unfold applyWrite
          rw [if_neg fun hc => hi hc.2]
    · rw [if_neg fun hc => hs hc.1, if_neg fun hc => hs hc.1]
      unfold applyWrite
      rw [if_neg fun hc => hs hc.1]

/-- The size of a queue is a power of two. -/
def IsSize (size : ℕ) : Prop := ∃ k, size = 2 ^ k

theorem IsSize.pos (h : IsSize size) : 0 < size := by
  obtain ⟨k, rfl⟩ := h
  exact Nat.two_pow_pos k

theorem IsSize.and_mask (h : IsSize size) (n : ℕ) : n &&& (size - 1) = n % size := by
  obtain ⟨k, rfl⟩ := h
  exact Nat.and_two_pow_sub_one_eq_mod n k

theorem eq_of_mod_eq {q : ℕ} (h : p % size = q % size) (hpq : p ≤ q) (hlt : q < p + size) :
    p = q := by
  have hdvd : size ∣ q - p := (Nat.modEq_iff_dvd' hpq).mp h
  have hzero := Nat.eq_zero_of_dvd_of_lt hdvd (by omega)
  omega

theorem mod_ne_of_window {h q : ℕ} (hp : h ≤ p) (hp' : p < h + size) (hq : h ≤ q)
    (hq' : q < h + size) (hpq : p ≠ q) : p % size ≠ q % size := by
  intro heq
  rcases Nat.le_total p q with hle | hle
  · exact hpq (eq_of_mod_eq heq hle (by omega))
  · exact hpq (eq_of_mod_eq heq.symm hle (by omega)).symm

variable {size n start : ℕ} {indices : List ℕ} {α : Type*}

theorem chunk_drop (l : List α) (j : ℕ) :
    chunk (l.drop HANDOFF_SLOT_INDICES) j = chunk l (j + 1) := by
  unfold chunk
  rw [drop_drop]
  ring_nf

theorem chunk_zero (l : List α) : chunk l 0 = l.take HANDOFF_SLOT_INDICES := by
  unfold chunk
  rw [Nat.zero_mul, drop_zero]

theorem length_chunk_le (l : List α) (j : ℕ) : (chunk l j).length ≤ HANDOFF_SLOT_INDICES := by
  unfold chunk
  rw [length_take]
  exact min_le_left ..

theorem slot_of_mem_restWrites (hsize : IsSize size)
    (hx : x ∈ restWrites (size - 1) n (p % size) indices) :
    ∃ j, j < n ∧ x.slot = (p + j) % size := by
  induction n generalizing p indices with
  | zero => nomatch hx
  | succ n ih =>
    rcases mem_append.mp hx with hx | hx
    · refine ⟨0, Nat.succ_pos n, ?_⟩
      split at hx
      · exact (slot_of_mem_writeWords hx).1
      · rcases mem_append.mp hx with hx | hx
        · exact (slot_of_mem_writeWords hx).1
        · exact (slot_of_mem_writeWords hx).1
    · rw [hsize.and_mask, Nat.mod_add_mod] at hx
      obtain ⟨j, hj, hslot⟩ := ih hx
      refine ⟨j + 1, by omega, ?_⟩
      rw [hslot]
      ring_nf

theorem restWrites_avoid (hsize : IsSize size) (hn : n < size)
    (hx : x ∈ restWrites (size - 1) n ((p + 1) % size) indices) : x.slot ≠ p % size := by
  intro heq
  obtain ⟨j, hj, hslot⟩ := slot_of_mem_restWrites hsize hx
  have := eq_of_mod_eq (p := p) (q := p + 1 + j) (heq.symm.trans hslot) (by omega) (by omega)
  omega

theorem getD_replicate_zero (n i : ℕ) : (replicate n 0).getD i 0 = 0 := by
  rw [getD_eq_getElem?_getD, getElem?_replicate]
  split
  · rfl
  · rfl

theorem applyWrites_slot (hi : i < HANDOFF_SLOT_INDICES) :
    applyWrites data (if HANDOFF_SLOT_INDICES ≤ indices.length then
      writeWords slot 0 (indices.take HANDOFF_SLOT_INDICES)
    else writeWords slot 0 (replicate HANDOFF_SLOT_INDICES 0) ++ writeWords slot 0 indices)
      slot i = (indices.take HANDOFF_SLOT_INDICES).getD i 0 := by
  split
  · next hlen =>
    rw [applyWrites_writeWords, if_pos]
    · rfl
    · rw [length_take]
      omega
  · next hlen =>
    rw [applyWrites_append, applyWrites_writeWords, take_of_length_le (by omega)]
    split
    · rfl
    · next hout =>
      rw [applyWrites_writeWords, if_pos (by rw [length_replicate]; omega),
        getD_replicate_zero, getD_eq_default indices _ (by omega)]

section

variable (hsize : IsSize size) {j : ℕ}
include hsize

theorem applyWrites_restWrites (hn : n ≤ size) (hj : j < n) (hi : i < HANDOFF_SLOT_INDICES) :
    applyWrites data (restWrites (size - 1) n (p % size) indices) ((p + j) % size) i =
      (chunk indices j).getD i 0 := by
  induction n generalizing p j indices data with
  | zero => exact absurd hj (Nat.not_lt_zero j)
  | succ n ih =>
    unfold restWrites
    rw [applyWrites_append, hsize.and_mask, Nat.mod_add_mod]
    cases j with
    | zero =>
      rw [applyWrites_of_slot_ne]
      · rw [Nat.add_zero, applyWrites_slot hi, chunk_zero]
      · exact fun x hx => restWrites_avoid hsize (by omega) hx
    | succ j =>
      have hpos : p + (j + 1) = p + 1 + j := by ring
      rw [hpos, ih (by omega) (by omega), chunk_drop]

theorem slot_of_mem_indexWrites (hn : 0 < n) (hx : x ∈ indexWrites (size - 1) n start indices) :
    (∃ j, j < n ∧ x.slot = (start + j) % size) ∧
      (n ≤ size → ¬ (x.slot = start % size ∧ x.word = 0)) := by
  unfold indexWrites at hx
  rw [hsize.and_mask] at hx
  rcases mem_append.mp hx with hx | hx
  · have hmem : ∃ vs, x ∈ writeWords (start % size) 1 vs := by
      rcases mem_append.mp hx with hx | hx
      · split at hx
        · exact ⟨_, hx⟩
        · nomatch hx
      · exact ⟨_, hx⟩
    obtain ⟨vs, hx⟩ := hmem
    obtain ⟨hslot, hword, -⟩ := slot_of_mem_writeWords hx
    refine ⟨⟨0, hn, hslot⟩, ?_⟩
    omega
  · rw [hsize.and_mask, Nat.mod_add_mod] at hx
    obtain ⟨j, hj, hslot⟩ := slot_of_mem_restWrites hsize hx
    refine ⟨⟨j + 1, by omega, ?_⟩, ?_⟩
    · rw [hslot]
      ring_nf
    · exact fun hle heq => restWrites_avoid hsize (by omega) hx heq.1

theorem applyWrites_indexWrites (hn : n ≤ size) (hj : j < n) (hi : i < HANDOFF_SLOT_INDICES)
    (hne : ¬ (j = 0 ∧ i = 0)) :
    applyWrites data (indexWrites (size - 1) n start indices) ((start + j) % size) i =
      (chunk indices j).getD i 0 := by
  unfold indexWrites
  rw [hsize.and_mask, applyWrites_append, hsize.and_mask, Nat.mod_add_mod]
  cases j with
  | zero =>
    rw [applyWrites_of_slot_ne]
    · rw [Nat.add_zero, applyWrites_append, applyWrites_writeWords, chunk_zero]
      have htake : indices.take (min indices.length HANDOFF_SLOT_INDICES) =
          indices.take HANDOFF_SLOT_INDICES := by
        rcases Nat.le_total indices.length HANDOFF_SLOT_INDICES with h | h
        · rw [min_eq_left h, take_length, take_of_length_le h]
        · rw [min_eq_right h]
      split
      · next hin =>
        rw [getD_eq_getElem?_getD, getElem?_drop]
        congr 2
        omega
      · next hout =>
        have hlen : indices.length ≤ i := by
          rw [length_drop, length_take] at hout
          omega
        rw [if_pos (by omega), applyWrites_writeWords,
          if_pos (by rw [length_replicate]; omega), getD_replicate_zero,
          getD_eq_default (take _ indices) _ (by rw [length_take]; omega)]
    · exact fun x hx => restWrites_avoid hsize (by omega) hx
  | succ j =>
    have hpos : start + (j + 1) = start + 1 + j := by ring
    rw [hpos, applyWrites_restWrites hsize (by omega) (by omega) hi]
    rcases Nat.le_total indices.length HANDOFF_SLOT_INDICES with h | h
    · rw [min_eq_left h, drop_length, ← chunk_drop, drop_eq_nil_of_le h]
    · rw [min_eq_right h, chunk_drop]

theorem slot_of_mem_auxWrites {aux : List ℕ} (hx : x ∈ auxWrites size n start aux) :
    ∃ j, j < n ∧ x.slot = size + (start + j) % size := by
  obtain ⟨j, hj, hx⟩ := mem_flatMap.mp hx
  refine ⟨j, mem_range.mp hj, ?_⟩
  rw [(slot_of_mem_writeWords hx).1, hsize.and_mask]

theorem applyWrites_auxWrites (hn : n ≤ size) {aux : List ℕ} (hj : j < n)
    (hi : i < (chunk aux j).length) :
    applyWrites data (auxWrites size n start aux) (size + (start + j) % size) i =
      (chunk aux j).getD i 0 := by
  induction n with
  | zero => exact absurd hj (Nat.not_lt_zero j)
  | succ n ih =>
    unfold auxWrites
    rw [range_succ, flatMap_append, applyWrites_append, flatMap_singleton,
      applyWrites_writeWords, hsize.and_mask]
    by_cases hjn : j = n
    · subst hjn
      rw [if_pos (by omega)]
      rfl
    · rw [if_neg]
      · exact ih (by omega) (by omega)
      · rintro ⟨heq, -⟩
        have := eq_of_mod_eq (Nat.add_left_cancel heq) (by omega) (by omega)
        omega

end

end Writing

end Handoff
