import Hammer.LinkedRing
import Hammer.TimerWheel
import Mathlib.Tactic

/-! # The linked lists of the timer wheel

`Linkage w L rest` says which timers every list head holds (`L`) and which live timers
are on no list at the moment (`rest`, the ones a running operation has in hand).
-/
namespace TimerWheel

open LinkedRing Function List

variable {T : Type} {g : Geometry}

def nextOf (w : Wheel T) (i : ℕ) : ℕ := (w.entries i).next
def prevOf (w : Wheel T) (i : ℕ) : ℕ := (w.entries i).prev

variable (w : Wheel T)

@[simp] theorem nextOf_setNext (i v : ℕ) :
    nextOf (setNext w i v) = Function.update (nextOf w) i v := by
  funext j; by_cases h : j = i <;> simp [nextOf, setNext, setEntry, h]

@[simp] theorem prevOf_setNext (i v : ℕ) : prevOf (setNext w i v) = prevOf w := by
  funext j; by_cases h : j = i <;> simp [prevOf, setNext, setEntry, h]

@[simp] theorem nextOf_setPrev (i v : ℕ) : nextOf (setPrev w i v) = nextOf w := by
  funext j; by_cases h : j = i <;> simp [nextOf, setPrev, setEntry, h]

@[simp] theorem prevOf_setPrev (i v : ℕ) :
    prevOf (setPrev w i v) = Function.update (prevOf w) i v := by
  funext j; by_cases h : j = i <;> simp [prevOf, setPrev, setEntry, h]

/-- What an entry says apart from its two pointers. -/
structure Body (T : Type) where
  payload : Option T
  live : Bool
  fastRingOffset : ℕ
  slowRingOffset : ℕ
  expirationTick : ℕ

def TimerEntry.body (e : TimerEntry T) : Body T :=
  ⟨e.payload, e.live, e.fastRingOffset, e.slowRingOffset, e.expirationTick⟩

/-- Only pointers (and the fast-slot bitmap) may differ. -/
structure SameBodies (w w' : Wheel T) : Prop where
  body : ∀ i, (w'.entries i).body = (w.entries i).body
  tick : w'.currentTick = w.currentTick
  index : w'.currentIndex = w.currentIndex
  overflowHead : w'.overflowHead = w.overflowHead
  entriesLen : w'.entriesLen = w.entriesLen
  free : w'.free = w.free
  len : w'.len = w.len
  maxExpirations : w'.maxExpirations = w.maxExpirations

theorem SameBodies.trans {u v w : Wheel T} (h : SameBodies u v) (k : SameBodies v w) :
    SameBodies u w :=
  ⟨fun i => (k.body i).trans (h.body i), k.tick.trans h.tick, k.index.trans h.index,
    k.overflowHead.trans h.overflowHead, k.entriesLen.trans h.entriesLen,
    k.free.trans h.free, k.len.trans h.len, k.maxExpirations.trans h.maxExpirations⟩

theorem sameBodies_setNext (i v : ℕ) : SameBodies w (setNext w i v) := by
  refine ⟨fun j => ?_, rfl, rfl, rfl, rfl, rfl, rfl, rfl⟩
  by_cases h : j = i <;> simp [setNext, setEntry, h, TimerEntry.body]

theorem sameBodies_setPrev (i v : ℕ) : SameBodies w (setPrev w i v) := by
  refine ⟨fun j => ?_, rfl, rfl, rfl, rfl, rfl, rfl, rfl⟩
  by_cases h : j = i <;> simp [setPrev, setEntry, h, TimerEntry.body]

theorem sameBodies_addToList (head slot : ℕ) : SameBodies w (addToList w head slot) :=
  (((sameBodies_setNext w _ _).trans (sameBodies_setPrev _ _ _)).trans
    (sameBodies_setPrev _ _ _)).trans (sameBodies_setNext _ _ _)

theorem sameBodies_detachEntry (slot : ℕ) : SameBodies w (detachEntry w slot) :=
  (sameBodies_setNext w _ _).trans (sameBodies_setPrev _ _ _)

theorem sameBodies_unlink (slot : ℕ) : SameBodies w (unlink w slot) :=
  ((sameBodies_setNext w _ _).trans (sameBodies_setPrev _ _ _)).trans (sameBodies_detachEntry _ _)

theorem sameBodies_takeList (head : ℕ) : SameBodies w (takeList w head).1 :=
  (sameBodies_setNext w _ _).trans (sameBodies_setPrev _ _ _)

theorem sameBodies_addToFastSlot (fastOffset slot : ℕ) :
    SameBodies w (addToFastSlot g w fastOffset slot) := by
  have h := sameBodies_addToList w (g.slotHead 0 fastOffset) slot
  unfold addToFastSlot
  split
  · exact { h with }
  · exact h

theorem nextOf_addToList (head slot : ℕ) : nextOf (addToList w head slot) =
      Function.update (Function.update (nextOf w) slot (nextOf w head)) head slot := by
  simp [addToList, nextOf]

theorem prevOf_addToList (head slot : ℕ) : prevOf (addToList w head slot) =
      Function.update (Function.update (prevOf w) slot head) (nextOf w head) slot := by
  simp [addToList, nextOf]

/-- The pointer part of the invariant. Timers sit above the list heads. -/
structure Linkage (g : Geometry) (w : Wheel T) (L : ℕ → List ℕ) (rest : List ℕ) : Prop where
  ring : ∀ h < g.headCount, Ring (nextOf w) (prevOf w) h (L h)
  unique : ∀ h < g.headCount, ∀ k < g.headCount, ∀ x, x ∈ L h → x ∈ L k → h = k
  apart : ∀ h < g.headCount, ∀ x ∈ L h, x ∉ rest
  restNodup : rest.Nodup
  live : ∀ x, (w.entries x).live = true ↔ x ∈ rest ∨ ∃ h < g.headCount, x ∈ L h
  range : ∀ x, (w.entries x).live = true → g.headCount ≤ x ∧ x < w.entriesLen
  payload : ∀ x, (w.entries x).live = true → (w.entries x).payload.isSome
  freeNodup : w.free.Nodup
  freeIff : ∀ x, x ∈ w.free ↔
    g.headCount ≤ x ∧ x < w.entriesLen ∧ (w.entries x).live = false
  count : w.len + w.free.length + g.headCount = w.entriesLen

variable {w} {w' : Wheel T}

theorem SameBodies.live (h : SameBodies w w') (x : ℕ) :
    (w'.entries x).live = (w.entries x).live := congrArg Body.live (h.body x)

theorem SameBodies.payload (h : SameBodies w w') (x : ℕ) :
    (w'.entries x).payload = (w.entries x).payload := congrArg Body.payload (h.body x)

theorem SameBodies.expirationTick (h : SameBodies w w') (x : ℕ) :
    (w'.entries x).expirationTick = (w.entries x).expirationTick :=
  congrArg Body.expirationTick (h.body x)

variable {L : ℕ → List ℕ} {rest : List ℕ} {head x : ℕ}

theorem Linkage.reshape {L' : ℕ → List ℕ} {rest' : List ℕ}
    (h : Linkage g w L rest) (hs : SameBodies w w')
    (ring : ∀ k < g.headCount, Ring (nextOf w') (prevOf w') k (L' k))
    (unique : ∀ h < g.headCount, ∀ k < g.headCount, ∀ x, x ∈ L' h → x ∈ L' k → h = k)
    (apart : ∀ h < g.headCount, ∀ x ∈ L' h, x ∉ rest') (nodup : rest'.Nodup)
    (live : ∀ x, (x ∈ rest ∨ ∃ k < g.headCount, x ∈ L k) ↔
      (x ∈ rest' ∨ ∃ k < g.headCount, x ∈ L' k)) : Linkage g w' L' rest' where
  ring := ring
  unique := unique
  apart := apart
  restNodup := nodup
  live x := by rw [hs.live, h.live, live]
  range x hx := by rw [hs.entriesLen]; exact h.range x (by rw [← hs.live]; exact hx)
  payload x hx := by rw [hs.payload]; exact h.payload x (by rw [← hs.live]; exact hx)
  freeNodup := by rw [hs.free]; exact h.freeNodup
  freeIff x := by rw [hs.free, hs.entriesLen, hs.live]; exact h.freeIff x
  count := by rw [hs.len, hs.free, hs.entriesLen]; exact h.count

theorem Linkage.headCount_le_of_mem (h : Linkage g w L rest) {k : ℕ} (hk : k < g.headCount)
    (hx : x ∈ L k) : g.headCount ≤ x := (h.range x ((h.live x).mpr (Or.inr ⟨k, hk, hx⟩))).1

theorem Linkage.headCount_le_of_rest (h : Linkage g w L rest) (hx : x ∈ rest) : g.headCount ≤ x :=
  (h.range x ((h.live x).mpr (Or.inl hx))).1

theorem Linkage.disjoint (h : Linkage g w L rest) {k : ℕ} (hk : k < g.headCount)
    (hh : head < g.headCount) (hkh : k ≠ head) (hx : x ∈ k :: L k) : x ∉ head :: L head := by
  intro hx'
  rcases mem_cons.mp hx with rfl | hx <;> rcases mem_cons.mp hx' with e | hx'
  · exact hkh e
  · have := h.headCount_le_of_mem hh hx'
    omega
  · have := h.headCount_le_of_mem hk hx
    omega
  · exact hkh (h.unique k hk head hh x hx hx')

variable {slot : ℕ}

theorem ne_of_unlisted (hslot : g.headCount ≤ slot) (hout : ∀ k < g.headCount, slot ∉ L k) {k : ℕ}
    (hk : k < g.headCount) (hx : x ∈ k :: L k) : x ≠ slot := by
  rintro rfl
  rcases mem_cons.mp hx with rfl | hx
  · omega
  · exact hout k hk hx

theorem mem_update {k : ℕ} {l : List ℕ} :
    x ∈ Function.update L head l k ↔ if k = head then x ∈ l else x ∈ L k := by
  rw [update_apply]
  split <;> rfl

theorem Linkage.addToList (h : Linkage g w L (slot :: rest)) (hh : head < g.headCount) :
    Linkage g (addToList w head slot) (Function.update L head (slot :: L head)) rest := by
  have hslot : g.headCount ≤ slot := h.headCount_le_of_rest (by simp)
  have hne : slot ≠ head := by omega
  have hfresh : ∀ k < g.headCount, slot ∉ L k := fun k hk hx => h.apart k hk slot hx (by simp)
  have hr : slot ∉ rest := (nodup_cons.mp h.restNodup).1
  have hfirst := (h.ring head hh).next_mem
  refine h.reshape (sameBodies_addToList w head slot) ?_ ?_ ?_ (nodup_cons.mp h.restNodup).2 ?_
  · intro k hk
    rw [nextOf_addToList, prevOf_addToList]
    by_cases hkh : k = head
    · subst hkh
      simp only [update_self]
      refine (h.ring k hk).insert ?_
      simp only [mem_cons, not_or]
      exact ⟨hne, hfresh k hk⟩
    · simp only [update_of_ne hkh]
      refine (h.ring k hk).congr (fun x hx => ?_) (fun x hx => ?_)
      · have h1 := ne_of_unlisted hslot hfresh hk hx
        have h2 : x ≠ head := fun e => h.disjoint hk hh hkh hx (by simp [e])
        simp [h1, h2]
      · have h1 := ne_of_unlisted hslot hfresh hk hx
        have h2 : x ≠ nextOf w head := fun e => h.disjoint hk hh hkh hx (e ▸ hfirst)
        simp [h1, h2]
  · intro a ha b hb x hxa hxb
    have hunique := h.unique a ha b hb x
    grind
  · intro a ha x hx hxr
    have hapart := h.apart a ha x
    grind
  · simp only [mem_update]
    grind

theorem nextOf_unlink (slot : ℕ) : nextOf (unlink w slot) =
      Function.update (Function.update (nextOf w) (prevOf w slot) (nextOf w slot))
        slot INVALID_INDEX := by
  simp [unlink, detachEntry, nextOf, prevOf]

theorem prevOf_unlink (slot : ℕ) : prevOf (unlink w slot) =
      Function.update (Function.update (prevOf w) (nextOf w slot) (prevOf w slot))
        slot INVALID_INDEX := by
  simp [unlink, detachEntry, nextOf, prevOf]

theorem Linkage.unlink {xs ys : List ℕ} (h : Linkage g w L rest) (hh : head < g.headCount)
    (hL : L head = xs ++ slot :: ys) :
    Linkage g (unlink w slot) (Function.update L head (xs ++ ys)) (slot :: rest) := by
  have hring := h.ring head hh
  rw [hL] at hring
  have hmem : slot ∈ L head := by simp [hL]
  obtain ⟨hnx, hpv⟩ := hring.neighbours
  have hnd : slot ∉ head :: (xs ++ ys) := by
    have := hring.2
    grind
  have hsub : ∀ k, ∀ x ∈ Function.update L head (xs ++ ys) k, x ∈ L k := by
    grind
  refine h.reshape (sameBodies_unlink w slot) ?_ ?_ ?_ ?_ ?_
  · intro k hk
    rw [nextOf_unlink, prevOf_unlink]
    by_cases hkh : k = head
    · subst hkh
      rw [update_self]
      refine hring.erase.congr (fun x hx => ?_) (fun x hx => ?_)
      all_goals
        have : x ≠ slot := fun e => hnd (e ▸ hx)
        simp [this]
    · rw [update_of_ne hkh]
      have hout := fun x => h.disjoint (x := x) hk hh hkh
      have hback : ∀ z ∈ head :: (xs ++ ys), z ∈ head :: L head := by
        grind
      refine (h.ring k hk).congr (fun x hx => ?_) (fun x hx => ?_)
      · have h1 : x ≠ slot := fun e => hout x hx (e ▸ by simp [hmem])
        have h2 : x ≠ prevOf w slot := fun e => hout x hx (e ▸ hback _ hpv)
        simp [h1, h2]
      · have h1 : x ≠ slot := fun e => hout x hx (e ▸ by simp [hmem])
        have h2 : x ≠ nextOf w slot := fun e => hout x hx (e ▸ hback _ hnx)
        simp [h1, h2]
  · intro a ha b hb x hxa hxb
    exact h.unique a ha b hb x (hsub a x hxa) (hsub b x hxb)
  · intro a ha x hx hxr
    rcases mem_cons.mp hxr with rfl | hxr
    · obtain rfl := h.unique a ha head hh x (hsub a x hx) hmem
      rw [update_self] at hx
      exact hnd (mem_cons_of_mem _ hx)
    · exact h.apart a ha x (hsub a x hx) hxr
  · refine nodup_cons.mpr ⟨fun hx => h.apart head hh slot hmem hx, h.restNodup⟩
  · intro x
    constructor
    · grind
    · rintro (hx | ⟨k, hk, hx⟩)
      · rcases mem_cons.mp hx with rfl | hx
        · exact Or.inr ⟨head, hh, hmem⟩
        · exact Or.inl hx
      · exact Or.inr ⟨k, hk, hsub k x hx⟩

theorem nextOf_takeList (head : ℕ) :
    nextOf (takeList w head).1 = Function.update (nextOf w) head head := by simp [takeList]

theorem prevOf_takeList (head : ℕ) :
    prevOf (takeList w head).1 = Function.update (prevOf w) head head := by simp [takeList]

theorem Linkage.takeList (h : Linkage g w L []) (hh : head < g.headCount) :
    Linkage g (takeList w head).1 (Function.update L head []) (L head) ∧
      Forward (nextOf (takeList w head).1) (takeList w head).2 (L head) head := by
  rw [nextOf_takeList]
  refine ⟨?_, (h.ring head hh).take.2⟩
  refine h.reshape (sameBodies_takeList w head) ?_ ?_ ?_ ?_ ?_
  · intro k hk
    rw [nextOf_takeList, prevOf_takeList]
    by_cases hkh : k = head
    · subst hkh
      rw [update_self]
      exact (h.ring k hk).take.1
    · rw [update_of_ne hkh]
      refine (h.ring k hk).congr (fun x hx => ?_) (fun x hx => ?_)
      all_goals
        have : x ≠ head := fun e => h.disjoint hk hh hkh hx (by simp [e])
        simp [this]
  · intro a ha b hb x hxa hxb
    have hunique := h.unique a ha b hb x
    grind
  · intro a ha x hx hxr
    have hunique := h.unique a ha head hh x
    grind
  · exact (nodup_cons.mp (h.ring head hh).2).2
  · simp only [not_mem_nil, false_or, mem_update]
    grind

section

variable (h : Linkage g w L rest) (hslot : slot ∈ rest)
include h hslot

theorem Linkage.ring_of_rest (hout : ∀ x, x ≠ slot → w'.entries x = w.entries x) :
    ∀ k < g.headCount, Ring (nextOf w') (prevOf w') k (L k) := by
  intro k hk
  have hne := fun x => ne_of_unlisted (x := x) (h.headCount_le_of_rest hslot)
    (fun k hk hx => h.apart k hk slot hx hslot) hk
  refine (h.ring k hk).congr (fun x hx => ?_) (fun x hx => ?_)
  · simp [nextOf, hout x (hne x hx)]
  · simp [prevOf, hout x (hne x hx)]

theorem Linkage.detachEntry : Linkage g (detachEntry w slot) L rest := by
  refine h.reshape (sameBodies_detachEntry w slot)
    (h.ring_of_rest hslot fun x hx => ?_) h.unique h.apart h.restNodup (fun _ => Iff.rfl)
  simp [TimerWheel.detachEntry, setPrev, setNext, setEntry, hx]

theorem Linkage.setEntry {e : TimerEntry T} (hl : e.live = (w.entries slot).live)
    (hp : e.payload = (w.entries slot).payload) : Linkage g (setEntry w slot e) L rest := by
  have hsame : ∀ x, ((TimerWheel.setEntry w slot e).entries x).live = (w.entries x).live ∧
      ((TimerWheel.setEntry w slot e).entries x).payload = (w.entries x).payload := by
    intro x
    by_cases hx : x = slot
    · subst hx
      simp [TimerWheel.setEntry, hl, hp]
    · simp [TimerWheel.setEntry, hx]
  refine ⟨h.ring_of_rest hslot fun x hx => ?_, h.unique, h.apart, h.restNodup, fun x => ?_,
    fun x => ?_, fun x => ?_, h.freeNodup, fun x => ?_, h.count⟩
  · simp [TimerWheel.setEntry, hx]
  · rw [(hsame x).1]
    exact h.live x
  · rw [(hsame x).1]
    exact h.range x
  · rw [(hsame x).1, (hsame x).2]
    exact h.payload x
  · rw [(hsame x).1]
    exact h.freeIff x

end

theorem Linkage.freeTimer (h : Linkage g w L (slot :: rest)) :
    Linkage g (freeTimer w slot) L rest := by
  have hlive : (w.entries slot).live = true := (h.live slot).mpr (Or.inl (by simp))
  obtain ⟨hlo, hhi⟩ := h.range slot hlive
  have hr := nodup_cons.mp h.restNodup
  have hfree : slot ∉ w.free := fun hx => by simp [((h.freeIff slot).mp hx).2.2] at hlive
  have hpos : 0 < w.len := by
    have hsub : w.free.toFinset ⊂ Finset.Ico g.headCount w.entriesLen := by
      refine (Finset.ssubset_iff_of_subset ?_).mpr ⟨slot, by simp [hlo, hhi], by simpa using hfree⟩
      intro x hx
      have := (h.freeIff x).mp (by simpa using hx)
      simp [this.1, this.2.1]
    have := Finset.card_lt_card hsub
    rw [toFinset_card_of_nodup h.freeNodup, Nat.card_Ico] at this
    have := h.count
    omega
  have hother (x : ℕ) (hx : x ≠ slot) : (TimerWheel.freeTimer w slot).entries x = w.entries x := by
    simp [TimerWheel.freeTimer, TimerWheel.setEntry, hx]
  have hdead : ((TimerWheel.freeTimer w slot).entries slot).live = false := by
    simp [TimerWheel.freeTimer, TimerWheel.setEntry]
  refine ⟨h.ring_of_rest (mem_cons_self ..) hother, h.unique,
    fun a ha x hx hxr => h.apart a ha x hx (by simp [hxr]), hr.2, fun x => ?_, fun x => ?_,
    fun x => ?_, nodup_cons.mpr ⟨hfree, h.freeNodup⟩, fun x => ?_, ?_⟩
  · by_cases hx : x = slot
    · subst hx
      simp only [hdead, Bool.false_eq_true, false_iff, not_or, not_exists, not_and]
      exact ⟨hr.1, fun k hk hx => h.apart k hk x hx (by simp)⟩
    · rw [hother x hx, h.live x]
      simp [hx]
  · by_cases hx : x = slot
    · simp [hx, hdead]
    · rw [hother x hx]
      exact h.range x
  · by_cases hx : x = slot
    · simp [hx, hdead]
    · rw [hother x hx]
      exact h.payload x
  · by_cases hx : x = slot
    · subst hx
      exact iff_of_true (mem_cons_self ..) ⟨hlo, hhi, hdead⟩
    · rw [hother x hx]
      exact (mem_cons.trans (or_iff_right hx)).trans (h.freeIff x)
  · have := h.count
    simp only [TimerWheel.freeTimer, TimerWheel.setEntry, length_cons]
    omega

theorem Linkage.acquire {e : TimerEntry T}
    (h : Linkage g w L []) (he : w'.entries = Function.update w.entries slot e)
    (hdead : (w.entries slot).live = false) (hlive : e.live = true)
    (hpay : e.payload.isSome) (hlo : g.headCount ≤ slot) (hhi : slot < w'.entriesLen)
    (hlen : w.entriesLen ≤ w'.entriesLen) (hfree : w'.free.Nodup) (hiff : ∀ x, x ∈ w'.free ↔
      g.headCount ≤ x ∧ x < w'.entriesLen ∧ (w'.entries x).live = false)
    (hcount : w'.len + w'.free.length + g.headCount = w'.entriesLen) :
    Linkage g w' L [slot] := by
  have hout : ∀ k < g.headCount, slot ∉ L k := by
    intro k hk hx
    simp [(h.live slot).mpr (Or.inr ⟨k, hk, hx⟩)] at hdead
  refine ⟨?_, h.unique, ?_, by simp, ?_, ?_, ?_, hfree, hiff, hcount⟩
  · intro k hk
    have hne := fun x => ne_of_unlisted (x := x) hlo hout hk
    refine (h.ring k hk).congr (fun x hx => ?_) (fun x hx => ?_)
    · simp [nextOf, he, hne x hx]
    · simp [prevOf, he, hne x hx]
  · intro a ha x hx hxr
    rw [mem_singleton] at hxr
    exact hout a ha (hxr ▸ hx)
  · intro x
    by_cases hx : x = slot
    · subst hx; simp [he, hlive]
    · rw [he, update_of_ne hx, h.live x]; simp [hx]
  · intro x hl
    by_cases hx : x = slot
    · subst hx; exact ⟨hlo, hhi⟩
    · rw [he, update_of_ne hx] at hl
      obtain ⟨h1, h2⟩ := h.range x hl
      exact ⟨h1, by omega⟩
  · intro x hl
    by_cases hx : x = slot
    · subst hx; simp [he, hpay]
    · rw [he, update_of_ne hx] at hl ⊢
      exact h.payload x hl

theorem Linkage.allocateTimer {p : T} {d : ℕ}
    (h : Linkage g w L []) (ha : allocateTimer w p d = some (w', slot)) :
    Linkage g w' L [slot] ∧ (w.entries slot).live = false ∧
      w'.entries = Function.update w.entries slot (.timer p d) ∧
      w'.currentTick = w.currentTick ∧ w'.currentIndex = w.currentIndex ∧
      w'.overflowHead = w.overflowHead ∧ w'.maxExpirations = w.maxExpirations := by
  unfold TimerWheel.allocateTimer at ha
  split at ha
  · rename_i s rest hf
    obtain ⟨rfl, rfl⟩ := by simpa using ha
    have hmem : s ∈ w.free := by simp [hf]
    obtain ⟨h1, h2, h3⟩ := (h.freeIff s).mp hmem
    have hnd := h.freeNodup
    rw [hf] at hnd
    refine ⟨h.acquire (e := .timer p d) rfl h3 rfl rfl h1 h2 le_rfl
      (nodup_cons.mp hnd).2 ?_ ?_, h3, rfl, rfl, rfl, rfl, rfl⟩
    · intro x
      by_cases hx : x = s
      · subst hx
        simp only [TimerWheel.setEntry, update_self, TimerEntry.timer, Bool.true_eq_false,
          and_false, iff_false]
        exact (nodup_cons.mp hnd).1
      · have := h.freeIff x
        rw [hf] at this
        simpa [TimerWheel.setEntry, hx] using this
    · have := h.count
      rw [hf] at this
      simp only [length_cons] at this
      simp only [TimerWheel.setEntry]
      omega
  · rename_i hf
    split at ha
    · obtain ⟨rfl, rfl⟩ := by simpa using ha
      have hcount := h.count
      have hdead : (w.entries w.entriesLen).live = false := by
        by_contra hl
        have := h.range w.entriesLen (by simpa using hl)
        omega
      have hlo : g.headCount ≤ w.entriesLen := by omega
      refine ⟨h.acquire (e := .timer p d) rfl hdead rfl rfl hlo (by simp) (by simp)
        (by simp [TimerWheel.setEntry, hf]) ?_ ?_, hdead, rfl, rfl, rfl, rfl, rfl⟩
      · intro x
        have hfree := h.freeIff x
        by_cases hx : x = w.entriesLen
        · subst hx; simp [TimerWheel.setEntry, hf, TimerEntry.timer]
        · simp only [TimerWheel.setEntry, hf, update_of_ne hx, not_mem_nil, false_iff,
            not_and, Bool.not_eq_false] at hfree ⊢
          intro h1 h2
          exact hfree h1 (by omega)
      · simp only [TimerWheel.setEntry, hf, length_nil] at hcount ⊢
        omega
    · simp at ha

end TimerWheel
