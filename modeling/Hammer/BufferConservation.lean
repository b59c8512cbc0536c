import Hammer.BufferPool
import Mathlib.Data.List.GetD
import Mathlib.Data.Multiset.OrderedMonoid

/-! # Conservation of buffer indices

Every index of a pool is in one place: in the shared list, in the cache of one thread, or with one
owner. Allocation and release move indices between these places.
-/

namespace Buffer

open Multiset BufferPool Option

namespace AllocState

variable {s : AllocState}

/-- All indices the loop can reach. -/
def stock (s : AllocState) : Multiset ℕ := s.free + s.indices.take s.cached + s.out

structure Fits (s : AllocState) : Prop where
  length : s.indices.length = BUFFER_THREAD_CACHE_HIGH_WATER
  cached : s.cached ≤ BUFFER_THREAD_CACHE_HIGH_WATER

theorem Fits.refill (h : s.Fits) : s.refill.Fits := by
  unfold AllocState.refill
  split
  · refine ⟨?_, ?_⟩
    · have := h.length
      simp only [List.length_append, List.length_drop]
      unfold BUFFER_THREAD_CACHE_HIGH_WATER BUFFER_THREAD_CACHE_BATCH at *
      omega
    · unfold BUFFER_THREAD_CACHE_HIGH_WATER BUFFER_THREAD_CACHE_BATCH
      dsimp only
      omega
  · exact h

theorem stock_refill : s.refill.stock = s.stock := by
  unfold refill
  split
  · next hzero =>
    have hcount :
        (s.free.drop (s.free.length - min s.free.length BUFFER_THREAD_CACHE_BATCH)).length =
        min s.free.length BUFFER_THREAD_CACHE_BATCH := by
      rw [List.length_drop]
      omega
    unfold stock
    rw [hzero, List.take_left' hcount]
    simp
  · rfl

theorem refill_available : s.refill.cached + s.refill.free.length = s.cached + s.free.length := by
  unfold refill
  split
  · simp only [List.length_take]
    omega
  · rfl

/-- A refill leaves the cache empty only when the shared list was empty as well. -/
theorem refill_dry (h : s.refill.cached = 0) : s.cached = 0 ∧ s.free = [] := by
  unfold refill at h
  split at h
  · next hzero =>
    refine ⟨hzero, List.length_eq_zero_iff.mp ?_⟩
    dsimp only at h
    unfold BUFFER_THREAD_CACHE_BATCH at h
    omega
  · next hne => exact absurd h hne

theorem Fits.take (h : s.Fits) : s.take.Fits := by
  refine ⟨h.length, ?_⟩
  have := h.cached
  unfold AllocState.take
  dsimp only
  omega

theorem stock_take (h : s.Fits) (hne : s.cached ≠ 0) : s.take.stock = s.stock := by
  obtain ⟨c, hc⟩ := Nat.exists_eq_succ_of_ne_zero hne
  have hlt : c < s.indices.length := by
    have := h.cached
    rw [h.length]
    omega
  unfold stock AllocState.take
  rw [hc, Nat.succ_sub_one, List.take_succ_eq_append_getElem hlt, List.getD_eq_getElem _ _ hlt,
    ← coe_add, ← coe_add]
  abel

theorem loop_spec (n : ℕ) (h : s.Fits) : (loop n s).1.Fits ∧ (loop n s).1.stock = s.stock ∧
      ((loop n s).2 = true ↔ n ≤ s.cached + s.free.length) ∧
      ((loop n s).2 = false → (loop n s).1.cached = 0) := by
  induction n generalizing s with
  | zero => exact ⟨h, rfl, by simp [loop], by simp [loop]⟩
  | succ n ih =>
    have havailable : s.refill.cached + s.refill.free.length = s.cached + s.free.length :=
      refill_available
    unfold loop
    split
    · next hdry =>
      refine ⟨h.refill, stock_refill, ?_, fun _ => hdry⟩
      obtain ⟨hzero, hfree⟩ := refill_dry hdry
      simp [hzero, hfree]
    · next hne =>
      obtain ⟨hfits, hstock, hfull, hdry⟩ := ih h.refill.take
      refine ⟨hfits, ?_, ?_, hdry⟩
      · rw [hstock, stock_take h.refill hne, stock_refill]
      · rw [hfull]
        unfold AllocState.take
        dsimp only
        omega

end AllocState

def BufferThreadCacheSlot.Fits (s : BufferThreadCacheSlot) : Prop :=
  s.indices.length = BUFFER_THREAD_CACHE_HIGH_WATER ∧
    s.cachedCount ≤ BUFFER_THREAD_CACHE_HIGH_WATER

variable {i : ℕ}

theorem sum_map_set {α : Type*} (f : α → Multiset ℕ) {l : List α} {a : α} (h : l[i]? = some a)
    (b : α) : ((l.set i b).map f).sum + f a = (l.map f).sum + f b := by
  induction l generalizing i with
  | nil => simp at h
  | cons x l ih =>
    cases i with
    | zero =>
      simp only [List.getElem?_cons_zero, some.injEq] at h
      subst h
      simp only [List.set_cons_zero, List.map_cons, List.sum_cons]
      abel
    | succ i =>
      simp only [List.set_cons_succ, List.map_cons, List.sum_cons, add_assoc, ih h]

namespace BufferPool

variable {p p' : BufferPool} {thread n index : ℕ} {out : List ℕ}

def idle (p : BufferPool) : Multiset ℕ :=
  p.free + (p.workers.map fun s => (s.cached : Multiset ℕ)).sum

structure Fits (p : BufferPool) : Prop where
  caches : ∀ s ∈ p.workers, s.Fits

theorem Fits.set (h : p.Fits) {slot : BufferThreadCacheSlot} (hs : slot.Fits) (free : List ℕ) :
    ({ p with free := free, workers := p.workers.set thread slot } : BufferPool).Fits := by
  refine ⟨fun s hmem => ?_⟩
  rcases List.mem_or_eq_of_mem_set hmem with hmem | rfl
  · exact h.caches s hmem
  · exact hs

theorem idle_set {slot : BufferThreadCacheSlot} (slot' : BufferThreadCacheSlot) (free : List ℕ)
    {a b : Multiset ℕ} (hs : p.workers[thread]? = some slot)
    (h : (free : Multiset ℕ) + slot'.cached + a = p.free + slot.cached + b) :
    ({ p with free := free, workers := p.workers.set thread slot' } : BufferPool).idle + a =
      p.idle + b := by
  have hsum := sum_map_set (fun s => (s.cached : Multiset ℕ)) hs slot'
  unfold idle
  refine add_right_cancel (b := (slot.cached : Multiset ℕ)) ?_
  calc _ = (free : Multiset ℕ) + a + (((p.workers.set thread slot').map fun s =>
          (s.cached : Multiset ℕ)).sum + slot.cached) := by abel
    _ = ((free : Multiset ℕ) + slot'.cached + a) + (p.workers.map fun s =>
          (s.cached : Multiset ℕ)).sum := by rw [hsum]; abel
    _ = _ := by rw [h]; abel

/-- What allocation hands out has left the pool, if the request was covered. -/
theorem allocIndices_spec (h : p.Fits) (ha : p.allocIndices thread n = some (p', out)) :
    p'.layout = p.layout ∧ p'.bufferCount = p.bufferCount ∧ (out : Multiset ℕ) ≤ p.idle ∧
      ((∀ slot, p.workers[thread]? = some slot →
          n ≤ slot.cachedCount + p.free.length ∨ slot.cachedCount = 0) →
        p'.Fits ∧ p'.idle + out = p.idle) := by
  obtain ⟨slot, hs, heq⟩ := map_eq_some_iff.mp ha
  obtain ⟨hpool, hout⟩ := Prod.mk.inj heq
  have hslot := h.caches slot (List.mem_of_getElem? hs)
  have hfits : AllocState.Fits ⟨p.free, slot.indices, slot.cachedCount, []⟩ :=
    ⟨hslot.1, hslot.2⟩
  obtain ⟨hfits', hstock, hfull, hdry⟩ := AllocState.loop_spec n hfits
  set r := AllocState.loop n ⟨p.free, slot.indices, slot.cachedCount, []⟩ with hr
  have hstock' : (r.1.free : Multiset ℕ) + r.1.indices.take r.1.cached + r.1.out =
      p.free + slot.cached := by
    rw [show (r.1.free : Multiset ℕ) + r.1.indices.take r.1.cached + r.1.out = r.1.stock from rfl,
      hstock]
    simp [AllocState.stock, BufferThreadCacheSlot.cached]
  subst hpool hout
  refine ⟨rfl, rfl, ?_, ?_⟩
  · have hle : (slot.cached : Multiset ℕ) ≤ (p.workers.map fun s => (s.cached : Multiset ℕ)).sum :=
      List.single_le_sum (fun _ _ => zero_le _) _
        (List.mem_map.mpr ⟨slot, List.mem_of_getElem? hs, rfl⟩)
    calc (r.1.out : Multiset ℕ) ≤ r.1.free + r.1.indices.take r.1.cached + r.1.out :=
          le_add_left _ _
      _ = p.free + slot.cached := hstock'
      _ ≤ p.idle := by
        unfold idle
        gcongr
  · intro hcovers
    have hcount : (if r.2 then r.1.cached else slot.cachedCount) = r.1.cached := by
      split
      · rfl
      · next hne =>
        have hfalse : r.2 = false := by simpa using hne
        rcases hcovers slot hs with hle | hzero
        · exact absurd (hfull.mpr hle) hne
        · rw [hzero, hdry hfalse]
    rw [hcount]
    refine ⟨h.set ⟨hfits'.length, hfits'.cached⟩ _, ?_⟩
    have := idle_set ⟨r.1.cached, r.1.indices⟩ r.1.free hs (hstock'.trans (add_zero _).symm)
    rwa [add_zero] at this

theorem take_set_succ {l : List ℕ} {c : ℕ} (h : c < l.length) (a : ℕ) :
    (l.set c a).take (c + 1) = l.take c ++ [a] := by
  rw [List.take_succ_eq_append_getElem (by simpa using h), List.take_set_of_le (le_refl c)]
  simp

theorem release_spec (h : p.Fits) (hr : p.release thread index = some p') :
    p'.layout = p.layout ∧ p'.bufferCount = p.bufferCount ∧ p'.Fits ∧
      p'.idle = p.idle + {index} := by
  obtain ⟨slot, hs, heq⟩ := map_eq_some_iff.mp hr
  obtain ⟨hlen, hcount⟩ := h.caches slot (List.mem_of_getElem? hs)
  split at heq
  · next hfull =>
    subst heq
    have hlt : slot.cachedCount - BUFFER_THREAD_CACHE_BATCH < slot.indices.length := by
      rw [hfull, hlen]
      decide
    refine ⟨rfl, rfl, h.set ⟨by simp [hlen], ?_⟩ _, ?_⟩
    · dsimp only
      rw [hfull]
      decide
    · have hcut := List.take_append_drop (slot.cachedCount - BUFFER_THREAD_CACHE_BATCH)
        (slot.indices.take slot.cachedCount)
      rw [List.take_take, min_eq_left (Nat.sub_le _ _)] at hcut
      rw [← add_zero (idle _)]
      refine idle_set _ _ hs ?_
      unfold BufferThreadCacheSlot.cached
      conv_rhs => rw [← hcut]
      rw [take_set_succ hlt, ← coe_add, ← coe_add, ← coe_add]
      abel
  · next hne =>
    subst heq
    have hlt : slot.cachedCount < slot.indices.length := by omega
    refine ⟨rfl, rfl, h.set ⟨by simp [hlen], by dsimp only; omega⟩ _, ?_⟩
    rw [← add_zero (idle _)]
    refine idle_set _ _ hs ?_
    unfold BufferThreadCacheSlot.cached
    rw [take_set_succ hlt, ← coe_add]
    abel

end BufferPool

namespace BufferMain

variable {m m' : BufferMain} {k thread index : ℕ}

def liveIn (m : BufferMain) (k : ℕ) : Multiset ℕ :=
  (m.live : Multiset ℕ).filter fun i => m.pool i = some k

/-- What every covered run keeps. -/
structure Sound (m : BufferMain) : Prop where
  placed : Placed m.bufferMemStart m.bufferMemSize m.layouts
  fits : ∀ p ∈ m.pools, p.Fits
  count : ∀ p ∈ m.pools, p.bufferCount = (p.layout.slots m.bufferMemStart).length
  balance : ∀ k p, m.pools[k]? = some p →
    p.idle + m.liveIn k = (p.layout.slots m.bufferMemStart : Multiset ℕ)
  owned : ∀ i ∈ m.live, m.pool i ≠ none

variable {p : BufferPool} {out : List ℕ} {n : ℕ}

section

variable (h : m.Sound) (hp : m.pools[k]? = some p)
include h hp

theorem Sound.pool_iff : m.pool i = some k ↔ i ∈ p.layout.slots m.bufferMemStart := by
  unfold pool
  rw [h.placed.poolOf_eq_some_iff]
  unfold layouts
  rw [List.getElem?_map, hp]
  simp

theorem Sound.slots_nodup : (p.layout.slots m.bufferMemStart).Nodup :=
  h.placed.slots_nodup (List.mem_map.mpr ⟨p, List.mem_of_getElem? hp, rfl⟩)

theorem Sound.mem_slots_of_idle (hi : i ∈ p.idle) : i ∈ p.layout.slots m.bufferMemStart := by
  rw [← mem_coe, ← h.balance k p hp]
  exact mem_add.mpr (Or.inl hi)

theorem Sound.not_live_of_idle (hi : i ∈ p.idle) : i ∉ m.live := by
  intro hlive
  have hnodup : (p.idle + m.liveIn k).Nodup := by
    rw [h.balance k p hp]
    exact coe_nodup.mpr (h.slots_nodup hp)
  have hk := (h.pool_iff hp).mpr (h.mem_slots_of_idle hp hi)
  exact (disjoint_left.mp (nodup_add.mp hnodup).2.2) hi (mem_filter.mpr ⟨mem_coe.mpr hlive, hk⟩)

end

theorem layouts_set {p p' : BufferPool} (hp : m.pools[k]? = some p) (hl : p'.layout = p.layout) :
    (m.pools.set k p').map (·.layout) = m.pools.map (·.layout) := by
  obtain ⟨hk, rfl⟩ := List.getElem?_eq_some_iff.mp hp
  rw [List.map_set, hl]
  apply List.ext_getElem?
  intro j
  rw [List.getElem?_set]
  split
  · next hj =>
    subst hj
    simp [hk]
  · rfl

/-- An operation on one pool that moves indices between the pool and the owners. -/
theorem Sound.update (h : m.Sound) {p p' : BufferPool} {live : List ℕ} {headers : ℕ → Header}
    (hp : m.pools[k]? = some p) (hl : p'.layout = p.layout) (hc : p'.bufferCount = p.bufferCount)
    (hf : p'.Fits) {a b : Multiset ℕ} (ha : ∀ i ∈ a, m.pool i = some k)
    (hb : ∀ i ∈ b, m.pool i = some k) (hlive : (live : Multiset ℕ) + b = (m.live : Multiset ℕ) + a)
    (hidle : p'.idle + a = p.idle + b) :
    Sound { m with pools := m.pools.set k p', headers := headers, live := live } := by
  set m' : BufferMain := { m with pools := m.pools.set k p', headers := headers, live := live }
    with hm'
  have hlayouts : m'.layouts = m.layouts := layouts_set hp hl
  have hpool : ∀ i, m'.pool i = m.pool i := by
    intro i
    unfold pool
    rw [hlayouts]
  have hlivein : ∀ j, m'.liveIn j + b.filter (fun i => m.pool i = some j) =
      m.liveIn j + a.filter (fun i => m.pool i = some j) := by
    intro j
    unfold liveIn
    simp only [hpool]
    rw [← filter_add, ← filter_add]
    exact congrArg _ hlive
  refine ⟨?_, ?_, ?_, ?_, ?_⟩
  · rw [hlayouts]
    exact h.placed
  · intro q hq
    rcases List.mem_or_eq_of_mem_set hq with hq | rfl
    · exact h.fits q hq
    · exact hf
  · intro q hq
    rcases List.mem_or_eq_of_mem_set hq with hq | rfl
    · exact h.count q hq
    · rw [hc, hl]
      exact h.count p (List.mem_of_getElem? hp)
  · intro j q hq
    have hj := hlivein j
    rw [List.getElem?_set] at hq
    split at hq
    · next hjk =>
      subst hjk
      split at hq
      · cases hq
        rw [filter_eq_self.mpr ha, filter_eq_self.mpr hb] at hj
        rw [hl, ← h.balance k p hp]
        refine add_right_cancel (b := a + b) ?_
        calc p'.idle + m'.liveIn k + (a + b) = (p'.idle + a) + (m'.liveIn k + b) := by abel
          _ = p.idle + m.liveIn k + (a + b) := by rw [hidle, hj]; abel
      · cases hq
    · next hjk =>
      have hnone : ∀ c : Multiset ℕ, (∀ i ∈ c, m.pool i = some k) →
          c.filter (fun i => m.pool i = some j) = 0 := by
        intro c hc
        apply filter_eq_nil.mpr
        intro i hi hij
        rw [hc i hi] at hij
        exact hjk (some.inj hij)
      rw [hnone a ha, hnone b hb, add_zero, add_zero] at hj
      rw [hj]
      exact h.balance j q hq
  · intro i hi
    rw [hpool]
    have hmem : i ∈ (m.live : Multiset ℕ) + a := by
      rw [← hlive]
      exact mem_add.mpr (Or.inl (mem_coe.mpr hi))
    rcases mem_add.mp hmem with hi | hi
    · exact h.owned i (mem_coe.mp hi)
    · simp [ha i hi]

theorem Sound.setHeader (h : m.Sound) (i : ℕ) (header : Header) : (m.setHeader i header).Sound :=
  { h with }

theorem allocFromPool_cases (ha : m.allocFromPool thread k n = some (m', out)) :
    ∃ p p', m.pools[k]? = some p ∧ p.allocIndices thread n = some (p', out) ∧ m' = { m with
        pools := m.pools.set k p'
        headers := fun i => if i ∈ out then .template else m.headers i
        live := m.live ++ out } := by
  unfold allocFromPool at ha
  simp only [bind_eq_bind, bind_eq_some_iff, Option.pure_def, some.injEq] at ha
  obtain ⟨p, hp, r, hr, heq⟩ := ha
  obtain ⟨rfl, rfl⟩ := Prod.mk.inj heq
  exact ⟨p, r.1, hp, hr, rfl⟩

theorem Sound.alloc (h : m.Sound) (hcovers : m.Covers (.alloc thread k n))
    (ha : m.allocFromPool thread k n = some (m', out)) : m'.Sound := by
  obtain ⟨p, p', hp, hr, rfl⟩ := allocFromPool_cases ha
  obtain ⟨hl, hc, hout, hdone⟩ :=
    allocIndices_spec (h.fits p (List.mem_of_getElem? hp)) hr
  obtain ⟨hf, hidle⟩ := hdone fun slot hs => hcovers p slot hp hs
  refine h.update hp hl hc hf (a := (out : Multiset ℕ)) (b := 0) ?_ ?_ ?_ ?_
  · intro i hi
    exact (h.pool_iff hp).mpr (h.mem_slots_of_idle hp (mem_of_le hout hi))
  · intro i hi
    exact absurd hi (notMem_zero i)
  · rw [add_zero, coe_add]
  · rw [add_zero, hidle]

theorem Sound.alloc_fresh (h : m.Sound) (ha : m.allocFromPool thread k n = some (m', out)) :
    out.Nodup ∧ ∀ i ∈ out, i ∉ m.live := by
  obtain ⟨p, p', hp, hr, -⟩ := allocFromPool_cases ha
  obtain ⟨-, -, hout, -⟩ := allocIndices_spec (h.fits p (List.mem_of_getElem? hp)) hr
  have hle : (out : Multiset ℕ) ≤ (p.layout.slots m.bufferMemStart : Multiset ℕ) := by
    rw [← h.balance k p hp]
    exact hout.trans (le_add_right _ _)
  refine ⟨?_, fun i hi => ?_⟩
  · exact coe_nodup.mp (nodup_of_le hle (coe_nodup.mpr (h.slots_nodup hp)))
  · exact h.not_live_of_idle hp (mem_of_le hout (mem_coe.mpr hi))

theorem dropReference_cases (hd : m.dropReference thread index = some m') : index ∈ m.live ∧
      ((∃ k p p', m.pool index = some k ∧ m.pools[k]? = some p ∧
          p.release thread index = some p' ∧ (m.headers index).refCount = 1 ∧
          m' = { m.setHeader index .template with
            pools := m.pools.set k p', live := m.live.erase index }) ∨
        ((m.headers index).refCount ≠ 0 ∧ m' = m.setHeader index
          { m.headers index with refCount := (m.headers index).refCount - 1 })) := by
  unfold dropReference at hd
  simp only [bind_eq_bind, bind_eq_some_iff, Option.pure_def] at hd
  obtain ⟨k, hk, p, hp, _, hguard, hd⟩ := hd
  obtain ⟨hlive, hrefs⟩ := (guard_eq_some' ..).mp hguard
  refine ⟨hlive, ?_⟩
  split at hd
  · next hone =>
    obtain ⟨p', hr, heq⟩ := bind_eq_some_iff.mp hd
    exact Or.inl ⟨k, p, p', hk, hp, hr, hone, (some.inj heq).symm⟩
  · exact Or.inr ⟨hrefs, (some.inj hd).symm⟩

theorem Sound.dropReference (h : m.Sound) (hd : m.dropReference thread index = some m') :
    m'.Sound := by
  obtain ⟨hlive, ⟨k, p, p', hk, hp, hr, -, rfl⟩ | ⟨-, rfl⟩⟩ := dropReference_cases hd
  · obtain ⟨hl, hc, hf, hidle⟩ := release_spec (h.fits p (List.mem_of_getElem? hp)) hr
    refine h.update hp hl hc hf (a := 0) (b := {index}) ?_ ?_ ?_ ?_
    · intro i hi
      exact absurd hi (notMem_zero i)
    · intro i hi
      rw [mem_singleton.mp hi]
      exact hk
    · rw [add_zero, add_comm]
      exact cons_erase (mem_coe.mpr hlive)
    · rw [add_zero, hidle]
  · exact h.setHeader _ _

theorem Sound.freeChain (followNext : Bool) (fuel : ℕ) (current : Option ℕ) (h : m.Sound)
    (hd : freeChain thread followNext fuel m current = some m') : m'.Sound := by
  induction fuel generalizing m current with
  | zero =>
    cases current with
    | none => exact some.inj hd ▸ h
    | some index => nomatch hd
  | succ fuel ih =>
    cases current with
    | none => exact some.inj hd ▸ h
    | some index =>
      obtain ⟨m1, h1, hrest⟩ := bind_eq_some_iff.mp hd
      exact ih _ (h.dropReference h1) hrest

theorem Sound.freeBuffers {indices : List ℕ} {followNext : Bool} (h : m.Sound)
    (hd : m.freeBuffers thread indices followNext = some m') : m'.Sound := by
  induction indices generalizing m with
  | nil => exact some.inj hd ▸ h
  | cons i indices ih =>
    obtain ⟨m1, h1, hrest⟩ := bind_eq_some_iff.mp hd
    exact ih (h.freeChain followNext _ _ h1) hrest

theorem Sound.step {e : Event} (h : m.Sound) (hcovers : m.Covers e) (hs : m.step e = some m') :
    m'.Sound := by
  cases e with
  | alloc thread k n =>
    obtain ⟨r, hr, rfl⟩ := map_eq_some_iff.mp hs
    exact h.alloc hcovers hr
  | free thread indices followNext => exact h.freeBuffers hs
  | chain index next | retain index =>
    simp only [BufferMain.step] at hs
    split at hs
    · exact some.inj hs ▸ h.setHeader _ _
    · nomatch hs

end BufferMain

/-- What physical memory gives: pages of cache lines, and mappings that do not overlap. -/
structure Established (maps : List PhysmemMap) : Prop where
  page : ∀ m ∈ maps, BUFFER_CACHE_LINE_SIZE ∣ m.pageSize ∧ m.pageSize ∣ m.base
  apart : maps.Pairwise fun a b => a.stop ≤ b.base ∨ b.stop ≤ a.base

theorem allocationSize_spec (bufferSize dataSize : ℕ) : 0 < allocationSize bufferSize dataSize ∧
      BUFFER_CACHE_LINE_SIZE ∣ allocationSize bufferSize dataSize := by
  refine ⟨Nat.mul_pos ?_ (by decide), Nat.dvd_mul_left _ _⟩
  split
  · exact Nat.succ_pos _
  · next hodd =>
    apply Nat.pos_of_ne_zero
    intro hzero
    exact hodd (by rw [hzero])

namespace BufferMain

variable {m : BufferMain} {bufferSize dataSize workerCount : ℕ} {maps : List PhysmemMap}

theorem init_cases (h : init bufferSize dataSize workerCount maps = .ok m) :
    ∃ start stop, (maps.map (·.base)).min? = some start ∧ (maps.map (·.stop)).max? = some stop ∧
      stop - start ≤ MAX_BUFFER_MEMORY ∧
      m = ⟨start, stop - start, maps.map fun x => new start (workerCount + 1)
        ⟨x, allocationSize bufferSize dataSize⟩, fun _ => .template, []⟩ := by
  unfold init at h
  split at h
  · nomatch h
  split at h
  · nomatch h
  next hne =>
  dsimp only at h
  split at h
  · nomatch h
  split at h
  · nomatch h
  next hspan =>
  split at h
  · nomatch h
  have hmaps : maps ≠ [] := fun hnil => hne (Or.inl hnil)
  cases hmin : (maps.map (·.base)).min? with
  | none => exact absurd (List.map_eq_nil_iff.mp (List.min?_eq_none_iff.mp hmin)) hmaps
  | some start =>
    cases hmax : (maps.map (·.stop)).max? with
    | none => exact absurd (List.map_eq_nil_iff.mp (List.max?_eq_none_iff.mp hmax)) hmaps
    | some stop =>
      rw [hmin, hmax] at h hspan
      exact ⟨start, stop, rfl, rfl, Nat.le_of_not_lt hspan, (Except.ok.inj h).symm⟩

theorem init_sound (he : Established maps)
    (h : init bufferSize dataSize workerCount maps = .ok m) : m.Sound := by
  obtain ⟨start, stop, hmin, hmax, hspan, rfl⟩ := init_cases h
  obtain ⟨hpos, hdvd⟩ := allocationSize_spec bufferSize dataSize
  obtain ⟨hstart, hleast⟩ := List.min?_eq_some_iff.mp hmin
  obtain ⟨-, hgreatest⟩ := List.max?_eq_some_iff.mp hmax
  have halign : ∀ x ∈ maps, BUFFER_CACHE_LINE_SIZE ∣ x.base := fun x hx =>
    (he.page x hx).1.trans (he.page x hx).2
  refine ⟨?_, ?_, ?_, ?_, ?_⟩
  · have hlayouts : ∀ l ∈ (maps.map fun x => new start (workerCount + 1)
        ⟨x, allocationSize bufferSize dataSize⟩).map (·.layout), ∃ x ∈ maps,
          l = ⟨x, allocationSize bufferSize dataSize⟩ := by
      intro l hl
      rw [List.map_map] at hl
      obtain ⟨x, hx, rfl⟩ := List.mem_map.mp hl
      exact ⟨x, hx, rfl⟩
    refine ⟨hspan, ?_, ?_, ?_, ?_, ?_⟩
    · obtain ⟨x, hx, rfl⟩ := List.mem_map.mp hstart
      exact halign x hx
    · intro l hl
      obtain ⟨x, hx, rfl⟩ := hlayouts l hl
      exact hpos
    · intro l hl
      obtain ⟨x, hx, rfl⟩ := hlayouts l hl
      exact ⟨halign x hx, hdvd⟩
    · intro l hl
      obtain ⟨x, hx, rfl⟩ := hlayouts l hl
      have hlow := hleast x.base (List.mem_map.mpr ⟨x, hx, rfl⟩)
      have hhigh := hgreatest x.stop (List.mem_map.mpr ⟨x, hx, rfl⟩)
      dsimp only
      omega
    · unfold layouts
      rw [List.map_map]
      exact List.Pairwise.map _ (fun _ _ hab => hab) he.apart
  · intro p hp
    obtain ⟨x, -, rfl⟩ := List.mem_map.mp hp
    refine ⟨fun s hs => ?_⟩
    rw [List.eq_of_mem_replicate hs]
    exact ⟨List.length_replicate, Nat.zero_le _⟩
  · intro p hp
    obtain ⟨x, -, rfl⟩ := List.mem_map.mp hp
    rfl
  · intro k p hp
    obtain ⟨x, -, rfl⟩ := List.mem_map.mp (List.mem_of_getElem? hp)
    have hcaches : ((new start (workerCount + 1) ⟨x, allocationSize bufferSize
        dataSize⟩).workers.map fun s => (s.cached : Multiset ℕ)).sum = 0 := by
      apply List.sum_eq_zero
      intro c hc
      obtain ⟨s, hs, rfl⟩ := List.mem_map.mp hc
      rw [List.eq_of_mem_replicate hs]
      rfl
    unfold idle
    rw [hcaches, add_zero]
    exact add_zero _
  · intro i hi
    nomatch hi

/-- Each index of a pool is in one place, the places hold nothing else, and the reading of the
gauges adds up. -/
structure Conserved (m : BufferMain) : Prop where
  once : ∀ (k : ℕ) (p : BufferPool), m.pools[k]? = some p → ∀ i ∈ p.layout.slots m.bufferMemStart,
    p.free.count i + (p.workers.map fun s => s.cached.count i).sum + m.live.count i = 1
  free : ∀ (k : ℕ) (p : BufferPool), m.pools[k]? = some p → ∀ i ∈ p.free,
    i ∈ p.layout.slots m.bufferMemStart
  cached : ∀ (k : ℕ) (p : BufferPool), m.pools[k]? = some p → ∀ s ∈ p.workers, ∀ i ∈ s.cached,
    i ∈ p.layout.slots m.bufferMemStart
  live : ∀ i ∈ m.live, ∃ (k : ℕ) (p : BufferPool), m.pools[k]? = some p ∧
    i ∈ p.layout.slots m.bufferMemStart
  usage : ∀ (k : ℕ) (p : BufferPool) (u : BufferPoolUsage), m.pools[k]? = some p →
    m.poolUsage k = some u →
    u.available + u.cached +
      (m.live.filter fun i => decide (i ∈ p.layout.slots m.bufferMemStart)).length =
        u.bufferCount

theorem Sound.mem_idle {p : BufferPool} (hi : i ∈ p.free ∨ ∃ s ∈ p.workers, i ∈ s.cached) :
    i ∈ p.idle := by
  rcases hi with hi | ⟨s, hs, hi⟩
  · exact mem_add.mpr (Or.inl (mem_coe.mpr hi))
  · refine mem_add.mpr (Or.inr ?_)
    have hle : (s.cached : Multiset ℕ) ≤ (p.workers.map fun s => (s.cached : Multiset ℕ)).sum :=
      List.single_le_sum (fun _ _ => zero_le _) _ (List.mem_map.mpr ⟨s, hs, rfl⟩)
    exact mem_of_le hle (mem_coe.mpr hi)

theorem count_idle (p : BufferPool) (i : ℕ) :
    p.idle.count i = p.free.count i + (p.workers.map fun s => s.cached.count i).sum := by
  have hsum : ∀ l : List BufferThreadCacheSlot,
      ((l.map fun s => (s.cached : Multiset ℕ)).sum).count i =
        (l.map fun s => s.cached.count i).sum := by
    intro l
    induction l with
    | nil => rfl
    | cons s l ih => simp [ih]
  unfold idle
  rw [count_add, coe_count, hsum]

theorem card_idle {p : BufferPool} (h : p.Fits) :
    card p.idle = p.usage.available + p.usage.cached := by
  have hsum : ∀ l : List BufferThreadCacheSlot, (∀ s ∈ l, s.Fits) →
      card (l.map fun s => (s.cached : Multiset ℕ)).sum = (l.map (·.cachedCount)).sum := by
    intro l hl
    induction l with
    | nil => rfl
    | cons s l ih =>
      have hs : s.cached.length = s.cachedCount := by
        have := hl s (List.mem_cons_self ..)
        unfold BufferThreadCacheSlot.cached
        rw [List.length_take, this.1, min_eq_left this.2]
      simp [hs, ih fun s hs => hl s (List.mem_cons_of_mem _ hs)]
  unfold idle
  rw [card_add, hsum p.workers h.caches]
  rfl

theorem Sound.conserved (h : m.Sound) : m.Conserved := by
  refine ⟨?_, ?_, ?_, ?_, ?_⟩
  · intro k p hp i hi
    have hcount := congrArg (Multiset.count i) (h.balance k p hp)
    have hlive : (m.liveIn k).count i = m.live.count i := by
      unfold liveIn
      rw [Multiset.count_filter, if_pos ((h.pool_iff hp).mpr hi), Multiset.coe_count]
    rw [Multiset.count_add, hlive, count_idle, Multiset.coe_count,
      List.count_eq_one_of_mem (h.slots_nodup hp) hi] at hcount
    exact hcount
  · intro k p hp i hi
    exact h.mem_slots_of_idle hp (Sound.mem_idle (Or.inl hi))
  · intro k p hp s hs i hi
    exact h.mem_slots_of_idle hp (Sound.mem_idle (Or.inr ⟨s, hs, hi⟩))
  · intro i hi
    obtain ⟨k, hk⟩ := ne_none_iff_exists'.mp (h.owned i hi)
    obtain ⟨l, hl, -⟩ := h.placed.poolOf_eq_some_iff.mp hk
    unfold layouts at hl
    rw [List.getElem?_map] at hl
    obtain ⟨p, hp, -⟩ := map_eq_some_iff.mp hl
    exact ⟨k, p, hp, (h.pool_iff hp).mp hk⟩
  · intro k p u hp hu
    unfold poolUsage at hu
    rw [hp] at hu
    obtain rfl : p.usage = u := some.inj hu
    have hcard := congrArg Multiset.card (h.balance k p hp)
    have hlive : Multiset.card (m.liveIn k) =
        (m.live.filter fun i => decide (i ∈ p.layout.slots m.bufferMemStart)).length := by
      unfold liveIn
      simp only [h.pool_iff hp]
      rfl
    rw [Multiset.card_add, hlive, card_idle (h.fits p (List.mem_of_getElem? hp)),
      Multiset.coe_card, ← h.count p (List.mem_of_getElem? hp)] at hcard
    exact hcard

theorem Reaches.sound {m₀ : BufferMain} (h0 : m₀.Sound) (h : Reaches m₀ m) : m.Sound := by
  induction h with
  | init => exact h0
  | step _ hcovers hs ih => exact ih.step hcovers hs

/-- In every run of allocations and releases whose requests are covered, every buffer index is in
one place, and no index is handed out while it has an owner. -/
theorem buffers_conserved {m₀ : BufferMain} (he : Established maps)
    (hinit : init bufferSize dataSize workerCount maps = .ok m₀) (h : Reaches m₀ m) :
    m.Conserved ∧ ∀ thread k n m' out, m.allocFromPool thread k n = some (m', out) →
      out.Nodup ∧ ∀ i ∈ out, i ∉ m.live :=
  have hsound := h.sound (init_sound he hinit)
  ⟨hsound.conserved, fun _ _ _ _ _ ha => hsound.alloc_fresh ha⟩

def smallMap : PhysmemMap := ⟨4096, 4096, 4096⟩

def smallMain : BufferMain :=
  ⟨4096, 4096, [BufferPool.new 4096 1 ⟨smallMap, 1088⟩], fun _ => .template, []⟩

theorem init_smallMap : init 256 800 0 [smallMap] = .ok smallMain := rfl

theorem established_smallMap : Established [smallMap] :=
  ⟨by simp [smallMap, BUFFER_CACHE_LINE_SIZE], List.pairwise_singleton _ _⟩

theorem buffers_conserved_two_of_three :
    ∃ m, smallMain.step (.alloc 0 0 2) = some m ∧ m.live = [38, 21] ∧ m.Conserved ∧
      ∀ thread k n m' out, m.allocFromPool thread k n = some (m', out) →
        out.Nodup ∧ ∀ i ∈ out, i ∉ m.live := by
  have hcovers : smallMain.Covers (.alloc 0 0 2) := by
    rintro p slot hp hs
    obtain rfl : BufferPool.new 4096 1 ⟨smallMap, 1088⟩ = p := Option.some.inj hp
    exact Or.inr (by rw [List.eq_of_mem_replicate (List.mem_of_getElem? hs)])
  have hlive : (smallMain.step (.alloc 0 0 2)).map (·.live) = some [38, 21] := by decide +kernel
  obtain ⟨m, hm, hlive⟩ := Option.map_eq_some_iff.mp hlive
  exact ⟨m, hm, hlive, buffers_conserved established_smallMap init_smallMap
    (.step .init hcovers hm)⟩

/-- A request that runs dry leaves the old length of the cache, and the next request hands out a
buffer that has an owner. -/
theorem dry_request_hands_out_twice :
    ([.alloc 0 0 1, .alloc 0 0 5, .alloc 0 0 1].foldlM step smallMain).map (·.live) =
      some [38, 21, 4, 21] := by
  decide +kernel

end BufferMain

end Buffer
