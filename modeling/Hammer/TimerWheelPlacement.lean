import Hammer.TimerWheelLists

/-! # Where a timer sits

`t` is the current tick and `D` a deadline. The digits of `D` in base `SLOTS` name the
slot; a timer waits in the ring of the highest digit in which `D` still differs from `t`.
-/
namespace TimerWheel

open Nat

variable {T : Type} {g : Geometry}

theorem Geometry.slots_pos (g : Geometry) : 0 < g.slots := by
  obtain ⟨k, hk⟩ := g.slots_pow
  rw [hk]
  positivity

theorem Geometry.two_pow_ringShift (g : Geometry) : 2 ^ g.ringShift = g.slots := by
  obtain ⟨k, hk⟩ := g.slots_pow
  rw [Geometry.ringShift, hk, log_pow (by norm_num)]

theorem Geometry.ringMask_succ (g : Geometry) : g.ringMask + 1 = g.slots := by
  have := g.slots_pos
  unfold Geometry.ringMask
  omega

theorem Geometry.hasOverflowRing_iff (g : Geometry) :
    g.hasOverflowRing = true ↔ g.overflow = true ∧ g.wheels = 3 := by
  simp [Geometry.hasOverflowRing]

/-- Digit `i` of the tick is the position of ring `i`. -/
structure Indices (g : Geometry) (t : ℕ) (index : Fin 3 → ℕ) : Prop where
  fast : index 0 = t % g.slots
  slow : 1 < g.wheels → index 1 = t / g.slots % g.slots
  glacier : 2 < g.wheels → index 2 = t / g.slots / g.slots % g.slots

/-- The ring, slot and offsets under which a timer with deadline `D` waits at tick `t`. -/
inductive Placed (g : Geometry) (t D fast slow : ℕ) : ℕ → Prop where
  | fast : t < D → (g.wheels = 1 → D ≤ t + g.slots) →
      (1 < g.wheels → D / g.slots = t / g.slots) →
      Placed g t D fast slow (g.slotHead 0 (D % g.slots))
  | slow : 1 < g.wheels → fast = D % g.slots → t / g.slots < D / g.slots →
      (g.wheels = 2 → D / g.slots < t / g.slots + g.slots) →
      (2 < g.wheels → D / g.slots / g.slots = t / g.slots / g.slots) →
      Placed g t D fast slow (g.slotHead 1 (D / g.slots % g.slots))
  | glacier : 2 < g.wheels → fast = D % g.slots → slow = D / g.slots % g.slots →
      t / g.slots / g.slots < D / g.slots / g.slots →
      (g.hasOverflowRing = false → D / g.slots / g.slots < t / g.slots / g.slots + g.slots) →
      (g.hasOverflowRing = true →
        D / g.slots / g.slots / g.slots = t / g.slots / g.slots / g.slots) →
      Placed g t D fast slow (g.slotHead 2 (D / g.slots / g.slots % g.slots))
  | overflow : g.hasOverflowRing = true →
      t / g.slots / g.slots / g.slots < D / g.slots / g.slots / g.slots →
      Placed g t D fast slow (g.wheels * g.slots)

theorem lt_of_div_lt {a b n : ℕ} (h : a / n < b / n) : a < b := by
  by_contra hn
  exact absurd (Nat.div_le_div_right (c := n) (Nat.le_of_not_lt hn)) (by omega)

theorem Placed.lt {t D fast slow h : ℕ} (p : Placed g t D fast slow h) : t < D := by
  cases p with
  | fast h => exact h
  | slow _ _ h => exact lt_of_div_lt h
  | glacier _ _ _ h => exact lt_of_div_lt (lt_of_div_lt h)
  | overflow _ h => exact lt_of_div_lt (lt_of_div_lt (lt_of_div_lt h))

theorem slotHead_lt {ring slot : ℕ} (hr : ring < g.wheels) (hs : slot < g.slots) :
    g.slotHead ring slot < g.wheels * g.slots := by
  calc ring * g.slots + slot < (ring + 1) * g.slots := by rw [add_mul]; omega
    _ ≤ g.wheels * g.slots := mul_le_mul_right _ hr

theorem slotHead_lt_headCount {r slot : ℕ} (hr : r < g.wheels) (hs : slot < g.slots) :
    g.slotHead r slot < g.headCount :=
  lt_of_lt_of_le (slotHead_lt hr hs) (le_add_right _ _)

theorem slotHead_inj {r r' s s' : ℕ} (hs : s < g.slots) (hs' : s' < g.slots)
    (h : g.slotHead r s = g.slotHead r' s') : r = r' ∧ s = s' := by
  unfold Geometry.slotHead at h
  have h₁ : (r * g.slots + s) / g.slots = (r' * g.slots + s') / g.slots := by rw [h]
  rw [mul_comm r, mul_comm r', mul_add_div g.slots_pos, mul_add_div g.slots_pos,
    div_eq_of_lt hs, div_eq_of_lt hs'] at h₁
  have : r = r' := by omega
  subst this
  exact ⟨rfl, by omega⟩

/-- The rings together reach the deadline `D` from tick `t`. -/
structure Reach (g : Geometry) (t D : ℕ) : Prop where
  one : g.wheels = 1 → D ≤ t + g.slots
  two : g.wheels = 2 → D / g.slots < t / g.slots + g.slots
  three : g.wheels = 3 → g.hasOverflowRing = false →
    D / g.slots / g.slots < t / g.slots / g.slots + g.slots
  overflow : g.hasOverflowRing = true →
    D / g.slots / g.slots / g.slots = t / g.slots / g.slots / g.slots

theorem eq_of_div_eq {a b n : ℕ} (hm : a % n = b % n) (hd : a / n = b / n) : a = b := by
  rw [← div_add_mod a n, ← div_add_mod b n, hm, hd]

theorem eq_of_mod_eq {a b n : ℕ} (hm : a % n = b % n) (hab : a ≤ b) (hb : b < a + n) : a = b := by
  have h₁ := Nat.div_add_mod a n
  have h₂ := Nat.div_add_mod b n
  refine eq_of_div_eq hm (le_antisymm (Nat.div_le_div_right hab) ?_)
  by_contra hlt
  have hmul : n * (a / n + 1) ≤ n * (b / n) := Nat.mul_le_mul_left _ (by omega)
  rw [Nat.mul_add] at hmul
  omega

theorem add_div_carry (a b : ℕ) {n : ℕ} (hn : 0 < n) :
    (a + b) / n = a / n + b / n + (decide (n ≤ b % n + a % n)).toNat := by
  rw [Nat.add_div hn, Nat.add_comm (a % n)]
  by_cases h : n ≤ b % n + a % n <;> simp [h]

variable {w : Wheel T}

/-- `timer_offsets` computes the digits of the deadline. -/
theorem timerOffsets_eq {d : ℕ} (hi : Indices g w.currentTick w.currentIndex) :
    (timerOffsets g w d).1 = (w.currentTick + d) % g.slots ∧
    (1 < g.wheels → (timerOffsets g w d).2.1 = (w.currentTick + d) / g.slots % g.slots) ∧
    (2 < g.wheels →
      (timerOffsets g w d).2.2 = (w.currentTick + d) / g.slots / g.slots % g.slots) := by
  have hpos := g.slots_pos
  set t := w.currentTick with ht
  set n := g.slots with hn
  have hpow : 2 ^ g.ringShift = n := g.two_pow_ringShift
  have hpow2 : 2 ^ (g.ringShift * 2) = n * n := by rw [pow_mul, hpow, sq]
  have hmask : g.ringMask + 1 = n := g.ringMask_succ
  have hf : w.currentIndex 0 = t % n := hi.fast
  have hfast : (d % n + t % n) % n = (t + d) % n := by rw [Nat.add_mod t d, Nat.add_comm]
  have hcarry := add_div_carry t d hpos
  have hrem2 : ∀ r : ℕ, r - r / n * n = r % n := by
    intro r
    have := Nat.div_add_mod' r n; omega
  set c := (decide (n ≤ d % n + t % n)).toNat with hc
  have hslow : (d / n + t / n % n + c) % n = (t + d) / n % n := by
    rw [hcarry, show t / n + d / n = d / n + t / n by omega]
    simp [Nat.add_mod]
  rcases g.wheels_pos.lt_or_eq with h1 | h1
  · have hs : w.currentIndex 1 = t / n % n := hi.slow h1
    by_cases h2 : 2 < g.wheels
    · have hgl : w.currentIndex 2 = t / n / n % n := hi.glacier h2
      have hrem3 : d - d / (n * n) * (n * n) = d % (n * n) := by
        have := Nat.div_add_mod' d (n * n); omega
      have hslow3 : d % (n * n) / n = d / n % n := Nat.mod_mul_right_div_self d n n
      have hlast3 : d % (n * n) - d / n % n * n = d % n := by
        rw [← hslow3, hrem2, Nat.mod_mul_left_mod]
      simp only [timerOffsets, h1, h2, if_true, hpow, hpow2, hmask, hrem3, hslow3, hlast3,
        Nat.mod_mod, hf, hs, hgl, ← hn, ← hc]
      refine ⟨hfast, fun _ => ?_, fun _ => ?_⟩
      · rw [← hslow]
        simp [Nat.add_mod]
      · have hc1 : c ≤ 1 := Bool.toNat_le _
        have ha := Nat.div_add_mod (t / n) n
        have hb := Nat.div_add_mod (d / n) n
        have hta := Nat.mod_lt (t / n) hpos
        have htb := Nat.mod_lt (d / n) hpos
        have hsplit : t / n + d / n + c =
            n * (t / n / n + d / n / n) + (d / n % n + t / n % n + c) := by
          rw [Nat.mul_add]; omega
        have hdd : d / (n * n) = d / n / n := (Nat.div_div_eq_div_mul d n n).symm
        have hcc : (d / n % n + t / n % n + c) / n =
            (decide (n ≤ d / n % n + t / n % n + c)).toNat := by
          by_cases hle : n ≤ d / n % n + t / n % n + c
          · simp only [hle, decide_true, Bool.toNat_true]
            exact Nat.div_eq_of_lt_le (by omega) (by omega)
          · simp only [hle, decide_false, Bool.toNat_false]
            exact Nat.div_eq_of_lt (by omega)
        rw [hcarry, hsplit, Nat.mul_add_div hpos, hcc, hdd]
        rw [show t / n / n + d / n / n = d / n / n + t / n / n by omega]
        simp [Nat.add_mod]
    · simp only [timerOffsets, h1, h2, if_true, if_false, hpow, hmask, hrem2, Nat.mod_mod,
        hf, hs, ← hn, ← hc]
      exact ⟨hfast, fun _ => hslow, fun h => absurd h (by simp)⟩
  · have h2 : ¬ 2 < g.wheels := by omega
    have h1' : ¬ 1 < g.wheels := by omega
    simp only [timerOffsets, h1', h2, if_false, hmask, hf]
    exact ⟨hfast, fun h => absurd h (by simp), fun h => absurd h (by simp)⟩

/-- The placement of the timer `x`, read off its entry. -/
def PlacedAt (g : Geometry) (w : Wheel T) (x h : ℕ) : Prop :=
  Placed g w.currentTick (w.entries x).expirationTick (w.entries x).fastRingOffset
    (w.entries x).slowRingOffset h

/-- A step that moves the timer `s`, held in hand, onto the list `head`. -/
structure Puts (g : Geometry) (w w' : Wheel T) (L : ℕ → List ℕ) (s : ℕ) (rest : List ℕ)
    (head : ℕ) : Prop where
  linkage : Linkage g w' (Function.update L head (s :: L head)) rest
  rest : ∀ x ∈ rest, w'.entries x = w.entries x
  body : ∀ x, x ≠ s → (w'.entries x).body = (w.entries x).body
  payload : (w'.entries s).payload = (w.entries s).payload
  live : (w'.entries s).live = (w.entries s).live
  deadline : (w'.entries s).expirationTick = (w.entries s).expirationTick
  tick : w'.currentTick = w.currentTick
  index : w'.currentIndex = w.currentIndex
  overflowHead : w'.overflowHead = w.overflowHead
  maxExpirations : w'.maxExpirations = w.maxExpirations

theorem entries_addToList_of_ne (w : Wheel T) {head slot x : ℕ} (h₁ : x ≠ slot) (h₂ : x ≠ head)
    (h3 : x ≠ (w.entries head).next) : (addToList w head slot).entries x = w.entries x := by
  simp [addToList, setNext, setPrev, setEntry, h₁, h₂, h3]

variable {L : ℕ → List ℕ} {rest : List ℕ}

theorem Linkage.puts {s head : ℕ} (h : Linkage g w L (s :: rest)) (hh : head < g.headCount) :
    Puts g w (TimerWheel.addToList w head s) L s rest head := by
  have hb := sameBodies_addToList w head s
  refine ⟨h.addToList hh, fun x hx => ?_, fun x _ => hb.body x, hb.payload s, hb.live s,
    hb.expirationTick s, hb.tick, hb.index, hb.overflowHead, hb.maxExpirations⟩
  have hxs : x ≠ s := fun e => (List.nodup_cons.mp h.restNodup).1 (e ▸ hx)
  have hxr := h.headCount_le_of_rest (x := x) (by simp [hx])
  refine entries_addToList_of_ne w hxs (by omega) ?_
  rintro e
  rcases List.mem_cons.mp (h.ring head hh).next_mem with e' | e'
  · change x = nextOf w head at e
    omega
  · exact h.apart head hh x (e ▸ e') (by simp [hx])

theorem Linkage.puts_fast {s fast : ℕ}
    (h : Linkage g w L (s :: rest)) (hh : g.slotHead 0 fast < g.headCount) :
    Puts g w (addToFastSlot g w fast s) L s rest (g.slotHead 0 fast) := by
  have hp := h.puts hh
  unfold addToFastSlot
  split
  · have hl := hp.linkage
    refine ⟨⟨hl.ring, hl.unique, hl.apart, hl.restNodup, hl.live, hl.range, hl.payload,
      hl.freeNodup, hl.freeIff, hl.count⟩, hp.rest, hp.body, hp.payload, hp.live, hp.deadline,
      hp.tick, hp.index, hp.overflowHead, hp.maxExpirations⟩
  · exact hp

@[simp] theorem setEntry_entries_self (w : Wheel T) (s : ℕ) (e : TimerEntry T) :
    (setEntry w s e).entries s = e := by simp [setEntry]

@[simp] theorem setEntry_setEntry (w : Wheel T) (s : ℕ) (e e' : TimerEntry T) :
    setEntry (setEntry w s e) s e' = setEntry w s e' := by simp [setEntry]

theorem Linkage.puts_offsets {s head : ℕ}
    {e : TimerEntry T} (h : Linkage g w L (s :: rest)) (hh : head < g.headCount)
    (h₁ : e.payload = (w.entries s).payload) (h₂ : e.live = (w.entries s).live)
    (h3 : e.expirationTick = (w.entries s).expirationTick) :
    Puts g w (TimerWheel.addToList (TimerWheel.setEntry w s e) head s) L s rest head ∧
      ((TimerWheel.addToList (TimerWheel.setEntry w s e) head s).entries s).body = e.body := by
  have hs : s ∉ rest := (List.nodup_cons.mp h.restNodup).1
  have hp := (h.setEntry (show s ∈ s :: rest by simp) h₂ h₁).puts hh
  refine ⟨⟨hp.linkage, fun x hx => ?_, fun x hx => ?_, ?_, ?_, ?_, hp.tick, hp.index,
    hp.overflowHead, hp.maxExpirations⟩, ?_⟩
  · have hne : x ≠ s := fun e => hs (e ▸ hx)
    rw [hp.rest x hx]; simp [TimerWheel.setEntry, hne]
  · rw [hp.body x hx]; simp [TimerWheel.setEntry, hx]
  · rw [hp.payload, setEntry_entries_self, h₁]
  · rw [hp.live, setEntry_entries_self, h₂]
  · rw [hp.deadline, setEntry_entries_self, h3]
  · rw [(sameBodies_addToList _ head s).body, setEntry_entries_self]

theorem placedAt_of_body {x h t D fast slow : ℕ} {e : TimerEntry T}
    (hb : (w.entries x).body = e.body) (ht : w.currentTick = t) (hD : e.expirationTick = D)
    (hf : e.fastRingOffset = fast) (hs : e.slowRingOffset = slow)
    (hp : Placed g t D fast slow h) : PlacedAt g w x h := by
  have h₁ := congrArg Body.expirationTick hb
  have h₂ := congrArg Body.fastRingOffset hb
  have h3 := congrArg Body.slowRingOffset hb
  simp only [TimerEntry.body] at h₁ h₂ h3
  unfold PlacedAt
  rw [h₁, h₂, h3, ht, hD, hf, hs]
  exact hp

/-- `place_timer_direct` puts a timer whose deadline the rings reach where it belongs. -/
theorem placeTimerDirect_spec {s d : ℕ}
    (h : Linkage g w L (s :: rest)) (hi : Indices g w.currentTick w.currentIndex)
    (hd : 0 < d) (hD : (w.entries s).expirationTick = w.currentTick + d)
    (hr : Reach g w.currentTick (w.currentTick + d)) :
    ∃ head, Puts g w (placeTimerDirect g w s d) L s rest head ∧
      PlacedAt g (placeTimerDirect g w s d) s head := by
  obtain ⟨hf, hsl, hgl⟩ := timerOffsets_eq (d := d) hi
  have hmod := fun a => Nat.mod_lt a g.slots_pos
  set D := w.currentTick + d with hDdef
  set t := w.currentTick with ht
  have htD : t < D := by omega
  have hw3 := g.wheels_le
  have hw1 := g.wheels_pos
  have htop : t / g.slots ≤ D / g.slots := Nat.div_le_div_right (by omega)
  have htop2 : t / g.slots / g.slots ≤ D / g.slots / g.slots := Nat.div_le_div_right htop
  -- the top digit is compared with the moving index: `Reach` rules out a full turn
  have heq2 : 2 < g.wheels → D / g.slots / g.slots % g.slots = w.currentIndex 2 →
      t / g.slots / g.slots = D / g.slots / g.slots := by
    intro hw he
    rw [hi.glacier hw] at he
    cases hov : g.hasOverflowRing with
    | false => exact eq_of_mod_eq he.symm htop2 (hr.three (by omega) hov)
    | true => exact eq_of_div_eq he.symm (hr.overflow hov).symm
  have heq1 : 1 < g.wheels → D / g.slots % g.slots = w.currentIndex 1 →
      (2 < g.wheels → t / g.slots / g.slots = D / g.slots / g.slots) →
      t / g.slots = D / g.slots := by
    intro hw he hup
    rw [hi.slow hw] at he
    by_cases hw2 : 2 < g.wheels
    · exact eq_of_div_eq he.symm (hup hw2)
    · exact eq_of_mod_eq he.symm htop (hr.two (by omega))
  unfold placeTimerDirect
  simp only [setEntry_entries_self, setEntry_setEntry]
  split
  · rename_i hc
    obtain ⟨hw, hne⟩ := hc
    rw [hgl hw] at hne ⊢
    have hh := slotHead_lt_headCount (r := 2) hw (hmod (D / g.slots / g.slots))
    obtain ⟨hp, hb⟩ := h.puts_offsets (e := { w.entries s with
      slowRingOffset := (timerOffsets g w d).2.1
      fastRingOffset := (timerOffsets g w d).1 }) hh rfl rfl rfl
    refine ⟨_, hp, placedAt_of_body hb hp.tick hD hf (hsl (by omega)) ?_⟩
    · refine .glacier hw rfl rfl ?_ (fun hov => hr.three (by omega) hov) hr.overflow
      refine lt_of_le_of_ne htop2 fun e => hne ?_
      rw [hi.glacier hw, e]
  · rename_i hc
    have hup : 2 < g.wheels → t / g.slots / g.slots = D / g.slots / g.slots := by
      intro hw
      refine heq2 hw ?_
      by_contra hne
      exact hc ⟨hw, by rw [hgl hw]; exact hne⟩
    split
    · rename_i hc'
      obtain ⟨hw, hne⟩ := hc'
      rw [hsl hw] at hne ⊢
      have hh := slotHead_lt_headCount (r := 1) hw (hmod (D / g.slots))
      obtain ⟨hp, hb⟩ := h.puts_offsets (e := { w.entries s with
        fastRingOffset := (timerOffsets g w d).1 }) hh rfl rfl rfl
      refine ⟨_, hp, placedAt_of_body hb hp.tick hD hf rfl ?_⟩
      · refine .slow hw rfl ?_ hr.two (fun hw => (hup hw).symm)
        refine lt_of_le_of_ne htop fun e => hne ?_
        rw [hi.slow hw, e]
    · rename_i hc'
      have hup1 : 1 < g.wheels → t / g.slots = D / g.slots := by
        intro hw
        refine heq1 hw ?_ hup
        by_contra hne
        exact hc' ⟨hw, by rw [hsl hw]; exact hne⟩
      rw [hf]
      have hh := slotHead_lt_headCount (r := 0) hw1 (hmod D)
      have hp := h.puts_fast hh
      refine ⟨_, hp, placedAt_of_body ((sameBodies_addToFastSlot w (D % g.slots) s).body s)
        hp.tick hD rfl rfl ?_⟩
      exact .fast htD hr.one (fun hw => (hup1 hw).symm)

end TimerWheel
