import Hammer.TimerWheelTick

/-! # Runs of the wheel

The wheel implements a clock with a table of pending timers. Every step of a run is a step
of that clock as long as no accepted interval reaches past a full turn of the rings.
-/
namespace TimerWheel

open LinkedRing Function List

variable {T : Type} {g : Geometry} {out : List T}

/-- What the wheel is for: the time, and who is waiting until when. -/
structure Clock (T : Type) where
  tick : ℕ
  pending : ℕ → Option (T × ℕ)

def Wheel.clock (w : Wheel T) : Clock T := ⟨w.currentTick, table w⟩

/-- `k` ticks pass. The timers of `F` are those whose deadline is reached; their payloads
come out in the order of the deadlines. -/
structure Clock.Advance (c : Clock T) (k : ℕ) (F : List ℕ) (out : List T) (c' : Clock T) :
    Prop where
  tick : c'.tick = c.tick + k
  nodup : F.Nodup
  due : ∀ x, x ∈ F ↔ ∃ p D, c.pending x = some (p, D) ∧ c.tick < D ∧ D ≤ c.tick + k
  order : (F.filterMap fun x => (c.pending x).map Prod.snd).Pairwise (· ≤ ·)
  fired : out = F.filterMap fun x => (c.pending x).map Prod.fst
  pending : ∀ x, c'.pending x = if x ∈ F then none else c.pending x

theorem Clock.Advance.zero (c : Clock T) : Clock.Advance c 0 [] [] c :=
  ⟨rfl, nodup_nil, fun x => by simp, by simp, by simp, by simp⟩

theorem Clock.Advance.trans {c c' c'' : Clock T} {k k' : ℕ} {F F' : List ℕ} {out' : List T}
    (h : c.Advance k F out c') (h' : c'.Advance k' F' out' c'') :
    c.Advance (k + k') (F ++ F') (out ++ out') c'' := by
  have hmem : ∀ x, x ∈ F' ↔ ∃ p D, c.pending x = some (p, D) ∧ c.tick + k < D ∧
      D ≤ c.tick + k + k' := by
    intro x
    rw [h'.due x, h.pending x, h.tick]
    by_cases hx : x ∈ F
    · obtain ⟨p, D, e, _, hD⟩ := (h.due x).mp hx
      simp only [hx, if_true, e, Option.some.injEq, Prod.mk.injEq]
      constructor
      · rintro ⟨_, _, hn, _⟩; cases hn
      · omega
    · simp [hx]
  have hout : ∀ x ∈ F', x ∉ F := by
    intro x hx hf
    obtain ⟨p, D, e, hlt, _⟩ := (hmem x).mp hx
    obtain ⟨p', D', e', _, hle⟩ := (h.due x).mp hf
    rw [e] at e'
    obtain ⟨rfl, rfl⟩ := by simpa using e'
    omega
  have hsame : ∀ x ∈ F', c'.pending x = c.pending x := fun x hx => by
    rw [h.pending x, if_neg (hout x hx)]
  refine ⟨by rw [h'.tick, h.tick, Nat.add_assoc], ?_, ?_, ?_, ?_, ?_⟩
  · rw [nodup_append]
    exact ⟨h.nodup, h'.nodup, fun a ha b hb e => hout b hb (e ▸ ha)⟩
  · intro x
    rw [mem_append, h.due x, hmem x]
    constructor
    · rintro (⟨p, D, e, h₁, h₂⟩ | ⟨p, D, e, h₁, h₂⟩)
      · exact ⟨p, D, e, h₁, by omega⟩
      · exact ⟨p, D, e, by omega, by omega⟩
    · rintro ⟨p, D, e, h₁, h₂⟩
      by_cases hle : D ≤ c.tick + k
      · exact Or.inl ⟨p, D, e, h₁, hle⟩
      · exact Or.inr ⟨p, D, e, by omega, by omega⟩
  · rw [filterMap_append, pairwise_append]
    refine ⟨h.order, ?_, ?_⟩
    · have := h'.order
      rwa [filterMap_congr fun x hx => by rw [hsame x hx]] at this
    · intro a ha b hb
      obtain ⟨x, hx, ea⟩ := mem_filterMap.mp ha
      obtain ⟨y, hy, eb⟩ := mem_filterMap.mp hb
      obtain ⟨p, D, e, _, h₂⟩ := (h.due x).mp hx
      obtain ⟨p', D', e', h₁, _⟩ := (hmem y).mp hy
      simp only [e, Option.map_some, Option.some.injEq] at ea
      simp only [e', Option.map_some, Option.some.injEq] at eb
      omega
  · rw [h'.fired, h.fired, filterMap_append]
    congr 1
    exact filterMap_congr fun x hx => by rw [hsame x hx]
  · intro x
    rw [h'.pending x, h.pending x]
    by_cases hx : x ∈ F <;> by_cases hy : x ∈ F' <;> simp [hx, hy]

def InPlace (g : Geometry) (w : Wheel T) (L : ℕ → List ℕ) : Prop :=
  ListsSatisfy g (Stage g w.currentTick 0) w L

structure Invariant (g : Geometry) (w : Wheel T) : Prop where
  lists : ∃ L, Linkage g w L [] ∧ InPlace g w L
  indices : Indices g w.currentTick w.currentIndex
  overflowHead : g.overflow = true → w.overflowHead = g.wheels * g.slots

theorem stage_zero {t h : ℕ} {b : Body T} : Stage g t 0 b h ↔
    Placed g t b.expirationTick b.fastRingOffset b.slowRingOffset h := by
  simp [Stage]

theorem new_invariant (n : ℕ) : Invariant g (Wheel.new g n : Wheel T) where
  lists := by
    refine ⟨fun _ => [], ?_, by simp [InPlace, ListsSatisfy]⟩
    refine ⟨fun h _ => ring_nil.mpr ⟨rfl, rfl⟩, by simp, by simp, nodup_nil, ?_, ?_, ?_, ?_,
      ?_, ?_⟩
    all_goals simp [Wheel.new, TimerEntry.listHead]
  indices := ⟨by simp [Wheel.new], fun _ => by simp [Wheel.new], fun _ => by simp [Wheel.new]⟩
  overflowHead h := by simp [Wheel.new, h]

variable {w : Wheel T} {p : T}

theorem table_some_iff {x : ℕ} {D : ℕ} : table w x = some (p, D) ↔
    (w.entries x).live = true ∧ (w.entries x).payload = some p ∧
      (w.entries x).expirationTick = D := by
  unfold table
  split
  · rename_i h; simp [h]
  · rename_i h; simp [h]

theorem Invariant.lt_of_pending (h : Invariant g w) {x : ℕ} {D : ℕ} (ht : table w x = some (p, D)) :
    w.currentTick < D := by
  obtain ⟨L, hl, hp⟩ := h.lists
  obtain ⟨hlive, _, rfl⟩ := table_some_iff.mp ht
  rcases (hl.live x).mp hlive with hx | ⟨k, hk, hx⟩
  · simp at hx
  · exact (stage_zero.mp (hp k hk x hx)).lt

variable {L : ℕ → List ℕ} {d : ℕ}

theorem Linkage.withBitmap {rest : List ℕ}
    (h : Linkage g w L rest) (b : ℕ → Bool) : Linkage g { w with fastSlotBitmap := b } L rest :=
  { h with }

theorem Linkage.turned {rest : List ℕ} (h : Linkage g w L rest) (t : ℕ) (index : Fin 3 → ℕ) :
    Linkage g { w with currentTick := t, currentIndex := index } L rest := { h with }

/-- The state between two stages of a tick. -/
structure Draining (g : Geometry) (c : Wheel T) (out : List T) (k : ℕ) (s : Wheel T × List T) :
    Prop where
  lists : ∃ L, Linkage g s.1 L [] ∧ ListsSatisfy g (Stage g s.1.currentTick k) s.1 L
  indices : Indices g s.1.currentTick s.1.currentIndex
  overflowHead : g.overflow = true → s.1.overflowHead = g.wheels * g.slots
  fires : ∃ F, Fires F (c, out) s

/-- One stage: the list is drained if it is due, and skipped if not. -/
theorem Draining.next {c : Wheel T} {k : ℕ} {s : Wheel T × List T}
    (h : Draining g c out (k + 1) s) (head : ℕ)
    (body : ℕ → Wheel T × List T → Option (Wheel T × List T)) {P : Prop} [Decidable P]
    (hhead : P → head < g.headCount)
    (hdue : ∀ x, DueHead g s.1.currentTick k x ↔ P ∧ x = head)
    (hbody : P → BodySpec g s.1 (Stage g s.1.currentTick k) (fun b => DueTimer g s.1.currentTick
      b.expirationTick b.fastRingOffset b.slowRingOffset k) body) :
    ∃ s', (if P then drainList body head s else some s) = some s' ∧ Draining g c out k s' := by
  obtain ⟨L, hl, hs⟩ := h.lists
  obtain ⟨F, hF⟩ := h.fires
  by_cases hP : P
  · obtain ⟨s', L', F', e, hl', hs', hF'⟩ := drainStage_spec s.2 (hbody hP) (hhead hP)
      (fun x => by simp [hdue x, hP]) hl hs
    rw [if_pos hP]
    refine ⟨s', e, ⟨L', hl', by rw [hF'.tick]; exact hs'⟩, ?_, ?_, F ++ F', hF.trans hF'⟩
    · rw [hF'.tick, hF'.index]; exact h.indices
    · rw [hF'.overflowHead]; exact h.overflowHead
  · rw [if_neg hP]
    refine ⟨s, rfl, ⟨L, hl, fun j hj x hx => (hs j hj x hx).pass ?_⟩, h.indices, h.overflowHead,
      F, hF⟩
    rw [hdue]
    exact fun hh => hP hh.1

theorem advanceOneTick_draining (out : List T) (h : Invariant g w)
    (ht : w.currentTick + 1 < 2 ^ 64) :
    ∃ index s', advanceOneTick g (w, out) = some s' ∧
      Draining g { w with currentTick := w.currentTick + 1, currentIndex := index } out 0 s' := by
  obtain ⟨index, hi, e⟩ := advanceOneTick_eq out ht h.indices
  obtain ⟨L, hl, hp⟩ := h.lists
  have hmod := fun a => Nat.mod_lt a g.slots_pos
  set c : Wheel T := { w with currentTick := w.currentTick + 1, currentIndex := index } with hc
  have h4 : Draining g c out 4 (c, out) :=
    ⟨⟨L, hl.turned _ _, fun j hj x hx => (stage_zero.mp (hp j hj x hx)).stage⟩, hi,
      h.overflowHead, [], Fires.refl _⟩
  obtain ⟨s3, e3, h₃⟩ := h4.next c.overflowHead (overflowBody g)
    (P := g.hasOverflowRing = true ∧ g.slots ∣ c.currentTick ∧ g.slots ∣ c.currentTick / g.slots ∧
      g.slots ∣ c.currentTick / g.slots / g.slots)
    (fun hP => by
      have hov := (g.hasOverflowRing_iff.mp hP.1).1
      rw [h4.overflowHead hov]
      simp [Geometry.headCount, hov])
    (fun x => by
      simp only [DueHead, and_assoc]
      constructor
      · rintro ⟨h₁, h₂⟩
        rw [h4.overflowHead (g.hasOverflowRing_iff.mp h₁).1]; exact ⟨h₁, h₂⟩
      · rintro ⟨h₁, h₂⟩
        rw [h4.overflowHead (g.hasOverflowRing_iff.mp h₁).1] at h₂; exact ⟨h₁, h₂⟩)
    (fun hP => overflowBody_bodySpec hP.1 h4.indices h4.overflowHead)
  have ht3 : s3.1.currentTick = c.currentTick := h₃.fires.choose_spec.tick
  obtain ⟨s2, e2, h₂⟩ := h₃.next (g.slotHead 2 (s3.1.currentIndex 2)) (glacierBody g)
    (P := 2 < g.wheels ∧ g.slots ∣ c.currentTick ∧ g.slots ∣ c.currentTick / g.slots)
    (fun hP => by rw [h₃.indices.glacier hP.1]; exact slotHead_lt_headCount hP.1 (hmod _))
    (fun x => by
      simp only [DueHead, and_assoc]
      refine and_congr_right fun hw => ?_
      rw [h₃.indices.glacier hw, ht3])
    (fun hP => glacierBody_bodySpec hP.1 h₃.indices (by rw [ht3]; exact hP.2.1)
      (by rw [ht3]; exact hP.2.2))
  have ht2 : s2.1.currentTick = c.currentTick := h₂.fires.choose_spec.tick
  obtain ⟨s1, e1, h₁⟩ := h₂.next (g.slotHead 1 (s2.1.currentIndex 1)) (slowBody g)
    (P := 1 < g.wheels ∧ g.slots ∣ c.currentTick)
    (fun hP => by rw [h₂.indices.slow hP.1]; exact slotHead_lt_headCount hP.1 (hmod _))
    (fun x => by
      simp only [DueHead, and_assoc]
      refine and_congr_right fun hw => ?_
      rw [h₂.indices.slow hw, ht2])
    (fun hP => slowBody_bodySpec hP.1 h₂.indices (by rw [ht2]; exact hP.2))
  obtain ⟨s0, e0, h0⟩ := h₁.next (g.slotHead 0 (s1.1.currentIndex 0)) expireTimer (P := True)
    (fun _ => by
      rw [h₁.indices.fast]
      exact slotHead_lt_headCount (by have := g.wheels_pos; omega) (hmod _))
    (fun x => by simp [DueHead, h₁.indices.fast])
    (fun _ => expireTimer_bodySpec s1.1 _)
  rw [if_pos trivial] at e0
  obtain ⟨L0, hl0, hp0⟩ := h0.lists
  obtain ⟨F, hF⟩ := h0.fires
  have hdo : advanceOneTick g (w, out) = expireFastSlot g s1 := by
    rw [e c hc]
    simp [processOverflow, cascadeGlacier, cascadeSlow, e3, e2, e1]
  by_cases hb : g.fastBitmap
  · refine ⟨index, ({ s0.1 with
          fastSlotBitmap := Function.update s0.1.fastSlotBitmap (s1.1.currentIndex 0) false },
        s0.2), ?_,
      ⟨L0, hl0.withBitmap _, hp0⟩, h0.indices, h0.overflowHead, F,
      hF.nodup, hF.due, hF.output, hF.table, hF.tick, hF.index, hF.overflowHead, hF.maxExpirations⟩
    rw [hdo, expireFastSlot, e0]
    simp [hb]
  · refine ⟨index, s0, ?_, h0⟩
    rw [hdo, expireFastSlot, e0]
    simp [hb]

theorem advanceOneTick_spec (out : List T) (h : Invariant g w) (ht : w.currentTick + 1 < 2 ^ 64) :
    ∃ w' F fired, advanceOneTick g (w, out) = some (w', out ++ fired) ∧ Invariant g w' ∧
      w.clock.Advance 1 F fired w'.clock := by
  obtain ⟨index, s', e, hs⟩ := advanceOneTick_draining out h ht
  obtain ⟨F, hF⟩ := hs.fires
  have hinv : Invariant g s'.1 := ⟨hs.lists, hs.indices, hs.overflowHead⟩
  have hout : s'.2 = out ++ F.filterMap fun x => (table w x).map Prod.fst := hF.output
  refine ⟨s'.1, F, F.filterMap fun x => (table w x).map Prod.fst, ?_, hinv,
    ⟨hF.tick, hF.nodup, ?_, ?_, rfl, hF.table⟩⟩
  · rw [e, ← hout]
  · intro x
    constructor
    · intro hx
      obtain ⟨p, hp⟩ := hF.due x hx
      exact ⟨p, w.currentTick + 1, hp, Nat.lt_succ_self _, le_rfl⟩
    · rintro ⟨p, D, hp, h₁, h₂⟩
      by_contra hx
      have hlate := hinv.lt_of_pending (x := x) (by rw [hF.table x, if_neg hx]; exact hp)
      rw [hF.tick] at hlate
      exact absurd h₂ (by simpa [Wheel.clock] using hlate)
  · rw [pairwise_iff_forall_sublist]
    intro a b hab
    have hval : ∀ a ∈ F.filterMap fun x => (w.clock.pending x).map Prod.snd,
        a = w.currentTick + 1 := by
      intro a ha
      obtain ⟨x, hx, ea⟩ := mem_filterMap.mp ha
      obtain ⟨p, hp⟩ := hF.due x hx
      have hp : table w x = some (p, w.currentTick + 1) := hp
      simpa [Wheel.clock, hp, eq_comm] using ea
    rw [hval a (hab.subset (by simp)), hval b (hab.subset (by simp))]

theorem advanceOneTick_none (h : 2 ^ 64 ≤ w.currentTick + 1) :
    advanceOneTick g (w, out) = none := if_pos h

/-- The loop of `expire` is a number of ticks, all of them unless the budget is used up. -/
theorem expireLoop_spec {budget initialLen : ℕ} (n : ℕ) :
    ∀ {w : Wheel T} {out : List T} {s' : Wheel T × List T}, Invariant g w →
      expireLoop g budget initialLen n (w, out) = some s' →
      ∃ k F fired, k ≤ n ∧ s'.2 = out ++ fired ∧ Invariant g s'.1 ∧ w.clock.Advance k F fired s'.1.clock := by
  induction n with
  | zero =>
    intro w out s' h e
    obtain rfl := by simpa [expireLoop] using e
    exact ⟨0, [], [], le_rfl, by simp, h, .zero _⟩
  | succ n ih =>
    intro w out s' h e
    rw [expireLoop] at e
    split at e
    · obtain rfl := by simpa using e
      exact ⟨0, [], [], Nat.zero_le _, by simp, h, .zero _⟩
    · by_cases ht : w.currentTick + 1 < 2 ^ 64
      · obtain ⟨w1, F1, fired1, e1, h₁, ha1⟩ := advanceOneTick_spec out h ht
        rw [e1] at e
        obtain ⟨k, F, fired, hk, hout, h', ha⟩ := ih h₁ e
        refine ⟨1 + k, F1 ++ F, fired1 ++ fired, by omega, ?_, h', ha1.trans ha⟩
        rw [hout, append_assoc]
      · rw [advanceOneTick_none (by omega)] at e
        cases e

theorem expireLoop_returns {budget initialLen : ℕ} (n : ℕ) :
    ∀ {w : Wheel T} {out : List T}, Invariant g w → w.currentTick + n < 2 ^ 64 →
      ∃ s', expireLoop g budget initialLen n (w, out) = some s' := by
  induction n with
  | zero => intro w out _ _; exact ⟨_, rfl⟩
  | succ n ih =>
    intro w out h ht
    rw [expireLoop]
    split
    · exact ⟨_, rfl⟩
    · obtain ⟨w1, F1, fired1, e1, h₁, ha1⟩ := advanceOneTick_spec out h (by omega)
      have htick : w1.currentTick = w.currentTick + 1 := ha1.tick
      rw [e1]
      exact ih h₁ (by omega)

/-- An accepted interval stays within one turn of the rings, counted from their last wrap. -/
def WithinTurn (g : Geometry) (tick interval : ℕ) : Prop :=
  g.wheels = 1 ∨ g.hasOverflowRing = true ∨ g.maxDirectInterval < interval ∨
    interval + tick % g.slots ^ (g.wheels - 1) < g.horizon

theorem validateInterval_ok (h : validateInterval g w d = .ok ()) :
    0 < d ∧ w.currentTick + d < 2 ^ 64 ∧ (g.hasOverflowRing = false → d ≤ g.maxDirectInterval) := by
  unfold validateInterval at h
  split at h
  · cases h
  · split at h
    · cases h
    · split at h
      · cases h
      · rename_i h₁ h₂ h₃
        refine ⟨by omega, by omega, fun hov => ?_⟩
        by_contra hlt
        exact h₃ ⟨by simp [hov], by omega⟩

theorem div_lt_of_add_mod_lt {t m n : ℕ} (hm : 0 < m) (h : d + t % m < m * n) :
    (t + d) / m < t / m + n := by
  rw [Nat.div_lt_iff_lt_mul hm, Nat.add_mul, Nat.mul_comm n m]
  have := Nat.div_add_mod' t m
  omega

theorem reach_of_withinTurn (hv : validateInterval g w d = .ok ())
    (hw : WithinTurn g w.currentTick d) (hov : g.hasOverflowRing = false) :
    Reach g w.currentTick (w.currentTick + d) := by
  obtain ⟨_, _, hmax⟩ := validateInterval_ok hv
  have hmax := hmax hov
  have hpos := g.slots_pos
  refine ⟨fun h1 => ?_, fun h2 => ?_, fun h3 _ => ?_, fun h => by simp [hov] at h⟩
  · rw [Geometry.maxDirectInterval, if_pos h1] at hmax
    omega
  · rcases hw with h | h | h | h
    · omega
    · simp [hov] at h
    · omega
    · rw [Geometry.horizon, h2] at h
      exact div_lt_of_add_mod_lt hpos (by simpa [sq] using h)
  · rcases hw with h | h | h | h
    · omega
    · simp [hov] at h
    · omega
    · rw [Geometry.horizon, h3] at h
      rw [Nat.div_div_eq_div_mul, Nat.div_div_eq_div_mul]
      refine div_lt_of_add_mod_lt (by positivity) ?_
      rw [show g.slots ^ (3 - 1) = g.slots * g.slots by simp [sq]] at h
      calc d + w.currentTick % (g.slots * g.slots) < g.slots ^ 3 := h
        _ = g.slots * g.slots * g.slots := by ring

variable {w' : Wheel T} {slot s : ℕ}

theorem InPlace.of_bodies (h : InPlace g w L) (ht : w'.currentTick = w.currentTick)
    (hb : ∀ k < g.headCount, ∀ x ∈ L k, (w'.entries x).body = (w.entries x).body) :
    InPlace g w' L := by
  intro k hk x hx
  rw [hb k hk x hx, ht]
  exact h k hk x hx

theorem placeTimer_invariant (h : Linkage g w L [s]) (hp : InPlace g w L)
    (hi : Indices g w.currentTick w.currentIndex)
    (ho : g.overflow = true → w.overflowHead = g.wheels * g.slots) (hd : 0 < d)
    (hD : (w.entries s).expirationTick = w.currentTick + d)
    (hr : g.hasOverflowRing = false → Reach g w.currentTick (w.currentTick + d)) :
    Invariant g (placeTimer g w s d) ∧ (placeTimer g w s d).clock = w.clock := by
  obtain ⟨head, hput, hplaced⟩ := placeTimer_spec h hi ho hd hD hr
  refine ⟨⟨⟨_, hput.linkage, ?_⟩, by rw [hput.tick, hput.index]; exact hi,
    by rw [hput.overflowHead]; exact ho⟩, ?_⟩
  · refine hput.listsSatisfy h ?_ (stage_zero.mpr hplaced)
    rw [hput.tick]
    exact hp
  · simp only [Wheel.clock, hput.tick, Clock.mk.injEq, true_and]
    exact funext hput.table

theorem start_ok (h : Invariant g w) (hw : WithinTurn g w.currentTick d)
    (e : start g w p d = some (w', .ok slot)) : Invariant g w' ∧ table w slot = none ∧ w'.clock =
      ⟨w.currentTick, Function.update (table w) slot (some (p, w.currentTick + d))⟩ := by
  unfold start at e
  split at e
  · simp at e
  · rename_i hv
    obtain ⟨⟨w1, s⟩, ha, e⟩ := Option.map_eq_some_iff.mp e
    obtain ⟨rfl, rfl⟩ := by simpa using e
    obtain ⟨L, hl, hp⟩ := h.lists
    obtain ⟨hl1, hdead, hent, ht, hx, ho, _⟩ := hl.allocateTimer ha
    have hne : ∀ k < g.headCount, ∀ x ∈ L k, x ≠ s := fun k hk x hx e =>
      hl1.apart k hk x hx (by simp [e])
    have hp1 : InPlace g w1 L := hp.of_bodies ht fun k hk x hx => by
      rw [hent, update_of_ne (hne k hk x hx)]
    obtain ⟨hinv, hclock⟩ := placeTimer_invariant hl1 hp1
      (by rw [ht, hx]; exact h.indices) (by rw [ho]; exact h.overflowHead)
      (validateInterval_ok hv).1 (by rw [hent, ht]; simp [TimerEntry.timer])
      (fun hov => by rw [ht]; exact reach_of_withinTurn hv hw hov)
    refine ⟨hinv, by simp [table, hdead], ?_⟩
    rw [hclock]
    simp only [Wheel.clock, ht, Clock.mk.injEq, true_and]
    funext x
    by_cases hxs : x = s
    · subst hxs; simp [table, hent, TimerEntry.timer]
    · simp [table, hent, hxs]

theorem start_error {err : TimerStartError} (e : start g w p d = some (w', .error err)) :
    w' = w := by
  unfold start at e
  split at e
  · obtain ⟨rfl, _⟩ := by simpa using e
    rfl
  · obtain ⟨r, _, e⟩ := Option.map_eq_some_iff.mp e
    simp at e

theorem liveSlot_some {handle : ℕ} (e : liveSlot w handle = some s) :
    s = handle ∧ (w.entries handle).live = true := by
  unfold liveSlot at e
  split at e
  · cases e
  · split at e
    · rename_i hlive
      exact ⟨by simpa using e.symm, hlive⟩
    · cases e

section

variable (h : Invariant g w)
include h

theorem Invariant.liveSlot_none {handle : ℕ} (e : liveSlot w handle = none) :
    table w handle = none := by
  obtain ⟨L, hl, _⟩ := h.lists
  by_cases hlive : (w.entries handle).live = true
  · have := (hl.range handle hlive).2
    simp [liveSlot, hlive] at e
    omega
  · simp [table, hlive]

theorem Invariant.unlink (hs : (w.entries s).live = true) :
    Indices g (unlink w s).currentTick (unlink w s).currentIndex ∧
    (g.overflow = true → (unlink w s).overflowHead = g.wheels * g.slots) ∧
    ∃ L, Linkage g (unlink w s) L [s] ∧ InPlace g (unlink w s) L := by
  obtain ⟨L, hl, hp⟩ := h.lists
  rcases (hl.live s).mp hs with hx | ⟨k, hk, hx⟩
  · simp at hx
  · obtain ⟨xs, ys, hL⟩ := append_of_mem hx
    have hb := sameBodies_unlink w s
    rw [hb.tick, hb.index, hb.overflowHead]
    refine ⟨h.indices, h.overflowHead, _, hl.unlink hk hL, fun j hj x hx => ?_⟩
    rw [hb.body x, hb.tick]
    refine hp j hj x ?_
    by_cases hjk : j = k
    · subst hjk
      rw [update_self] at hx
      rw [hL]
      rcases mem_append.mp hx with hx | hx <;> simp [hx]
    · rwa [update_of_ne hjk] at hx

theorem update_ok (hw : WithinTurn g w.currentTick d) (e : update g w slot d = (w', .ok true)) :
    Invariant g w' ∧ ∃ p D, table w slot = some (p, D) ∧ w'.clock =
      ⟨w.currentTick, Function.update (table w) slot (some (p, w.currentTick + d))⟩ := by
  unfold update at e
  split at e
  · simp at e
  · rename_i hv
    split at e
    · simp at e
    · rename_i s hs
      obtain ⟨rfl, hlive⟩ := liveSlot_some hs
      obtain ⟨rfl, _⟩ := by simpa using e
      obtain ⟨hi, ho, L, hl, hp⟩ := h.unlink hlive
      have hb := sameBodies_unlink w s
      have hpayload := hl.payload s (by rw [hb.live]; exact hlive)
      obtain ⟨p, hpay⟩ := Option.isSome_iff_exists.mp hpayload
      have hl1 := hl.setEntry (show s ∈ [s] by simp)
        (e := { (unlink w s).entries s with expirationTick := w.currentTick + d }) rfl rfl
      have hp1 : InPlace g (setEntry (unlink w s) s
          { (unlink w s).entries s with expirationTick := w.currentTick + d }) L :=
        hp.of_bodies rfl fun k hk x hx => by
          have hne : x ≠ s := fun e => hl.apart k hk x hx (by simp [e])
          simp [setEntry, hne]
      obtain ⟨hinv, hclock⟩ := placeTimer_invariant hl1 hp1 hi ho
        (validateInterval_ok hv).1 (by simp [setEntry, hb.tick])
        (fun hov => by
          show Reach g (unlink w s).currentTick ((unlink w s).currentTick + d)
          rw [hb.tick]; exact reach_of_withinTurn hv hw hov)
      rw [hb.payload] at hpay
      refine ⟨hinv, p, (w.entries s).expirationTick, table_some_iff.mpr ⟨hlive, hpay, rfl⟩, ?_⟩
      rw [hclock]
      simp only [Wheel.clock, setEntry, hb.tick, Clock.mk.injEq, true_and]
      funext x
      by_cases hxs : x = s
      · subst hxs; simp [table, hb.live, hb.payload, hlive, hpay]
      · rw [update_of_ne hxs]
        refine table_of_body ?_
        simp [hxs, hb.body x]

theorem update_other {r : Except TimerStartError Bool} (e : update g w slot d = (w', r))
    (hr : r ≠ .ok true) : w' = w ∧ (r = .ok false → table w slot = none) := by
  unfold update at e
  split at e
  · obtain ⟨rfl, rfl⟩ := by simpa using e
    exact ⟨rfl, by simp⟩
  · split at e
    · rename_i hs
      obtain ⟨rfl, rfl⟩ := by simpa using e
      exact ⟨rfl, fun _ => h.liveSlot_none hs⟩
    · exact absurd (Prod.mk.inj e).2.symm hr

theorem stop_true (e : stop w slot = (w', true)) : Invariant g w' ∧ table w slot ≠ none ∧
      w'.clock = ⟨w.currentTick, Function.update (table w) slot none⟩ := by
  unfold stop at e
  split at e
  · simp at e
  · rename_i s hs
    obtain ⟨rfl, hlive⟩ := liveSlot_some hs
    obtain ⟨rfl, _⟩ := by simpa using e
    obtain ⟨hi, ho, L, hl, hp⟩ := h.unlink hlive
    have hb := sameBodies_unlink w s
    have hent : ∀ x, x ≠ s →
        (freeTimer (unlink w s) s).entries x = (unlink w s).entries x := by
      intro x hx; simp [freeTimer, setEntry, hx]
    refine ⟨⟨⟨L, hl.freeTimer, ?_⟩, hi, ho⟩, ?_, ?_⟩
    · refine hp.of_bodies rfl fun k hk x hx => ?_
      rw [hent x fun e => hl.apart k hk x hx (by simp [e])]
    · obtain ⟨L0, hl0, _⟩ := h.lists
      obtain ⟨p, _, ht⟩ := table_of_live hl0 hlive
      simp [ht]
    · simp only [Wheel.clock, Clock.mk.injEq]
      refine ⟨hb.tick, funext fun x => ?_⟩
      by_cases hxs : x = s
      · subst hxs; simp [table, freeTimer, setEntry]
      · rw [update_of_ne hxs]
        refine table_of_body ?_
        rw [hent x hxs, hb.body x]

theorem stop_false (e : stop w slot = (w', false)) : w' = w ∧ table w slot = none := by
  unfold stop at e
  split at e
  · rename_i hs
    obtain rfl := by simpa using e
    exact ⟨rfl, h.liveSlot_none hs⟩
  · simp at e

end

end TimerWheel
