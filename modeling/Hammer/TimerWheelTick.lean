import Hammer.TimerWheelPlacement

/-! # One tick

Advancing the tick makes some lists due. They are drained from the overflow ring down to
the fast slot; every timer taken off fires if its deadline is the new tick and is put
where it belongs otherwise.
-/
namespace TimerWheel

open LinkedRing

variable {T : Type} {g : Geometry}

def table (w : Wheel T) (x : ℕ) : Option (T × ℕ) :=
  if (w.entries x).live then
    (w.entries x).payload.map fun p => (p, (w.entries x).expirationTick)
  else none

/-- Timers left since `s`: exactly those of `F`, all with the current tick as deadline. -/
structure Fires (F : List ℕ) (s s' : Wheel T × List T) : Prop where
  nodup : F.Nodup
  due : ∀ x ∈ F, ∃ p, table s.1 x = some (p, s.1.currentTick)
  output : s'.2 = s.2 ++ F.filterMap fun x => (table s.1 x).map Prod.fst
  table : ∀ x, table s'.1 x = if x ∈ F then none else table s.1 x
  tick : s'.1.currentTick = s.1.currentTick
  index : s'.1.currentIndex = s.1.currentIndex
  overflowHead : s'.1.overflowHead = s.1.overflowHead
  maxExpirations : s'.1.maxExpirations = s.1.maxExpirations

theorem Fires.refl (s : Wheel T × List T) : Fires [] s s :=
  ⟨List.nodup_nil, by simp, by simp, by simp, rfl, rfl, rfl, rfl⟩

theorem Fires.trans {F G : List ℕ} {s s' s'' : Wheel T × List T}
    (h : Fires F s s') (k : Fires G s' s'') : Fires (F ++ G) s s'' := by
  have hout : ∀ x ∈ G, x ∉ F := by
    intro x hx hf
    obtain ⟨p, hp⟩ := k.due x hx
    rw [h.table x, if_pos hf] at hp
    cases hp
  refine ⟨?_, ?_, ?_, ?_, k.tick.trans h.tick, k.index.trans h.index,
    k.overflowHead.trans h.overflowHead, k.maxExpirations.trans h.maxExpirations⟩
  · rw [List.nodup_append]
    exact ⟨h.nodup, k.nodup, fun a ha b hb e => hout b hb (e ▸ ha)⟩
  · intro x hx
    rcases List.mem_append.mp hx with hx | hx
    · exact h.due x hx
    · obtain ⟨p, hp⟩ := k.due x hx
      rw [h.table x, if_neg (hout x hx), h.tick] at hp
      exact ⟨p, hp⟩
  · rw [k.output, h.output, List.filterMap_append, List.append_assoc]
    congr 2
    apply List.filterMap_congr
    intro x hx
    rw [h.table x, if_neg (hout x hx)]
  · intro x
    rw [k.table x, h.table x]
    by_cases hx : x ∈ G <;> by_cases hy : x ∈ F <;> simp [hx, hy]

variable {w w' : Wheel T} {x : ℕ}

theorem table_congr (hl : (w'.entries x).live = (w.entries x).live)
    (hp : (w'.entries x).payload = (w.entries x).payload)
    (hd : (w'.entries x).expirationTick = (w.entries x).expirationTick) :
    table w' x = table w x := by
  simp [table, hl, hp, hd]

theorem table_of_body (hb : (w'.entries x).body = (w.entries x).body) : table w' x = table w x :=
  table_congr (congrArg Body.live hb) (congrArg Body.payload hb) (congrArg Body.expirationTick hb)

variable {L : ℕ → List ℕ} {rest : List ℕ} {head s : ℕ}

theorem Puts.table (hp : Puts g w w' L s rest head) (x : ℕ) :
    TimerWheel.table w' x = TimerWheel.table w x := by
  by_cases hx : x = s
  · subst hx; exact table_congr hp.live hp.payload hp.deadline
  · exact table_of_body (hp.body x hx)

theorem Puts.fires (hp : Puts g w w' L s rest head) (out : List T) : Fires [] (w, out) (w', out) :=
  ⟨List.nodup_nil, by simp, by simp, fun x => by simpa using hp.table x, hp.tick, hp.index,
    hp.overflowHead, hp.maxExpirations⟩

theorem SameBodies.fires (h : SameBodies w w') (out : List T) : Fires [] (w, out) (w', out) :=
  ⟨List.nodup_nil, by simp, by simp, fun x => by simpa using table_of_body (h.body x), h.tick,
    h.index, h.overflowHead, h.maxExpirations⟩

theorem table_of_live (h : Linkage g w L rest) (hx : (w.entries x).live = true) :
    ∃ p, (w.entries x).payload = some p ∧ table w x = some (p, (w.entries x).expirationTick) := by
  obtain ⟨p, hp⟩ := Option.isSome_iff_exists.mp (h.payload x hx)
  exact ⟨p, hp, by simp [table, hx, hp]⟩

theorem Linkage.live_of_rest (h : Linkage g w L rest) (hx : x ∈ rest) : (w.entries x).live = true :=
  (h.live x).mpr (Or.inl hx)

theorem expireTimer_spec (out : List T) (h : Linkage g w L (s :: rest))
    (hD : (w.entries s).expirationTick = w.currentTick) :
    ∃ s', expireTimer s (w, out) = some s' ∧ Linkage g s'.1 L rest ∧
      (∀ x, x ≠ s → s'.1.entries x = w.entries x) ∧ Fires [s] (w, out) s' := by
  obtain ⟨p, hp, ht⟩ := table_of_live h (h.live_of_rest (show s ∈ s :: rest by simp))
  refine ⟨(freeTimer w s, out ++ [p]), by simp [expireTimer, hp], h.freeTimer,
    fun x hx => by simp [freeTimer, setEntry, hx], ?_⟩
  rw [hD] at ht
  refine ⟨by simp, by simpa using ⟨p, ht⟩, by simp [ht], ?_, rfl, rfl, rfl, rfl⟩
  intro x
  by_cases hx : x = s
  · subst hx; simp [table, freeTimer, setEntry]
  · simp [table, freeTimer, setEntry, hx]

/-- All listed timers satisfy `P` of their entry and head. -/
def ListsSatisfy (g : Geometry) (P : Body T → ℕ → Prop) (w : Wheel T) (L : ℕ → List ℕ) : Prop :=
  ∀ h < g.headCount, ∀ x ∈ L h, P (w.entries x).body h

/-- What one pass through the body of a drain loop has to do with the timer in hand. -/
def BodySpec (g : Geometry) (c : Wheel T) (P : Body T → ℕ → Prop) (Q : Body T → Prop)
    (body : ℕ → Wheel T × List T → Option (Wheel T × List T)) : Prop :=
  ∀ w out L s rest, Linkage g w L (s :: rest) → w.currentTick = c.currentTick →
    w.currentIndex = c.currentIndex → w.overflowHead = c.overflowHead →
    Q (w.entries s).body → ListsSatisfy g P w L →
    ∃ s' L' F, body s (w, out) = some s' ∧ Linkage g s'.1 L' rest ∧
      (∀ x ∈ rest, s'.1.entries x = w.entries x) ∧ ListsSatisfy g P s'.1 L' ∧
      Fires F (w, out) s'

variable {P : Body T → ℕ → Prop}

theorem SameBodies.listsSatisfy (h : SameBodies w w') (hp : ListsSatisfy g P w L) :
    ListsSatisfy g P w' L :=
  fun k hk x hx => by rw [h.body x]; exact hp k hk x hx

theorem Puts.listsSatisfy (hput : Puts g w w' L s rest head) (h : Linkage g w L (s :: rest))
    (hl : ListsSatisfy g P w L) (hs : P (w'.entries s).body head) :
    ListsSatisfy g P w' (Function.update L head (s :: L head)) := by
  intro k hk x hx
  by_cases hxs : x = s
  · subst hxs
    by_cases hkh : k = head
    · subst hkh; exact hs
    · rw [Function.update_of_ne hkh] at hx
      exact absurd (List.mem_cons_self (a := x) (l := rest)) (h.apart k hk x hx)
  · rw [hput.body x hxs]
    refine hl k hk x ?_
    by_cases hkh : k = head
    · subst hkh; simpa [hxs] using hx
    · simpa [hkh] using hx

variable {body : ℕ → Wheel T × List T → Option (Wheel T × List T)} {c : Wheel T} {k : ℕ}

/-- The loop rule: induction on the timers still in hand. -/
theorem drain_spec {Q : Body T → Prop} (hbody : BodySpec g c P Q body)
    (hhead : head < g.headCount) (rest : List ℕ) :
    ∀ (fuel cur : ℕ) (w : Wheel T) (out : List T) (L : ℕ → List ℕ),
      rest.length ≤ fuel → Linkage g w L rest → Forward (nextOf w) cur rest head →
      w.currentTick = c.currentTick → w.currentIndex = c.currentIndex →
      w.overflowHead = c.overflowHead → (∀ x ∈ rest, Q (w.entries x).body) →
      ListsSatisfy g P w L →
      ∃ s' L' F, drain body head fuel cur (w, out) = some s' ∧ Linkage g s'.1 L' [] ∧
        ListsSatisfy g P s'.1 L' ∧ Fires F (w, out) s' := by
  induction rest with
  | nil =>
    intro fuel cur w out L _ hl hf _ _ _ _ hp
    have hcur : cur = head := hf
    refine ⟨(w, out), L, [], ?_, hl, hp, Fires.refl _⟩
    cases fuel <;> simp [drain, hcur]
  | cons s rest ih =>
    intro fuel cur w out L hfuel hl hf h1 h₂ h₃ hq hp
    obtain ⟨rfl, hf⟩ := hf
    have hne : cur ≠ head := by
      have := hl.headCount_le_of_rest (show cur ∈ cur :: rest by simp)
      omega
    have hcr : cur ∉ rest := (List.nodup_cons.mp hl.restNodup).1
    cases fuel with
    | zero => simp at hfuel
    | succ fuel =>
      have hb := sameBodies_detachEntry w cur
      have hsame : ∀ x, x ≠ cur → (detachEntry w cur).entries x = w.entries x := by
        intro x hx; simp [detachEntry, setPrev, setNext, setEntry, hx]
      obtain ⟨s1, L1, F1, e1, hl1, hr1, hp1, hF1⟩ :=
        hbody (detachEntry w cur) out L cur rest (hl.detachEntry (by simp))
          (hb.tick.trans h1) (hb.index.trans h₂) (hb.overflowHead.trans h₃)
          (by rw [hb.body]; exact hq cur (by simp)) (hb.listsSatisfy hp)
      have hkeep : ∀ x ∈ rest, s1.1.entries x = w.entries x := fun x hx => by
        rw [hr1 x hx, hsame x (fun e => hcr (e ▸ hx))]
      obtain ⟨s2, L2, F2, e2, hl2, hp2, hF2⟩ := ih fuel (nextOf w cur) s1.1 s1.2 L1
        (by simpa using hfuel) hl1
        (hf.congr fun x hx => by simp [nextOf, hkeep x hx])
        (hF1.tick.trans (hb.tick.trans h1)) (hF1.index.trans (hb.index.trans h₂))
        (hF1.overflowHead.trans (hb.overflowHead.trans h₃))
        (fun x hx => by rw [hkeep x hx]; exact hq x (by simp [hx])) hp1
      refine ⟨s2, L2, [] ++ F1 ++ F2, ?_, hl2, hp2, ((hb.fires out).trans hF1).trans hF2⟩
      simp only [drain, if_neg hne, e1, Option.bind_some]
      exact e2

/-- Draining one list: its timers satisfy `Q`, all others `P`, and all end up in `P`. -/
theorem drainList_spec {out : List T} {Q : Body T → Prop} (hbody : BodySpec g w P Q body)
    (hhead : head < g.headCount) (h : Linkage g w L [])
    (hQ : ∀ x ∈ L head, Q (w.entries x).body)
    (hP : ∀ k < g.headCount, k ≠ head → ∀ x ∈ L k, P (w.entries x).body k) :
    ∃ s' L' F, drainList body head (w, out) = some s' ∧ Linkage g s'.1 L' [] ∧
      ListsSatisfy g P s'.1 L' ∧ Fires F (w, out) s' := by
  obtain ⟨hl, hf⟩ := h.takeList hhead
  have hb := sameBodies_takeList w head
  have hlen : (L head).length ≤ (takeList w head).1.entriesLen := by
    have hsub : (L head).toFinset ⊆ Finset.range (takeList w head).1.entriesLen := by
      intro x hx
      have := hl.range x (hl.live_of_rest (by simpa using hx))
      simp [this.2]
    have := Finset.card_le_card hsub
    rwa [List.toFinset_card_of_nodup hl.restNodup, Finset.card_range] at this
  have hrest : ListsSatisfy g P (takeList w head).1 (Function.update L head []) := by
    intro k hk x hx
    rw [hb.body]
    by_cases hkh : k = head
    · subst hkh; simp at hx
    · exact hP k hk hkh x (by simpa [hkh] using hx)
  obtain ⟨s', L', F, e, hl', hp', hF⟩ := drain_spec hbody hhead (L head)
    (takeList w head).1.entriesLen (takeList w head).2 (takeList w head).1 out _ hlen hl hf
    hb.tick hb.index hb.overflowHead (fun x hx => by rw [hb.body]; exact hQ x hx) hrest
  exact ⟨s', L', [] ++ F, e, hl', hp', (hb.fires out).trans hF⟩

/-- The list that is drained at stage `k` of tick `t`: the fast slot, then the slow slot,
the glacier slot and the overflow ring when the rings below have wrapped. -/
def DueHead (g : Geometry) (t : ℕ) : ℕ → ℕ → Prop
  | 0, h => h = g.slotHead 0 (t % g.slots)
  | 1, h => 1 < g.wheels ∧ g.slots ∣ t ∧ h = g.slotHead 1 (t / g.slots % g.slots)
  | 2, h => 2 < g.wheels ∧ g.slots ∣ t ∧ g.slots ∣ t / g.slots ∧
      h = g.slotHead 2 (t / g.slots / g.slots % g.slots)
  | 3, h => g.hasOverflowRing = true ∧ g.slots ∣ t ∧ g.slots ∣ t / g.slots ∧
      g.slots ∣ t / g.slots / g.slots ∧ h = g.wheels * g.slots
  | _, _ => False

def DueTimer (g : Geometry) (t : ℕ) (D fast slow : ℕ) : ℕ → Prop
  | 0 => D = t
  | 1 => fast = D % g.slots ∧ D / g.slots = t / g.slots
  | 2 => fast = D % g.slots ∧ slow = D / g.slots % g.slots ∧
      D / g.slots / g.slots = t / g.slots / g.slots
  | 3 => t ≤ D
  | _ => False

/-- The stages below `k` are still to be drained, everything else is in place. -/
def Stage (g : Geometry) (t k : ℕ) (b : Body T) (h : ℕ) : Prop :=
  (∀ j < k, DueHead g t j h →
    DueTimer g t b.expirationTick b.fastRingOffset b.slowRingOffset j) ∧
  ((∀ j < k, ¬ DueHead g t j h) →
    Placed g t b.expirationTick b.fastRingOffset b.slowRingOffset h)

theorem succ_div_of_not_dvd {t n : ℕ} (h : ¬ n ∣ t + 1) : (t + 1) / n = t / n := by
  rw [Nat.succ_div, if_neg h, Nat.add_zero]

theorem succ_div_of_dvd {t n : ℕ} (h : n ∣ t + 1) : (t + 1) / n = t / n + 1 := by
  rw [Nat.succ_div, if_pos h]

/-- A digit does not step before the deadline `b` that shares it. -/
theorem div_stays {a a' b n : ℕ} (hab : a < b) (ha : a' = a ∨ a' = a + 1) (hb : b / n = a / n) :
    a' / n = a / n := by
  rcases ha with rfl | rfl
  · rfl
  · refine succ_div_of_not_dvd fun hd => ?_
    have := Nat.div_le_div_right (c := n) (show a + 1 ≤ b by omega)
    rw [succ_div_of_dvd hd] at this
    omega

/-- Timers of the fast slots: the one slot the tick reaches holds exactly the due ones. -/
theorem stage_of_fast {t D : ℕ} (fast slow : ℕ) (h1 : t < D)
    (h₂ : g.wheels = 1 → D ≤ t + g.slots) (h₃ : 1 < g.wheels → D / g.slots = t / g.slots) :
    (D % g.slots = (t + 1) % g.slots → D = t + 1) ∧
    (D % g.slots ≠ (t + 1) % g.slots →
      Placed g (t + 1) D fast slow (g.slotHead 0 (D % g.slots))) := by
  have hw := g.wheels_pos
  have hstep : 1 < g.wheels → (t + 1) / g.slots = t / g.slots := fun hw =>
    div_stays h1 (Or.inr rfl) (h₃ hw)
  constructor
  · intro he
    rcases hw.lt_or_eq with hw | hw
    · exact eq_of_div_eq he (by rw [h₃ hw, hstep hw])
    · exact (eq_of_mod_eq he.symm (by omega) (by omega)).symm
  · intro hne
    refine .fast (lt_of_le_of_ne h1 fun e => hne (by rw [← e])) (fun hw => ?_) (fun hw => ?_)
    · omega
    · rw [h₃ hw, hstep hw]

/-- The digit argument shared by the slow and the glacier ring: `a` and `b` are the tick and
the deadline divided down to the ring, of which only the tick's may step. -/
theorem ring_step {a b n : ℕ} (a' : ℕ) (hab : a < b) (ha : a' = a ∨ a' = a + 1)
    (hb : b < a + n ∨ b / n = a' / n) :
    (b % n = a' % n → a' = a + 1 → b = a') ∧ (¬ (b % n = a' % n ∧ a' = a + 1) → a' < b) := by
  constructor
  · intro hm he
    rcases hb with hb | hb
    · exact (eq_of_mod_eq hm.symm (by omega) (by omega)).symm
    · exact eq_of_div_eq hm hb
  · intro hne
    rcases ha with rfl | ha
    · exact hab
    · refine lt_of_le_of_ne (by omega) fun e => hne ⟨by rw [e], ha⟩

theorem succ_div_cases (t n : ℕ) :
    (¬ n ∣ t + 1 ∧ (t + 1) / n = t / n) ∨ (n ∣ t + 1 ∧ (t + 1) / n = t / n + 1) := by
  by_cases h : n ∣ t + 1
  · exact Or.inr ⟨h, succ_div_of_dvd h⟩
  · exact Or.inl ⟨h, succ_div_of_not_dvd h⟩

theorem overflowHead_eq (hov : g.hasOverflowRing = true) : g.wheels * g.slots = g.slotHead 3 0 := by
  rw [(g.hasOverflowRing_iff.mp hov).2]
  rfl

theorem DueHead.ring_eq {t j r d : ℕ} (hd : d < g.slots) (hh : DueHead g t j (g.slotHead r d)) :
    r = j := by
  have hmod := fun a => Nat.mod_lt a g.slots_pos
  match j, hh with
  | 0, hh => exact (slotHead_inj hd (hmod _) hh).1
  | 1, hh => exact (slotHead_inj hd (hmod _) hh.2.2).1
  | 2, hh => exact (slotHead_inj hd (hmod _) hh.2.2.2).1
  | 3, hh => exact (slotHead_inj hd g.slots_pos (hh.2.2.2.2.trans (overflowHead_eq hh.1))).1

/-- Advancing the tick: what was placed for `t` is due or placed for `t + 1`. -/
theorem Placed.stage {t D fast slow h : ℕ} (p : Placed g t D fast slow h) :
    (∀ j < 4, DueHead g (t + 1) j h → DueTimer g (t + 1) D fast slow j) ∧
    ((∀ j < 4, ¬ DueHead g (t + 1) j h) → Placed g (t + 1) D fast slow h) := by
  have hpos := g.slots_pos
  have hmod := fun a => Nat.mod_lt a hpos
  cases p with
  | fast h1 h₂ h₃ =>
    obtain ⟨hdue, hplaced⟩ := stage_of_fast fast slow h1 h₂ h₃
    constructor
    · intro j hj hh
      obtain rfl := hh.ring_eq (hmod _)
      exact hdue (slotHead_inj (hmod _) (hmod _) hh).2
    · intro hn
      exact hplaced fun e => hn 0 (by omega) (by simp [DueHead, e])
  | slow hw hf hlt h2 h3 =>
    have hcase := succ_div_cases t g.slots
    -- with three rings the slow digit cannot wrap while a timer waits on the slow ring
    have hup : 2 < g.wheels → (t + 1) / g.slots / g.slots = t / g.slots / g.slots := fun hw3 =>
      div_stays hlt (by omega) (h3 hw3)
    have hstep := ring_step ((t + 1) / g.slots) hlt (by omega) (by
      by_cases hw2 : 2 < g.wheels
      · exact Or.inr (by rw [h3 hw2, hup hw2])
      · exact Or.inl (h2 (by omega)))
    constructor
    · intro j hj hh
      obtain rfl := hh.ring_eq (hmod _)
      have e := (slotHead_inj (hmod _) (hmod _) hh.2.2).2
      exact ⟨hf, hstep.1 e (by have := succ_div_of_dvd hh.2.1; omega)⟩
    · intro hn
      refine .slow hw hf (hstep.2 ?_) (fun hw => ?_) (fun hw => by rw [h3 hw, hup hw])
      · rintro ⟨e, e'⟩
        refine hn 1 (by omega) ⟨hw, ?_, by rw [e]⟩
        rcases hcase with ⟨_, e''⟩ | ⟨hd, _⟩
        · omega
        · exact hd
      · omega
  | glacier hw hf hs hlt h2 h3 =>
    have hcase := succ_div_cases t g.slots
    have hcase2 : (t + 1) / g.slots / g.slots = t / g.slots / g.slots ∨
        (g.slots ∣ t + 1 ∧ g.slots ∣ (t + 1) / g.slots ∧
          (t + 1) / g.slots / g.slots = t / g.slots / g.slots + 1) := by
      rcases hcase with ⟨_, e⟩ | ⟨hd, e⟩
      · exact Or.inl (by rw [e])
      · rcases succ_div_cases (t / g.slots) g.slots with ⟨_, e'⟩ | ⟨hd', e'⟩
        · exact Or.inl (by rw [e, e'])
        · exact Or.inr ⟨hd, by rw [e]; exact hd', by rw [e, e']⟩
    have hup : g.hasOverflowRing = true → (t + 1) / g.slots / g.slots / g.slots =
        t / g.slots / g.slots / g.slots := fun hov => div_stays hlt (by omega) (h3 hov)
    have hstep := ring_step ((t + 1) / g.slots / g.slots) hlt (by omega) (by
      cases hov : g.hasOverflowRing with
      | false => exact Or.inl (h2 hov)
      | true => exact Or.inr (by rw [h3 hov, hup hov]))
    constructor
    · intro j hj hh
      obtain rfl := hh.ring_eq (hmod _)
      have e := (slotHead_inj (hmod _) (hmod _) hh.2.2.2).2
      refine ⟨hf, hs, hstep.1 e ?_⟩
      have e1 := succ_div_of_dvd hh.2.1
      have e2 := hh.2.2.1
      rw [e1] at e2 ⊢
      exact succ_div_of_dvd e2
    · intro hn
      refine .glacier hw hf hs (hstep.2 ?_) (fun hov => ?_) (fun hov => by rw [h3 hov, hup hov])
      · rintro ⟨e, e'⟩
        rcases hcase2 with e'' | ⟨hd, hd', _⟩
        · omega
        · exact hn 2 (by omega) ⟨hw, hd, hd', by rw [e]⟩
      · have := h2 hov
        omega
  | overflow hov hlt =>
    constructor
    · intro j hj hh
      rw [overflowHead_eq hov] at hh
      obtain rfl := hh.ring_eq hpos
      exact lt_of_div_lt (lt_of_div_lt (lt_of_div_lt hlt))
    · intro hn
      refine .overflow hov ?_
      have h3 := hn 3 (by omega)
      simp only [DueHead, hov, true_and, and_true, not_and] at h3
      rcases succ_div_cases t g.slots with ⟨_, e⟩ | ⟨hd, e⟩
      · rwa [e]
      · rcases succ_div_cases (t / g.slots) g.slots with ⟨_, e'⟩ | ⟨hd', e'⟩
        · rwa [e, e']
        · rcases succ_div_cases (t / g.slots / g.slots) g.slots with ⟨_, e''⟩ | ⟨hd'', e''⟩
          · rwa [e, e', e'']
          · exact absurd (by rw [e, e']; exact hd'') (h3 hd (by rw [e]; exact hd'))

/-- With a second ring a timer in place is in none of the three current slots. -/
theorem Placed.not_dueHead {t D fast slow h j : ℕ} (hw : 1 < g.wheels)
    (p : Placed g t D fast slow h) (hj : j < 3) : ¬ DueHead g t j h := by
  have hmod := fun a => Nat.mod_lt a g.slots_pos
  intro hh
  cases p with
  | fast h1 _ h₃ =>
    obtain rfl := hh.ring_eq (hmod _)
    exact h1.ne' (eq_of_div_eq (slotHead_inj (hmod _) (hmod _) hh).2 (h₃ hw))
  | slow _ _ hlt h2 h3 =>
    obtain rfl := hh.ring_eq (hmod _)
    have e := (slotHead_inj (hmod _) (hmod _) hh.2.2).2
    by_cases hw2 : 2 < g.wheels
    · exact hlt.ne' (eq_of_div_eq e (h3 hw2))
    · exact hlt.ne (eq_of_mod_eq e.symm hlt.le (h2 (by omega)))
  | glacier _ _ _ hlt h2 h3 =>
    obtain rfl := hh.ring_eq (hmod _)
    have e := (slotHead_inj (hmod _) (hmod _) hh.2.2.2).2
    cases hov : g.hasOverflowRing with
    | false => exact hlt.ne (eq_of_mod_eq e.symm hlt.le (h2 hov))
    | true => exact hlt.ne' (eq_of_div_eq e (h3 hov))
  | overflow hov =>
    rw [overflowHead_eq hov] at hh
    exact absurd (hh.ring_eq g.slots_pos) (by omega)

theorem stage_of_placed {t h : ℕ} {b : Body T} (hw : 1 < g.wheels) (hk : k ≤ 3)
    (p : Placed g t b.expirationTick b.fastRingOffset b.slowRingOffset h) : Stage g t k b h :=
  ⟨fun _ hj hh => absurd hh (p.not_dueHead hw (by omega)), fun _ => p⟩

theorem Puts.bodySpec {out : List T} (hput : Puts g w w' L s rest head)
    (h : Linkage g w L (s :: rest)) (hw : 1 < g.wheels) (hk : k ≤ 3)
    (hl : ListsSatisfy g (Stage g w.currentTick k) w L) (hs : PlacedAt g w' s head) :
    ∃ s' L' F, some (w', out) = some s' ∧ Linkage g s'.1 L' rest ∧
      (∀ x ∈ rest, s'.1.entries x = w.entries x) ∧
      ListsSatisfy g (Stage g w.currentTick k) s'.1 L' ∧ Fires F (w, out) s' := by
  refine ⟨(w', out), _, [], rfl, hput.linkage, hput.rest, hput.listsSatisfy h hl ?_, hput.fires out⟩
  unfold PlacedAt at hs
  rw [hput.tick] at hs
  exact stage_of_placed hw hk hs

theorem expireTimer_bodySpec (c : Wheel T) (P : Body T → ℕ → Prop) :
    BodySpec g c P (fun b => b.expirationTick = c.currentTick) expireTimer := by
  intro w out L s rest h ht _ _ hq hl
  obtain ⟨s', e, hl', hsame, hF⟩ := expireTimer_spec out h (hq.trans ht.symm)
  have hs := (List.nodup_cons.mp h.restNodup).1
  refine ⟨s', L, [s], e, hl', fun x hx => hsame x fun e => hs (e ▸ hx), ?_, hF⟩
  intro k hk x hx
  rw [hsame x fun e => h.apart k hk x hx (by simp [e])]
  exact hl k hk x hx

theorem lt_of_div_eq {a b n : ℕ} (hd : b / n = a / n) (ha : n ∣ a) (hm : b % n ≠ a % n) :
    a < b := by
  have h1 := Nat.div_add_mod a n
  have h₂ := Nat.div_add_mod b n
  rw [hd] at h₂
  omega

theorem slowBody_bodySpec (hw : 1 < g.wheels)
    (hi : Indices g c.currentTick c.currentIndex) (hd : g.slots ∣ c.currentTick) :
    BodySpec g c (Stage g c.currentTick 1) (fun b => DueTimer g c.currentTick b.expirationTick
      b.fastRingOffset b.slowRingOffset 1) (slowBody g) := by
  intro w out L s rest h ht hx hov hq hl
  obtain ⟨hf, hdiv⟩ := hq
  change (w.entries s).fastRingOffset = (w.entries s).expirationTick % g.slots at hf
  have hidx : w.currentIndex 0 = c.currentTick % g.slots := by rw [hx, hi.fast]
  simp only [slowBody, hf, hidx]
  split
  · rename_i he
    exact expireTimer_bodySpec c _ w out L s rest h ht hx hov (eq_of_div_eq he hdiv) hl
  · rename_i hne
    have hput := h.puts_fast (slotHead_lt_headCount (g := g) (Nat.lt_of_lt_of_le one_pos
      g.wheels_pos) (Nat.mod_lt (w.entries s).expirationTick g.slots_pos))
    rw [← ht] at hl hd hdiv hne ⊢
    refine hput.bodySpec h hw (by omega) hl (placedAt_of_body
      ((sameBodies_addToFastSlot w _ s).body s) hput.tick rfl rfl rfl ?_)
    exact .fast (lt_of_div_eq hdiv hd hne) (fun h => by omega) (fun _ => hdiv)

theorem glacierBody_bodySpec (hw : 2 < g.wheels)
    (hi : Indices g c.currentTick c.currentIndex) (hd : g.slots ∣ c.currentTick)
    (hd' : g.slots ∣ c.currentTick / g.slots) :
    BodySpec g c (Stage g c.currentTick 2) (fun b => DueTimer g c.currentTick b.expirationTick
      b.fastRingOffset b.slowRingOffset 2) (glacierBody g) := by
  intro w out L s rest h ht hx hov hq hl
  obtain ⟨hf, hs, hdiv⟩ := hq
  change (w.entries s).fastRingOffset = (w.entries s).expirationTick % g.slots at hf
  change (w.entries s).slowRingOffset = (w.entries s).expirationTick / g.slots % g.slots at hs
  have hidx : w.currentIndex 0 = c.currentTick % g.slots := by rw [hx, hi.fast]
  have hidx1 : w.currentIndex 1 = c.currentTick / g.slots % g.slots := by
    rw [hx, hi.slow (by omega)]
  have hmod := fun a => Nat.mod_lt a g.slots_pos
  simp only [glacierBody, hf, hs, hidx, hidx1]
  split
  · rename_i he
    exact expireTimer_bodySpec c _ w out L s rest h ht hx hov
      (eq_of_div_eq he.2 (eq_of_div_eq he.1 hdiv)) hl
  · rename_i hne
    rw [← ht] at hl hd hd' hdiv hne ⊢
    split
    · rename_i he
      have hput := h.puts_fast (slotHead_lt_headCount (g := g) (Nat.lt_of_lt_of_le one_pos
        g.wheels_pos) (hmod (w.entries s).expirationTick))
      have hdiv1 := eq_of_div_eq he hdiv
      refine hput.bodySpec h (by omega) (by omega) hl (placedAt_of_body
        ((sameBodies_addToFastSlot w _ s).body s) hput.tick rfl rfl rfl ?_)
      exact .fast (lt_of_div_eq hdiv1 hd fun e => hne ⟨he, e⟩) (fun h => by omega) (fun _ => hdiv1)
    · rename_i he
      have hput := h.puts (slotHead_lt_headCount (g := g) (show 1 < g.wheels by omega)
        (hmod ((w.entries s).expirationTick / g.slots)))
      refine hput.bodySpec h (by omega) (by omega) hl (placedAt_of_body
        ((sameBodies_addToList w _ s).body s) hput.tick rfl hf rfl ?_)
      exact .slow (by omega) rfl (lt_of_div_eq hdiv hd' he) (fun h => by omega) (fun _ => hdiv)

theorem shouldOverflow_iff {d : ℕ} (hov : g.hasOverflowRing = true) :
    shouldOverflow g w d = true ↔ w.currentTick / g.slots / g.slots / g.slots <
      (w.currentTick + d) / g.slots / g.slots / g.slots := by
  have hh : g.horizon = g.slots * g.slots * g.slots := by
    rw [Geometry.horizon, (g.hasOverflowRing_iff.mp hov).2]; ring
  have hpos : 0 < g.horizon := by
    rw [hh]; have := g.slots_pos; positivity
  have h64 : g.horizon < 2 ^ 64 := g.horizon_u64
  simp only [Nat.div_div_eq_div_mul, ← hh, shouldOverflow, hov, if_true, decide_eq_true_eq]
  have h1 := Nat.div_add_mod w.currentTick g.horizon
  rw [Nat.lt_iff_add_one_le, Nat.le_div_iff_mul_le hpos, Nat.add_mul, Nat.mul_comm]
  omega

theorem placeTimer_spec {d : ℕ} (h : Linkage g w L (s :: rest))
    (hi : Indices g w.currentTick w.currentIndex)
    (ho : g.overflow = true → w.overflowHead = g.wheels * g.slots) (hd : 0 < d)
    (hD : (w.entries s).expirationTick = w.currentTick + d)
    (hr : g.hasOverflowRing = false → Reach g w.currentTick (w.currentTick + d)) :
    ∃ head, Puts g w (placeTimer g w s d) L s rest head ∧
      PlacedAt g (placeTimer g w s d) s head := by
  cases hov : g.hasOverflowRing with
  | false =>
    have : shouldOverflow g w d = false := by simp [shouldOverflow, hov]
    simp only [placeTimer, this]
    exact placeTimerDirect_spec h hi hd hD (hr hov)
  | true =>
    have hgo := (g.hasOverflowRing_iff.mp hov).1
    unfold placeTimer
    split
    · rename_i hso
      have hlt := (shouldOverflow_iff hov).mp hso
      rw [ho hgo]
      have hput := h.puts (show g.wheels * g.slots < g.headCount by simp [Geometry.headCount, hgo])
      exact ⟨_, hput, placedAt_of_body ((sameBodies_addToList w _ s).body s) hput.tick hD rfl rfl
        (.overflow hov hlt)⟩
    · rename_i hso
      have hle := mt (shouldOverflow_iff hov).mpr hso
      have hge : w.currentTick / g.slots / g.slots / g.slots ≤
          (w.currentTick + d) / g.slots / g.slots / g.slots :=
        Nat.div_le_div_right (Nat.div_le_div_right (Nat.div_le_div_right (by omega)))
      have hwheels := (g.hasOverflowRing_iff.mp hov).2
      refine placeTimerDirect_spec h hi hd hD ⟨fun h => by omega, fun h => by omega,
        fun _ h => by simp [hov] at h, fun _ => by omega⟩

theorem overflowBody_bodySpec (hov : g.hasOverflowRing = true)
    (hi : Indices g c.currentTick c.currentIndex)
    (ho : g.overflow = true → c.overflowHead = g.wheels * g.slots) :
    BodySpec g c (Stage g c.currentTick 3) (fun b => DueTimer g c.currentTick b.expirationTick
      b.fastRingOffset b.slowRingOffset 3) (overflowBody g) := by
  intro w out L s rest h ht hx hho hq hl
  have hge : c.currentTick ≤ (w.entries s).expirationTick := hq
  have hwheels := (g.hasOverflowRing_iff.mp hov).2
  simp only [overflowBody]
  split
  · exact expireTimer_bodySpec c _ w out L s rest h ht hx hho
      (show (w.entries s).expirationTick = c.currentTick by omega) hl
  · rw [← ht] at hl hge ⊢
    rw [← ht, ← hx] at hi
    rw [← hho] at ho
    obtain ⟨head, hput, hp⟩ := placeTimer_spec (d := (w.entries s).expirationTick - w.currentTick)
      h hi ho (by omega) (by omega) (fun h => by simp [hov] at h)
    have hcases : (if shouldOverflow g w ((w.entries s).expirationTick - w.currentTick) then
          some (addToList w w.overflowHead s, out)
        else some (placeTimerDirect g w s ((w.entries s).expirationTick - w.currentTick), out)) =
        some (placeTimer g w s ((w.entries s).expirationTick - w.currentTick), out) := by
      unfold placeTimer; split <;> rfl
    rw [hcases]
    exact hput.bodySpec h (by omega) (by omega) hl hp

theorem Stage.pass {t h : ℕ} {b : Body T} (hs : Stage g t (k + 1) b h) (hn : ¬ DueHead g t k h) :
    Stage g t k b h := by
  refine ⟨fun j hj hh => hs.1 j (by omega) hh, fun hall => hs.2 fun j hj => ?_⟩
  rcases Nat.lt_succ_iff_lt_or_eq.mp hj with hj | rfl
  · exact hall j hj
  · exact hn

theorem drainStage_spec (out : List T)
    (hbody : BodySpec g w (Stage g w.currentTick k) (fun b => DueTimer g w.currentTick
      b.expirationTick b.fastRingOffset b.slowRingOffset k) body)
    (hhead : head < g.headCount) (hdue : ∀ h, DueHead g w.currentTick k h ↔ h = head)
    (h : Linkage g w L []) (hs : ListsSatisfy g (Stage g w.currentTick (k + 1)) w L) :
    ∃ s' L' F, drainList body head (w, out) = some s' ∧ Linkage g s'.1 L' [] ∧
      ListsSatisfy g (Stage g w.currentTick k) s'.1 L' ∧ Fires F (w, out) s' :=
  drainList_spec hbody hhead h
    (fun x hx => (hs head hhead x hx).1 k (Nat.lt_succ_self k) ((hdue head).mpr rfl))
    (fun j hj hne x hx => (hs j hj x hx).pass fun hh => hne ((hdue j).mp hh))

theorem advanceRing_eq {ring : Fin 3} {a : ℕ} (h : w.currentIndex ring = a % g.slots) :
    advanceRing g w ring = ({ w with
      currentIndex := Function.update w.currentIndex ring ((a + 1) % g.slots) },
      decide (g.slots ∣ a + 1)) := by
  have hpos := g.slots_pos
  have hlt := Nat.mod_lt a hpos
  have hmod : (a + 1) % g.slots = (a % g.slots + 1) % g.slots := by simp
  unfold advanceRing
  simp only [h, Nat.dvd_iff_mod_eq_zero, hmod]
  split
  · rename_i he
    simp [he]
  · have hs : a % g.slots + 1 < g.slots := by omega
    simp [Nat.mod_eq_of_lt hs]

theorem hasOverflowRing_eq_false (hw : ¬ 2 < g.wheels) : g.hasOverflowRing = false := by
  simp only [Geometry.hasOverflowRing, Bool.and_eq_false_iff, beq_eq_false_iff_ne]
  exact Or.inr (by omega)

/-- The tick with the wrap flags written as divisibility and the rings turned at once. -/
theorem advanceOneTick_eq (out : List T) (ht : w.currentTick + 1 < 2 ^ 64)
    (hi : Indices g w.currentTick w.currentIndex) :
    ∃ index, Indices g (w.currentTick + 1) index ∧ ∀ c : Wheel T,
      c = { w with currentTick := w.currentTick + 1, currentIndex := index } →
      advanceOneTick g (w, out) = (if g.hasOverflowRing = true ∧ g.slots ∣ c.currentTick ∧
            g.slots ∣ c.currentTick / g.slots ∧ g.slots ∣ c.currentTick / g.slots / g.slots then
          processOverflow g (c, out) else some (c, out)).bind fun s =>
        (if 2 < g.wheels ∧ g.slots ∣ c.currentTick ∧ g.slots ∣ c.currentTick / g.slots then
          cascadeGlacier g s else some s).bind fun s =>
        (if 1 < g.wheels ∧ g.slots ∣ c.currentTick then cascadeSlow g s else some s).bind
          (expireFastSlot g) := by
  have hlt : ¬ 2 ^ 64 ≤ w.currentTick + 1 := by omega
  have hw3 := g.wheels_le
  have h0 : advanceRing g { w with currentTick := w.currentTick + 1 } 0 = _ :=
    advanceRing_eq hi.fast
  -- the indices after the first and after the second ring
  set fast := Function.update w.currentIndex 0 ((w.currentTick + 1) % g.slots) with hfast
  set slow := Function.update fast 1 ((w.currentTick / g.slots + 1) % g.slots) with hslow
  unfold advanceOneTick
  simp only [if_neg hlt, h0]
  by_cases hd : g.slots ∣ w.currentTick + 1 ∧ 1 < g.wheels
  · obtain ⟨hd, hw⟩ := hd
    have hdiv := succ_div_of_dvd hd
    have h1 : advanceRing g { w with
        currentTick := w.currentTick + 1
        currentIndex := fast } 1 = _ :=
      advanceRing_eq (a := w.currentTick / g.slots) (by simpa [hfast] using hi.slow hw)
    simp only [hd, hw, decide_true, and_self, if_true, h1, ← hslow]
    by_cases hd' : g.slots ∣ w.currentTick / g.slots + 1 ∧ 2 < g.wheels
    · obtain ⟨hd', hw'⟩ := hd'
      have hdiv' := succ_div_of_dvd hd'
      have h₂ : advanceRing g { w with
          currentTick := w.currentTick + 1
          currentIndex := slow } 2 = _ :=
        advanceRing_eq (a := w.currentTick / g.slots / g.slots)
          (by simpa [hslow, hfast] using hi.glacier hw')
      have hw3' : g.wheels = 3 := by omega
      refine ⟨Function.update slow 2 ((w.currentTick / g.slots / g.slots + 1) % g.slots),
        ⟨?_, ?_, ?_⟩, ?_⟩
      · simp [hslow, hfast]
      · simp [hslow, hdiv]
      · simp [hdiv, hdiv']
      · simp [hd, hd', h₂, hdiv, hdiv', g.hasOverflowRing_iff, hw3', and_comm]
    · refine ⟨slow, ⟨?_, ?_, ?_⟩, ?_⟩
      · simp [hslow, hfast]
      · simp [hslow, hdiv]
      · intro hw'
        have hnd : ¬ g.slots ∣ w.currentTick / g.slots + 1 := fun h => hd' ⟨h, hw'⟩
        have := hi.glacier hw'
        simp [hslow, hfast, hdiv, succ_div_of_not_dvd hnd, this]
      · by_cases hw' : 2 < g.wheels
        · have hnd : ¬ g.slots ∣ w.currentTick / g.slots + 1 := fun h => hd' ⟨h, hw'⟩
          simp [hd, hnd, hdiv]
        · simp [hd, hw', hasOverflowRing_eq_false hw']
  · refine ⟨fast, ⟨?_, ?_, ?_⟩, ?_⟩
    · simp [hfast]
    · intro hw
      have hnd : ¬ g.slots ∣ w.currentTick + 1 := fun h => hd ⟨h, hw⟩
      have := hi.slow hw
      simp [hfast, succ_div_of_not_dvd hnd, this]
    · intro hw
      have hnd : ¬ g.slots ∣ w.currentTick + 1 := fun h => hd ⟨h, by omega⟩
      have := hi.glacier hw
      simp [hfast, succ_div_of_not_dvd hnd, this]
    · by_cases hw : 1 < g.wheels
      · have hnd : ¬ g.slots ∣ w.currentTick + 1 := fun h => hd ⟨h, hw⟩
        simp [hnd]
      · have hw' : ¬ 2 < g.wheels := by omega
        simp [hw, hw', hasOverflowRing_eq_false hw']

end TimerWheel
