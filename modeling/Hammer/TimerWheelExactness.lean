import Hammer.TimerWheelRuns

/-! # Every timer fires at its deadline

The steps of a run, the clock they implement, and what becomes of a timer once it is armed.
-/
namespace TimerWheel

open Function

variable {T : Type} {g : Geometry}

inductive Event (T : Type) where
  | start (payload : T) (interval : ℕ) (result : Except TimerStartError ℕ)
  | update (handle interval : ℕ) (result : Except TimerStartError Bool)
  | stop (handle : ℕ) (result : Bool)
  | expire (ticks : ℕ) (fired : List T)

/-- A call on the wheel that returns. -/
inductive Step (g : Geometry) : Wheel T → Event T → Wheel T → Prop where
  | start {w w' p d r} : start g w p d = some (w', r) → Step g w (.start p d r) w'
  | update {w w' h d r} : update g w h d = (w', r) → Step g w (.update h d r) w'
  | stop {w w' h r} : stop w h = (w', r) → Step g w (.stop h r) w'
  | expire {w w' n fired} (old : List T) : expire g w n old = some (w', old ++ fired) →
      Step g w (.expire n fired) w'

def Event.WithinTurn (g : Geometry) (tick : ℕ) : Event T → Prop
  | .start _ interval _ => TimerWheel.WithinTurn g tick interval
  | .update _ interval _ => TimerWheel.WithinTurn g tick interval
  | _ => True

inductive Execution (g : Geometry) : Wheel T → List (Event T) → Wheel T → Prop where
  | nil (w) : Execution g w [] w
  | cons {w w' w'' e es} : Step g w e w' → e.WithinTurn g w.currentTick →
      Execution g w' es w'' → Execution g w (e :: es) w''

inductive Clock.Step : Clock T → Event T → Clock T → Prop where
  | start {c h p d} : c.pending h = none → Clock.Step c (.start p d (.ok h))
      ⟨c.tick, Function.update c.pending h (some (p, c.tick + d))⟩
  | startRejected {c p d e} : Clock.Step c (.start p d (.error e)) c
  | update {c h p D d} : c.pending h = some (p, D) → Clock.Step c (.update h d (.ok true))
      ⟨c.tick, Function.update c.pending h (some (p, c.tick + d))⟩
  | updateDead {c h d} : c.pending h = none → Clock.Step c (.update h d (.ok false)) c
  | updateRejected {c h d e} : Clock.Step c (.update h d (.error e)) c
  | stop {c h} : c.pending h ≠ none →
      Clock.Step c (.stop h true) ⟨c.tick, Function.update c.pending h none⟩
  | stopDead {c h} : c.pending h = none → Clock.Step c (.stop h false) c
  | expire {c c' n k F fired} : k ≤ n → c.Advance k F fired c' → Clock.Step c (.expire n fired) c'

inductive Clock.Execution : Clock T → List (Event T) → Clock T → Prop where
  | nil (c) : Clock.Execution c [] c
  | cons {c c' c'' e es} : Clock.Step c e c' → Clock.Execution c' es c'' →
      Clock.Execution c (e :: es) c''

theorem expire_spec {w w' : Wheel T} {n : ℕ} {old fired : List T} (h : Invariant g w)
    (e : expire g w n old = some (w', old ++ fired)) :
    Invariant g w' ∧ ∃ k F, k ≤ n ∧ w.clock.Advance k F fired w'.clock := by
  obtain ⟨k, F, fired', hk, hout, h', ha⟩ := expireLoop_spec n h e
  obtain rfl := List.append_cancel_left hout
  exact ⟨h', k, F, hk, ha⟩

/-- Each step of the wheel is a step of the clock. -/
theorem step_refines {w w' : Wheel T} {e : Event T} (h : Invariant g w) (hs : Step g w e w')
    (hw : e.WithinTurn g w.currentTick) :
    Invariant g w' ∧ Clock.Step w.clock e w'.clock := by
  cases hs with
  | @start _ p d r hs =>
    cases r with
    | error err => rw [start_error hs]; exact ⟨h, .startRejected⟩
    | ok slot =>
      obtain ⟨h', hnone, hc⟩ := start_ok h hw hs
      rw [hc]
      exact ⟨h', .start hnone⟩
  | @update _ slot d r hs =>
    match r, hs with
    | .ok true, hs =>
      obtain ⟨h', p, D, hp, hc⟩ := update_ok h hw hs
      rw [hc]
      exact ⟨h', .update hp⟩
    | .ok false, hs =>
      obtain ⟨rfl, hnone⟩ := update_other h hs (by simp)
      exact ⟨h, .updateDead (hnone rfl)⟩
    | .error _, hs =>
      obtain ⟨rfl, _⟩ := update_other h hs (by simp)
      exact ⟨h, .updateRejected⟩
  | @stop _ slot r hs =>
    cases r with
    | true =>
      obtain ⟨h', hp, hc⟩ := stop_true h hs
      rw [hc]
      exact ⟨h', .stop hp⟩
    | false =>
      obtain ⟨rfl, hnone⟩ := stop_false h hs
      exact ⟨h, .stopDead hnone⟩
  | expire old hs =>
    obtain ⟨h', k, F, hk, ha⟩ := expire_spec h hs
    exact ⟨h', .expire hk ha⟩

theorem execution_refines {w w' : Wheel T} {es : List (Event T)} (hr : Execution g w es w')
    (h : Invariant g w) : Invariant g w' ∧ Clock.Execution w.clock es w'.clock := by
  induction hr with
  | nil w => exact ⟨h, .nil _⟩
  | cons hs hw _ ih =>
    obtain ⟨h1, hc⟩ := step_refines h hs hw
    obtain ⟨h2, hcs⟩ := ih h1
    exact ⟨h2, .cons hc hcs⟩

def liveTimers (w : Wheel T) : Finset ℕ :=
  (Finset.range w.entriesLen).filter fun x => (w.entries x).live = true

theorem Invariant.len_eq {w : Wheel T} (h : Invariant g w) : w.len = (liveTimers w).card := by
  obtain ⟨L, hl, _⟩ := h.lists
  have hfree : w.free.toFinset = (Finset.Ico g.headCount w.entriesLen).filter
      fun x => ¬ (w.entries x).live = true := by
    ext x
    simp [hl.freeIff x, and_assoc]
  have hlive : liveTimers w = (Finset.Ico g.headCount w.entriesLen).filter
      fun x => (w.entries x).live = true := by
    ext x
    simp only [liveTimers, Finset.mem_filter, Finset.mem_range, Finset.mem_Ico]
    constructor
    · rintro ⟨h1, h2⟩; exact ⟨⟨(hl.range x h2).1, h1⟩, h2⟩
    · rintro ⟨⟨_, h1⟩, h2⟩; exact ⟨h1, h2⟩
  have hsum := Finset.card_filter_add_card_filter_not
    (s := Finset.Ico g.headCount w.entriesLen) (fun x => (w.entries x).live = true)
  rw [← hfree, ← hlive, List.toFinset_card_of_nodup hl.freeNodup, Nat.card_Ico] at hsum
  have := hl.count
  omega

/-- `e` started or updated the timer `h`, whose payload is `p`, with interval `d`. -/
def Arms (w : Wheel T) (e : Event T) (h : ℕ) (p : T) (d : ℕ) : Prop :=
  e = .start p d (.ok h) ∨ e = .update h d (.ok true) ∧ (w.entries h).payload = some p

def Event.Touches (h : ℕ) : Event T → Prop
  | .start _ _ (.ok h') => h' = h
  | .update h' _ (.ok true) => h' = h
  | .stop h' true => h' = h
  | _ => False

/-- What a run makes of the timer `h` armed for `D`: it waits before `D`; it fires in the
`expire` that reaches `D`; or it is stopped or updated while it waits. -/
inductive Fate (g : Geometry) (h : ℕ) (p : T) (D : ℕ) : Wheel T → List (Event T) → Prop where
  | waiting {w} : w.currentTick < D → table w h = some (p, D) → Fate g h p D w []
  | passes {w w' e es} : w.currentTick < D → table w h = some (p, D) → Step g w e w' →
      ¬ e.Touches h → Fate g h p D w' es → Fate g h p D w (e :: es)
  | fires {w w' n k F fired es} : w.currentTick < D → table w h = some (p, D) →
      Step g w (.expire n fired) w' → D ≤ w'.currentTick →
      w.clock.Advance k F fired w'.clock → h ∈ F → table w' h = none →
      Fate g h p D w (.expire n fired :: es)
  | stopped {w es} : w.currentTick < D → table w h = some (p, D) →
      Fate g h p D w (.stop h true :: es)
  | updated {w d es} : w.currentTick < D → table w h = some (p, D) →
      Fate g h p D w (.update h d (.ok true) :: es)

theorem fate_of_pending {w w' : Wheel T} {es : List (Event T)} {h D : ℕ} {p : T}
    (hr : Execution g w es w') (hi : Invariant g w) (hp : table w h = some (p, D)) :
    Fate g h p D w es := by
  induction hr with
  | nil w => exact .waiting (hi.lt_of_pending hp) hp
  | @cons w w₁ _ e es hs hw _ ih =>
    obtain ⟨hi1, hc⟩ := step_refines hi hs hw
    have hlt := hi.lt_of_pending hp
    -- a step that leaves `h` pending hands over to the induction
    have hpass : ¬ e.Touches h → table w₁ h = some (p, D) → Fate g h p D w (e :: es) :=
      fun hn hp1 => .passes hlt hp hs hn (ih hi1 hp1)
    generalize hc' : w₁.clock = c' at hc
    have htab : ∀ x, table w₁ x = c'.pending x := fun x => by rw [← hc']; rfl
    have hpend : w.clock.pending h = some (p, D) := hp
    cases hc with
    | @start h' q d hnone =>
      have hne : h' ≠ h := by
        rintro rfl
        rw [hpend] at hnone
        cases hnone
      refine hpass hne ?_
      rw [htab h]
      exact (update_of_ne (Ne.symm hne) _ _).trans hp
    | startRejected | updateDead | updateRejected | stopDead =>
      exact hpass id ((htab h).trans hp)
    | @update h' q D' d hsome =>
      by_cases hne : h' = h
      · subst hne; exact .updated hlt hp
      · refine hpass hne ?_
        rw [htab h]
        exact (update_of_ne (Ne.symm hne) _ _).trans hp
    | @stop h' hsome =>
      by_cases hne : h' = h
      · subst hne; exact .stopped hlt hp
      · refine hpass hne ?_
        rw [htab h]
        exact (update_of_ne (Ne.symm hne) _ _).trans hp
    | @expire _ n k F fired hk ha =>
      by_cases hF : h ∈ F
      · obtain ⟨p', D', e', _, hle⟩ := (ha.due h).mp hF
        rw [hpend] at e'
        obtain ⟨rfl, rfl⟩ := by simpa using e'
        have htick : w₁.currentTick = w.clock.tick + k := by
          rw [← ha.tick, ← hc']; rfl
        refine .fires hlt hp hs (by omega) (hc' ▸ ha) hF ?_
        rw [htab h, ha.pending h, if_pos hF]
      · refine hpass id ?_
        rw [htab h, ha.pending h, if_neg hF]
        exact hp

theorem pending_of_arms {w w' : Wheel T} {e : Event T} {h d : ℕ} {p : T} (hi : Invariant g w)
    (hs : Step g w e w') (hw : e.WithinTurn g w.currentTick) (ha : Arms w e h p d) :
    table w' h = some (p, w.currentTick + d) := by
  rcases ha with rfl | ⟨rfl, hpay⟩
  · cases hs with
    | start hs =>
      obtain ⟨_, _, hc⟩ := start_ok hi hw hs
      have : w'.clock.pending h = some (p, w.currentTick + d) := by rw [hc]; simp
      exact this
  · cases hs with
    | update hs =>
      obtain ⟨_, q, D, hq, hc⟩ := update_ok hi hw hs
      obtain ⟨_, hq, _⟩ := table_some_iff.mp hq
      obtain rfl : p = q := by simpa [hpay] using hq
      have : w'.clock.pending h = some (p, w.currentTick + d) := by rw [hc]; simp
      exact this

/-- In a run whose accepted intervals stay within a turn, the wheel is the clock, counts its
live timers, ticks whenever there is a next tick, and every armed timer meets its fate. -/
theorem timers_fire_exactly_on_deadline (n : ℕ) {es : List (Event T)} {w : Wheel T}
    (run : Execution g (Wheel.new g n) es w) :
    Clock.Execution ⟨0, fun _ => none⟩ es w.clock ∧
    w.len = (liveTimers w).card ∧
    (∀ m old, w.currentTick + m < 2 ^ 64 → ∃ s, expire g w m old = some s) ∧
    ∀ e w₁ h p d es' w₂, Step g w e w₁ → e.WithinTurn g w.currentTick → Arms w e h p d →
      Execution g w₁ es' w₂ → Fate g h p (w.currentTick + d) w₁ es' := by
  obtain ⟨hi, hc⟩ := execution_refines run (new_invariant n)
  refine ⟨hc, hi.len_eq, fun m old hm => expireLoop_returns m hi hm, ?_⟩
  intro e w₁ h p d es' w₂ hs hw ha hr
  exact fate_of_pending hr (step_refines hi hs hw).1 (pending_of_arms hi hs hw ha)

def twoByTwo : Geometry where
  wheels := 2
  slots := 2
  fastBitmap := false
  overflow := false
  wheels_pos := by decide
  wheels_le := by decide
  slots_pow := ⟨1, rfl⟩
  slots_u32 := by decide
  horizon_u64 := by decide

theorem timers_fire_exactly_on_deadline_two_by_two :
    ∃ w : Wheel ℕ, Execution twoByTwo (Wheel.new twoByTwo 0)
        [.start 7 3 (.ok 4), .expire 2 [], .expire 1 [7]] w ∧
      w.currentTick = 3 ∧ w.len = (liveTimers w).card := by
  have run : Execution twoByTwo (Wheel.new twoByTwo 0 : Wheel ℕ)
      [.start 7 3 (.ok 4), .expire 2 [], .expire 1 [7]] _ :=
    .cons (.start rfl) (Or.inr (Or.inr (Or.inr (by decide))))
      (.cons (.expire [] rfl) trivial (.cons (.expire [] rfl) trivial (.nil _)))
  exact ⟨_, run, rfl, (timers_fire_exactly_on_deadline 0 run).2.1⟩

/-- At tick 1 an interval of 3 is accepted and fires one tick later, not three: the slow
digit of the deadline 4 is the current one again. -/
theorem accepted_interval_fires_early :
    ∃ w w₁ w₂ : Wheel ℕ, expire twoByTwo (Wheel.new twoByTwo 0) 1 [] = some (w, []) ∧
      w.currentTick = 1 ∧ validateInterval twoByTwo w 3 = .ok () ∧
      start twoByTwo w 7 3 = some (w₁, .ok 4) ∧ w₁.len = 1 ∧
      expire twoByTwo w₁ 1 [] = some (w₂, [7]) ∧ w₂.currentTick = 2 ∧ w₂.len = 0 :=
  ⟨_, _, _, rfl, rfl, rfl, rfl, rfl, rfl, rfl, rfl⟩

end TimerWheel
