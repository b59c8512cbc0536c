import Hammer.NetworkBytes
import Mathlib.Data.List.Nodup

/-! # Handshake cookies

Listener cookies and fast open cookies of `transport/tcp/src/lookup.rs`. Both kinds keep a secret
for each listener and epoch, made when it is first asked for, and every request prunes the secrets
of its listener as seen from the epoch that it asks for.
-/

namespace TcpCookies

open NetworkBytes List

abbrev TcpLookupId := UInt32

def fastOpenCookieVersion : UInt8 := 1
def fastOpenCookieTagLen : ℕ := 11
def fastOpenCookiePreviousEpochWindow : UInt32 := 1
def listenerCookiePreviousEpochWindow : UInt32 := 1

structure TcpFastOpenSecret (S : Type) where
  listenerId : TcpLookupId
  epoch : UInt32
  secret : S

/-- The hashers built from a secret, by the fields they are fed with. A tuple is the local and the
remote address. -/
structure CookieHasher (S A : Type) where
  listenerWord : S → TcpLookupId → A → UInt32 → UInt32 → UInt64
  tagWord : S → TcpLookupId → A → UInt32 → UInt64 → UInt64

def TcpFastOpenSecret.key {S : Type} (s : TcpFastOpenSecret S) : TcpLookupId × UInt32 :=
  (s.listenerId, s.epoch)

/-- One of the two vectors of secrets, with the random states that are still to be drawn. No two
secrets are for the same listener and epoch. -/
structure CookieSecrets (S : Type) where
  entries : List (TcpFastOpenSecret S)
  random : ℕ → S
  distinct : (entries.map TcpFastOpenSecret.key).Nodup

structure TcpLookupState (S : Type) where
  fastOpenSecrets : CookieSecrets S
  listenerCookieSecrets : CookieSecrets S

variable {S A : Type}

/-- The vector from the index of the loop on, with the iterations that are left. -/
def pruneLoop (expired : TcpFastOpenSecret S → Bool) :
    ℕ → List (TcpFastOpenSecret S) → List (TcpFastOpenSecret S)
  | n + 1, s :: rest =>
    -- The last secret takes the place of an expired one and is looked at next.
    if expired s then pruneLoop expired n (rest.getLast?.toList ++ rest.dropLast)
    else s :: pruneLoop expired n rest
  | _, _ => []

def expired (listenerId : TcpLookupId) (currentEpoch previousEpochWindow : UInt32)
    (s : TcpFastOpenSecret S) : Bool :=
  s.listenerId == listenerId &&
    (currentEpoch < s.epoch || currentEpoch - s.epoch > previousEpochWindow)

def pruneCookieSecrets (secrets : List (TcpFastOpenSecret S)) (listenerId : TcpLookupId)
    (currentEpoch previousEpochWindow : UInt32) : List (TcpFastOpenSecret S) :=
  pruneLoop (expired listenerId currentEpoch previousEpochWindow) secrets.length secrets

theorem getLast_dropLast_perm {α : Type} (l : List α) :
    (l.getLast?.toList ++ l.dropLast).Perm l := by
  rcases l.eq_nil_or_concat with rfl | ⟨l, a, rfl⟩
  · simp
  · simpa using (perm_append_singleton a l).symm

theorem pruneLoop_perm (p : TcpFastOpenSecret S → Bool) (n : ℕ) (l : List (TcpFastOpenSecret S))
    (h : l.length ≤ n) : (pruneLoop p n l).Perm (l.filter fun s => !p s) := by
  induction n generalizing l with
  | zero =>
    obtain rfl := length_eq_zero_iff.mp (Nat.le_zero.mp h)
    simp [pruneLoop]
  | succ n ih =>
    cases l with
    | nil => simp [pruneLoop]
    | cons s rest =>
      have hrest := getLast_dropLast_perm rest
      rw [length_cons] at h
      by_cases hs : p s
      · rw [pruneLoop, if_pos hs, filter_cons_of_neg (by simp [hs])]
        exact (ih _ (by rw [hrest.length_eq]; omega)).trans (hrest.filter _)
      · rw [pruneLoop, if_neg hs, filter_cons_of_pos (by simp [hs])]
        exact (ih _ (by omega)).cons s

namespace CookieSecrets

variable {t : CookieSecrets S} {l l' : TcpLookupId} {e e' window : UInt32} {secret : S}

theorem prune_perm (entries : List (TcpFastOpenSecret S)) :
    (pruneCookieSecrets entries l e window).Perm (entries.filter fun s => !expired l e window s) :=
  pruneLoop_perm _ _ _ le_rfl

def prune (t : CookieSecrets S) (l : TcpLookupId) (e window : UInt32) : CookieSecrets S where
  entries := pruneCookieSecrets t.entries l e window
  random := t.random
  distinct := ((prune_perm t.entries).map _).nodup_iff.mpr
    (t.distinct.sublist (List.filter_sublist.map _))

def push (t : CookieSecrets S) (l : TcpLookupId) (e : UInt32)
    (h : ∀ s ∈ t.entries, s.key ≠ (l, e)) : CookieSecrets S where
  entries := t.entries ++ [⟨l, e, t.random 0⟩]
  random n := t.random (n + 1)
  distinct := by
    rw [List.map_append]
    refine List.Nodup.append t.distinct (List.nodup_singleton _) ?_
    simpa [TcpFastOpenSecret.key] using h

theorem key_ne_of_find? {entries : List (TcpFastOpenSecret S)}
    (h : entries.find? (fun s => s.key == (l, e)) = none) : ∀ s ∈ entries, s.key ≠ (l, e) := by
  simpa using h

/-- The secret of a listener in an epoch, which is made when there is none. -/
def cookieSecret (window : UInt32) (t : CookieSecrets S) (listenerId : TcpLookupId)
    (epoch : UInt32) : CookieSecrets S × S :=
  let t := t.prune listenerId epoch window
  match h : t.entries.find? fun s => s.key == (listenerId, epoch) with
  | some s => (t, s.secret)
  | none => (t.push listenerId epoch (key_ne_of_find? h), t.random 0)

/-- An epoch from which secrets of the epoch `e` are not pruned. -/
def Near (e e' : UInt32) : Prop := e.toNat ≤ e'.toNat ∧ e'.toNat ≤ e.toNat + 1

/-- What is asked for is there afterwards. -/
theorem mem_cookieSecret (t : CookieSecrets S) (l : TcpLookupId) (e window : UInt32) :
    ⟨l, e, (t.cookieSecret window l e).2⟩ ∈ (t.cookieSecret window l e).1.entries := by
  unfold cookieSecret
  dsimp only
  split
  case h_1 s hfind =>
    have hkey := find?_some hfind
    have hmem := mem_of_find?_eq_some hfind
    rw [beq_iff_eq] at hkey
    obtain ⟨rfl, rfl⟩ := Prod.mk.inj hkey
    exact hmem
  case h_2 => exact mem_append_right _ (mem_singleton_self _)

theorem near_iff : Near e e' ↔ ¬(e' < e ∨ e' - e > 1) := by
  rw [not_or, UInt32.not_lt, UInt32.le_iff_toNat_le, UInt32.not_lt,
    UInt32.le_iff_toNat_le, UInt32.toNat_one]
  refine and_congr_right fun hle => ?_
  rw [UInt32.toNat_sub_of_le _ _ hle]
  omega

theorem not_expired (h : l' = l → Near e e') : expired l' e' 1 ⟨l, e, secret⟩ = false := by
  by_cases hl : l = l'
  · obtain ⟨h1, h2⟩ := not_or.mp (near_iff.mp (h hl.symm))
    simp [expired, h1, h2]
  · simp [expired, hl]

/-- A request leaves a secret alone, unless it is for its listener from an epoch that is not
near. -/
theorem mem_of_near (hmem : ⟨l, e, secret⟩ ∈ t.entries) (h : l' = l → Near e e') :
    ⟨l, e, secret⟩ ∈ (t.cookieSecret 1 l' e').1.entries := by
  have hprune : ⟨l, e, secret⟩ ∈ (t.prune l' e' 1).entries :=
    (prune_perm t.entries).mem_iff.mpr (mem_filter.mpr ⟨hmem, by rw [not_expired h]; rfl⟩)
  unfold cookieSecret
  dsimp only
  split
  case h_1 => exact hprune
  case h_2 => exact mem_append_left _ hprune

theorem secret_eq_of_mem (hmem : ⟨l, e, secret⟩ ∈ t.entries) :
    (t.cookieSecret 1 l e).2 = secret := by
  have hkept : ⟨l, e, secret⟩ ∈ (t.cookieSecret 1 l e).1.entries :=
    mem_of_near hmem fun _ => ⟨le_rfl, by omega⟩
  have heq := inj_on_of_nodup_map (t.cookieSecret 1 l e).1.distinct
    (mem_cookieSecret t l e 1) hkept rfl
  exact congrArg TcpFastOpenSecret.secret heq

end CookieSecrets

def toBe64 (v : UInt64) : List UInt8 := toBe32 (v >>> 32).toUInt32 ++ toBe32 v.toUInt32

/-- The epoch of a cookie as it was received. A cookie of another length or version has none. -/
def cookieEpoch (cookie : List UInt8) : Option UInt32 :=
  if cookie.length = 16 ∧ cookie.getD 0 0 = fastOpenCookieVersion then some (u32At cookie 1)
  else none

section Cookies

variable (H : CookieHasher S A) (secret : S) (listenerId : TcpLookupId) (tuple : A)

def fastOpenCookieTag (epoch : UInt32) : List UInt8 :=
  toBe64 (H.tagWord secret listenerId tuple epoch 0) ++
    toBe64 (H.tagWord secret listenerId tuple epoch 1)

def buildFastOpenCookie (epoch : UInt32) : List UInt8 :=
  [fastOpenCookieVersion] ++ (toBe32 epoch ++
    (fastOpenCookieTag H secret listenerId tuple epoch).take fastOpenCookieTagLen)

theorem cookieEpoch_build (epoch : UInt32) :
    cookieEpoch (buildFastOpenCookie H secret listenerId tuple epoch) = some epoch := by
  have hat : u32At (buildFastOpenCookie H secret listenerId tuple epoch) (1 + 0) = epoch := by
    rw [buildFastOpenCookie, u32At_append_right (n := 1) rfl, u32At_toBe32]
  exact (if_pos ⟨rfl, rfl⟩).trans (congrArg some hat)

def listenerCookieWord (clientSequence epoch : UInt32) : UInt32 :=
  max (H.listenerWord secret listenerId tuple clientSequence epoch).toUInt32 1

end Cookies

namespace TcpLookupState

def new (fastOpen listener : ℕ → S) : TcpLookupState S := ⟨⟨[], fastOpen, .nil⟩, ⟨[], listener, .nil⟩⟩

variable (H : CookieHasher S A) (t : TcpLookupState S) (listenerId : TcpLookupId) (tuple : A)

def fastOpenSecret (epoch : UInt32) : TcpLookupState S × S :=
  let r := t.fastOpenSecrets.cookieSecret fastOpenCookiePreviousEpochWindow listenerId epoch
  ({ t with fastOpenSecrets := r.1 }, r.2)

def listenerCookieSecret (epoch : UInt32) : TcpLookupState S × S :=
  let r := t.listenerCookieSecrets.cookieSecret listenerCookiePreviousEpochWindow listenerId epoch
  ({ t with listenerCookieSecrets := r.1 }, r.2)

def fastOpenCookieForListenerInEpoch (epoch : UInt32) : TcpLookupState S × List UInt8 :=
  let r := t.fastOpenSecret listenerId epoch
  (r.1, buildFastOpenCookie H r.2 listenerId tuple epoch)

def validateFastOpenCookieInEpoch (cookie : List UInt8) (epoch : UInt32) :
    TcpLookupState S × Bool :=
  match cookieEpoch cookie with
  | none => (t, false)
  | some cookieEpoch =>
    if epoch < cookieEpoch ∨ epoch - cookieEpoch > fastOpenCookiePreviousEpochWindow then (t, false)
    else
      let r := t.fastOpenSecret listenerId cookieEpoch
      (r.1, cookie == buildFastOpenCookie H r.2 listenerId tuple cookieEpoch)

def listenerCookieForSynInEpoch (clientSequence epoch : UInt32) : TcpLookupState S × UInt32 :=
  let r := t.listenerCookieSecret listenerId epoch
  (r.1, listenerCookieWord H r.2 listenerId tuple clientSequence epoch)

def validateListenerCookieInEpoch (clientSequence cookie epoch : UInt32) :
    TcpLookupState S × Bool :=
  let r := t.listenerCookieForSynInEpoch H listenerId tuple clientSequence epoch
  if r.2 == cookie then (r.1, true)
  else if epoch == 0 then (r.1, false)
  else if listenerCookiePreviousEpochWindow == 0 then (r.1, false)
  else
    let r := r.1.listenerCookieForSynInEpoch H listenerId tuple clientSequence (epoch - 1)
    (r.1, r.2 == cookie)

end TcpLookupState

inductive Call (A : Type) where
  | fastOpenCookie (listenerId : TcpLookupId) (tuple : A)
  | validateFastOpenCookie (listenerId : TcpLookupId) (tuple : A) (cookie : List UInt8)
  | listenerCookie (listenerId : TcpLookupId) (tuple : A) (clientSequence : UInt32)
  | validateListenerCookie (listenerId : TcpLookupId) (tuple : A) (clientSequence cookie : UInt32)

def step (H : CookieHasher S A) (t : TcpLookupState S) (epoch : UInt32) :
    Call A → TcpLookupState S
  | .fastOpenCookie l a => (t.fastOpenCookieForListenerInEpoch H l a epoch).1
  | .validateFastOpenCookie l a cookie => (t.validateFastOpenCookieInEpoch H l a cookie epoch).1
  | .listenerCookie l a seq => (t.listenerCookieForSynInEpoch H l a seq epoch).1
  | .validateListenerCookie l a seq cookie =>
    (t.validateListenerCookieInEpoch H l a seq cookie epoch).1

def run (H : CookieHasher S A) (t : TcpLookupState S) (calls : List (UInt32 × Call A)) :
    TcpLookupState S :=
  calls.foldl (fun t c => step H t c.1 c.2) t

/-- A call that does not ask for the listener's fast open secret of the epoch before `e` in the
epoch `e`. -/
def SparesFastOpen (l : TcpLookupId) (e epoch : UInt32) : Call A → Prop
  | .validateFastOpenCookie l' _ cookie =>
    l' = l → epoch = e → ∀ previous, cookieEpoch cookie = some previous →
      previous.toNat + 1 ≠ e.toNat
  | _ => True

/-- A call that does not ask for the listener's cookie secret of the epoch before `e` in the epoch
`e`: what it presents is the cookie of this epoch. -/
def SparesListener (H : CookieHasher S A) (l : TcpLookupId) (e : UInt32) (t : TcpLookupState S)
    (epoch : UInt32) : Call A → Prop
  | .validateListenerCookie l' a seq cookie =>
    l' = l → epoch = e → e ≠ 0 → (t.listenerCookieForSynInEpoch H l a seq e).2 = cookie
  | _ => True

/-- Every call of a run meets a condition on the state it finds. -/
def Along (H : CookieHasher S A) (p : TcpLookupState S → UInt32 → Call A → Prop) :
    TcpLookupState S → List (UInt32 × Call A) → Prop
  | _, [] => True
  | t, c :: cs => p t c.1 c.2 ∧ Along H p (step H t c.1 c.2) cs

section Runs

open CookieSecrets

variable {H : CookieHasher S A} {t : TcpLookupState S} {l : TcpLookupId} {a : A} {seq e e' : UInt32}
  {secret : S} {c : Call A}

theorem step_fastOpen (hmem : ⟨l, e, secret⟩ ∈ t.fastOpenSecrets.entries) (hn : Near e e')
    (hc : SparesFastOpen l e e' c) : ⟨l, e, secret⟩ ∈ (step H t e' c).fastOpenSecrets.entries := by
  cases c with
  | fastOpenCookie l' a => exact mem_of_near hmem fun _ => hn
  | listenerCookie l' a seq => exact hmem
  | validateListenerCookie l' a seq cookie =>
    simp only [step, TcpLookupState.validateListenerCookieInEpoch]
    split_ifs <;> exact hmem
  | validateFastOpenCookie l' a cookie =>
    simp only [step, TcpLookupState.validateFastOpenCookieInEpoch]
    cases hcookie : cookieEpoch cookie with
    | none => exact hmem
    | some previous =>
      dsimp only
      split_ifs with hearly
      · exact hmem
      · refine mem_of_near hmem fun hl => ?_
        have hp := near_iff.mpr hearly
        have hne : e' = e → previous.toNat + 1 ≠ e.toNat := fun he => hc hl he previous hcookie
        rw [← UInt32.toNat_inj] at hne
        unfold Near at *
        omega

theorem near_pred (hn : Near e e') (hne : e' ≠ e) : e' ≠ 0 ∧ e' - 1 = e := by
  obtain ⟨hle, hlt⟩ := hn
  rw [ne_eq, ← UInt32.toNat_inj] at hne
  have hone : (1 : UInt32) ≤ e' := by
    rw [UInt32.le_iff_toNat_le, UInt32.toNat_one]
    omega
  constructor
  · rintro rfl
    exact absurd hone (by decide)
  · rw [← UInt32.toNat_inj, UInt32.toNat_sub_of_le _ _ hone, UInt32.toNat_one]
    omega

theorem step_listener (hmem : ⟨l, e, secret⟩ ∈ t.listenerCookieSecrets.entries) (hn : Near e e')
    (hc : SparesListener H l e t e' c) :
    ⟨l, e, secret⟩ ∈ (step H t e' c).listenerCookieSecrets.entries := by
  cases c with
  | fastOpenCookie l' a => exact hmem
  | validateFastOpenCookie l' a cookie =>
    simp only [step, TcpLookupState.validateFastOpenCookieInEpoch]
    split
    · exact hmem
    · split_ifs <;> exact hmem
  | listenerCookie l' a seq => exact mem_of_near hmem fun _ => hn
  | validateListenerCookie l' a seq cookie =>
    have hfirst := mem_of_near hmem fun _ : l' = l => hn
    simp only [step, TcpLookupState.validateListenerCookieInEpoch]
    split_ifs with hcookie hzero
    · exact hfirst
    · exact hfirst
    · exact hfirst
    · refine mem_of_near hfirst fun hl => ?_
      have hne : e' ≠ e := by
        rintro rfl
        subst hl
        exact hcookie (beq_iff_eq.mpr (hc rfl rfl (by simpa using hzero)))
      rw [(near_pred hn hne).2]
      exact ⟨le_rfl, by omega⟩

/-- What every call keeps in the epoch and the next, a run keeps. -/
theorem run_along {p : TcpLookupState S → UInt32 → Call A → Prop} {P : TcpLookupState S → Prop}
    (hstep : ∀ {t e' c}, P t → Near e e' → p t e' c → P (step H t e' c))
    (calls : List (UInt32 × Call A)) (h : P t) (hn : ∀ c ∈ calls, Near e c.1)
    (hc : Along H p t calls) : P (run H t calls) := by
  induction calls generalizing t with
  | nil => exact h
  | cons c cs ih =>
    exact ih (hstep h (hn c mem_cons_self) hc.1) (fun c h => hn c (mem_cons_of_mem _ h))
      hc.2

theorem accepted_listener (hmem : ⟨l, e, secret⟩ ∈ t.listenerCookieSecrets.entries)
    (hn : Near e e') :
    (t.validateListenerCookieInEpoch H l a seq (listenerCookieWord H secret l a seq e) e').2 =
      true := by
  have hword {u : TcpLookupState S} (hu : ⟨l, e, secret⟩ ∈ u.listenerCookieSecrets.entries) :
      (u.listenerCookieForSynInEpoch H l a seq e).2 = listenerCookieWord H secret l a seq e :=
    congrArg (listenerCookieWord H · l a seq e) (secret_eq_of_mem hu)
  unfold TcpLookupState.validateListenerCookieInEpoch
  by_cases he : e' = e
  · simp [he, hword hmem]
  · obtain ⟨hzero, hpred⟩ := near_pred hn he
    have hkept := mem_of_near hmem fun _ : l = l => hn
    dsimp only
    split_ifs with h1 h2 h3
    · rfl
    · exact absurd (beq_iff_eq.mp h2) hzero
    · exact absurd h3 (by decide)
    · rw [hpred]
      exact beq_iff_eq.mpr (hword hkept)

theorem accepted_fastOpen (hmem : ⟨l, e, secret⟩ ∈ t.fastOpenSecrets.entries) (hn : Near e e') :
    (t.validateFastOpenCookieInEpoch H l a (buildFastOpenCookie H secret l a e) e').2 = true := by
  unfold TcpLookupState.validateFastOpenCookieInEpoch
  simp only [cookieEpoch_build]
  split_ifs with hearly
  · exact absurd hearly (near_iff.mp hn)
  · exact beq_iff_eq.mpr (congrArg (buildFastOpenCookie H · l a e) (secret_eq_of_mem hmem).symm)

end Runs

section Issued

variable (H : CookieHasher S A) (t : TcpLookupState S) (l : TcpLookupId) (a : A) (seq e : UInt32)
  (calls : List (UInt32 × Call A)) (e' : UInt32)

/-- Whether a listener cookie that is issued in the epoch `e` is accepted after the calls. -/
def listenerCookieAccepted : Bool :=
  let r := t.listenerCookieForSynInEpoch H l a seq e
  ((run H r.1 calls).validateListenerCookieInEpoch H l a seq r.2 e').2

def fastOpenCookieAccepted : Bool :=
  let r := t.fastOpenCookieForListenerInEpoch H l a e
  ((run H r.1 calls).validateFastOpenCookieInEpoch H l a r.2 e').2

/-- A cookie stays valid in its epoch and the next, whatever is called in between, as long as no
call of its own epoch makes the listener ask for the secret of the epoch before. -/
theorem issued_cookies_stay_valid (hmono : (e :: calls.map Prod.fst ++ [e']).Pairwise (· ≤ ·))
    (hlast : e'.toNat ≤ e.toNat + 1) :
    (Along H (SparesListener H l e) (step H t e (.listenerCookie l a seq)) calls →
      listenerCookieAccepted H t l a seq e calls e' = true) ∧
    (Along H (fun _ => SparesFastOpen l e) (step H t e (.fastOpenCookie l a)) calls →
      fastOpenCookieAccepted H t l a e calls e' = true) := by
  have hlate : CookieSecrets.Near e e' := by
    have hle : e ≤ e' := List.rel_of_pairwise_cons hmono (by simp)
    exact ⟨hle, hlast⟩
  have hn : ∀ c ∈ calls, CookieSecrets.Near e c.1 := by
    intro c hc
    have h1 : e ≤ c.1 := List.rel_of_pairwise_cons hmono
      (List.mem_append_left _ (List.mem_map_of_mem hc))
    have h2 : c.1 ≤ e' := (List.pairwise_append.mp hmono).2.2 c.1
      (List.mem_cons_of_mem _ (List.mem_map_of_mem hc)) e' (List.mem_singleton_self _)
    exact ⟨h1, le_trans h2 hlast⟩
  constructor
  · intro hc
    have hissued := CookieSecrets.mem_cookieSecret t.listenerCookieSecrets l e 1
    have hkept := run_along (P := fun t => _ ∈ t.listenerCookieSecrets.entries) step_listener calls
      hissued hn hc
    exact accepted_listener hkept hlate
  · intro hc
    have hissued := CookieSecrets.mem_cookieSecret t.fastOpenSecrets l e 1
    have hkept := run_along (P := fun t => _ ∈ t.fastOpenSecrets.entries) step_fastOpen calls
      hissued hn hc
    exact accepted_fastOpen hkept hlate

end Issued

/-- Secrets drawn as the numbers from 1 on, and hashers that return their secret. -/
def sampleHasher : CookieHasher UInt64 ℕ := ⟨fun s _ _ _ _ => s, fun s _ _ _ _ => s⟩

def sampleState : TcpLookupState UInt64 :=
  .new (fun n => .ofNat (n + 1)) (fun n => .ofNat (n + 1))

theorem issued_cookies_stay_valid_next_epoch :
    listenerCookieAccepted sampleHasher sampleState 1 0 7 5
      [(6, .validateListenerCookie 1 0 7 99)] 6 = true ∧
    fastOpenCookieAccepted sampleHasher sampleState 1 0 5
      [(6, .validateListenerCookie 1 0 7 99)] 6 = true := by
  have h := issued_cookies_stay_valid sampleHasher sampleState 1 0 7 5
    [(6, .validateListenerCookie 1 0 7 99)] 6 (by decide) (by decide)
  exact ⟨h.1 ⟨fun _ he => absurd he (by decide), trivial⟩, h.2 ⟨trivial, trivial⟩⟩

/-- An invented listener cookie, or the fast open cookie of another client from the epoch before,
is validated between the issue of a cookie and its own validation in the same epoch. -/
theorem cookie_invalidated :
    listenerCookieAccepted sampleHasher sampleState 1 0 7 5
      [(5, .validateListenerCookie 1 0 7 99)] 5 = false ∧
    fastOpenCookieAccepted sampleHasher (step sampleHasher sampleState 4 (.fastOpenCookie 1 1)) 1 0 5
      [(5, .validateFastOpenCookie 1 1
        (sampleState.fastOpenCookieForListenerInEpoch sampleHasher 1 1 4).2)] 5 = false := by
  decide +kernel

end TcpCookies
