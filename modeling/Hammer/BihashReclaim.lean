import Hammer.Bihash

/-! # Reclamation with lookups in flight

`alloc.rs` with its retired list: a block that a hazard slot names stays on it until a later
collection finds it unprotected. The lookups themselves are not modelled; what the writer sees of
them is the answer each look at the hazard slots gives, so the results hold for every schedule.
-/
namespace Bihash

/-- `hz n offset`: whether some hazard slot holds `offset` at the writer's `n`-th look. -/
abbrev Hazards := ℕ → ℕ → Bool

/-- No lookup is in flight. -/
def noHazards : Hazards := fun _ _ => false

structure Shared (K : Type) where
  table : Table K
  retired : List (ℕ × ℕ)
  looks : ℕ

namespace Shared

variable {K : Type}

/-- The loop of `collect_retired`, with the offsets it has not looked at yet. -/
def collectFrom (hz : Hazards) : List (ℕ × ℕ) → Shared K → Shared K
  | [], s => s
  | r :: rest, s =>
    if hz s.looks r.1 then
      collectFrom hz rest { s with retired := s.retired ++ [r], looks := s.looks + 1 }
    else
      collectFrom hz rest { s with table := Bihash.retire s.table r.1 r.2, looks := s.looks + 1 }

def collectRetired (hz : Hazards) (s : Shared K) : Shared K :=
  collectFrom hz s.retired { s with retired := [] }

def retire (hz : Hazards) (s : Shared K) (offset log2Pages : ℕ) : Shared K :=
  collectRetired hz { s with retired := s.retired ++ [(offset, log2Pages)] }

def addLen (s : Shared K) (n : ℕ) : Shared K := { s with table := { s.table with len := n } }

variable [DecidableEq K] [Inhabited K] (g : Layout K) (hz : Hazards)

/-- `pages.replace`: `state.allocate` collects first. -/
def rehash (s : Shared K) (bucket : Bucket) (new : Kv K) (newLog2 : ℕ) (linear : Bool) :
    Option (Shared K × Rehashed K) :=
  let s := collectRetired hz s
  (Bihash.rehash g s.table bucket new newLog2 linear).map fun r => ({ s with table := r.table }, r)

def splitAndRehash (s : Shared K) (idx : ℕ) (bucket : Bucket) (new : Kv K) : Option (Shared K) :=
  let requestedLog2 := bucket.log2Pages + 1
  let firstLog2 := min requestedLog2 MAX_LOG2_PAGES
  let capOverflow := decide (MAX_LOG2_PAGES < requestedLog2)
  let chosen : Option ((Shared K × Rehashed K) × ℕ × Bool) :=
    if !capOverflow then
      (rehash g hz s bucket new firstLog2 false).bind fun t =>
      if !t.2.displaced then some (t, firstLog2, false)
      else
        let retryLog2 := min (firstLog2 + 1) MAX_LOG2_PAGES
        (rehash g hz (retire hz t.1 t.2.offset firstLog2) bucket new retryLog2 false).bind fun t =>
        if !t.2.displaced then some (t, retryLog2, false)
        else
          (rehash g hz (retire hz t.1 t.2.offset retryLog2) bucket new firstLog2 true).map fun t =>
            (t, firstLog2, true)
    else (rehash g hz s bucket new firstLog2 true).map fun t => (t, firstLog2, true)
  chosen.map fun x =>
    let r := x.1.2
    let s := { x.1.1 with table := storeBucket x.1.1.table idx (.pack r.offset x.2.1 r.refcnt
      ((bucket.generation + 1) % 32) (x.2.2 || capOverflow) false) }
    let s := retire hz s bucket.offset bucket.log2Pages
    addLen s (s.table.len + 1)

/-- The first pair of an empty bucket: `pages.allocate` collects first. -/
def insertFirst (s : Shared K) (idx : ℕ) (kv : Kv K) : Option (Shared K) :=
  let s := collectRetired hz s
  (Bihash.insertFirst g s.table idx kv).map fun h => { s with table := h }

def insertAbsent (s : Shared K) (idx : ℕ) (bucket : Bucket) (free : Option Slot) (kv : Kv K) :
    Option (Shared K) :=
  match free with
  | some slot =>
    let h := writeSlot s.table bucket.offset slot fun _ => kv
    let h := publishUnlocked h idx bucket (bucket.refcnt + 1)
    some (addLen { s with table := h } (h.len + 1))
  | none => splitAndRehash g hz s idx bucket kv

def insertIfAbsent (s : Shared K) (key : K) (value : ℕ) : Option (Shared K × Except ℕ Unit) :=
  onKey g s.table key
    (fun h idx _ => (insertFirst g hz { s with table := h } idx ⟨key, value⟩).map (·, .ok ()))
    (fun h idx bucket free =>
      (insertAbsent g hz { s with table := h } idx bucket free ⟨key, value⟩).map (·, .ok ()))
    fun h idx bucket _ existing =>
      some ({ s with table := unlockUnchanged h idx bucket }, .error existing)

def insert (s : Shared K) (key : K) (value : ℕ) : Option (Shared K) :=
  onKey g s.table key (fun h idx _ => insertFirst g hz { s with table := h } idx ⟨key, value⟩)
    (fun h idx bucket free => insertAbsent g hz { s with table := h } idx bucket free ⟨key, value⟩)
    fun h idx bucket slot _ =>
      let h := writeSlot h bucket.offset slot fun kv => { kv with value := value }
      some { s with table := unlockUnchanged h idx bucket }

/-- Neither allocates nor retires. -/
def replaceIfCurrent (s : Shared K) (key : K) (oldValue newValue : ℕ) :
    Option (Shared K × Bool) :=
  (Bihash.replaceIfCurrent g s.table key oldValue newValue).map fun r =>
    ({ s with table := r.1 }, r.2)

def removeSlot (s : Shared K) (idx : ℕ) (bucket : Bucket) (slot : Slot) : Option (Shared K) :=
  let h := writeSlot s.table bucket.offset slot Kv.markFree
  if bucket.refcnt = 0 then none
  else
    let s :=
      if bucket.refcnt = 1 then
        retire hz { s with table := storeBucket h idx .empty } bucket.offset bucket.log2Pages
      else { s with table := publishUnlocked h idx bucket (bucket.refcnt - 1) }
    some (addLen s (s.table.len - 1))

def remove (s : Shared K) (key : K) : Option (Shared K × Bool) :=
  onKey g s.table key (fun h idx _ => some ({ s with table := storeBucket h idx .empty }, false))
    (fun h idx bucket _ => some ({ s with table := unlockUnchanged h idx bucket }, false))
    fun h idx bucket slot _ => (removeSlot hz { s with table := h } idx bucket slot).map (·, true)

def removeIfCurrent (s : Shared K) (key : K) (value : ℕ) : Option (Shared K × Bool) :=
  onKey g s.table key
    (fun h idx bucket => some ({ s with table := unlockUnchanged h idx bucket }, false))
    (fun h idx bucket _ => some ({ s with table := unlockUnchanged h idx bucket }, false))
    fun h idx bucket slot current =>
      if current ≠ value then some ({ s with table := unlockUnchanged h idx bucket }, false)
      else (removeSlot hz { s with table := h } idx bucket slot).map (·, true)

def clear (s : Shared K) : Option (Shared K) :=
  if (List.range s.table.nbuckets).any fun idx => (s.table.buckets idx).isLocked then none
  else
    let retired := clearedBlocks s.table
    let s := { s with table := { s.table with
      buckets := fun idx => if idx < s.table.nbuckets then .empty else s.table.buckets idx } }
    let s := retired.foldl (fun s r => retire hz s r.1 r.2) s
    some (addLen s 0)

end Shared

section Idle

variable {K α β : Type} {g : Layout K} {h : Table K} {idx : ℕ} {b : Bucket} {kv : Kv K}

/-- The table with nothing retired after `n` looks. -/
abbrev bare (n : ℕ) (h : Table K) : Shared K := ⟨h, [], n⟩

abbrev bareReply (n : ℕ) (r : Table K × α) : Shared K × α := (bare n r.1, r.2)

/-- The shared table returns what the single-writer table returns, with nothing retired. -/
def Follows (i : ℕ → α → β) (x : Option α) (y : Option β) : Prop := ∃ n, y = x.map (i n)

theorem Follows.reply {x : Option (Table K)} {y : Option (Shared K)} (f : Follows bare x y) (a : α) :
    Follows bareReply (x.map (·, a)) (y.map (·, a)) := by
  obtain ⟨n, rfl⟩ := f
  exact ⟨n, by simp [Function.comp_def]⟩

theorem Follows.fst {x : Option (Table K × α)} {y : Option (Shared K × α)}
    (f : Follows bareReply x y) : Follows bare (x.map Prod.fst) (y.map Prod.fst) := by
  obtain ⟨n, rfl⟩ := f
  exact ⟨n, by simp [Function.comp_def]⟩

theorem retire_idle (h : Table K) (t o c : ℕ) :
    Shared.retire noHazards ⟨h, [], t⟩ o c = ⟨retire h o c, [], t + 1⟩ := rfl

theorem removeSlot_idle (slot : Slot) (t : ℕ) : Follows bare (removeSlot h idx b slot)
    (Shared.removeSlot noHazards ⟨h, [], t⟩ idx b slot) := by
  simp only [removeSlot, Shared.removeSlot]
  split
  · exact ⟨t, rfl⟩
  · split
    · exact ⟨t + 1, rfl⟩
    · exact ⟨t, rfl⟩

theorem retire_all_idle (rs : List (ℕ × ℕ)) : ∀ (h : Table K) (t : ℕ),
    ∃ n, rs.foldl (fun s r => Shared.retire noHazards s r.1 r.2) ⟨h, [], t⟩ =
      ⟨rs.foldl (fun h r => retire h r.1 r.2) h, [], n⟩ := by
  induction rs with
  | nil => exact fun h t => ⟨t, rfl⟩
  | cons r rs ih => exact fun h t => ih (retire h r.1 r.2) (t + 1)

theorem clear_idle (h : Table K) (t : ℕ) :
    Follows bare (clear h) (Shared.clear noHazards ⟨h, [], t⟩) := by
  simp only [clear, Shared.clear]
  split
  · exact ⟨t, rfl⟩
  · obtain ⟨n, hn⟩ := retire_all_idle (clearedBlocks h)
      { h with buckets := fun idx => if idx < h.nbuckets then .empty else h.buckets idx } t
    rw [hn]
    exact ⟨n, rfl⟩

section Keys

variable [DecidableEq K]

theorem onKey_follows {i : ℕ → α → β} (h : Table K) (key : K)
    {empty : Table K → ℕ → Bucket → Option α} {empty' : Table K → ℕ → Bucket → Option β}
    {absent : Table K → ℕ → Bucket → Option Slot → Option α}
    {absent' : Table K → ℕ → Bucket → Option Slot → Option β}
    {present : Table K → ℕ → Bucket → Slot → ℕ → Option α}
    {present' : Table K → ℕ → Bucket → Slot → ℕ → Option β}
    (he : ∀ h idx b, Follows i (empty h idx b) (empty' h idx b))
    (ha : ∀ h idx b free, Follows i (absent h idx b free) (absent' h idx b free))
    (hp : ∀ h idx b slot v, Follows i (present h idx b slot v) (present' h idx b slot v)) :
    Follows i (onKey g h key empty absent present) (onKey g h key empty' absent' present') := by
  simp only [onKey]
  cases lockBucket h (bucketIdx g h key) with
  | none => exact ⟨0, rfl⟩
  | some r =>
    simp only [Option.bind_some]
    split
    · exact he ..
    · cases inspectLocked g r.1 r.2 key with
      | none => exact ⟨0, rfl⟩
      | some q =>
        cases hq : q.1 with
        | none => simpa [hq] using ha ..
        | some s => simpa [hq] using hp ..

variable (h : Table K) (key : K) (value t : ℕ)

theorem replaceIfCurrent_idle (oldValue : ℕ) :
    Follows bareReply (replaceIfCurrent g h key oldValue value)
      (Shared.replaceIfCurrent g ⟨h, [], t⟩ key oldValue value) := ⟨t, rfl⟩

theorem remove_idle : Follows bareReply (remove g h key) (Shared.remove g noHazards ⟨h, [], t⟩ key) :=
  onKey_follows h key (fun _ _ _ => ⟨t, rfl⟩) (fun _ _ _ _ => ⟨t, rfl⟩)
    fun _ _ _ slot _ => (removeSlot_idle slot t).reply true

theorem removeIfCurrent_idle : Follows bareReply (removeIfCurrent g h key value)
    (Shared.removeIfCurrent g noHazards ⟨h, [], t⟩ key value) := by
  refine onKey_follows h key (fun _ _ _ => ⟨t, rfl⟩) (fun _ _ _ _ => ⟨t, rfl⟩)
    fun _ _ _ slot _ => ?_
  split
  · exact ⟨t, rfl⟩
  · exact (removeSlot_idle slot t).reply true

end Keys

variable [Inhabited K]

theorem rehash_idle (h : Table K) (t c : ℕ) (linear : Bool) :
    Shared.rehash g noHazards ⟨h, [], t⟩ b kv c linear =
      (rehash g h b kv c linear).map fun r => (⟨r.table, [], t⟩, r) := rfl

theorem splitAndRehash_idle (t : ℕ) : Follows bare (splitAndRehash g h idx b kv)
    (Shared.splitAndRehash g noHazards ⟨h, [], t⟩ idx b kv) := by
  simp only [splitAndRehash, Shared.splitAndRehash, rehash_idle]
  set c := min (b.log2Pages + 1) MAX_LOG2_PAGES
  cases decide (MAX_LOG2_PAGES < b.log2Pages + 1) with
  | true =>
    cases rehash g h b kv c true with
    | none => exact ⟨t, rfl⟩
    | some r => exact ⟨t + 1, rfl⟩
  | false =>
    cases rehash g h b kv c false with
    | none => exact ⟨t, rfl⟩
    | some r1 =>
      simp only [Option.map_some, Option.bind_some, retire_idle, rehash_idle]
      cases r1.displaced with
      | false => exact ⟨_, rfl⟩
      | true =>
        cases rehash g (retire r1.table r1.offset c) b kv (min (c + 1) MAX_LOG2_PAGES) false with
        | none => exact ⟨t, rfl⟩
        | some r2 =>
          simp only [Option.map_some, Option.bind_some, retire_idle, rehash_idle]
          cases r2.displaced with
          | false => exact ⟨_, rfl⟩
          | true =>
            cases rehash g (retire r2.table r2.offset (min (c + 1) MAX_LOG2_PAGES)) b kv c true with
            | none => exact ⟨t, rfl⟩
            | some r3 => exact ⟨_, rfl⟩

theorem insertAbsent_idle (free : Option Slot) (t : ℕ) :
    Follows bare (insertAbsent g h idx b free kv)
      (Shared.insertAbsent g noHazards ⟨h, [], t⟩ idx b free kv) := by
  cases free with
  | some slot => exact ⟨t, rfl⟩
  | none => exact splitAndRehash_idle t

variable [DecidableEq K] (h : Table K) (key : K) (value t : ℕ)

/-- Without lookups in flight an insertion is that of the single-writer table. -/
theorem insert_idle : Follows bare (insert g h key value)
    (Shared.insert g noHazards ⟨h, [], t⟩ key value) :=
  onKey_follows h key (fun _ _ _ => ⟨t, rfl⟩) (fun _ _ _ free => insertAbsent_idle free t)
    fun _ _ _ _ _ => ⟨t, rfl⟩

theorem insertIfAbsent_idle : Follows bareReply (insertIfAbsent g h key value)
    (Shared.insertIfAbsent g noHazards ⟨h, [], t⟩ key value) :=
  onKey_follows h key (fun _ _ _ => Follows.reply ⟨t, rfl⟩ _)
    (fun _ _ _ free => (insertAbsent_idle free t).reply _) fun _ _ _ _ _ => ⟨t, rfl⟩

end Idle

end Bihash
