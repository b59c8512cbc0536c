import Mathlib.Tactic.Ring
import Mathlib.Data.Nat.Log

/-! # Load-balance buckets

`hammer-service/src/net/dpo.rs`: `LoadBalanceDpo::new` doubles the number of buckets until the
rounded shares of the paths are near their weights. What the floating-point arithmetic yields is
left open.
-/
namespace LoadBalance

open List

structure DpoId where
  dpoType : ℕ
  proto : ℕ
  index : ℕ
  next : ℕ
  deriving DecidableEq

def DpoId.INVALID : DpoId := ⟨0, 7, 2 ^ 32 - 1, 0⟩

def DpoId.drop (proto : ℕ) : DpoId := ⟨1, proto, proto, 0⟩

def DpoId.isDrop (d : DpoId) : Bool := d.dpoType = 1

structure LoadBalancePath where
  dpo : DpoId
  pathIndex : ℕ
  weight : ℕ
  deriving DecidableEq

inductive DpoError where
  | invalidBucketCount
  deriving DecidableEq

structure LoadBalanceFlags where
  usesMap : Bool
  sticky : Bool
  deriving DecidableEq

structure LoadBalanceDpo where
  bucketCount : ℕ
  bucketMask : ℕ
  proto : ℕ
  flags : LoadBalanceFlags
  flowHashConfig : ℕ
  inlineBuckets : List DpoId
  overflow : Option (List DpoId)
  deriving DecidableEq

def INLINE_BUCKETS : ℕ := 4

def MAX_BUCKETS : ℕ := 8192

/-- The rounded share of a weight, and whether the error of all shares is small enough. -/
structure Rounding where
  share : (bucketCount totalWeight weight : ℕ) → ℕ
  close : (bucketCount totalWeight : ℕ) → List LoadBalancePath → Bool

/-- An empty list stands for one path that drops. -/
def given (proto : ℕ) (paths : List LoadBalancePath) : List LoadBalancePath :=
  if paths = [] then [⟨DpoId.drop proto, 2 ^ 32 - 1, 1⟩] else paths

def LoadBalancePath.even (path : LoadBalancePath) : LoadBalancePath := { path with weight := 1 }

def sorted : List LoadBalancePath → List LoadBalancePath
  | [p] => [p.even]
  | [p, q] =>
    if p.weight < q.weight then [q, p]
    else if p.weight = q.weight then [p.even, q.even] else [p, q]
  | paths => paths.mergeSort (·.weight ≤ ·.weight)

def totalWeight (paths : List LoadBalancePath) : ℕ := (paths.map (·.weight)).sum % 2 ^ 64

def weighted (paths : List LoadBalancePath) : List LoadBalancePath :=
  if totalWeight paths = 0 then paths.map LoadBalancePath.even else paths

/-- One pass of the share loop: the retained paths with their counts, what remains, and whether
all paths are retained. -/
def shares (share : ℕ → ℕ) : ℕ → List LoadBalancePath → List (LoadBalancePath × ℕ) × ℕ × Bool
  | remaining, [] => ([], remaining, true)
  | remaining, path :: rest =>
    let count := Min.min (share path.weight) remaining
    if count = 0 then ([], remaining, false)
    else
      let more := shares share (remaining - count) rest
      ((path, count) :: more.1, more.2)

/-- The share loop; `none` if it has not ended after `fuel` passes. -/
def shareLoop (r : Rounding) (paths : List LoadBalancePath) :
    ℕ → ℕ → Option (Except DpoError (List (LoadBalancePath × ℕ)))
  | 0, _ => none
  | fuel + 1, bucketCount =>
    let pass := shares (r.share bucketCount (totalWeight paths)) bucketCount paths
    if (pass.2.2 && r.close bucketCount (totalWeight paths) paths) ||
        bucketCount = MAX_BUCKETS then
      match pass.1 with
      | [] => some (.error .invalidBucketCount)
      | (path, count) :: rest => some (.ok ((path, count + pass.2.1) :: rest))
    else shareLoop r paths fuel (bucketCount * 2)

def retained (r : Rounding) (fuel proto : ℕ) (paths : List LoadBalancePath) :
    Option (Except DpoError (List (LoadBalancePath × ℕ))) :=
  let paths := weighted (sorted (given proto paths))
  shareLoop r paths fuel (2 ^ Nat.clog 2 (Min.min paths.length MAX_BUCKETS))

def livePaths (counts : List (LoadBalancePath × ℕ)) : List DpoId :=
  (counts.filter fun x => x.2 ≠ 0 && !x.1.dpo.isDrop).map (·.1.dpo)

/-- The buckets of the paths, from the `n`-th element of the cycle over the live paths on. -/
def children (sticky : Bool) (live : List DpoId) : ℕ → List (LoadBalancePath × ℕ) → List DpoId
  | _, [] => []
  | n, (path, count) :: rest =>
    if sticky && path.dpo.isDrop then
      (List.range' n count).map (fun k => live[k % live.length]?.getD path.dpo) ++
        children sticky live (n + count) rest
    else List.replicate count path.dpo ++ children sticky live n rest

def validateBucketCount (count : ℕ) : Bool :=
  (count = 0 || count.isPowerOfTwo) && count ≤ MAX_BUCKETS

namespace LoadBalanceDpo

def bucketStorage (proto : ℕ) (flags : LoadBalanceFlags) (flowHashConfig : ℕ)
    (buckets : List DpoId) : LoadBalanceDpo where
  bucketCount := buckets.length % 2 ^ 16
  bucketMask := (buckets.length - 1) % 2 ^ 16
  proto := proto
  flags := flags
  flowHashConfig := flowHashConfig
  inlineBuckets :=
    if INLINE_BUCKETS < buckets.length then List.replicate INLINE_BUCKETS DpoId.INVALID
    else buckets ++ List.replicate (INLINE_BUCKETS - buckets.length) DpoId.INVALID
  overflow := if INLINE_BUCKETS < buckets.length then some buckets else none

def new (r : Rounding) (fuel proto : ℕ) (paths : List LoadBalancePath) (flags : LoadBalanceFlags)
    (flowHashConfig : ℕ) : Option (Except DpoError LoadBalanceDpo) :=
  (retained r fuel proto paths).map fun result => result.bind fun counts =>
    let buckets := children flags.sticky (livePaths counts) 0 counts
    if validateBucketCount buckets.length then
      .ok (bucketStorage proto flags flowHashConfig buckets)
    else .error .invalidBucketCount

def selectBucket (lb : LoadBalanceDpo) (hash : BitVec 32) : Option DpoId :=
  if lb.bucketCount = 0 then none
  else
    let bucket := hash.toNat &&& lb.bucketMask
    if lb.bucketCount ≤ INLINE_BUCKETS then lb.inlineBuckets[bucket]?
    else (lb.overflow.getD [])[bucket]?

def buckets (lb : LoadBalanceDpo) : List DpoId :=
  lb.overflow.getD (lb.inlineBuckets.take lb.bucketCount)

end LoadBalanceDpo

theorem dpos_sorted (paths : List LoadBalancePath) :
    ((sorted paths).map (·.dpo)).Perm (paths.map (·.dpo)) := by
  unfold sorted
  split
  · exact .rfl
  · split_ifs
    · exact .swap ..
    · exact .rfl
    · exact .rfl
  · exact (mergeSort_perm ..).map _

theorem dpos_weighted (paths : List LoadBalancePath) :
    (weighted paths).map (·.dpo) = paths.map (·.dpo) := by
  unfold weighted
  split
  · rw [map_map]
    rfl
  · rfl

variable (r : Rounding) (proto : ℕ) (paths : List LoadBalancePath)

/-- Counts and remainder add up to the buckets of the pass. -/
theorem shares_spec (share : ℕ → ℕ) : ∀ (remaining : ℕ) (paths : List LoadBalancePath),
    ((shares share remaining paths).1.map Prod.snd).sum + (shares share remaining paths).2.1 =
        remaining ∧
      ∀ x ∈ (shares share remaining paths).1, x.1 ∈ paths ∧ x.2 ≠ 0
  | remaining, [] => by simp [shares]
  | remaining, path :: rest => by
    obtain ⟨hsum, hmem⟩ :=
      shares_spec share (remaining - Min.min (share path.weight) remaining) rest
    unfold shares
    dsimp only
    split
    · simp
    · next hcount =>
      refine ⟨?_, ?_⟩
      · simp only [map_cons, sum_cons]
        omega
      · intro x hx
        rcases mem_cons.mp hx with rfl | hx
        · exact ⟨mem_cons_self, hcount⟩
        · exact ⟨mem_cons_of_mem _ (hmem x hx).1, (hmem x hx).2⟩

theorem shareLoop_spec : ∀ {fuel k : ℕ}, k ≤ 13 → 13 < fuel + k → ∃ result,
    shareLoop r paths fuel (2 ^ k) = some result ∧ ∀ counts, result = .ok counts →
      (∃ j ≤ 13, (counts.map Prod.snd).sum = 2 ^ j) ∧ ∀ x ∈ counts, x.1 ∈ paths ∧ x.2 ≠ 0
  | 0, k, hk, hfuel => by omega
  | fuel + 1, k, hk, hfuel => by
    obtain ⟨hsum, hmem⟩ := shares_spec (r.share (2 ^ k) (totalWeight paths)) (2 ^ k) paths
    unfold shareLoop
    dsimp only
    split
    · split
      · exact ⟨_, rfl, by simp⟩
      · next path count rest hpass =>
        rw [hpass] at hsum hmem
        refine ⟨_, rfl, ?_⟩
        rintro _ ⟨⟩
        refine ⟨⟨k, hk, ?_⟩, ?_⟩
        · simp only [map_cons, sum_cons] at hsum ⊢
          omega
        · intro x hx
          rcases mem_cons.mp hx with rfl | hx
          · have hfirst := hmem (path, count) mem_cons_self
            exact ⟨hfirst.1, by omega⟩
          · exact hmem x (mem_cons_of_mem _ hx)
    · next hmore =>
      have hlt : k ≠ 13 := by
        rintro rfl
        simp [MAX_BUCKETS] at hmore
      rw [← Nat.pow_succ]
      exact shareLoop_spec (by omega) (by omega)

theorem retained_spec {fuel : ℕ} (hfuel : 14 ≤ fuel) :
    ∃ result, retained r fuel proto paths = some result ∧ ∀ counts, result = .ok counts →
      (∃ j ≤ 13, (counts.map Prod.snd).sum = 2 ^ j) ∧
      ∀ x ∈ counts, x.1.dpo ∈ (given proto paths).map (·.dpo) ∧ x.2 ≠ 0 := by
  obtain ⟨result, hloop, hspec⟩ := shareLoop_spec r (weighted (sorted (given proto paths)))
    (k := Nat.clog 2 _) (Nat.clog_le_of_le_pow (Nat.min_le_right _ (2 ^ 13)))
    (by omega : 13 < fuel + _)
  refine ⟨result, hloop, fun counts hok => ⟨(hspec counts hok).1, fun x hx => ?_⟩⟩
  obtain ⟨hpath, hcount⟩ := (hspec counts hok).2 x hx
  have hdpo := mem_map_of_mem (f := fun p : LoadBalancePath => p.dpo) hpath
  rw [dpos_weighted] at hdpo
  exact ⟨(dpos_sorted _).mem_iff.mp hdpo, hcount⟩

variable (sticky : Bool) (live : List DpoId)

theorem length_children : ∀ (n : ℕ) (counts : List (LoadBalancePath × ℕ)),
    (children sticky live n counts).length = (counts.map Prod.snd).sum
  | _, [] => rfl
  | n, (path, count) :: rest => by
    unfold children
    split <;> simp [length_children]

/-- A bucket is a live path, or it is its own path, which drops only if it has to. -/
theorem forall_children {P : DpoId → Prop} (hlive : ∀ d ∈ live, P d) :
    ∀ {n : ℕ} {counts : List (LoadBalancePath × ℕ)},
      (∀ x ∈ counts, (sticky = true → live ≠ [] → x.1.dpo.isDrop = false) → P x.1.dpo) →
      ∀ d ∈ children sticky live n counts, P d
  | _, [], _ => by simp [children]
  | n, (path, count) :: rest, hown => by
    rw [forall_mem_cons] at hown
    unfold children
    split
    · rw [forall_mem_append]
      refine ⟨fun d hd => ?_, forall_children hlive hown.2⟩
      obtain ⟨k, -, rfl⟩ := mem_map.mp hd
      cases hk : live[k % live.length]? with
      | some d => exact hlive d (mem_of_getElem? hk)
      | none =>
        refine hown.1 fun _ hne => ?_
        have hlt := Nat.mod_lt k (length_pos_iff.mpr hne)
        rw [getElem?_eq_none_iff] at hk
        omega
    · next hkeep =>
      rw [forall_mem_append]
      refine ⟨fun d hd => ?_, forall_children hlive hown.2⟩
      rw [(mem_replicate.mp hd).2]
      exact hown.1 fun hsticky _ => by simpa [hsticky] using hkeep

namespace LoadBalanceDpo

variable (flags : LoadBalanceFlags) (flowHashConfig : ℕ)

theorem bucketStorage_spec {bs : List DpoId} {k : ℕ} (hk : k ≤ 13) (hlen : bs.length = 2 ^ k) :
    (bucketStorage proto flags flowHashConfig bs).bucketCount = 2 ^ k ∧
      (bucketStorage proto flags flowHashConfig bs).buckets = bs ∧
      ∀ hash, (bucketStorage proto flags flowHashConfig bs).selectBucket hash =
        bs[hash.toNat % 2 ^ k]? := by
  have hmax : 2 ^ k ≤ 2 ^ 13 := Nat.pow_le_pow_right (by omega) hk
  have hpos : 0 < 2 ^ k := Nat.two_pow_pos k
  have hcount : (bucketStorage proto flags flowHashConfig bs).bucketCount = 2 ^ k := by
    unfold bucketStorage
    dsimp only
    omega
  have hmask : (bucketStorage proto flags flowHashConfig bs).bucketMask = 2 ^ k - 1 := by
    unfold bucketStorage
    dsimp only
    omega
  refine ⟨hcount, ?_, fun hash => ?_⟩
  · unfold buckets
    rw [hcount]
    unfold bucketStorage
    split <;> simp [← hlen]
  · unfold selectBucket
    rw [hcount, hmask, if_neg hpos.ne', Nat.and_two_pow_sub_one_eq_mod]
    unfold bucketStorage
    dsimp only
    rw [hlen]
    split
    · next hinline =>
      rw [if_neg hinline.not_gt, getElem?_append_left (by omega)]
    · next hinline =>
      rw [if_pos (Nat.lt_of_not_le hinline)]
      rfl

/-- The loop ends within fourteen passes. What is built has a power of two of buckets with
identities of the given paths, dropping only if it has to under the sticky flag, and a hash
selects any of them. -/
theorem load_balance_buckets {fuel : ℕ} (hfuel : 14 ≤ fuel) :
    ∃ result, new r fuel proto paths flags flowHashConfig = some result ∧
      ∀ lb, result = .ok lb →
        (∃ k ≤ 13, lb.bucketCount = 2 ^ k) ∧ lb.buckets.length = lb.bucketCount ∧
        (∀ d ∈ lb.buckets, d ∈ (given proto paths).map (·.dpo)) ∧
        (flags.sticky = true → ∀ counts, retained r fuel proto paths = some (.ok counts) →
          (∃ x ∈ counts, x.1.dpo.isDrop = false) → ∀ d ∈ lb.buckets, d.isDrop = false) ∧
        (∀ hash, ∃ d ∈ lb.buckets, lb.selectBucket hash = some d) ∧
        ∀ i < lb.bucketCount, ∃ hash, lb.selectBucket hash = lb.buckets[i]? := by
  obtain ⟨result, hret, hspec⟩ := retained_spec r proto paths hfuel
  unfold new
  rw [hret]
  refine ⟨_, rfl, fun lb hlb => ?_⟩
  cases result with
  | error e => cases hlb
  | ok counts =>
    obtain ⟨⟨k, hk, hsum⟩, hcounts⟩ := hspec counts rfl
    have hlen := (length_children flags.sticky (livePaths counts) 0 counts).trans hsum
    have hvalid : validateBucketCount (2 ^ k) = true := by
      simp only [validateBucketCount, Bool.and_eq_true, Bool.or_eq_true, decide_eq_true_eq]
      exact ⟨.inr ⟨k, rfl⟩, Nat.pow_le_pow_right (by omega) hk⟩
    dsimp only [Except.bind] at hlb
    rw [hlen, if_pos hvalid] at hlb
    cases hlb
    obtain ⟨hcount, hbuckets, hselect⟩ := bucketStorage_spec proto flags flowHashConfig hk hlen
    have hlive : ∀ d ∈ livePaths counts, (∃ x ∈ counts, x.1.dpo = d) ∧ d.isDrop = false := by
      simp only [livePaths, List.mem_map, List.mem_filter]
      grind
    rw [hcount, hbuckets]
    refine ⟨⟨k, hk, rfl⟩, hlen, ?_, ?_, fun hash => ?_, fun i hi => ?_⟩
    · refine forall_children _ _ (fun d hd => ?_) fun x hx _ => (hcounts x hx).1
      obtain ⟨⟨x, hx, rfl⟩, -⟩ := hlive d hd
      exact (hcounts x hx).1
    · rintro hsticky _ ⟨⟩ ⟨x, hx, hdrop⟩
      have hne : livePaths counts ≠ [] := by
        refine List.ne_nil_of_mem (a := x.1.dpo) ?_
        simp only [livePaths, List.mem_map, List.mem_filter]
        exact ⟨x, ⟨hx, by simp [hdrop, (hcounts x hx).2]⟩, rfl⟩
      exact forall_children _ _ (fun d hd => (hlive d hd).2) fun x _ hkeep => hkeep hsticky hne
    · rw [hselect]
      have hlt := Nat.mod_lt hash.toNat (Nat.two_pow_pos k)
      rw [← hlen] at hlt ⊢
      exact ⟨_, List.getElem_mem hlt, List.getElem?_eq_getElem hlt⟩
    · refine ⟨BitVec.ofNat 32 i, ?_⟩
      have hmax : 2 ^ k ≤ 2 ^ 13 := Nat.pow_le_pow_right (by omega) hk
      rw [hselect, BitVec.toNat_ofNat, Nat.mod_eq_of_lt (by omega : i < 2 ^ 32),
        Nat.mod_eq_of_lt hi]

/-- Shares rounded to the nearest number, taken as they are. -/
def nearest : Rounding :=
  ⟨fun n total weight => (2 * n * weight + total) / (2 * total), fun _ _ _ => true⟩

/-- An adjacency beside a path that drops. -/
def liveAndDrop : List LoadBalancePath := [⟨⟨5, 0, 9, 0⟩, 0, 1⟩, ⟨DpoId.drop 0, 1, 1⟩]

theorem sticky_adjacency_takes_drop : ∃ lb, new nearest 14 0 liveAndDrop ⟨false, true⟩ 0 =
    some (.ok lb) ∧ lb.bucketCount = 2 ∧ ∀ d ∈ lb.buckets, d.isDrop = false := by
  obtain ⟨result, hnew, hspec⟩ :=
    load_balance_buckets nearest 0 liveAndDrop ⟨false, true⟩ 0 (le_refl 14)
  have hlb : ∃ lb, result = .ok lb ∧ lb.bucketCount = 2 := by
    cases hnew
    exact ⟨_, rfl, rfl⟩
  obtain ⟨lb, rfl, hcount⟩ := hlb
  exact ⟨lb, hnew, hcount, (hspec lb rfl).2.2.2.1 rfl _ rfl ⟨_, List.mem_cons_self, rfl⟩⟩

end LoadBalanceDpo

end LoadBalance
