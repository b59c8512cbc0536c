import Hammer.BihashArena
import Hammer.BihashReclaim

/-! # Who owns a block

Every block of the allocator has one place: a bucket, the free list of its class, the retired list
or the operation that runs. Each step of a mutator takes blocks out of these places and puts them
back.
-/
namespace Bihash

open Bucket Shared List Option

variable {K : Type} {g : Layout K} {hz : Hazards} {s : Shared K} {held : List ℕ} {idx : ℕ}

variable {h : Table K} {rs : List (ℕ × ℕ)} {b : Bucket}

/-- The blocks while an operation holds `held` and the retired list is `rs`. -/
structure Sound (g : Layout K) (h : Table K) (rs : List (ℕ × ℕ)) (held : List ℕ) : Prop where
  parts : Parts g h (rs.map Prod.fst ++ held)
  classed : ∀ r ∈ rs, (h.blocks r.1).log2Pages = r.2

section Collect

/-- A collection moves offsets between lists. -/
theorem collectFrom_table (hz : Hazards) : ∀ (rs : List (ℕ × ℕ)) (s : Shared K),
    ∃ f, (collectFrom hz rs s).table = { s.table with freelists := f } := by
  intro rs
  induction rs with
  | nil => exact fun s => ⟨_, rfl⟩
  | cons r rs ih =>
    intro s
    rw [collectFrom]
    split
    · exact ih _
    · obtain ⟨f, hf⟩ := ih { s with table := retire s.table r.1 r.2, looks := s.looks + 1 }
      exact ⟨f, hf⟩

theorem Sound.collectFrom (hz : Hazards) : ∀ (rs : List (ℕ × ℕ)) {s : Shared K},
    Sound g s.table s.retired (rs.map Prod.fst ++ held) →
    (∀ r ∈ rs, (s.table.blocks r.1).log2Pages = r.2) →
    Sound g (Shared.collectFrom hz rs s).table (Shared.collectFrom hz rs s).retired held := by
  intro rs
  induction rs with
  | nil => exact fun h _ => h
  | cons r rs ih =>
    intro s h hc
    obtain ⟨hr, hrs⟩ := forall_mem_cons.mp hc
    rw [Shared.collectFrom]
    split
    · refine ih ⟨?_, fun q hq => ?_⟩ hrs
      · simpa using h.parts
      · rcases mem_append.mp hq with hq | hq
        · exact h.classed q hq
        · rw [mem_singleton.mp hq]
          exact hr
    · have hp : Parts g s.table (r.1 :: (s.retired.map Prod.fst ++ (rs.map Prod.fst ++ held))) :=
        h.parts.perm perm_middle.symm
      have hret := hp.retire
      rw [hr] at hret
      exact ih ⟨hret, h.classed⟩ hrs

theorem collectRetired_table (hz : Hazards) (s : Shared K) :
    ∃ f, (collectRetired hz s).table = { s.table with freelists := f } :=
  collectFrom_table hz s.retired { s with retired := [] }

theorem Sound.collectRetired (h : Sound g s.table s.retired held) (hz : Hazards) :
    Sound g (collectRetired hz s).table (Shared.collectRetired hz s).retired held :=
  Sound.collectFrom (s := { s with retired := [] }) hz s.retired
    ⟨h.parts, forall_mem_nil _⟩ h.classed

theorem retire_table (hz : Hazards) (s : Shared K) (o c : ℕ) :
    ∃ f, (Shared.retire hz s o c).table = { s.table with freelists := f } :=
  collectRetired_table hz _

theorem Sound.retire {o c : ℕ} (h : Sound g s.table s.retired (o :: held))
    (hc : (s.table.blocks o).log2Pages = c) (hz : Hazards) :
    Sound g (Shared.retire hz s o c).table (Shared.retire hz s o c).retired held := by
  refine Sound.collectRetired (s := { s with retired := s.retired ++ [(o, c)] })
    ⟨?_, fun r hr => ?_⟩ hz
  · simpa using h.parts
  · rcases mem_append.mp hr with hr | hr
    · exact h.classed r hr
    · rw [mem_singleton.mp hr]
      exact hc

end Collect

namespace Sound

variable (sd : Sound g h rs held)
include sd

theorem setLen (n : ℕ) : Sound g { h with len := n } rs held :=
  ⟨⟨sd.parts.parted, sd.parts.class_le, sd.parts.shape, sd.parts.free_class⟩, sd.classed⟩

theorem setPages {o : ℕ} (pages : List (ValuePage K)) (hs : Shape g (h.blocks o).log2Pages pages) :
    Sound g (setPages h o pages) rs held :=
  ⟨sd.parts.setPages pages hs, fun r hr => (setPages_log2Pages ..).trans (sd.classed r hr)⟩

theorem store (hidx : idx < h.nbuckets) {r : List ℕ}
    (hmove : (owned (storeBucket h idx b) idx ++ r).Perm (owned h idx ++ held)) :
    Sound g (storeBucket h idx b) rs r := by
  refine ⟨sd.parts.store hidx ?_, sd.classed⟩
  have hswap (xs ys zs : List ℕ) : (xs ++ (ys ++ zs)).Perm (ys ++ (xs ++ zs)) := by
    rw [← append_assoc, ← append_assoc]
    exact perm_append_comm.append_right _
  exact (hswap ..).trans ((hmove.append_left _).trans (hswap ..))

theorem store_alike (hidx : idx < h.nbuckets) (hb : (h.buckets idx).Alike b) :
    Sound g (storeBucket h idx b) rs held :=
  ⟨sd.parts.store_alike hidx hb, sd.classed⟩

end Sound

variable [Inhabited K] {c : ℕ}

/-- A block taken after a collection is held, with any pages of its class. -/
theorem allocate_sound (sd : Sound g s.table s.retired held) {o : ℕ} {h₁ : Table K}
    (hal : allocate g (collectRetired hz s).table c = some (h₁, o)) :
    Frame s.table h₁ ∧ h₁.blocks o = ⟨freshPages g c, c⟩ ∧ ∀ pages, Shape g c pages →
      Sound g (setPages h₁ o pages) (collectRetired hz s).retired (o :: held) ∧
      Frame s.table (setPages h₁ o pages) ∧ (setPages h₁ o pages).blocks o = ⟨pages, c⟩ := by
  obtain ⟨f, hf⟩ := collectRetired_table hz s
  have sd₀ := sd.collectRetired hz
  obtain ⟨-, al⟩ := sd₀.parts.allocate hal
  have hfr := al.frame
  rw [hf] at hfr
  have fr : Frame s.table h₁ := (Frame.freelists s.table f).trans hfr
  have hfresh : h₁.blocks o = ⟨freshPages g c, c⟩ := al.fresh
  have hne {q : ℕ × ℕ} (hq : q ∈ (collectRetired hz s).retired) : q.1 ≠ o := by
    have hn := (nodup_append.mp al.parts.nodup).2.1
    rintro rfl
    exact (nodup_cons.mp hn).1 (mem_append_left _ (mem_map_of_mem hq))
  have sd₁ : Sound g h₁ (collectRetired hz s).retired (o :: held) :=
    ⟨al.parts.perm perm_middle, fun q hq =>
      (congrArg _ (al.others q.1 (hne hq))).trans (sd₀.classed q hq)⟩
  refine ⟨fr, hfresh, fun pages hp => ⟨sd₁.setPages pages (by rw [hfresh]; exact hp), ?_, ?_⟩⟩
  · exact fr.trans (Frame.setPages sd₁.parts (by simp) _)
  · simp [setPages, hfresh]

theorem Follows.unless {α β : Type} {i : ℕ → α → β} {x : Option α} {y : Option β} {e : Prop}
    {Q : β → Prop} (f : Follows i x y) (u : Unless e Q y) : Unless e (fun a => ∃ n, Q (i n a)) x := by
  obtain ⟨n, rfl⟩ := f
  cases x with
  | none => exact u
  | some a => exact ⟨n, u⟩

/-- What a mutator can count on: a property `B n` of the state that leaves it `n` allocations, each
of which only fails if `e`. -/
structure Supply (g : Layout K) (hz : Hazards) (e : Prop) (B : ℕ → Shared K → Prop) : Prop where
  mono : ∀ {n m s}, m ≤ n → B n s → B m s
  offset : ∀ {n s held}, B n s → Sound g s.table s.retired held → s.table.blocksLen < 2 ^ 36
  allocate : ∀ {n s c}, B (n + 1) s → Sound g s.table s.retired [] → c ≤ MAX_LOG2_PAGES →
    Unless e (fun r => B n { Shared.collectRetired hz s with table := r.1 })
      (Bihash.allocate g (Shared.collectRetired hz s).table c)
  retire : ∀ {n s} o c, B n s → B n (Shared.retire hz s o c)
  same : ∀ {n s t}, B n s → t.retired = s.retired → census t.table = census s.table → B n t

/-- With lookups in flight an allocation may always fail; offsets fit their field for a while. -/
theorem supply_shared (g : Layout K) (hz : Hazards) :
    Supply g hz True fun n s => s.table.blocksLen + n < 2 ^ 36 where
  mono hle hB := by omega
  offset hB _ := by omega
  allocate {n s c} hB sd hc := by
    obtain ⟨f, hf⟩ := collectRetired_table hz s
    cases hr : Bihash.allocate g (Shared.collectRetired hz s).table c with
    | none => trivial
    | some r =>
      have hle := ((sd.collectRetired hz).parts.allocate hr).2.blocksLen_le
      rw [hf] at hle
      simp only [Unless] at hle ⊢
      omega
  retire {n s} o c hB := by
    obtain ⟨f, hf⟩ := retire_table hz s o c
    rwa [hf]
  same hB _ hc := by
    simp only [census, Prod.mk.injEq] at hc
    rwa [hc.2.1.1]

/-- A state of the table `h` with nothing retired. -/
def Budgeted (g : Layout K) (h : Table K) (s : Shared K) : Prop :=
  s.retired = [] ∧ Budget g s.table ∧ s.table.nbuckets = h.nbuckets ∧
    s.table.memorySize = h.memorySize

/-- Without lookups in flight an allocation only fails if memory is short. -/
theorem supply_idle (g : Layout K) (h : Table K) :
    Supply g noHazards (Short g h) fun _ => Budgeted g h where
  mono _ hB := hB
  offset hB sd := sd.parts.blocksLen_lt hB.2.1
  allocate {n s c} hB sd hc := by
    obtain ⟨t, rs, k⟩ := s
    obtain ⟨rfl, hbudget, hn, hm⟩ := hB
    have hal := hbudget.allocate sd.parts hc
    cases hr : Bihash.allocate g t c with
    | none =>
      rw [hr] at hal
      simp only [Shared.collectRetired, collectFrom, hr]
      show Short g h
      rw [Short, ← hn, ← hm]
      exact hal
    | some r =>
      rw [hr] at hal
      simp only [Shared.collectRetired, collectFrom, hr]
      have fr := (sd.parts.allocate hr).2.frame
      exact ⟨rfl, hal, fr.nbuckets.trans hn, fr.memorySize.trans hm⟩
  retire {n s} o c hB := by
    obtain ⟨t, rs, k⟩ := s
    obtain ⟨rfl, hbudget, hn, hm⟩ := hB
    exact ⟨rfl, hbudget.of_census rfl, hn, hm⟩
  same hB hr hc := by
    have hc' := hc
    simp only [census, Prod.mk.injEq] at hc'
    exact ⟨hr.trans hB.1, hB.2.1.of_census hc, hc'.1.1.trans hB.2.2.1, hc'.1.2.trans hB.2.2.2⟩

end Bihash
