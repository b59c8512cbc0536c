import Hammer.InterfaceFamilies

/-! # Interface routes in every run

Additions, deletions and admin changes in any order.
-/

namespace InterfaceRoutes

open Fib OrderedMap Function Finset List

variable {w : ℕ} {registration : ℕ → FibSourceRegistration} {interfaces : Interfaces}

/-- `f` installs the routes of an address. -/
def Installs (registration : ℕ → FibSourceRegistration) (F : Family w)
    (f : IpMain w → IpInterfaceAddress w → Option (IpMain w)) (a : IpInterfaceAddress w) : Prop :=
  ∀ m m' S, Installed registration F m S → a ∉ S → F.Compatible (insert a S) → f m a = some m' →
    Rerouted registration F m m' (insert a S)

/-- `f` withdraws the routes of an address. -/
def Withdraws (registration : ℕ → FibSourceRegistration) (F : Family w)
    (f : IpMain w → IpInterfaceAddress w → Option (IpMain w)) (a : IpInterfaceAddress w) : Prop :=
  ∀ m m' S, Installed registration F m S → F.Compatible S → a ∈ S → f m a = some m' →
    Rerouted registration F m m' (S.erase a)

theorem ip4DelInterfaceRoutes_withdraws (a : IpInterfaceAddress 32) :
    Withdraws registration (ip4Family interfaces) (fun m a => ip4DelInterfaceRoutes
      interfaces.isP2p m a.swIfIndex a.address a.addressLength (interfaces.fib4 a.swIfIndex)) a := by
  intro m m' S h hc ha hdel
  obtain ⟨t, ht, hdel⟩ := Option.bind_eq_some_iff.mp hdel
  by_cases hlen : a.addressLength < 32
  · rw [dif_pos hlen] at hdel
    obtain ⟨⟨prefixes, last⟩, hunlock, hdel⟩ := Option.bind_eq_some_iff.mp hdel
    dsimp only at hdel
    obtain ⟨hlast, hcounts⟩ := h.counts_erase ha hlen hunlock
    by_cases hl : last = some true
    · rw [if_neg (not_not.mpr hl)] at hdel
      obtain ⟨t1, ht1, hdel⟩ := Option.bind_eq_some_iff.mp hdel
      cases hdel
      rw [show (IpMain.tables { m.setTable (interfaces.fib4 a.swIfIndex) t with
        interfacePrefixes := prefixes }) (interfaces.fib4 a.swIfIndex) = t from
          IpMain.setTable_self _] at ht1
      have hboth := removeRoutes_append (t := m.tables (interfaces.fib4 a.swIfIndex))
        [Net.host a.address] ((ip4Specials interfaces.isP2p a.swIfIndex a.address
          (interfaceNet a.address a.addressLength hlen)).map Prod.fst ++
            [interfaceNet a.address a.addressLength hlen])
      rw [ht, Option.bind_some, ht1] at hboth
      refine ⟨h.erase hc ha hboth (IpMain.setTable_self _) hcounts ?_ fun p => ?_, rfl⟩
      · intro fib hf
        exact (IpMain.setTable_of_ne hf).trans (IpMain.setTable_of_ne hf)
      · rw [Family.sharedOf_eq hlen, and_iff_right (hlast.mp hl)]
        simp only [ip4Family, List.mem_append, List.map_cons, List.mem_cons, List.not_mem_nil,
          or_false]
        exact or_congr_right or_comm
    · rw [if_pos hl] at hdel
      cases hdel
      exact ⟨h.erase_host hc ha ht hcounts fun hnone => absurd (hlast.mpr hnone) hl, rfl⟩
  · rw [dif_neg hlen] at hdel
    cases hdel
    exact ⟨h.erase_host hc ha ht (h.counts_erase_host ha hlen) fun _ =>
      Family.sharedOf_eq_nil hlen, rfl⟩

theorem ip6DelInterfaceRoutes_withdraws (a : IpInterfaceAddress 128) :
    Withdraws registration (ip6Family interfaces) (fun m a => ip6DelInterfaceRoutes m a.swIfIndex
      a.address a.addressLength (interfaces.fib6 a.swIfIndex)) a := by
  intro m m' S h hc ha hdel
  obtain ⟨m1, hm1, hdel⟩ := Option.bind_eq_some_iff.mp hdel
  obtain ⟨t, ht, hdel⟩ := Option.bind_eq_some_iff.mp hdel
  cases hdel
  unfold ip6DelConnectedRoute at hm1
  by_cases hlen : a.addressLength < 128
  · rw [dif_pos hlen] at hm1
    obtain ⟨⟨prefixes, last⟩, hunlock, hm1⟩ := Option.bind_eq_some_iff.mp hm1
    dsimp only at hm1
    obtain ⟨hlast, hcounts⟩ := h.counts_erase ha hlen hunlock
    split at hm1
    · next hl =>
      obtain ⟨t1, ht1, hm1⟩ := Option.bind_eq_some_iff.mp hm1
      cases hm1
      rw [IpMain.setTable_self] at ht
      have hboth := removeRoutes_append (t := m.tables (interfaces.fib6 a.swIfIndex))
        [interfaceNet a.address a.addressLength hlen] [Net.host a.address]
      rw [ht1, Option.bind_some, ht] at hboth
      refine ⟨h.erase hc ha hboth (IpMain.setTable_self _) hcounts ?_ fun p => ?_, rfl⟩
      · intro fib hf
        exact (IpMain.setTable_of_ne hf).trans (IpMain.setTable_of_ne hf)
      · rw [Family.sharedOf_eq hlen, and_iff_right (hlast.mp hl)]
        simp only [ip6Family, List.mem_append, List.mem_singleton, List.map_cons, List.map_nil]
        exact or_comm
    · next hl =>
      cases hm1
      exact ⟨h.erase_host hc ha ht hcounts fun hnone => absurd (hlast.mpr hnone) hl, rfl⟩
  · rw [dif_neg hlen] at hm1
    cases hm1
    exact ⟨h.erase_host hc ha ht (h.counts_erase_host ha hlen) fun _ =>
      Family.sharedOf_eq_nil hlen, rfl⟩

section Addresses

variable {fibOf : ℕ → ℕ} {m m' : IpMain w} {sw length : ℕ} {x : BitVec w}
  {e : IpInterfaceAddressError} {F : Family w} {S : Finset (IpInterfaceAddress w)}

theorem Installed.congr (h : Installed registration F m S) (ht : m'.tables = m.tables)
    (hp : m'.interfacePrefixes = m.interfacePrefixes) : Installed registration F m' S where
  tables fib := by rw [ht]; exact h.tables fib
  counts k := by rw [hp]; exact h.counts k

theorem Separate.mono {T : Finset (IpInterfaceAddress w)} (h : Separate fibOf T) (hS : S ⊆ T) :
    Separate fibOf S where
  length a ha := h.length a (hS ha)
  distinct a ha b hb := h.distinct a (hS ha) b (hS hb)
  overlap a ha b hb := h.overlap a (hS ha) b (hS hb)

/-- The overlap check lets in what keeps the addresses separate. -/
theorem addInterfaceAddress_spec (hs : Separate fibOf m.interfaceAddresses.toFinset)
    (h : addInterfaceAddress fibOf e m sw x length = .ok m') :
    m' = { m with interfaceAddresses := m.interfaceAddresses ++ [⟨x, length, sw⟩] } ∧
      ⟨x, length, sw⟩ ∉ m.interfaceAddresses ∧
      Separate fibOf (insert ⟨x, length, sw⟩ m.interfaceAddresses.toFinset) := by
  unfold addInterfaceAddress at h
  split at h
  · nomatch h
  next hconf =>
  split at h
  · nomatch h
  split at h
  · nomatch h
  next hlen =>
  cases h
  have hle : length ≤ w := by omega
  have hfree : ∀ b ∈ m.interfaceAddresses, fibOf b.swIfIndex = fibOf sw →
      Overlap ⟨x, length, sw⟩ b →
      b.swIfIndex = sw ∧ b.addressLength = length ∧ b.address ≠ x := by
    intro b hb hfib hover
    have hno : conflicts fibOf sw x length b = false := by
      rw [Bool.not_eq_true, any_eq_false] at hconf
      simpa using hconf b hb
    have hbl := hs.length b (mem_toFinset.mpr hb)
    have hmatch : (prefixMatches x b.address b.addressLength ||
        prefixMatches b.address x length) = true := by
      rw [Bool.or_eq_true, prefixMatches_iff hbl, prefixMatches_iff hle]
      exact hover
    unfold conflicts at hno
    rw [hmatch] at hno
    simpa [hfib, and_assoc] using hno
  have hself : ∀ b ∈ m.interfaceAddresses, fibOf b.swIfIndex = fibOf sw → b.address ≠ x := by
    intro b hb hfib heq
    exact (hfree b hb hfib (Or.inl (by rw [heq]))).2.2 heq
  refine ⟨rfl, ?_, ?_, ?_, ?_⟩
  · intro hmem
    exact hself _ hmem rfl rfl
  · intro a ha
    rcases mem_insert.mp ha with rfl | ha
    · exact hle
    · exact hs.length a ha
  · intro a ha b hb hfib heq
    rcases mem_insert.mp ha with rfl | ha
    · rcases mem_insert.mp hb with rfl | hb
      · rfl
      · exact absurd heq.symm (hself b (mem_toFinset.mp hb) hfib.symm)
    · rcases mem_insert.mp hb with rfl | hb
      · exact absurd heq (hself a (mem_toFinset.mp ha) hfib)
      · exact hs.distinct a ha b hb hfib heq
  · intro a ha b hb hfib hover
    rcases mem_insert.mp ha with rfl | ha
    · rcases mem_insert.mp hb with rfl | hb
      · exact ⟨rfl, rfl⟩
      · obtain ⟨hsw, hlen, -⟩ := hfree b (mem_toFinset.mp hb) hfib.symm hover
        exact ⟨hsw.symm, hlen.symm⟩
    · rcases mem_insert.mp hb with rfl | hb
      · obtain ⟨hsw, hlen, -⟩ := hfree a (mem_toFinset.mp ha) hfib hover.symm
        exact ⟨hsw, hlen⟩
      · exact hs.overlap a ha b hb hfib hover

theorem deleteInterfaceAddress_spec (h : deleteInterfaceAddress fibOf m sw x = .ok m') :
    ∃ a ∈ m.interfaceAddresses, a.address = x ∧ a.swIfIndex = sw ∧
      m' = { m with interfaceAddresses := m.interfaceAddresses.erase a } := by
  unfold deleteInterfaceAddress at h
  split at h
  · nomatch h
  next a ha =>
  split at h
  · nomatch h
  next hsw =>
  cases h
  have hfound := find?_some ha
  rw [Bool.and_eq_true, beq_iff_eq] at hfound
  exact ⟨a, mem_of_find?_eq_some ha, hfound.1, not_not.mp hsw, rfl⟩

def upAddresses (adminUp : ℕ → Bool) (m : IpMain w) : Finset (IpInterfaceAddress w) :=
  m.interfaceAddresses.toFinset.filter fun a => adminUp a.swIfIndex

variable {adminUp : ℕ → Bool}

theorem mem_upAddresses {a : IpInterfaceAddress w} : a ∈ upAddresses adminUp m ↔
    a ∈ m.interfaceAddresses ∧ adminUp a.swIfIndex = true := by
  simp [upAddresses]

theorem upAddresses_congr (h : ∀ a, a ∈ m'.interfaceAddresses ↔ a ∈ m.interfaceAddresses) :
    upAddresses adminUp m' = upAddresses adminUp m := by
  ext a
  rw [mem_upAddresses, mem_upAddresses, h]

theorem upAddresses_eq (h : m'.interfaceAddresses = m.interfaceAddresses) :
    upAddresses adminUp m' = upAddresses adminUp m :=
  upAddresses_congr fun _ => by rw [h]

theorem upAddresses_nil (h : m.interfaceAddresses = []) : upAddresses adminUp m = ∅ := by
  unfold upAddresses
  rw [h]
  rfl

theorem upAddresses_subset : upAddresses adminUp m ⊆ m.interfaceAddresses.toFinset :=
  filter_subset ..

theorem upAddresses_append (a : IpInterfaceAddress w) :
    upAddresses adminUp { m with interfaceAddresses := m.interfaceAddresses ++ [a] } =
      if adminUp a.swIfIndex then insert a (upAddresses adminUp m) else upAddresses adminUp m := by
  ext b
  by_cases hb : b = a
  · split <;> simp [mem_upAddresses, *]
  · split <;> simp [mem_upAddresses, hb]

theorem upAddresses_erase (hnodup : m.interfaceAddresses.Nodup) (a : IpInterfaceAddress w) :
    upAddresses adminUp { m with interfaceAddresses := m.interfaceAddresses.erase a } =
      (upAddresses adminUp m).erase a := by
  ext b
  simp [mem_upAddresses, hnodup.mem_erase_iff, and_assoc]

end Addresses

section OneFamily

variable {F : Family w} {adminUp : ℕ → Bool} {m m' : IpMain w} {a : IpInterfaceAddress w} {sw : ℕ}

/-- The addresses of a family get along, and the routes of those that are up are installed. -/
structure Tracks (registration : ℕ → FibSourceRegistration) (F : Family w) (adminUp : ℕ → Bool)
    (m : IpMain w) : Prop where
  nodup : m.interfaceAddresses.Nodup
  separate : Separate F.fibOf m.interfaceAddresses.toFinset
  compatible : F.Compatible m.interfaceAddresses.toFinset
  routes : Installed registration F m (upAddresses adminUp m)

/-- Only the enable counts differ. -/
structure SameRoutes (m m' : IpMain w) : Prop where
  addresses : m'.interfaceAddresses = m.interfaceAddresses
  prefixes : m'.interfacePrefixes = m.interfacePrefixes
  tables : m'.tables = m.tables

theorem SameRoutes.trans {m'' : IpMain w} (h : SameRoutes m m') (h' : SameRoutes m' m'') :
    SameRoutes m m'' :=
  ⟨h'.addresses.trans h.addresses, h'.prefixes.trans h.prefixes, h'.tables.trans h.tables⟩

theorem enable_spec (h : enable m sw = some m') : SameRoutes m m' := by
  unfold enable at h
  split at h
  · cases h
    exact ⟨rfl, rfl, rfl⟩
  · nomatch h

theorem disable_spec {noop : Bool} (h : disable noop m sw = some m') : SameRoutes m m' := by
  unfold disable at h
  split at h
  · split at h
    · cases h
      exact ⟨rfl, rfl, rfl⟩
    · nomatch h
  · cases h
    exact ⟨rfl, rfl, rfl⟩

theorem Rerouted.tracks (h : Rerouted registration F m m' (upAddresses adminUp m))
    (hnodup : m.interfaceAddresses.Nodup)
    (hseparate : Separate F.fibOf m.interfaceAddresses.toFinset)
    (hcompatible : F.Compatible m.interfaceAddresses.toFinset) :
    Tracks registration F adminUp m' := by
  obtain ⟨hroutes, haddr⟩ := h
  rw [← upAddresses_eq haddr] at hroutes
  rw [← haddr] at hnodup hseparate hcompatible
  exact ⟨hnodup, hseparate, hcompatible, hroutes⟩

theorem Tracks.congr (h : Tracks registration F adminUp m) (hs : SameRoutes m m') :
    Tracks registration F adminUp m' :=
  Rerouted.tracks ⟨h.routes.congr hs.tables hs.prefixes, hs.addresses⟩ h.nodup h.separate
    h.compatible

theorem toFinset_append_singleton (l : List (IpInterfaceAddress w)) :
    (l ++ [a]).toFinset = insert a l.toFinset := by
  simp

theorem Tracks.add (hkey : Function.Injective fun s => (registration s).key)
    (h : Tracks registration F adminUp m) {e : IpInterfaceAddressError} {m1 m2 : IpMain w}
    (hc : Separate F.fibOf (insert a m.interfaceAddresses.toFinset) →
      F.Compatible (insert a m.interfaceAddresses.toFinset))
    (hadd : addInterfaceAddress F.fibOf e m a.swIfIndex a.address a.addressLength = .ok m1)
    (hsame : SameRoutes m1 m2)
    (hroutes : (if adminUp a.swIfIndex then addInterfaceRoutes registration (F.shared a) m2
      a.swIfIndex a.address a.addressLength (F.fibOf a.swIfIndex) else some m2) = some m') :
    Tracks registration F adminUp m' ∧ m'.interfaceAddresses = m.interfaceAddresses ++ [a] := by
  obtain ⟨rfl, hnew, hsep⟩ := addInterfaceAddress_spec h.separate hadd
  have hcomp := hc hsep
  have haddr2 : m2.interfaceAddresses = m.interfaceAddresses ++ [a] := hsame.addresses
  have hup : upAddresses adminUp m2 = if adminUp a.swIfIndex
      then insert a (upAddresses adminUp m) else upAddresses adminUp m := by
    rw [← upAddresses_append]
    exact upAddresses_eq haddr2
  have hinst : Installed registration F m2 (upAddresses adminUp m) :=
    h.routes.congr hsame.tables hsame.prefixes
  have hdone : Rerouted registration F m2 m' (upAddresses adminUp m2) := by
    rw [hup]
    split at hroutes
    · next hu =>
      rw [if_pos hu]
      refine hinst.add hkey ?_ (hcomp.mono ?_) hroutes
      · intro hmem
        exact hnew (List.mem_toFinset.mp (upAddresses_subset hmem))
      · exact insert_subset_insert a upAddresses_subset
    · next hu =>
      cases hroutes
      rw [if_neg hu]
      exact ⟨hinst, rfl⟩
  refine ⟨hdone.tracks ?_ ?_ ?_, hdone.addresses.trans haddr2⟩
  · rw [haddr2]
    exact h.nodup.append (nodup_singleton a) (disjoint_singleton.mpr hnew)
  all_goals rwa [haddr2, toFinset_append_singleton]

theorem Tracks.delete (del : IpMain w → Option (IpMain w)) {m1 m2 : IpMain w} {x : BitVec w}
    (h : Tracks registration F adminUp m)
    (hdelete : deleteInterfaceAddress F.fibOf m sw x = .ok m1) (hsame : SameRoutes m1 m2)
    (hdel : ∀ a ∈ m.interfaceAddresses, a.address = x → a.swIfIndex = sw →
      Withdraws registration F (fun m _ => del m) a)
    (hroutes : (if adminUp sw then del m2 else some m2) = some m') :
    Tracks registration F adminUp m' ∧
      m'.interfaceAddresses.toFinset ⊆ m.interfaceAddresses.toFinset := by
  obtain ⟨a, ha, hax, hsw, rfl⟩ := deleteInterfaceAddress_spec hdelete
  have haddr2 : m2.interfaceAddresses = m.interfaceAddresses.erase a := hsame.addresses
  have hup : upAddresses adminUp m2 = (upAddresses adminUp m).erase a := by
    rw [← upAddresses_erase h.nodup]
    exact upAddresses_eq haddr2
  have hinst : Installed registration F m2 (upAddresses adminUp m) :=
    h.routes.congr hsame.tables hsame.prefixes
  have hdone : Rerouted registration F m2 m' (upAddresses adminUp m2) := by
    rw [hup]
    split at hroutes
    · next hu =>
      refine hdel a ha hax hsw _ _ _ hinst (h.compatible.mono upAddresses_subset) ?_ hroutes
      exact mem_upAddresses.mpr ⟨ha, by rw [hsw]; exact hu⟩
    · next hu =>
      cases hroutes
      rw [erase_eq_of_notMem]
      · exact ⟨hinst, rfl⟩
      · intro hmem
        rw [mem_upAddresses, hsw] at hmem
        exact hu hmem.2
  have hsub : m2.interfaceAddresses.toFinset ⊆ m.interfaceAddresses.toFinset := by
    rw [haddr2]
    exact fun b hb => mem_toFinset.mpr (mem_of_mem_erase (mem_toFinset.mp hb))
  refine ⟨hdone.tracks ?_ (h.separate.mono hsub) (h.compatible.mono hsub), ?_⟩
  · rw [haddr2]
    exact h.nodup.erase a
  · rwa [hdone.addresses]

section Folds

variable {f g : IpMain w → IpInterfaceAddress w → Option (IpMain w)}
  {l : List (IpInterfaceAddress w)} {S : Finset (IpInterfaceAddress w)}

theorem foldlM_install (hf : ∀ a ∈ l, Installs registration F f a)
    (h : Installed registration F m S) (hnodup : l.Nodup) (hnew : ∀ a ∈ l, a ∉ S)
    (hc : F.Compatible (S ∪ l.toFinset)) (hl : l.foldlM f m = some m') :
    Rerouted registration F m m' (S ∪ l.toFinset) := by
  induction l generalizing m S with
  | nil =>
    cases hl
    exact ⟨by simpa using h, rfl⟩
  | cons a l ih =>
    obtain ⟨m1, hm1, hl⟩ := Option.bind_eq_some_iff.mp hl
    rw [nodup_cons] at hnodup
    have hset : S ∪ (a :: l).toFinset = insert a S ∪ l.toFinset := by
      ext b
      simp only [toFinset_cons, mem_union, mem_insert]
      tauto
    rw [hset] at hc ⊢
    obtain ⟨hinst, haddr⟩ := hf a (mem_cons_self ..) m m1 S h
      (hnew a (mem_cons_self ..)) (hc.mono subset_union_left) hm1
    obtain ⟨hdone, haddr'⟩ := ih (fun b hb => hf b (mem_cons_of_mem _ hb)) hinst hnodup.2 (by
        intro b hb hmem
        rcases mem_insert.mp hmem with rfl | hmem
        · exact hnodup.1 hb
        · exact hnew b (mem_cons_of_mem _ hb) hmem) hc hl
    exact ⟨hdone, haddr'.trans haddr⟩

theorem foldlM_withdraw (hf : ∀ a ∈ l, Withdraws registration F f a)
    (h : Installed registration F m S) (hnodup : l.Nodup) (hin : ∀ a ∈ l, a ∈ S)
    (hc : F.Compatible S) (hl : l.foldlM f m = some m') :
    Rerouted registration F m m' (S \ l.toFinset) := by
  induction l generalizing m S with
  | nil =>
    cases hl
    exact ⟨by simpa using h, rfl⟩
  | cons a l ih =>
    obtain ⟨m1, hm1, hl⟩ := Option.bind_eq_some_iff.mp hl
    rw [nodup_cons] at hnodup
    obtain ⟨hinst, haddr⟩ := hf a (mem_cons_self ..) m m1 S h hc
      (hin a (mem_cons_self ..)) hm1
    have hset : S \ (a :: l).toFinset = S.erase a \ l.toFinset := by
      ext b
      simp only [toFinset_cons, Finset.mem_sdiff, Finset.mem_insert, Finset.mem_erase]
      tauto
    rw [hset]
    obtain ⟨hdone, haddr'⟩ := ih (fun b hb => hf b (mem_cons_of_mem _ hb)) hinst hnodup.2 (by
        intro b hb
        refine Finset.mem_erase.mpr ⟨?_, hin b (mem_cons_of_mem _ hb)⟩
        rintro rfl
        exact hnodup.1 hb) (hc.mono (Finset.erase_subset a S)) hl
    exact ⟨hdone, haddr'.trans haddr⟩

theorem Tracks.admin {isUp : Bool} (h : Tracks registration F adminUp m) (hup : adminUp sw ≠ isUp)
    (hf : ∀ a, a.swIfIndex = sw → Installs registration F f a)
    (hg : ∀ a, a.swIfIndex = sw → Withdraws registration F g a)
    (hl : (m.addressesOf sw).foldlM (fun m a => if isUp then f m a else g m a) m = some m') :
    Tracks registration F (update adminUp sw isUp) m' ∧
      m'.interfaceAddresses = m.interfaceAddresses := by
  have hnodup : (m.addressesOf sw).Nodup := h.nodup.filter _
  have hmem : ∀ a, a ∈ m.addressesOf sw ↔ a ∈ m.interfaceAddresses ∧ a.swIfIndex = sw := by
    intro a
    unfold IpMain.addressesOf
    rw [mem_filter, beq_iff_eq]
  have hdone : Rerouted registration F m m' (upAddresses (update adminUp sw isUp) m) := by
    cases isUp with
    | true =>
      have hdown : adminUp sw = false := by simpa using hup
      have hset : upAddresses (update adminUp sw true) m =
          upAddresses adminUp m ∪ (m.addressesOf sw).toFinset := by
        ext a
        simp only [mem_upAddresses, mem_union, mem_toFinset, hmem]
        by_cases hsw : a.swIfIndex = sw
        · rw [hsw, hdown]
          simp
        · simp [hsw]
      rw [hset]
      refine foldlM_install (fun a ha => hf a ((hmem a).mp ha).2) h.routes hnodup ?_
        (h.compatible.mono ?_) hl
      · intro a ha hin
        rw [mem_upAddresses, ((hmem a).mp ha).2, hdown] at hin
        exact Bool.false_ne_true hin.2
      · apply union_subset upAddresses_subset
        intro a ha
        exact mem_toFinset.mpr ((hmem a).mp (mem_toFinset.mp ha)).1
    | false =>
      have hset : upAddresses (update adminUp sw false) m =
          upAddresses adminUp m \ (m.addressesOf sw).toFinset := by
        ext a
        simp only [mem_upAddresses, mem_sdiff, mem_toFinset, hmem]
        by_cases hsw : a.swIfIndex = sw
        · rw [hsw, update_self]
          tauto
        · simp [hsw]
      rw [hset]
      refine foldlM_withdraw (fun a ha => hg a ((hmem a).mp ha).2) h.routes hnodup ?_
        (h.compatible.mono upAddresses_subset) hl
      intro a ha
      rw [mem_upAddresses, ((hmem a).mp ha).2]
      exact ⟨((hmem a).mp ha).1, by simpa using hup⟩
  exact ⟨hdone.tracks h.nodup h.separate h.compatible, hdone.addresses⟩

end Folds

end OneFamily

variable {s s' : State} {e : Event} {r : Except IpInterfaceAddressError Unit} {del : Bool}

/-- A deletion names the configured length; an IPv4 address is not the network or broadcast
address of its prefix nor the other one of a /31 on its interface. -/
def Event.Regular (s : State) : Event → Prop
  | .address4 sw x l true =>
    ∀ a ∈ s.ip4.interfaceAddresses, a.address = x → a.swIfIndex = sw → a.addressLength = l
  | .address6 sw x l true _ =>
    ∀ a ∈ s.ip6.interfaceAddresses, a.address = x → a.swIfIndex = sw → a.addressLength = l
  | .address4 sw x l false =>
    (∀ hl : l < 32, l ≤ 30 → x ≠ (interfaceNet x l hl).network ∧
      x ≠ (interfaceNet x l hl).broadcast) ∧
    (l = 31 → ∀ a ∈ s.ip4.interfaceAddresses, a.addressLength = 31 → a.swIfIndex = sw →
      a.address ≠ x ^^^ 1)
  | .address6 _ _ _ false _ => True
  | .flags _ _ => True

/-- No addresses yet, and no route of source `INTERFACE`. -/
structure Fresh (registration : ℕ → FibSourceRegistration) (s : State) : Prop where
  addresses4 : s.ip4.interfaceAddresses = []
  prefixes4 : s.ip4.interfacePrefixes = []
  tables4 : ∀ fib, Holds registration (s.ip4.tables fib) ∅
  addresses6 : s.ip6.interfaceAddresses = []
  prefixes6 : s.ip6.interfacePrefixes = []
  tables6 : ∀ fib, Holds registration (s.ip6.tables fib) ∅

inductive Reaches (registration : ℕ → FibSourceRegistration) (interfaces : Interfaces)
    (Allowed : State → Event → Prop) : State → Prop
  | fresh {s : State} (fresh : Fresh registration s) : Reaches registration interfaces Allowed s
  | step {s s' : State} {e : Event} (before : Reaches registration interfaces Allowed s)
      (allowed : Allowed s e) (step : step registration interfaces s e = some s') :
      Reaches registration interfaces Allowed s'

structure Follows (registration : ℕ → FibSourceRegistration) (interfaces : Interfaces)
    (s : State) : Prop where
  ip4 : Tracks registration (ip4Family interfaces) s.adminUp s.ip4
  ordinary : Ordinary s.ip4.interfaceAddresses.toFinset
  ip6 : Tracks registration (ip6Family interfaces) s.adminUp s.ip6

theorem Family.wanted_empty (F : Family w) (fib : ℕ) : F.wanted ∅ fib = ∅ := by
  rw [Set.eq_empty_iff_forall_notMem]
  rintro x ⟨a, ha, -⟩
  nomatch ha

theorem Fresh.tracks {F : Family w} {adminUp : ℕ → Bool} {m : IpMain w}
    (ha : m.interfaceAddresses = []) (hp : m.interfacePrefixes = [])
    (ht : ∀ fib, Holds registration (m.tables fib) ∅) : Tracks registration F adminUp m := by
  have hnone : ∀ a : IpInterfaceAddress w, a ∉ m.interfaceAddresses.toFinset := by
    rw [ha]
    simp
  have hall : ∀ {P : IpInterfaceAddress w → Prop}, ∀ a ∈ m.interfaceAddresses.toFinset, P a :=
    fun a h => absurd h (hnone a)
  refine ⟨by rw [ha]; exact nodup_nil, ⟨hall, hall, hall⟩,
    ⟨hall, hall, hall, hall, hall, hall⟩, ?_, ?_⟩
  · intro fib
    rw [upAddresses_nil ha, Family.wanted_empty]
    exact ht fib
  · intro k
    rw [hp, upAddresses_nil ha]
    rfl

theorem Fresh.follows (h : Fresh registration s) : Follows registration interfaces s where
  ip4 := Fresh.tracks h.addresses4 h.prefixes4 h.tables4
  ordinary := by
    rw [h.addresses4]
    exact ⟨fun a ha => (nomatch ha), fun a ha => (nomatch ha)⟩
  ip6 := Fresh.tracks h.addresses6 h.prefixes6 h.tables6

theorem Ordinary.mono {S T : Finset (IpInterfaceAddress 32)} (h : Ordinary T) (hS : S ⊆ T) :
    Ordinary S where
  special a ha := h.special a (hS ha)
  peer a ha b hb := h.peer a (hS ha) b (hS hb)

theorem Ordinary.insert {S : Finset (IpInterfaceAddress 32)} {a : IpInterfaceAddress 32}
    (h : Ordinary S)
    (hspecial : ∀ hl : a.addressLength < 32, a.addressLength ≤ 30 →
      a.address ≠ (interfaceNet a.address a.addressLength hl).network ∧
        a.address ≠ (interfaceNet a.address a.addressLength hl).broadcast)
    (hpeer : a.addressLength = 31 → ∀ b ∈ S, b.addressLength = 31 → b.swIfIndex = a.swIfIndex →
      b.address ≠ a.address ^^^ 1) : Ordinary (insert a S) := by
  have hback : ∀ x y : BitVec 32, x ^^^ 1 = y → x = y ^^^ 1 := by
    rintro x y rfl
    rw [BitVec.xor_assoc, BitVec.xor_self, BitVec.xor_zero]
  refine ⟨?_, ?_⟩
  · intro b hb hl h30
    rcases mem_insert.mp hb with rfl | hb
    · exact hspecial hl h30
    · exact h.special b hb hl h30
  · intro b hb c hc hb31 hc31 hsw
    rcases mem_insert.mp hb with rfl | hbS
    · rcases mem_insert.mp hc with rfl | hcS
      · exact peer_ne _
      · exact fun heq => hpeer hb31 c hcS hc31 hsw.symm heq.symm
    · rcases mem_insert.mp hc with rfl | hcS
      · exact fun heq => hpeer hc31 b hbS hb31 hsw (hback _ _ heq)
      · exact h.peer b hbS c hcS hb31 hc31 hsw

theorem Follows.address4 (hkey : Function.Injective fun s => (registration s).key) {sw l : ℕ}
    {x : BitVec 32} (h : Follows registration interfaces s)
    (hr : Event.Regular s (.address4 sw x l del))
    (hs : ip4AddDelInterfaceAddress registration interfaces s sw x l del = some (s', r)) :
    Follows registration interfaces s' := by
  unfold ip4AddDelInterfaceAddress at hs
  split at hs
  · cases hs
    exact h
  cases del with
  | true =>
    rw [if_pos rfl] at hs
    split at hs
    · cases hs
      exact h
    next m1 hdelete =>
    obtain ⟨m2, hm2, hs⟩ := Option.bind_eq_some_iff.mp hs
    obtain ⟨m3, hm3, hs⟩ := Option.bind_eq_some_iff.mp hs
    cases hs
    obtain ⟨htracks, hsub⟩ := h.ip4.delete (fun m =>
      ip4DelInterfaceRoutes interfaces.isP2p m sw x l (interfaces.fib4 sw)) hdelete
        (disable_spec hm2) (by
          rintro a ha rfl rfl
          obtain rfl := hr a ha rfl rfl
          exact ip4DelInterfaceRoutes_withdraws a) hm3
    exact ⟨htracks, h.ordinary.mono hsub, h.ip6⟩
  | false =>
    rw [if_neg Bool.false_ne_true] at hs
    split at hs
    · cases hs
      exact h
    next m1 hadd =>
    obtain ⟨m2, hm2, hs⟩ := Option.bind_eq_some_iff.mp hs
    obtain ⟨m3, hm3, hs⟩ := Option.bind_eq_some_iff.mp hs
    cases hs
    have hord : Ordinary (insert ⟨x, l, sw⟩ s.ip4.interfaceAddresses.toFinset) := by
      apply h.ordinary.insert hr.1
      intro h31 b hb
      exact hr.2 h31 b (mem_toFinset.mp hb)
    obtain ⟨htracks, haddr⟩ := h.ip4.add (a := ⟨x, l, sw⟩) hkey
      (fun hsep => ip4_compatible hsep hord) hadd (enable_spec hm2) hm3
    refine ⟨htracks, ?_, h.ip6⟩
    rw [haddr, toFinset_append_singleton]
    exact hord

variable {generated : BitVec 128}

theorem ip6LinkEnable_spec {sw : ℕ} {x : Option (BitVec 128)}
    (h : ip6LinkEnable s sw x generated = some s') :
    s'.ip4 = s.ip4 ∧ s'.adminUp = s.adminUp ∧ SameRoutes s.ip6 s'.ip6 := by
  unfold ip6LinkEnable at h
  split at h
  · split at h
    · cases h
      exact ⟨rfl, rfl, rfl, rfl, rfl⟩
    · split at h
      · cases h
        exact ⟨rfl, rfl, rfl, rfl, rfl⟩
      · nomatch h
  · obtain ⟨m, hm, h⟩ := Option.bind_eq_some_iff.mp h
    cases h
    exact ⟨rfl, rfl, enable_spec hm⟩

theorem ip6LinkDisable_spec {sw : ℕ} (h : ip6LinkDisable s sw = some s') :
    s'.ip4 = s.ip4 ∧ s'.adminUp = s.adminUp ∧ SameRoutes s.ip6 s'.ip6 := by
  unfold ip6LinkDisable at h
  split at h
  · cases h
    exact ⟨rfl, rfl, rfl, rfl, rfl⟩
  · split at h
    · nomatch h
    · split at h
      · cases h
        exact ⟨rfl, rfl, rfl, rfl, rfl⟩
      · obtain ⟨m, hm, h⟩ := Option.bind_eq_some_iff.mp h
        cases h
        exact ⟨rfl, rfl, disable_spec hm⟩

theorem Follows.withIp6 (h : Follows registration interfaces s) (h4 : s'.ip4 = s.ip4)
    (hup : s'.adminUp = s.adminUp)
    (h6 : Tracks registration (ip6Family interfaces) s.adminUp s'.ip6) :
    Follows registration interfaces s' := by
  refine ⟨?_, ?_, ?_⟩
  · rw [h4, hup]
    exact h.ip4
  · rw [h4]
    exact h.ordinary
  · rw [hup]
    exact h6

theorem Follows.link (h : Follows registration interfaces s)
    (hs : s'.ip4 = s.ip4 ∧ s'.adminUp = s.adminUp ∧ SameRoutes s.ip6 s'.ip6) :
    Follows registration interfaces s' :=
  h.withIp6 hs.1 hs.2.1 (h.ip6.congr hs.2.2)

theorem Follows.linkLocal {sw l : ℕ} {x : BitVec 128} (h : Follows registration interfaces s)
    (hs : ip6LinkLocalAddress s sw x l del generated = some (s', r)) :
    Follows registration interfaces s' := by
  unfold ip6LinkLocalAddress at hs
  split at hs
  · cases hs
    exact h
  · split at hs
    · split at hs
      · cases hs
        exact h
      · cases hs
        exact h
    · obtain ⟨s1, hs1, hs⟩ := Option.bind_eq_some_iff.mp hs
      cases hs
      exact h.link (ip6LinkEnable_spec hs1)

section

variable (hkey : Function.Injective fun s => (registration s).key)
include hkey

theorem Follows.address6 {sw l : ℕ} {x : BitVec 128} (h : Follows registration interfaces s)
    (hr : Event.Regular s (.address6 sw x l del generated))
    (hs : ip6AddDelInterfaceAddress registration interfaces s sw x l del generated = some (s', r)) :
    Follows registration interfaces s' := by
  unfold ip6AddDelInterfaceAddress at hs
  split at hs
  · cases hs
    exact h
  split at hs
  · exact h.linkLocal hs
  cases del with
  | true =>
    rw [if_pos rfl] at hs
    split at hs
    · cases hs
      exact h
    next m1 hdelete =>
    obtain ⟨m2, hm2, hs⟩ := Option.bind_eq_some_iff.mp hs
    obtain ⟨m3, hm3, hs⟩ := Option.bind_eq_some_iff.mp hs
    obtain ⟨s1, hs1, hs⟩ := Option.bind_eq_some_iff.mp hs
    cases hs
    obtain ⟨htracks, -⟩ := h.ip6.delete (fun m =>
      ip6DelInterfaceRoutes m sw x l (interfaces.fib6 sw)) hdelete (disable_spec hm2) (by
        rintro a ha rfl rfl
        obtain rfl := hr a ha rfl rfl
        exact ip6DelInterfaceRoutes_withdraws a) hm3
    have hmid : Follows registration interfaces { s with ip6 := m3 } :=
      ⟨h.ip4, h.ordinary, htracks⟩
    exact hmid.link (ip6LinkDisable_spec hs1)
  | false =>
    rw [if_neg Bool.false_ne_true] at hs
    split at hs
    · cases hs
      exact h
    next m1 hadd =>
    obtain ⟨m2, hm2, hs⟩ := Option.bind_eq_some_iff.mp hs
    obtain ⟨s1, hs1, hs⟩ := Option.bind_eq_some_iff.mp hs
    obtain ⟨m3, hm3, hs⟩ := Option.bind_eq_some_iff.mp hs
    cases hs
    obtain ⟨h4, hup, h6⟩ := ip6LinkEnable_spec hs1
    rw [hup] at hm3
    obtain ⟨htracks, -⟩ := h.ip6.add (a := ⟨x, l, sw⟩) hkey (fun hsep => ip6_compatible hsep) hadd
      ((enable_spec hm2).trans h6) hm3
    exact h.withIp6 h4 hup htracks

theorem Follows.flags {sw : ℕ} {isUp : Bool} (h : Follows registration interfaces s)
    (hs : setSoftwareFlags registration interfaces s sw isUp = some s') :
    Follows registration interfaces s' := by
  unfold setSoftwareFlags at hs
  split at hs
  · cases hs
    exact h
  next hup =>
  obtain ⟨m4, h4, hs⟩ := Option.bind_eq_some_iff.mp hs
  obtain ⟨m6, h6, hs⟩ := Option.bind_eq_some_iff.mp hs
  cases hs
  obtain ⟨htracks4, haddr4⟩ := h.ip4.admin hup (by
      rintro a rfl m m' S hinst hnew hcomp hadd
      exact hinst.add hkey hnew hcomp hadd) (by
      rintro a rfl
      exact ip4DelInterfaceRoutes_withdraws a) h4
  obtain ⟨htracks6, -⟩ := h.ip6.admin hup (by
      rintro a rfl m m' S hinst hnew hcomp hadd
      exact hinst.add hkey hnew hcomp hadd) (by
      rintro a rfl
      exact ip6DelInterfaceRoutes_withdraws a) h6
  refine ⟨htracks4, ?_, htracks6⟩
  rw [haddr4]
  exact h.ordinary

theorem Reaches.follows (h : Reaches registration interfaces Event.Regular s) :
    Follows registration interfaces s := by
  induction h with
  | fresh hf => exact hf.follows
  | @step s s' e _ hr hs ih =>
    cases e with
    | address4 sw x l del =>
      obtain ⟨⟨s1, r⟩, hcall, rfl⟩ := Option.map_eq_some_iff.mp hs
      exact ih.address4 hkey hr hcall
    | address6 sw x l del generated =>
      obtain ⟨⟨s1, r⟩, hcall, rfl⟩ := Option.map_eq_some_iff.mp hs
      exact ih.address6 hkey hr hcall
    | flags sw isUp => exact ih.flags hkey hs

end

def interfaceRoutes (t : FibState w (RouteDpo w)) : Set (Net w × RouteDpo w) :=
  { x | t.table.references x.1 INTERFACE ≠ none ∧
    get routeCmp (x.1, INTERFACE) t.table.sourceForwarding = some x.2 }

theorem Holds.interfaceRoutes_eq {t : FibState w (RouteDpo w)} {R : Set (Net w × RouteDpo w)}
    (h : Holds registration t R) : interfaceRoutes t = R := by
  obtain ⟨r, hr, hin⟩ := h
  ext ⟨p, d⟩
  unfold interfaceRoutes
  simp only [Set.mem_ofPred_eq]
  rw [hr.agrees.forwards, hr.agrees.references_ne_none]
  constructor
  · rintro ⟨-, hd⟩
    obtain ⟨⟨n, d'⟩, hrp, rfl⟩ := Option.map_eq_some_iff.mp hd
    exact ((hin p n d').mp hrp).2
  · intro hmem
    have hrp := (hin p 1 d).mpr ⟨rfl, hmem⟩
    rw [hrp]
    exact ⟨nofun, rfl⟩

theorem Tracks.interfaceRoutes_eq {adminUp : ℕ → Bool} {m : IpMain w} {F : Family w}
    (h : Tracks registration F adminUp m) (fib : ℕ) :
    interfaceRoutes (m.tables fib) = F.wanted (upAddresses adminUp m) fib :=
  (h.routes.tables fib).interfaceRoutes_eq

/-- The routes of an interface that is up are the receive route of each address, the connected
route of each prefix and its special routes; nothing is left of addresses that are gone. -/
theorem interface_routes_follow_addresses
    (hkey : Function.Injective fun s => (registration s).key)
    (h : Reaches registration interfaces Event.Regular s) :
    (∀ fib, interfaceRoutes (s.ip4.tables fib) =
      (ip4Family interfaces).wanted (upAddresses s.adminUp s.ip4) fib) ∧
    (∀ fib, interfaceRoutes (s.ip6.tables fib) =
      (ip6Family interfaces).wanted (upAddresses s.adminUp s.ip6) fib) ∧
    (∀ s', Reaches registration interfaces Event.Regular s' → s'.adminUp = s.adminUp →
      ((∀ a, a ∈ s'.ip4.interfaceAddresses ↔ a ∈ s.ip4.interfaceAddresses) →
        ∀ fib, interfaceRoutes (s'.ip4.tables fib) = interfaceRoutes (s.ip4.tables fib)) ∧
      ((∀ a, a ∈ s'.ip6.interfaceAddresses ↔ a ∈ s.ip6.interfaceAddresses) →
        ∀ fib, interfaceRoutes (s'.ip6.tables fib) = interfaceRoutes (s.ip6.tables fib))) ∧
    (s.ip4.interfaceAddresses = [] → ∀ fib, interfaceRoutes (s.ip4.tables fib) = ∅) ∧
    (s.ip6.interfaceAddresses = [] → ∀ fib, interfaceRoutes (s.ip6.tables fib) = ∅) := by
  obtain ⟨f4, -, f6⟩ := h.follows hkey
  refine ⟨f4.interfaceRoutes_eq, f6.interfaceRoutes_eq, ?_, ?_, ?_⟩
  · intro s' h' hup
    obtain ⟨f4', -, f6'⟩ := h'.follows hkey
    refine ⟨?_, ?_⟩
    · intro hsame fib
      rw [f4'.interfaceRoutes_eq, f4.interfaceRoutes_eq, hup, upAddresses_congr hsame]
    · intro hsame fib
      rw [f6'.interfaceRoutes_eq, f6.interfaceRoutes_eq, hup, upAddresses_congr hsame]
  · intro hnil fib
    rw [f4.interfaceRoutes_eq, upAddresses_nil hnil, Family.wanted_empty]
  · intro hnil fib
    rw [f6.interfaceRoutes_eq, upAddresses_nil hnil, Family.wanted_empty]

/-- Interface 0 is the local one, all interfaces use table 0. -/
def plain : Interfaces := ⟨fun _ => 0, fun _ => 0, fun _ => false, 0⟩

def start : State :=
  ⟨⟨[], [], fun _ => 0, fun _ => .new⟩, ⟨[], [], fun _ => 0, fun _ => .new⟩, fun _ => none,
    fun _ => false⟩

theorem start_fresh : Fresh inOrder start :=
  ⟨rfl, rfl, fun _ => ⟨.empty, consistent_new, fun _ _ _ => ⟨nofun, fun h => absurd h.2 id⟩⟩,
    rfl, rfl, fun _ => ⟨.empty, consistent_new, fun _ _ _ => ⟨nofun, fun h => absurd h.2 id⟩⟩⟩

def after (s : State) (e : Event) : State := (step inOrder plain s e).getD s

theorem reaches_after {Allowed : State → Event → Prop} (h : Reaches inOrder plain Allowed s)
    (ha : Allowed s e) (hs : (step inOrder plain s e).isSome) :
    Reaches inOrder plain Allowed (after s e) := by
  refine .step h ha ?_
  unfold after
  obtain ⟨s', hs'⟩ := Option.isSome_iff_exists.mp hs
  rw [hs']
  rfl

def ten (n : ℕ) : BitVec 32 := 0x0a000000#32 + BitVec.ofNat 32 n

/-- Interface 1 is up and has the address 10.0.0.1/24. -/
def configured : State := after (after start (.flags 1 true)) (.address4 1 (ten 1) 24 false)

theorem configured_routes :
    (Net.host (ten 1), RouteDpo.receive 1 (ten 1)) ∈ interfaceRoutes (configured.ip4.tables 0) := by
  have hreach : Reaches inOrder plain Event.Regular configured := by
    refine reaches_after (reaches_after (.fresh start_fresh) trivial (by decide +kernel)) ⟨?_, ?_⟩
      (by decide +kernel)
    · intro hl _
      revert hl
      decide
    · intro h
      nomatch h
  rw [(interface_routes_follow_addresses inOrder_injective hreach).1]
  refine ⟨⟨ten 1, 24, 1⟩, ?_, rfl, Or.inl rfl⟩
  decide +kernel

/-- Routes that outlive their addresses: a deletion with another length leaves the connected route;
a deleted network address still receives; of a /31 with both addresses one stays behind. -/
theorem stale_interface_routes :
    (∃ s, Reaches inOrder plain (fun _ _ => True) s ∧ s.ip4.interfaceAddresses = [] ∧
      (interfaceRoutes (s.ip4.tables 0)).Nonempty) ∧
    (∃ s, Reaches inOrder plain (fun _ _ => True) s ∧
      s.ip4.interfaceAddresses = [⟨ten 1, 24, 1⟩] ∧
      (Net.host (ten 0), RouteDpo.receive 1 (ten 0)) ∈ interfaceRoutes (s.ip4.tables 0)) ∧
    ∃ s, Reaches inOrder plain (fun _ _ => True) s ∧ s.ip4.interfaceAddresses = [] ∧
      (Net.host (ten 1), RouteDpo.receive 1 (ten 1)) ∈ interfaceRoutes (s.ip4.tables 0) := by
  have hup : Reaches inOrder plain (fun _ _ => True) (after start (.flags 1 true)) :=
    reaches_after (.fresh start_fresh) trivial (by decide +kernel)
  have hone := reaches_after (e := .address4 1 (ten 1) 24 false) hup trivial (by decide +kernel)
  refine ⟨?_, ?_, ?_⟩
  · have hgone := reaches_after (e := .address4 1 (ten 1) 32 true) hone trivial
      (by decide +kernel)
    refine ⟨_, hgone, by decide +kernel, ⟨⟨ten 0, 24, by decide⟩, .glean 1 ⟨ten 0, 24, by decide⟩⟩,
      ?_⟩
    exact ⟨by decide +kernel, by decide +kernel⟩
  · have hboth := reaches_after (e := .address4 1 (ten 0) 24 false) hone trivial
      (by decide +kernel)
    have hgone := reaches_after (e := .address4 1 (ten 0) 24 true) hboth trivial
      (by decide +kernel)
    exact ⟨_, hgone, by decide +kernel, by decide +kernel, by decide +kernel⟩
  · have hzero := reaches_after (e := .address4 1 (ten 0) 31 false) hup trivial
      (by decide +kernel)
    have hboth := reaches_after (e := .address4 1 (ten 1) 31 false) hzero trivial
      (by decide +kernel)
    have hleft := reaches_after (e := .address4 1 (ten 0) 31 true) hboth trivial
      (by decide +kernel)
    have hgone := reaches_after (e := .address4 1 (ten 1) 31 true) hleft trivial
      (by decide +kernel)
    exact ⟨_, hgone, by decide +kernel, by decide +kernel, by decide +kernel⟩

end InterfaceRoutes
