import Hammer.InterfaceAddresses

/-! # Interface routes follow the addresses

The set of routes of source `INTERFACE` against the addresses of the interfaces that are up. Prefix
counts and counted routes are tied to the addresses whose routes are installed.
-/

namespace InterfaceRoutes

open Fib OrderedMap IpInterfaceAddress Finset

variable {w : ℕ} {registration : ℕ → FibSourceRegistration}

/-- The routes of source `INTERFACE` of a table, each with one reference. -/
def Holds (registration : ℕ → FibSourceRegistration) (t : FibState w (RouteDpo w))
    (R : Set (Net w × RouteDpo w)) : Prop :=
  ∃ r, Consistent registration t r ∧
    ∀ p n d, r p INTERFACE = some (n, d) ↔ n = 1 ∧ (p, d) ∈ R

variable {t t' : FibState w (RouteDpo w)} {R : Set (Net w × RouteDpo w)} {nets : List (Net w)}

theorem Holds.none_of (h : Holds registration t R) {p : Net w} (hp : ∀ d, (p, d) ∉ R) :
    ∃ r, Consistent registration t r ∧ r p INTERFACE = none ∧
      ∀ p n d, r p INTERFACE = some (n, d) ↔ n = 1 ∧ (p, d) ∈ R := by
  obtain ⟨r, hr, hin⟩ := h
  refine ⟨r, hr, ?_, hin⟩
  rw [Option.eq_none_iff_forall_ne_some]
  rintro ⟨n, d⟩ hnd
  exact hp d ((hin p n d).mp hnd).2

theorem addRoutes_holds (hkey : Function.Injective fun s => (registration s).key)
    {routes : List (Net w × RouteDpo w)} (h : Holds registration t R)
    (hal : ∀ x ∈ routes, x.1.network = x.1.addr) (hnodup : (routes.map Prod.fst).Nodup)
    (hfree : ∀ x ∈ routes, ∀ d, (x.1, d) ∉ R)
    (ha : addRoutes registration t routes = some t') :
    Holds registration t' (R ∪ { x | x ∈ routes }) := by
  induction routes generalizing t R with
  | nil =>
    cases ha
    simpa using h
  | cons x routes ih =>
    obtain ⟨p, d⟩ := x
    rw [List.map_cons, List.nodup_cons] at hnodup
    have hp := hfree (p, d) (List.mem_cons_self ..)
    obtain ⟨r, hr, hnone, hin⟩ := h.none_of hp
    unfold addRoutes at ha
    split at ha
    · next t1 e hadd =>
      have hal' : p.network = p.addr := hal (p, d) (List.mem_cons_self ..)
      have hnext : Holds registration t1 (R ∪ {(p, d)}) := by
        refine ⟨_, (hr.add hkey hal' hadd).1, ?_⟩
        intro q n d'
        unfold Routes.add
        by_cases hq : q = p
        · subst hq
          rw [if_pos ⟨rfl, rfl⟩, hnone]
          have hnot := hp d'
          simp only [Option.map_none, Option.getD_none, Option.some.injEq, Prod.mk.injEq,
            Set.mem_union, Set.mem_singleton_iff, true_and]
          constructor
          · rintro ⟨rfl, rfl⟩
            exact ⟨rfl, Or.inr rfl⟩
          · rintro ⟨rfl, hd | rfl⟩
            · exact absurd hd hnot
            · exact ⟨rfl, rfl⟩
        · rw [if_neg fun hc => hq hc.1, hin]
          simp [hq]
      have hrest := ih hnext (fun x hx => hal x (List.mem_cons_of_mem _ hx)) hnodup.2 ?_ ha
      · have hset : R ∪ {(p, d)} ∪ { x | x ∈ routes } = R ∪ { x | x ∈ (p, d) :: routes } := by
          ext x
          simp only [Set.mem_union, Set.mem_singleton_iff, Set.mem_ofPred_eq, List.mem_cons,
            or_assoc]
        rwa [hset] at hrest
      · intro x hx d' hd'
        rcases hd' with hd' | hd'
        · exact hfree x (List.mem_cons_of_mem _ hx) d' hd'
        · obtain ⟨hxp, -⟩ := Prod.mk.inj hd'
          exact hnodup.1 (List.mem_map.mpr ⟨x, hx, hxp⟩)
    · nomatch ha

theorem removeRoutes_holds (h : Holds registration t R) (ha : removeRoutes t nets = some t') :
    Holds registration t' { x ∈ R | x.1 ∉ nets } := by
  induction nets generalizing t R with
  | nil =>
    cases ha
    simpa using h
  | cons p nets ih =>
    obtain ⟨r, hr, hin⟩ := h
    unfold removeRoutes at ha
    split at ha
    · next t1 b hrem =>
      have hnext : Holds registration t1 { x ∈ R | x.1 ≠ p } := by
        refine ⟨_, (hr.remove hrem).1, ?_⟩
        intro q n d
        unfold Routes.remove
        by_cases hq : q = p
        · subst hq
          rw [if_pos ⟨rfl, rfl⟩]
          refine iff_of_false ?_ ?_
          · intro hbind
            obtain ⟨⟨m, d'⟩, hm, hleft⟩ := Option.bind_eq_some_iff.mp hbind
            obtain ⟨rfl, -⟩ := (hin q m d').mp hm
            nomatch hleft
          · rintro ⟨-, -, hne⟩
            exact hne rfl
        · rw [if_neg fun hc => hq hc.1, hin]
          simp [hq]
      have hrest := ih hnext ha
      have hset : { x ∈ { x ∈ R | x.1 ≠ p } | x.1 ∉ nets } = { x ∈ R | x.1 ∉ p :: nets } := by
        simp [and_assoc]
      rwa [hset] at hrest
    · nomatch ha

theorem removeRoutes_append (nets nets' : List (Net w)) :
    removeRoutes t (nets ++ nets') = (removeRoutes t nets).bind fun t => removeRoutes t nets' := by
  induction nets generalizing t with
  | nil => rfl
  | cons p nets ih =>
    rw [List.cons_append, removeRoutes, removeRoutes]
    split
    · exact ih
    · rfl

def counted (n : ℕ) : Option ℕ := if n = 0 then none else some n

variable {prefixes prefixes' : List ((Net w × ℕ) × ℕ)} {k : Net w × ℕ} {n : ℕ}

theorem lockInterfacePrefix_spec {first : Bool} (hn : get routeCmp k prefixes = counted n)
    (h : lockInterfacePrefix prefixes k = some (prefixes', first)) :
    (first = true ↔ n = 0) ∧ ∀ k', get routeCmp k' prefixes' =
        if k' = k then counted (n + 1) else get routeCmp k' prefixes := by
  unfold lockInterfacePrefix at h
  rw [hn] at h
  unfold counted at h
  by_cases hz : n = 0
  · subst hz
    cases h
    refine ⟨iff_of_true rfl rfl, ?_⟩
    intro k'
    rw [get_insert routeCmp_eq_iff]
    rfl
  · rw [if_neg hz] at h
    dsimp only at h
    split at h
    · cases h
      refine ⟨iff_of_false Bool.false_ne_true hz, ?_⟩
      exact get_modify_some routeCmp_eq_iff (hn.trans (if_neg hz)) _
    · nomatch h

theorem unlockInterfacePrefix_spec {last : Option Bool}
    (hn : get routeCmp k prefixes = counted (n + 1))
    (h : unlockInterfacePrefix prefixes k = some (prefixes', last)) :
    (last = some true ↔ n = 0) ∧ ∀ k', get routeCmp k' prefixes' =
        if k' = k then counted n else get routeCmp k' prefixes := by
  unfold unlockInterfacePrefix at h
  rw [hn] at h
  unfold counted at h
  rw [if_neg (Nat.succ_ne_zero n)] at h
  dsimp only at h
  by_cases hz : n = 0
  · rw [if_neg (not_not.mpr hz)] at h
    cases h
    refine ⟨iff_of_true rfl hz, ?_⟩
    intro k'
    rw [get_erase routeCmp_eq_iff, hz]
    rfl
  · rw [if_pos hz] at h
    cases h
    refine ⟨iff_of_false nofun hz, ?_⟩
    unfold counted
    rw [if_neg hz]
    exact get_modify_some routeCmp_eq_iff hn _

/-- The prefix an address is counted under. -/
def IpInterfaceAddress.net? (a : IpInterfaceAddress w) : Option (Net w) :=
  if h : a.addressLength < w then some (interfaceNet a.address a.addressLength h) else none

def IpInterfaceAddress.key? (a : IpInterfaceAddress w) : Option (Net w × ℕ) :=
  a.net?.map fun p => (p, a.swIfIndex)

/-- An address family: the tables of the interfaces, and the routes that come with the first
address of a prefix. -/
structure Family (w : ℕ) where
  fibOf : ℕ → ℕ
  shared : IpInterfaceAddress w → Net w → List (Net w × RouteDpo w)

namespace Family

def sharedOf (F : Family w) (a : IpInterfaceAddress w) : List (Net w × RouteDpo w) :=
  (a.net?.map (F.shared a)).getD []

def receiveRoute (a : IpInterfaceAddress w) : Net w × RouteDpo w :=
  (.host a.address, .receive a.swIfIndex a.address)

/-- The routes that a set of addresses calls for in a table. -/
def wanted (F : Family w) (S : Finset (IpInterfaceAddress w)) (fib : ℕ) :
    Set (Net w × RouteDpo w) :=
  { x | ∃ a ∈ S, F.fibOf a.swIfIndex = fib ∧ (x = receiveRoute a ∨ x ∈ F.sharedOf a) }

/-- Addresses whose routes do not get in each other's way. -/
structure Compatible (F : Family w) (S : Finset (IpInterfaceAddress w)) : Prop where
  distinct : ∀ a ∈ S, ∀ b ∈ S, F.fibOf a.swIfIndex = F.fibOf b.swIfIndex →
    a.address = b.address → a = b
  same : ∀ a ∈ S, ∀ b ∈ S, a.key? = b.key? → F.sharedOf a = F.sharedOf b
  apart : ∀ a ∈ S, ∀ b ∈ S, F.fibOf a.swIfIndex = F.fibOf b.swIfIndex →
    ∀ x ∈ F.sharedOf a, ∀ y ∈ F.sharedOf b, x.1 = y.1 → a.key? = b.key?
  hosts : ∀ a ∈ S, ∀ b ∈ S, F.fibOf a.swIfIndex = F.fibOf b.swIfIndex →
    ∀ x ∈ F.sharedOf b, x.1 ≠ .host a.address
  nodup : ∀ a ∈ S, ((F.sharedOf a).map Prod.fst).Nodup
  aligned : ∀ a ∈ S, ∀ x ∈ F.sharedOf a, x.1.network = x.1.addr

theorem Compatible.mono {F : Family w} {S T : Finset (IpInterfaceAddress w)}
    (h : F.Compatible T) (hS : S ⊆ T) : F.Compatible S where
  distinct a ha b hb := h.distinct a (hS ha) b (hS hb)
  same a ha b hb := h.same a (hS ha) b (hS hb)
  apart a ha b hb := h.apart a (hS ha) b (hS hb)
  hosts a ha b hb := h.hosts a (hS ha) b (hS hb)
  nodup a ha := h.nodup a (hS ha)
  aligned a ha := h.aligned a (hS ha)

end Family

def count (S : Finset (IpInterfaceAddress w)) (k : Net w × ℕ) : ℕ :=
  (S.filter fun a => a.key? = some k).card

/-- The routes of these addresses are the ones of source `INTERFACE`. -/
structure Installed (registration : ℕ → FibSourceRegistration) (F : Family w) (m : IpMain w)
    (S : Finset (IpInterfaceAddress w)) : Prop where
  tables : ∀ fib, Holds registration (m.tables fib) (F.wanted S fib)
  counts : ∀ k, get routeCmp k m.interfacePrefixes = counted (count S k)

/-- The routes are those of `S` now, and the addresses are as before. -/
structure Rerouted (registration : ℕ → FibSourceRegistration) (F : Family w) (m m' : IpMain w)
    (S : Finset (IpInterfaceAddress w)) : Prop where
  routes : Installed registration F m' S
  addresses : m'.interfaceAddresses = m.interfaceAddresses

variable {F : Family w} {S : Finset (IpInterfaceAddress w)} {m m' : IpMain w}
  {a : IpInterfaceAddress w} {fib : ℕ}

theorem count_insert (ha : a ∉ S) (k : Net w × ℕ) :
    count (insert a S) k = count S k + if a.key? = some k then 1 else 0 := by
  unfold count
  rw [filter_insert]
  split
  · rw [card_insert_of_notMem]
    intro hmem
    exact ha (mem_of_mem_filter a hmem)
  · rfl

theorem count_eq_zero : count S k = 0 ↔ ∀ a ∈ S, a.key? ≠ some k := by
  unfold count
  rw [card_eq_zero, filter_eq_empty_iff]

theorem Family.wanted_insert (fib : ℕ) : F.wanted (insert a S) fib = F.wanted S fib ∪
      if F.fibOf a.swIfIndex = fib then {receiveRoute a} ∪ { x | x ∈ F.sharedOf a } else ∅ := by
  ext x
  unfold Family.wanted
  simp only [mem_insert, Set.mem_union, Set.mem_ofPred_eq]
  constructor
  · rintro ⟨b, rfl | hb, hfib, hx⟩
    · rw [if_pos hfib]
      exact Or.inr hx
    · exact Or.inl ⟨b, hb, hfib, hx⟩
  · rintro (⟨b, hb, hfib, hx⟩ | hx)
    · exact ⟨b, Or.inr hb, hfib, hx⟩
    · split at hx
      · next hfib => exact ⟨a, Or.inl rfl, hfib, hx⟩
      · nomatch hx

theorem IpInterfaceAddress.net?_eq (h : a.addressLength < w) :
    a.net? = some (interfaceNet a.address a.addressLength h) := dif_pos h

theorem IpInterfaceAddress.net?_eq_none (h : ¬ a.addressLength < w) : a.net? = none := dif_neg h

theorem Family.sharedOf_eq (h : a.addressLength < w) :
    F.sharedOf a = F.shared a (interfaceNet a.address a.addressLength h) := by
  unfold Family.sharedOf
  rw [net?_eq h]
  rfl

theorem Family.sharedOf_eq_nil (h : ¬ a.addressLength < w) : F.sharedOf a = [] := by
  unfold Family.sharedOf
  rw [net?_eq_none h]
  rfl

theorem IpInterfaceAddress.key?_eq (h : a.addressLength < w) :
    a.key? = some (interfaceNet a.address a.addressLength h, a.swIfIndex) := by
  unfold key?
  rw [net?_eq h]
  rfl

theorem IpInterfaceAddress.key?_eq_none (h : ¬ a.addressLength < w) : a.key? = none := by
  unfold key?
  rw [net?_eq_none h]
  rfl

theorem IpInterfaceAddress.swIfIndex_eq {b : IpInterfaceAddress w} (ha : a.key? = some k)
    (hb : b.key? = some k) : a.swIfIndex = b.swIfIndex := by
  obtain ⟨p, -, hp⟩ := Option.map_eq_some_iff.mp ha
  obtain ⟨q, -, hq⟩ := Option.map_eq_some_iff.mp hb
  exact (congrArg Prod.snd hp).trans (congrArg Prod.snd hq).symm

theorem Family.Compatible.receiveRoute_free (h : F.Compatible (insert a S)) (ha : a ∉ S)
    (d : RouteDpo w) : (Net.host a.address, d) ∉ F.wanted S (F.fibOf a.swIfIndex) := by
  rintro ⟨b, hb, hfib, hx | hx⟩
  · obtain ⟨hhost, -⟩ := Prod.mk.inj hx
    have haddr : a.address = b.address := congrArg Net.addr hhost
    have hab := h.distinct a (mem_insert_self a S) b (mem_insert_of_mem hb) hfib.symm haddr
    exact ha (hab ▸ hb)
  · exact h.hosts a (mem_insert_self a S) b (mem_insert_of_mem hb) hfib.symm _ hx rfl

theorem Family.Compatible.shared_free (h : F.Compatible (insert a S))
    (hfirst : ∀ b ∈ S, b.key? ≠ a.key?) {x : Net w × RouteDpo w} (hx : x ∈ F.sharedOf a)
    (d : RouteDpo w) : (x.1, d) ∉ F.wanted S (F.fibOf a.swIfIndex) ∪ {receiveRoute a} := by
  rintro (⟨b, hb, hfib, hy | hy⟩ | hy)
  · obtain ⟨hhost, -⟩ := Prod.mk.inj hy
    exact h.hosts b (mem_insert_of_mem hb) a (mem_insert_self a S) hfib x hx hhost
  · exact hfirst b hb (h.apart b (mem_insert_of_mem hb) a (mem_insert_self a S) hfib
      _ hy x hx rfl)
  · obtain ⟨hhost, -⟩ := Prod.mk.inj hy
    exact h.hosts a (mem_insert_self a S) a (mem_insert_self a S) rfl x hx hhost

theorem IpMain.setTable_self (fib : ℕ) : (m.setTable fib t).tables fib = t :=
  Function.update_self ..

theorem IpMain.setTable_of_ne {fib' : ℕ} (h : fib' ≠ fib) :
    (m.setTable fib t).tables fib' = m.tables fib' := Function.update_of_ne h ..

theorem IpMain.setTable_holds {f : ℕ → Set (Net w × RouteDpo w)}
    (hothers : ∀ fib', fib' ≠ fib → Holds registration (m.tables fib') (f fib'))
    (ht : Holds registration t (f fib)) (fib' : ℕ) :
    Holds registration ((m.setTable fib t).tables fib') (f fib') := by
  by_cases hf : fib' = fib
  · subst hf
    rw [IpMain.setTable_self]
    exact ht
  · rw [IpMain.setTable_of_ne hf]
    exact hothers fib' hf

theorem Installed.add (hkey : Function.Injective fun s => (registration s).key)
    (h : Installed registration F m S) (ha : a ∉ S) (hc : F.Compatible (insert a S))
    (hadd : addInterfaceRoutes registration (F.shared a) m a.swIfIndex a.address a.addressLength
      (F.fibOf a.swIfIndex) = some m') :
    Rerouted registration F m m' (insert a S) := by
  obtain ⟨t, ht, hadd⟩ := Option.bind_eq_some_iff.mp hadd
  have hmem := mem_insert_self a S
  have hhost := addRoutes_holds hkey (h.tables _) (by
      intro x hx
      rw [List.mem_singleton.mp hx]
      exact Net.host_aligned _) (by simp) (by
      intro x hx
      rw [List.mem_singleton.mp hx]
      exact hc.receiveRoute_free ha) ht
  have hset : { x | x ∈ [(Net.host a.address, RouteDpo.receive a.swIfIndex a.address)] } =
      {Family.receiveRoute a} := by
    simp [Family.receiveRoute]
  rw [hset] at hhost
  have hothers : ∀ fib', fib' ≠ F.fibOf a.swIfIndex →
      Holds registration (m.tables fib') (F.wanted (insert a S) fib') := by
    intro fib' hf
    rw [Family.wanted_insert, if_neg (Ne.symm hf), Set.union_empty]
    exact h.tables fib'
  by_cases hlen : a.addressLength < w
  · rw [dif_pos hlen] at hadd
    obtain ⟨⟨prefixes, first⟩, hlock, hadd⟩ := Option.bind_eq_some_iff.mp hadd
    dsimp only at hadd
    have hk := key?_eq hlen
    obtain ⟨hfirst, hget⟩ := lockInterfacePrefix_spec (h.counts _) hlock
    have hcounts : ∀ k, get routeCmp k prefixes = counted (count (insert a S) k) := by
      intro k
      rw [hget, count_insert ha, hk]
      split
      · next hkk =>
        rw [if_pos (by rw [hkk]), hkk]
      · next hkk =>
        rw [if_neg (fun heq => hkk (Option.some.inj heq).symm)]
        exact h.counts k
    split at hadd
    · next hf =>
      obtain ⟨t1, ht1, hadd⟩ := Option.bind_eq_some_iff.mp hadd
      cases hadd
      have hnew : ∀ b ∈ S, b.key? ≠ a.key? := by
        rw [hk]
        exact count_eq_zero.mp (hfirst.mp hf)
      rw [← Family.sharedOf_eq hlen] at ht1
      have htable : ({ m.setTable (F.fibOf a.swIfIndex) t with
          interfacePrefixes := prefixes }).tables (F.fibOf a.swIfIndex) = t :=
        IpMain.setTable_self _
      rw [htable] at ht1
      have hall := addRoutes_holds hkey hhost (hc.aligned a hmem) (hc.nodup a hmem)
        (fun x hx => hc.shared_free hnew hx) ht1
      refine ⟨⟨?_, hcounts⟩, rfl⟩
      apply IpMain.setTable_holds
      · intro fib' hf
        have hsame := IpMain.setTable_of_ne (m := m) (t := t) hf
        exact hsame ▸ hothers fib' hf
      · rw [Family.wanted_insert, if_pos rfl, ← Set.union_assoc]
        exact hall
    · next hf =>
      cases hadd
      obtain ⟨b, hb, hbk⟩ : ∃ b ∈ S, b.key? = a.key? := by
        by_contra hno
        exact hf (hfirst.mpr (count_eq_zero.mpr fun b hb heq => hno ⟨b, hb, heq.trans hk.symm⟩))
      have hshared := hc.same a hmem b (mem_insert_of_mem hb) hbk.symm
      have hfib : F.fibOf b.swIfIndex = F.fibOf a.swIfIndex :=
        congrArg F.fibOf (swIfIndex_eq (hbk.trans hk) hk)
      refine ⟨⟨?_, hcounts⟩, rfl⟩
      apply IpMain.setTable_holds hothers
      rw [Family.wanted_insert, if_pos rfl, ← Set.union_assoc, Set.union_eq_left.mpr]
      · exact hhost
      · exact fun x hx => Or.inl ⟨b, hb, hfib, Or.inr (hshared ▸ hx)⟩
  · rw [dif_neg hlen] at hadd
    cases hadd
    refine ⟨⟨?_, ?_⟩, rfl⟩
    · apply IpMain.setTable_holds hothers
      rw [Family.wanted_insert, Family.sharedOf_eq_nil hlen]
      simpa using hhost
    · intro k
      rw [count_insert ha, key?_eq_none hlen]
      exact h.counts k

theorem count_erase (ha : a ∈ S) (k : Net w × ℕ) :
    count S k = count (S.erase a) k + if a.key? = some k then 1 else 0 := by
  rw [← count_insert (notMem_erase a S), insert_erase ha]

theorem Family.Compatible.wanted_erase (h : F.Compatible S) (ha : a ∈ S)
    (hnets : ∀ p, p ∈ nets ↔ p = .host a.address ∨
      (∀ b ∈ S.erase a, b.key? ≠ a.key?) ∧ p ∈ (F.sharedOf a).map Prod.fst) :
    { x ∈ F.wanted S (F.fibOf a.swIfIndex) | x.1 ∉ nets } =
      F.wanted (S.erase a) (F.fibOf a.swIfIndex) := by
  ext x
  constructor
  · rintro ⟨⟨b, hb, hfib, hx⟩, hnot⟩
    rw [hnets, not_or] at hnot
    obtain ⟨hhost, hshared⟩ := hnot
    by_cases hba : b = a
    · subst hba
      rcases hx with rfl | hx
      · exact absurd rfl hhost
      · obtain ⟨c, hc, hck⟩ : ∃ c ∈ S.erase b, c.key? = b.key? := by
          by_contra hno
          exact hshared ⟨fun c hc heq => hno ⟨c, hc, heq⟩, List.mem_map_of_mem hx⟩
        have hcS := mem_of_mem_erase hc
        have hsw : c.swIfIndex = b.swIfIndex := by
          cases hk : b.key? with
          | none =>
            have hnil : F.sharedOf b = [] := by
              apply Family.sharedOf_eq_nil
              intro hlen
              rw [key?_eq hlen] at hk
              nomatch hk
            rw [hnil] at hx
            nomatch hx
          | some k => exact swIfIndex_eq (hck.trans hk) hk
        exact ⟨c, hc, congrArg F.fibOf hsw, Or.inr (h.same c hcS b hb hck ▸ hx)⟩
    · exact ⟨b, mem_erase.mpr ⟨hba, hb⟩, hfib, hx⟩
  · rintro ⟨b, hb, hfib, hx⟩
    obtain ⟨hba, hbS⟩ := mem_erase.mp hb
    refine ⟨⟨b, hbS, hfib, hx⟩, ?_⟩
    rw [hnets]
    rintro (heq | ⟨hlast, hmem⟩)
    · rcases hx with rfl | hx
      · exact hba (h.distinct b hbS a ha hfib (congrArg Net.addr heq))
      · exact h.hosts a ha b hbS hfib.symm x hx heq
    · obtain ⟨y, hy, hyx⟩ := List.mem_map.mp hmem
      rcases hx with rfl | hx
      · exact h.hosts b hbS a ha hfib y hy hyx
      · exact hlast b hb (h.apart b hbS a ha hfib x hx y hy hyx.symm)

theorem Family.wanted_erase_of_ne (hfib : fib ≠ F.fibOf a.swIfIndex) :
    F.wanted (S.erase a) fib = F.wanted S fib := by
  ext x
  constructor
  · rintro ⟨b, hb, hf, hx⟩
    exact ⟨b, mem_of_mem_erase hb, hf, hx⟩
  · rintro ⟨b, hb, hf, hx⟩
    refine ⟨b, mem_erase.mpr ⟨?_, hb⟩, hf, hx⟩
    rintro rfl
    exact hfib hf.symm

section

variable (h : Installed registration F m S)
include h

theorem Installed.counts_erase (ha : a ∈ S)
    (hlen : a.addressLength < w) {prefixes : List ((Net w × ℕ) × ℕ)} {last : Option Bool}
    (hu : unlockInterfacePrefix m.interfacePrefixes
      (interfaceNet a.address a.addressLength hlen, a.swIfIndex) = some (prefixes, last)) :
    (last = some true ↔ ∀ b ∈ S.erase a, b.key? ≠ a.key?) ∧
      ∀ k, get routeCmp k prefixes = counted (count (S.erase a) k) := by
  have hk := key?_eq hlen
  have hcount := h.counts (interfaceNet a.address a.addressLength hlen, a.swIfIndex)
  rw [count_erase ha, hk, if_pos rfl] at hcount
  obtain ⟨hlast, hget⟩ := unlockInterfacePrefix_spec hcount hu
  refine ⟨?_, ?_⟩
  · rw [hlast, count_eq_zero, hk]
  · intro k
    rw [hget]
    by_cases hkk : k = (interfaceNet a.address a.addressLength hlen, a.swIfIndex)
    · rw [if_pos hkk, hkk]
    · rw [if_neg hkk, h.counts k, count_erase ha, hk,
        if_neg (fun heq => hkk (Option.some.inj heq).symm), Nat.add_zero]

theorem Installed.counts_erase_host (ha : a ∈ S) (hlen : ¬ a.addressLength < w) (k : Net w × ℕ) :
    get routeCmp k m.interfacePrefixes = counted (count (S.erase a) k) := by
  have hk := count_erase ha k
  rw [key?_eq_none hlen, if_neg nofun, Nat.add_zero] at hk
  rw [← hk]
  exact h.counts k

theorem Installed.erase (hc : F.Compatible S) (ha : a ∈ S)
    (hrem : removeRoutes (m.tables (F.fibOf a.swIfIndex)) nets = some t)
    (ht : m'.tables (F.fibOf a.swIfIndex) = t)
    (hcounts : ∀ k, get routeCmp k m'.interfacePrefixes = counted (count (S.erase a) k))
    (hothers : ∀ fib, fib ≠ F.fibOf a.swIfIndex → m'.tables fib = m.tables fib)
    (hnets : ∀ p, p ∈ nets ↔ p = .host a.address ∨
      (∀ b ∈ S.erase a, b.key? ≠ a.key?) ∧ p ∈ (F.sharedOf a).map Prod.fst) :
    Installed registration F m' (S.erase a) := by
  refine ⟨?_, hcounts⟩
  intro fib
  by_cases hf : fib = F.fibOf a.swIfIndex
  · subst hf
    rw [← hc.wanted_erase ha hnets, ht]
    exact removeRoutes_holds (h.tables _) hrem
  · rw [hothers fib hf, Family.wanted_erase_of_ne hf]
    exact h.tables fib

theorem Installed.erase_host (hc : F.Compatible S) (ha : a ∈ S)
    (hrem : removeRoutes (m.tables (F.fibOf a.swIfIndex)) [.host a.address] = some t)
    (hcounts : ∀ k, get routeCmp k prefixes = counted (count (S.erase a) k))
    (hlast : (∀ b ∈ S.erase a, b.key? ≠ a.key?) → F.sharedOf a = []) : Installed registration F
      { m.setTable (F.fibOf a.swIfIndex) t with interfacePrefixes := prefixes } (S.erase a) := by
  refine h.erase hc ha hrem (IpMain.setTable_self _) hcounts
    (fun fib hf => IpMain.setTable_of_ne hf) fun p => ?_
  rw [List.mem_singleton]
  refine ⟨Or.inl, ?_⟩
  rintro (hp | ⟨hnone, hp⟩)
  · exact hp
  · rw [hlast hnone] at hp
    nomatch hp

end

end InterfaceRoutes
