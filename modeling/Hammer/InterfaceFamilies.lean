import Hammer.InterfaceRoutes

/-! # The routes of the two address families

Which addresses can stand side by side: those the overlap check of `ip4_add_del_interface_address`
and `ip6_add_del_interface_address` lets in, and for IPv4 those that are not at the same time a
special address of a prefix.
-/

namespace InterfaceRoutes

open Fib OrderedMap IpInterfaceAddress Family List

variable {w : ℕ} {registration : ℕ → FibSourceRegistration}

section Prefixes

variable {x y z : BitVec w} {n m l : ℕ}

theorem bitsOf_mono (h : bitsOf x n = bitsOf y n) (hm : m ≤ n) : bitsOf x m = bitsOf y m := by
  rw [bitsOf_eq_iff] at h ⊢
  intro bit hbit
  exact h bit (Nat.lt_of_lt_of_le hbit hm)

theorem prefixMatches_iff (hl : l ≤ w) : prefixMatches x y l = true ↔ bitsOf x l = bitsOf y l := by
  unfold prefixMatches
  by_cases hz : l = 0
  · subst hz
    exact iff_of_true rfl rfl
  · rw [if_neg hz, if_neg (Nat.not_lt_of_le hl)]
    have hc := contains_iff (p := ⟨y, l, hl⟩) (a := x)
    rw [← hc]
    unfold Net.contains Net.network
    rw [beq_iff_eq, beq_iff_eq]
    rw [BitVec.eq_of_getLsbD_eq_iff, BitVec.eq_of_getLsbD_eq_iff]
    refine forall₂_congr fun i hi => ?_
    simp only [BitVec.getLsbD_and, BitVec.getLsbD_xor]
    cases x.getLsbD i <;> cases y.getLsbD i <;> cases (Net.mask w l).getLsbD i <;> simp

theorem interfaceNet_aligned (h : l < w) :
    (interfaceNet x l h).network = (interfaceNet x l h).addr := by
  unfold interfaceNet Net.trunc Net.network
  rw [BitVec.and_assoc, BitVec.and_self]

theorem interfaceNet_contains (h : l < w) :
    (interfaceNet x l h).contains z = true ↔ bitsOf z l = bitsOf x l := by
  rw [contains_iff]
  have hnet := bitsOf_network (p := ⟨x, l, Nat.le_of_lt h⟩)
  exact ⟨fun hz => hz.trans hnet, fun hz => hz.trans hnet.symm⟩

theorem interfaceNet_eq_iff (hn : n < w) (hm : m < w) :
    interfaceNet x n hn = interfaceNet y m hm ↔ n = m ∧ bitsOf x n = bitsOf y n := by
  constructor
  · intro h
    have hlen : n = m := congrArg Net.prefixLen h
    subst hlen
    refine ⟨rfl, ?_⟩
    rw [← interfaceNet_contains hn, ← h, interfaceNet_contains hn]
  · rintro ⟨rfl, hbits⟩
    apply Net.path_injective (interfaceNet_aligned hn) (interfaceNet_aligned hm)
    unfold Net.path
    rw [bitsOf_network, bitsOf_network]
    have hx := bitsOf_network (p := ⟨x, n, Nat.le_of_lt hn⟩)
    have hy := bitsOf_network (p := ⟨y, n, Nat.le_of_lt hm⟩)
    exact hx.trans (hbits.trans hy.symm)

theorem bitsOf_network_of (h : l < w) : bitsOf (interfaceNet x l h).network l = bitsOf x l := by
  rw [interfaceNet_aligned]
  exact bitsOf_network (p := ⟨x, l, Nat.le_of_lt h⟩)

theorem bitsOf_broadcast (h : l < w) : bitsOf (interfaceNet x l h).broadcast l = bitsOf x l := by
  rw [bitsOf_eq_iff]
  intro bit hbit
  unfold Net.broadcast interfaceNet Net.trunc Net.network
  simp only [BitVec.getLsbD_or, BitVec.getLsbD_and, BitVec.getLsbD_not, getLsbD_mask]
  have h1 : w - 1 - bit < w := by omega
  have h2 : w - l ≤ w - 1 - bit := by omega
  simp [h1, h2]

theorem network_ne_broadcast (h : l < w) :
    (interfaceNet x l h).network ≠ (interfaceNet x l h).broadcast := by
  intro heq
  have hbit := congrArg (BitVec.getLsbD · 0) heq
  unfold Net.broadcast interfaceNet Net.trunc Net.network at hbit
  simp only [BitVec.getLsbD_or, BitVec.getLsbD_and, BitVec.getLsbD_not, getLsbD_mask] at hbit
  have h1 : 0 < w := by omega
  have h2 : ¬ w - l ≤ 0 := by omega
  simp [h1, h2] at hbit

theorem bitsOf_peer (x : BitVec 32) : bitsOf (x ^^^ 1) 31 = bitsOf x 31 := by
  rw [bitsOf_eq_iff]
  intro bit hbit
  rw [BitVec.getLsbD_xor]
  have hone : (1#32).getLsbD (32 - 1 - bit) = false := by
    simp
    omega
  exact (congrArg (x.getLsbD _ ^^ ·) hone).trans (Bool.xor_false _)

theorem peer_of_bitsOf {x y : BitVec 32} (h : bitsOf x 31 = bitsOf y 31) (hne : x ≠ y) :
    y = x ^^^ 1 := by
  rw [bitsOf_eq_iff] at h
  have hhigh : ∀ i, i < 32 → i ≠ 0 → x.getLsbD i = y.getLsbD i := by
    intro i hi hz
    have := h (31 - i) (by omega)
    rwa [show 32 - 1 - (31 - i) = i by omega] at this
  apply BitVec.eq_of_getLsbD_eq
  intro i hi
  rw [BitVec.getLsbD_xor]
  by_cases hz : i = 0
  · subst hz
    have hlow : x.getLsbD 0 ≠ y.getLsbD 0 := by
      intro heq
      apply hne
      apply BitVec.eq_of_getLsbD_eq
      intro j hj
      by_cases hj0 : j = 0
      · rw [hj0, heq]
      · exact hhigh j hj hj0
    revert hlow
    cases x.getLsbD 0 <;> cases y.getLsbD 0 <;> simp
  · rw [hhigh i hi hz]
    have hone : (1#32).getLsbD i = false := by
      simp [hz]
    exact ((congrArg (y.getLsbD i ^^ ·) hone).trans (Bool.xor_false _)).symm

theorem peer_ne (x : BitVec 32) : x ^^^ 1 ≠ x := by
  intro heq
  have := congrArg (BitVec.getLsbD · 0) heq
  rw [BitVec.getLsbD_xor] at this
  revert this
  cases x.getLsbD 0 <;> simp

end Prefixes

/-- The prefix of one of two addresses covers the other. -/
def Overlap (a b : IpInterfaceAddress w) : Prop :=
  bitsOf a.address b.addressLength = bitsOf b.address b.addressLength ∨
    bitsOf b.address a.addressLength = bitsOf a.address a.addressLength

/-- What the overlap check keeps up. -/
structure Separate (fibOf : ℕ → ℕ) (S : Finset (IpInterfaceAddress w)) : Prop where
  length : ∀ a ∈ S, a.addressLength ≤ w
  distinct : ∀ a ∈ S, ∀ b ∈ S, fibOf a.swIfIndex = fibOf b.swIfIndex →
    a.address = b.address → a = b
  overlap : ∀ a ∈ S, ∀ b ∈ S, fibOf a.swIfIndex = fibOf b.swIfIndex → Overlap a b →
    a.swIfIndex = b.swIfIndex ∧ a.addressLength = b.addressLength

variable {fibOf : ℕ → ℕ} {S : Finset (IpInterfaceAddress w)} {a b : IpInterfaceAddress w}

theorem overlap_of_common {z : BitVec w}
    (ha : bitsOf z a.addressLength = bitsOf a.address a.addressLength)
    (hb : bitsOf z b.addressLength = bitsOf b.address b.addressLength) : Overlap a b := by
  rcases Nat.le_total a.addressLength b.addressLength with hle | hle
  · exact Or.inr ((bitsOf_mono hb hle).symm.trans ha)
  · exact Or.inl ((bitsOf_mono ha hle).symm.trans hb)

theorem Separate.key?_eq {z : BitVec w} (h : Separate fibOf S) (hal : a.addressLength < w)
    (ha : a ∈ S) (hb : b ∈ S) (hfib : fibOf a.swIfIndex = fibOf b.swIfIndex)
    (haz : bitsOf z a.addressLength = bitsOf a.address a.addressLength)
    (hbz : bitsOf z b.addressLength = bitsOf b.address b.addressLength) : a.key? = b.key? := by
  obtain ⟨hsw, hlen⟩ := h.overlap a ha b hb hfib (overlap_of_common haz hbz)
  have hbl : b.addressLength < w := hlen ▸ hal
  rw [IpInterfaceAddress.key?_eq hal, IpInterfaceAddress.key?_eq hbl, hsw]
  have hbits : bitsOf a.address a.addressLength = bitsOf b.address a.addressLength := by
    rw [← haz, hlen]
    exact hbz
  rw [(interfaceNet_eq_iff hal hbl).mpr ⟨hlen, hbits⟩]

theorem IpInterfaceAddress.of_key?_eq (hal : a.addressLength < w) (h : a.key? = b.key?) :
    ∃ hbl : b.addressLength < w, a.swIfIndex = b.swIfIndex ∧
      interfaceNet a.address a.addressLength hal = interfaceNet b.address b.addressLength hbl := by
  by_cases hbl : b.addressLength < w
  · rw [key?_eq hal, key?_eq hbl] at h
    obtain ⟨hnet, hsw⟩ := Prod.mk.inj (Option.some.inj h)
    exact ⟨hbl, hsw, hnet⟩
  · rw [key?_eq hal, key?_eq_none hbl] at h
    cases h

/-- The net of an address and hosts under it are shared, the same ones by the addresses of a net. -/
theorem compatible_of_shared {F : Family w} (h : Separate F.fibOf S)
    (hnets : ∀ a hl, ∀ x ∈ F.shared a (interfaceNet a.address a.addressLength hl),
      x.1 = interfaceNet a.address a.addressLength hl ∨
        ∃ z, x.1 = .host z ∧ bitsOf z a.addressLength = bitsOf a.address a.addressLength)
    (hsame : ∀ a ∈ S, ∀ b ∈ S, ∀ hal hbl, a.swIfIndex = b.swIfIndex →
      interfaceNet a.address a.addressLength hal = interfaceNet b.address b.addressLength hbl →
      F.shared a (interfaceNet a.address a.addressLength hal) =
        F.shared b (interfaceNet b.address b.addressLength hbl))
    (hhosts : ∀ a ∈ S, ∀ b ∈ S, F.fibOf a.swIfIndex = F.fibOf b.swIfIndex →
      ∀ hl, ∀ x ∈ F.shared b (interfaceNet b.address b.addressLength hl), x.1 ≠ .host a.address)
    (hnodup : ∀ a ∈ S, ∀ hl,
      ((F.shared a (interfaceNet a.address a.addressLength hl)).map Prod.fst).Nodup) :
    F.Compatible S := by
  have hshared {a : IpInterfaceAddress w} {x} (hx : x ∈ F.sharedOf a) :
      ∃ hl, x ∈ F.shared a (interfaceNet a.address a.addressLength hl) := by
    by_cases hl : a.addressLength < w
    · exact ⟨hl, sharedOf_eq hl ▸ hx⟩
    · rw [sharedOf_eq_nil hl] at hx
      cases hx
  refine ⟨h.distinct, ?_, ?_, ?_, ?_, ?_⟩
  · intro a ha b hb hk
    by_cases hl : a.addressLength < w
    · obtain ⟨hbl, hsw, hnet⟩ := of_key?_eq hl hk
      rw [sharedOf_eq hl, sharedOf_eq hbl]
      exact hsame a ha b hb hl hbl hsw hnet
    · rw [sharedOf_eq_nil hl, sharedOf_eq_nil]
      intro hbl
      rw [key?_eq_none hl, key?_eq hbl] at hk
      cases hk
  · intro a ha b hb hfib x hx y hy hxy
    obtain ⟨hal, hx⟩ := hshared hx
    obtain ⟨hbl, hy⟩ := hshared hy
    rcases hnets a hal x hx with hx | ⟨z, hz, haz⟩
    · rcases hnets b hbl y hy with hy | ⟨z, hz, -⟩
      · obtain ⟨hlen, hbits⟩ := (interfaceNet_eq_iff hal hbl).mp (hx.symm.trans (hxy.trans hy))
        exact h.key?_eq hal ha hb hfib (z := a.address) rfl (hlen ▸ hbits)
      · have hlen : a.addressLength = w :=
          congrArg Net.prefixLen (hx.symm.trans (hxy.trans hz))
        omega
    · rcases hnets b hbl y hy with hy | ⟨z', hz', hbz⟩
      · have hlen : w = b.addressLength := congrArg Net.prefixLen (hz.symm.trans (hxy.trans hy))
        omega
      · have hzz : z = z' := congrArg Net.addr (hz.symm.trans (hxy.trans hz'))
        exact h.key?_eq hal ha hb hfib haz (hzz ▸ hbz)
  · intro a ha b hb hfib x hx
    obtain ⟨hl, hx⟩ := hshared hx
    exact hhosts a ha b hb hfib hl x hx
  · intro a ha
    by_cases hl : a.addressLength < w
    · rw [sharedOf_eq hl]
      exact hnodup a ha hl
    · rw [sharedOf_eq_nil hl]
      exact nodup_nil
  · intro a ha x hx
    obtain ⟨hl, hx⟩ := hshared hx
    rcases hnets a hl x hx with hx | ⟨z, hz, -⟩
    · rw [hx]
      exact interfaceNet_aligned hl
    · rw [hz]
      exact Net.host_aligned z

theorem interfaceNet_ne_host {x y : BitVec w} {l : ℕ} (h : l < w) :
    interfaceNet x l h ≠ .host y := fun heq => by
  have hlen : l = w := congrArg Net.prefixLen heq
  omega

def ip6Family (interfaces : Interfaces) : Family 128 where
  fibOf := interfaces.fib6
  shared a p := [(p, connected interfaces.isP2p a.swIfIndex p)]

variable {interfaces : Interfaces}

theorem ip6_compatible {S : Finset (IpInterfaceAddress 128)} (h : Separate interfaces.fib6 S) :
    (ip6Family interfaces).Compatible S := by
  refine compatible_of_shared (F := ip6Family interfaces) h ?_ ?_ ?_ ?_
  · intro a hl x hx
    rw [mem_singleton.mp hx]
    exact Or.inl rfl
  · intro a _ b _ hal hbl hsw hnet
    simp only [ip6Family, hsw, hnet]
  · intro a _ b _ _ hl x hx
    rw [mem_singleton.mp hx]
    exact interfaceNet_ne_host hl
  · intro a _ hl
    exact nodup_singleton _

def ip4Family (interfaces : Interfaces) : Family 32 where
  fibOf := interfaces.fib4
  shared a p :=
    (p, connected interfaces.isP2p a.swIfIndex p) ::
      ip4Specials interfaces.isP2p a.swIfIndex a.address p

/-- No address is the network or broadcast address of its prefix, and no two share a /31. -/
structure Ordinary (S : Finset (IpInterfaceAddress 32)) : Prop where
  special : ∀ a ∈ S, ∀ hl : a.addressLength < 32, a.addressLength ≤ 30 →
    a.address ≠ (interfaceNet a.address a.addressLength hl).network ∧
      a.address ≠ (interfaceNet a.address a.addressLength hl).broadcast
  peer : ∀ a ∈ S, ∀ b ∈ S, a.addressLength = 31 → b.addressLength = 31 →
    a.swIfIndex = b.swIfIndex → a.address ^^^ 1 ≠ b.address

variable {isP2p : ℕ → Bool}

theorem ip4Specials_of_le {sw : ℕ} {x : BitVec 32} {p : Net 32}
    (hp : p.prefixLen ≤ 30) (hn : x ≠ p.network) (hb : x ≠ p.broadcast) :
    ip4Specials isP2p sw x p = [(.host p.network, .drop), (.host p.broadcast, .drop)] := by
  unfold ip4Specials
  rw [if_pos hp]
  simp [hn.symm, hb.symm]

theorem ip4Specials_of_eq {sw : ℕ} {x : BitVec 32} {p : Net 32}
    (hp : p.prefixLen = 31) : ip4Specials isP2p sw x p =
      [(.host (x ^^^ 1), .neighbor sw (if isP2p sw then 0 else x ^^^ 1))] := by
  unfold ip4Specials
  rw [if_neg (by omega), if_pos hp]

theorem mem_ip4Specials {a : IpInterfaceAddress 32}
    (hl : a.addressLength < 32) {x : Net 32 × RouteDpo 32}
    (hx : x ∈ ip4Specials isP2p a.swIfIndex a.address (interfaceNet a.address a.addressLength hl)) :
    ∃ z, x.1 = .host z ∧ z ≠ a.address ∧
      bitsOf z a.addressLength = bitsOf a.address a.addressLength ∧
      ((a.addressLength ≤ 30 ∧ (z = (interfaceNet a.address a.addressLength hl).network ∨
        z = (interfaceNet a.address a.addressLength hl).broadcast)) ∨
        a.addressLength = 31 ∧ z = a.address ^^^ 1) := by
  have hlen : (interfaceNet a.address a.addressLength hl).prefixLen = a.addressLength := rfl
  unfold ip4Specials at hx
  by_cases h30 : a.addressLength ≤ 30
  · rw [hlen, if_pos h30] at hx
    obtain ⟨z, hz, rfl⟩ := mem_map.mp hx
    obtain ⟨hz, hne⟩ := mem_filter.mp hz
    have hne : z ≠ a.address := by simpa using hne
    rcases mem_pair.mp hz with rfl | rfl
    · exact ⟨_, rfl, hne, bitsOf_network_of hl, Or.inl ⟨h30, Or.inl rfl⟩⟩
    · exact ⟨_, rfl, hne, bitsOf_broadcast hl, Or.inl ⟨h30, Or.inr rfl⟩⟩
  · have h31 : a.addressLength = 31 := by omega
    rw [hlen, if_neg h30, if_pos h31] at hx
    rw [mem_singleton.mp hx]
    refine ⟨a.address ^^^ 1, rfl, peer_ne _, ?_, Or.inr ⟨h31, rfl⟩⟩
    rw [h31]
    exact bitsOf_peer _

theorem ip4_compatible {S : Finset (IpInterfaceAddress 32)} (h : Separate interfaces.fib4 S)
    (ho : Ordinary S) : (ip4Family interfaces).Compatible S := by
  refine compatible_of_shared (F := ip4Family interfaces) h ?_ ?_ ?_ ?_
  · intro a hl x hx
    rcases mem_cons.mp hx with rfl | hx
    · exact Or.inl rfl
    · obtain ⟨z, hz, -, haz, -⟩ := mem_ip4Specials hl hx
      exact Or.inr ⟨z, hz, haz⟩
  · intro a ha b hb hl hbl hsw hnet
    obtain ⟨hlen, hbits⟩ := (interfaceNet_eq_iff hl hbl).mp hnet
    simp only [ip4Family]
    by_cases h30 : a.addressLength ≤ 30
    · have h30' : b.addressLength ≤ 30 := hlen ▸ h30
      rw [ip4Specials_of_le h30 (ho.special a ha hl h30).1 (ho.special a ha hl h30).2,
        ip4Specials_of_le h30' (ho.special b hb hbl h30').1 (ho.special b hb hbl h30').2, hnet, hsw]
    · have h31 : a.addressLength = 31 := by omega
      have hab : a = b := by
        apply h.distinct a ha b hb (congrArg interfaces.fib4 hsw)
        by_contra hne
        rw [h31] at hbits
        exact ho.peer a ha b hb h31 (hlen ▸ h31) hsw (peer_of_bitsOf hbits hne).symm
      subst hab
      rfl
  · intro a ha b hb hfib hbl x hx hhost
    rcases mem_cons.mp hx with rfl | hx
    · exact interfaceNet_ne_host hbl hhost
    · obtain ⟨z, hz, hne, hbz, hkind⟩ := mem_ip4Specials hbl hx
      have hza : z = a.address := congrArg Net.addr (hz.symm.trans hhost)
      subst hza
      obtain ⟨hsw, hlen⟩ := h.overlap a ha b hb hfib (Or.inl hbz)
      have hal : a.addressLength < 32 := hlen ▸ hbl
      have hnet := (interfaceNet_eq_iff hal hbl).mpr ⟨hlen, hlen ▸ hbz⟩
      rcases hkind with ⟨h30, hspecial⟩ | ⟨h31, hpeer⟩
      · rw [← hnet] at hspecial
        have hno := ho.special a ha hal (hlen ▸ h30)
        exact hspecial.elim hno.1 hno.2
      · exact ho.peer b hb a ha h31 (hlen.trans h31) hsw.symm hpeer.symm
  · intro a ha hl
    simp only [ip4Family]
    rw [map_cons, nodup_cons]
    refine ⟨?_, ?_⟩
    · intro hmem
      obtain ⟨x, hx, heq⟩ := mem_map.mp hmem
      obtain ⟨z, hz, -⟩ := mem_ip4Specials hl hx
      exact interfaceNet_ne_host hl (heq.symm.trans hz)
    · by_cases h30 : a.addressLength ≤ 30
      · rw [ip4Specials_of_le h30 (ho.special a ha hl h30).1 (ho.special a ha hl h30).2]
        simp only [map_cons, map_nil, nodup_cons, mem_singleton,
          not_mem_nil, not_false_eq_true, nodup_nil, and_self, and_true]
        intro heq
        exact network_ne_broadcast hl (congrArg Net.addr heq)
      · rw [ip4Specials_of_eq (by exact (by omega : a.addressLength = 31))]
        simp

end InterfaceRoutes
