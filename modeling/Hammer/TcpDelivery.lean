import Hammer.TcpInput

/-! # In-order delivery

A peer cuts segments from its stream; the application reads and closes.
-/

namespace Tcp

open TcpSeq Recovery

/-- What an application call, a timer or a transmission does to a connection. -/
inductive LocalEvent where
  | close (txQueued : Bool)
  | reset
  | expiry (kind : TcpTimerKind) (now : Instant)
  | send (offset : Option ℕ) (payloadLen : ℕ) (now : Instant) (appLimited : Bool)
  | pathMtu (mtu : ℕ)

def LocalEvent.event {C : Type} : LocalEvent → Event C
  | .close txQueued => .close txQueued
  | .reset => .reset
  | .expiry kind now => .expiry kind now
  | .send offset payloadLen now appLimited => .send offset payloadLen now appLimited
  | .pathMtu mtu => .pathMtu mtu

namespace TcpConnection

variable {C : Type} {c d : TcpConnection C}

/-- The receive side is as before, and no connection is opened. -/
structure KeepsInbound (c d : TcpConnection C) : Prop where
  irs : d.irs = c.irs
  rcvNxt : d.rcvNxt = c.rcvNxt
  finReceived : d.finReceived = c.finReceived
  state : d.state = c.state ∨ d.state = .closed ∨ d.state = .finWait1 ∨ d.state = .lastAck

theorem KeepsInbound.of_eq (h1 : d.irs = c.irs) (h2 : d.rcvNxt = c.rcvNxt)
    (h3 : d.finReceived = c.finReceived) (h4 : d.state = c.state) : KeepsInbound c d :=
  ⟨h1, h2, h3, Or.inl h4⟩

theorem keepsInbound_onSessionClose (c : TcpConnection C) (txQueued : Bool) :
    KeepsInbound c (c.onSessionClose txQueued).1 := by
  unfold onSessionClose
  cases hs : c.state with
  | synRcvd | finWait1 => exact ⟨rfl, rfl, rfl, Or.inr (Or.inr (Or.inl rfl))⟩
  | established => cases txQueued <;> exact ⟨rfl, rfl, rfl, Or.inr (Or.inr (Or.inl rfl))⟩
  | closeWait =>
    cases txQueued
    · exact ⟨rfl, rfl, rfl, Or.inr (Or.inr (Or.inr rfl))⟩
    · exact ⟨rfl, rfl, rfl, Or.inl hs.symm⟩
  | _ => exact ⟨rfl, rfl, rfl, Or.inl rfl⟩

theorem keepsInbound_onWaitCloseTimerExpiry (c : TcpConnection C) :
    KeepsInbound c c.onWaitCloseTimerExpiry.1 := by
  unfold onWaitCloseTimerExpiry
  cases hs : c.state with
  | closeWait =>
    split_ifs
    · exact ⟨rfl, rfl, rfl, Or.inr (Or.inr (Or.inr rfl))⟩
    · exact ⟨rfl, rfl, rfl, Or.inr (Or.inl rfl)⟩
  | finWait1 | finWait2 | closing | lastAck | timeWait =>
    exact ⟨rfl, rfl, rfl, Or.inr (Or.inl rfl)⟩
  | closed | listen | synSent | synRcvd | established => exact ⟨rfl, rfl, rfl, Or.inl rfl⟩

variable [CongestionSender C]

theorem keepsInbound_timerExpiryAction (c : TcpConnection C) (kind : TcpTimerKind)
    (now : Instant) : KeepsInbound c (c.timerExpiryAction kind now).1 := by
  unfold timerExpiryAction
  cases kind with
  | retransmit =>
    unfold onRetransmitTimerExpiry
    dsimp only
    split
    · exact .of_eq rfl rfl rfl rfl
    split
    · split <;> exact .of_eq rfl rfl rfl rfl
    split <;> exact .of_eq rfl rfl rfl rfl
  | rack =>
    unfold onRackTimerExpiry
    dsimp only
    split_ifs <;> exact .of_eq rfl rfl rfl rfl
  | tlp =>
    unfold onTlpTimerExpiry
    split_ifs <;> exact .of_eq rfl rfl rfl rfl
  | delayedAck | pacing => exact .of_eq rfl rfl rfl rfl
  | persist =>
    unfold onPersistTimerExpiry
    dsimp only
    split_ifs <;> exact .of_eq rfl rfl rfl rfl
  | keepAlive =>
    unfold onKeepaliveTimerExpiry
    split_ifs
    · exact .of_eq rfl rfl rfl rfl
    · exact ⟨rfl, rfl, rfl, Or.inr (Or.inl rfl)⟩
    · exact .of_eq rfl rfl rfl rfl
  | waitClose => exact c.keepsInbound_onWaitCloseTimerExpiry

theorem keepsInbound_onTypedTimerExpiry (c : TcpConnection C) (kind : TcpTimerKind)
    (now : Instant) : KeepsInbound c (c.onTypedTimerExpiry kind now).1 := by
  have hrearm (d : TcpConnection C) : (d.rearmAfterExpiry kind now).irs = d.irs := by
    unfold rearmAfterExpiry
    cases kind with
    | persist | pacing => dsimp only; split_ifs <;> rfl
    | retransmit | rack | tlp | delayedAck | keepAlive | waitClose => rfl
  unfold onTypedTimerExpiry
  split
  · exact .of_eq rfl rfl rfl rfl
  · have hcore := core_rearmAfterExpiry (c.timerExpiryAction kind now).1 kind now
    have h := c.keepsInbound_timerExpiryAction kind now
    refine ⟨(hrearm _).trans h.irs, (congrArg Core.rcvNxt hcore).trans h.rcvNxt,
      (congrArg Core.finReceived hcore).trans h.finReceived, ?_⟩
    rw [show ((c.timerExpiryAction kind now).1.rearmAfterExpiry kind now).state =
      (c.timerExpiryAction kind now).1.state from congrArg Core.state hcore]
    exact h.state

theorem keepsInbound_commitPayloadTx {payloadLen : ℕ} {now : Instant} {appLimited : Bool}
    (h : c.commitPayloadTx payloadLen now appLimited = .ok d) : KeepsInbound c d := by
  unfold commitPayloadTx recordNewData at h
  dsimp only at h
  split_ifs at h <;> cases h <;> exact .of_eq rfl rfl rfl rfl

theorem keepsInbound_applyPathMtu (c : TcpConnection C) (pathMtu : ℕ) :
    KeepsInbound c (c.applyPathMtu pathMtu) := by
  unfold applyPathMtu
  dsimp only
  split_ifs <;> exact .of_eq rfl rfl rfl rfl

theorem keepsInbound_handle (c : TcpConnection C) (l : LocalEvent) :
    KeepsInbound c (c.handle l.event).1 := by
  cases l with
  | close txQueued => exact c.keepsInbound_onSessionClose txQueued
  | reset => exact ⟨rfl, rfl, rfl, Or.inr (Or.inl rfl)⟩
  | expiry kind now => exact c.keepsInbound_onTypedTimerExpiry kind now
  | send offset payloadLen now appLimited =>
    have hsend (d : TcpConnection C) (hd : KeepsInbound c d) (hs : d.state = c.state) :
        KeepsInbound c ((d.commitPayloadTx payloadLen now appLimited).toOption.getD d) := by
      cases h : d.commitPayloadTx payloadLen now appLimited with
      | error _ => exact hd
      | ok f =>
        have hk := keepsInbound_commitPayloadTx h
        exact ⟨hk.irs.trans hd.irs, hk.rcvNxt.trans hd.rcvNxt, hk.finReceived.trans hd.finReceived,
          hs ▸ hk.state⟩
    cases offset with
    | none => exact hsend c (.of_eq rfl rfl rfl rfl) rfl
    | some offset => exact hsend _ (.of_eq rfl rfl rfl rfl) rfl
  | pathMtu mtu => exact c.keepsInbound_applyPathMtu mtu

end TcpConnection

open TcpEndpoint

/-- A segment with the bytes of the stream from `k` on; a FIN stands at the end of the stream. -/
@[mk_iff]
structure CutFrom (isn : TcpSeq) (stream : List UInt8) (a : Arrival) (k : ℕ) : Prop where
  sequence : a.packet.flags.syn = false → a.packet.sequence = advance isn (1 + k)
  syn : a.packet.flags.syn = true → a.packet.sequence = isn ∧ k = 0
  bytes : StreamFifo.CutAt stream k (a.first ++ a.rest.flatten)
  fin : a.packet.flags.fin = true → k + a.length = stream.length

instance (isn : TcpSeq) (stream : List UInt8) (a : Arrival) (k : ℕ) :
    Decidable (CutFrom isn stream a k) := decidable_of_iff' _ (cutFrom_iff ..)

section

variable {isn : TcpSeq} {stream : List UInt8} {a : Arrival} {k : ℕ} (h : CutFrom isn stream a k)
include h

theorem CutFrom.first : StreamFifo.CutAt stream k a.first := by
  intro j hj
  rw [h.bytes j (by rw [List.length_append]; omega), List.getElem?_append_left hj]

theorem CutFrom.first_le (hne : a.first ≠ []) : k + a.first.length ≤ stream.length := by
  have hlen := List.length_pos_iff.mpr hne
  have hlast := h.first (a.first.length - 1) (by omega)
  by_contra hlt
  rw [List.getElem?_eq_none (by omega), List.getElem?_eq_getElem (by omega)] at hlast
  cases hlast

end

/-- Less than half the sequence space from a position of the receiver. -/
def Within (position k length : ℕ) : Prop :=
  position < k + 2147483648 ∧ k + length < position + 2147483648

instance (position k length : ℕ) : Decidable (Within position k length) :=
  inferInstanceAs (Decidable (_ ∧ _))

theorem Core.finNext_ne_synRcvd {k : Core} : k.finNext ≠ some .synRcvd := by
  unfold Core.finNext
  cases k.state with
  | finWait1 =>
    split_ifs <;> decide
  | _ => simp

namespace View

variable {v : View} {a : Arrival} {backed : ℕ → ℕ} {isn : TcpSeq} {stream : List UInt8} {k p : ℕ}

/-- The RX FIFO holds bytes of the stream where they belong, and `rcvNxt` counts those in order. -/
structure Aligned (isn : TcpSeq) (stream : List UInt8) (v : View) : Prop where
  irs : v.irs = isn
  rcvNxt : v.core.rcvNxt = advance isn (1 + (v.rx.tail + v.core.finReceived.toNat))
  stored : v.rx.Agrees stream
  fin : v.core.finReceived = true → v.rx.tail = stream.length
  size : v.rx.size ≤ U32_MAX

theorem Aligned.fresh {size : ℕ} (irs : v.irs = isn) (rcvNxt : v.core.rcvNxt = advance isn 1)
    (fin : v.core.finReceived = false) (rx : v.rx = .empty size) (hsize : size ≤ U32_MAX) :
    v.Aligned isn stream := by
  refine ⟨irs, ?_, ?_, ?_, ?_⟩
  · rw [rcvNxt, fin, rx]
    rfl
  · rw [rx]
    exact StreamFifo.agrees_empty size stream
  · intro hf
    rw [fin] at hf
    cases hf
  · rw [rx]
    exact hsize

theorem advance_eq_wrap (isn : TcpSeq) (n : ℕ) :
    advance isn (1 + n) = wrap (isn.toInt + (1 + n : ℕ)) := by
  rw [← advance_wrap]
  congr 1
  exact (Serial.wrap_toInt (w := 31) isn).symm

theorem advance_inj {m n : ℕ} (h1 : m < n + 2147483648) (h2 : n < m + 2147483648) :
    advance isn (1 + m) = advance isn (1 + n) ↔ m = n := by
  rw [advance_eq_wrap, advance_eq_wrap, wrap_inj]
  · omega
  · rw [near_iff]
    omega

theorem accept_at (hr : v.core.rcvNxt = advance isn (1 + p))
    (hs : a.packet.sequence = advance isn (1 + k)) (h : Within p k a.first.length) :
    v.accept a = if k + a.first.length ≤ p ∨ a.first = [] then none
      else if k < p then some (p - k, 0) else some (0, k - p) := by
  obtain ⟨h1, h2⟩ := h
  have hwrap := advance_eq_wrap isn
  have hle : le (advance a.packet.sequence a.first.length) v.core.rcvNxt = true ↔
      k + a.first.length ≤ p := by
    rw [hr, hs, advance_advance, hwrap, Nat.add_assoc, hwrap, le_wrap]
    · omega
    · rw [near_iff]
      omega
  have hlt : lt a.packet.sequence v.core.rcvNxt = true ↔ k < p := by
    rw [hr, hs, hwrap, hwrap, lt_wrap]
    · omega
    · rw [near_iff]
      omega
  unfold accept TcpConnection.acceptAt
  rw [a.counted]
  by_cases hnil : a.first = []
  · rw [if_pos (by rw [hnil]; rfl), if_pos (Or.inr hnil)]
  rw [if_neg (fun h => hnil (List.length_eq_zero_iff.mp h))]
  by_cases hold : k + a.first.length ≤ p
  · rw [if_pos (hle.mpr hold), if_pos (Or.inl hold)]
  rw [if_neg (fun h => hold (hle.mp h)),
    if_neg (show ¬(k + a.first.length ≤ p ∨ a.first = []) from not_or.mpr ⟨hold, hnil⟩)]
  by_cases hkp : k < p
  · rw [if_pos (hlt.mpr hkp), if_pos hkp, hr, hs, hwrap, hwrap, distanceTo_wrap]
    · congr 2
      omega
    · omega
    · omega
  · rw [if_neg (fun h => hkp (hlt.mp h)), if_neg hkp, hr, hs, hwrap, hwrap, distanceTo_wrap]
    · congr 2
      omega
    · omega
    · omega

section

variable (h : v.Aligned isn stream)
include h

theorem Aligned.inOrder {trim : ℕ} (hfin : v.core.finReceived = false)
    (htrim : trim < a.first.length) (hcut : StreamFifo.CutAt stream v.rx.tail (a.first.drop trim)) :
    (v.deliver a backed trim 0).Aligned isn stream ∧
      v.rx.tail ≤ (v.deliver a backed trim 0).rx.tail := by
  obtain ⟨g, accepted, promoted, hg, hspec⟩ :=
    v.rx.enqueueInOrder_spec (backed 0) (a.first.drop trim)
  rw [deliver_inOrder _ _ _ htrim, hg]
  dsimp only
  have htail : g.tail = v.rx.tail + accepted + promoted := by
    rw [hspec.tail, if_pos rfl]
  have hsize := h.size
  have hroom : accepted + promoted ≤ U32_MAX := by
    have h1 := g.tail_le
    have h2 := v.rx.head_le_tail
    rw [hspec.head, hspec.size] at h1
    omega
  refine ⟨⟨h.irs, ?_, hspec.agrees stream h.stored hcut, ?_, ?_⟩, by omega⟩
  · dsimp only
    rw [h.rcvNxt, advance_advance]
    congr 1
    unfold satAdd
    omega
  · intro hf
    rw [hfin] at hf
    cases hf
  · rw [hspec.size]
    exact hsize

theorem Aligned.ahead {offset : ℕ} (h0 : offset ≠ 0)
    (hne : a.first ≠ []) (hcut : StreamFifo.CutAt stream (v.rx.tail + offset) a.first) :
    (v.deliver a backed 0 offset).Aligned isn stream ∧
      v.rx.tail ≤ (v.deliver a backed 0 offset).rx.tail := by
  rw [deliver_outOfOrder _ _ _ (List.length_pos_iff.mpr hne) h0, List.drop_zero]
  unfold placed
  cases hg : v.rx.enqueueOoo (backed 0) offset a.first with
  | error _ => exact ⟨h, Nat.le_refl _⟩
  | ok x =>
    obtain ⟨g, r⟩ := x
    have hspec := StreamFifo.enqueueOoo_spec hg
    have htail : g.tail = v.rx.tail := by
      rw [hspec.tail, if_neg h0]
    refine ⟨⟨h.irs, ?_, hspec.agrees stream h.stored hcut, ?_, ?_⟩, htail.ge⟩
    · rw [htail]
      exact h.rcvNxt
    · intro hf
      rw [htail]
      exact h.fin hf
    · rw [hspec.size]
      exact h.size

theorem Aligned.payload (backed : ℕ → ℕ) (hc : CutFrom isn stream a k)
    (hsyn : a.packet.flags.syn = true → a.first = [])
    (hw : Within (v.rx.tail + v.core.finReceived.toNat) k a.length) :
    (v.payload a backed).Aligned isn stream ∧ v.rx.tail ≤ (v.payload a backed).rx.tail := by
  unfold View.payload
  by_cases hnil : a.first = []
  · rw [show v.accept a = none from if_pos (by rw [a.counted, hnil]; rfl)]
    exact ⟨h, Nat.le_refl _⟩
  have hseq := hc.sequence (by
    by_contra hs
    exact hnil (hsyn (by simpa using hs)))
  have hw' : Within (v.rx.tail + v.core.finReceived.toNat) k a.first.length := by
    obtain ⟨h1, h2⟩ := hw
    unfold Arrival.length at h2
    exact ⟨h1, by omega⟩
  rw [accept_at h.rcvNxt hseq hw']
  have hle := hc.first_le hnil
  by_cases hold : k + a.first.length ≤ v.rx.tail + v.core.finReceived.toNat
  · rw [if_pos (Or.inl hold)]
    exact ⟨h, Nat.le_refl _⟩
  have hfin : v.core.finReceived = false := by
    by_contra hf
    have := h.fin (by simpa using hf)
    omega
  rw [if_neg (by simp [hold, hnil]), hfin, Bool.toNat_false, Nat.add_zero]
  by_cases hk : k < v.rx.tail
  · rw [if_pos hk]
    refine h.inOrder hfin (by omega) ?_
    have := hc.first.drop (v.rx.tail - k)
    rwa [Nat.add_sub_cancel' hk.le] at this
  · rw [if_neg hk]
    by_cases heq : k = v.rx.tail
    · rw [heq, Nat.sub_self]
      refine h.inOrder hfin (List.length_pos_iff.mpr hnil) ?_
      rw [← heq]
      exact hc.first
    · refine h.ahead (by omega) hnil ?_
      rw [Nat.add_sub_cancel' (by omega)]
      exact hc.first

section

variable (hc : CutFrom isn stream a k) (hwhole : a.packet.flags.fin = true → a.rest.flatten = [])
   (hsyn : a.packet.flags.syn = true → a.packet.flags.fin = false)
   (hw : a.packet.flags.fin = true → stream.length < v.rx.tail + 2147483648)
include hc hwhole hsyn hw

/-- The FIN stands at `rcvNxt` exactly when nothing before it is missing. -/
theorem Aligned.finDue :
    (a.packet.flags.fin = true ∧ advance a.packet.sequence a.packet.payloadLen = v.core.rcvNxt) ↔
      a.packet.flags.fin = true ∧ v.core.finReceived = false ∧ v.rx.tail = stream.length := by
  refine and_congr_right fun hf => ?_
  have hns : a.packet.flags.syn = false := by
    by_contra hs
    rw [hsyn (by simpa using hs)] at hf
    cases hf
  have hend : k + a.first.length = stream.length := by
    have hlen := hc.fin hf
    unfold Arrival.length at hlen
    rw [hwhole hf] at hlen
    exact hlen
  have hle := h.stored.tail_le_length
  have hnear := hw hf
  rw [hc.sequence hns, a.counted, advance_advance, Nat.add_assoc, hend, h.rcvNxt]
  by_cases hr : v.core.finReceived = true
  · have htail := h.fin hr
    rw [hr, Bool.toNat_true, advance_inj (by omega) (by omega)]
    simp
    omega
  · rw [Bool.not_eq_true] at hr
    rw [hr, Bool.toNat_false, advance_inj (by omega) (by omega)]
    simp [eq_comm]

/-- The FIN step: the FIN is consumed where it is expected and nothing is missing before it. -/
theorem Aligned.fin_step : (v.fin a).Aligned isn stream ∧
      ((v.fin a).core.finReceived = true ↔ v.core.finReceived = true ∨
        a.packet.flags.fin = true ∧ takesPayload v.core.state = true ∧
          v.rx.tail = stream.length) := by
  have hdue := h.finDue hc hwhole hsyn hw
  have hexpected := finNext_isSome v.core
  unfold View.fin Core.takeFin
  by_cases hcond : a.packet.flags.fin = true ∧
      advance a.packet.sequence a.packet.payloadLen = v.core.rcvNxt
  · obtain ⟨hf, hr, htail⟩ := hdue.mp hcond
    rw [if_pos hcond]
    cases hnext : v.core.finNext with
    | none =>
      rw [hnext] at hexpected
      refine ⟨h, ?_⟩
      rw [← hexpected]
      simp
    | some next =>
      rw [hnext] at hexpected
      refine ⟨⟨h.irs, ?_, h.stored, fun _ => htail, h.size⟩, ?_⟩
      · show advance v.core.rcvNxt 1 = advance isn (1 + (v.rx.tail + 1))
        rw [h.rcvNxt, hr, advance_advance]
        rfl
      · exact iff_of_true rfl (Or.inr ⟨hf, hexpected.symm, htail⟩)
  · rw [if_neg hcond]
    refine ⟨h, (or_iff_left_of_imp fun hx => ?_).symm⟩
    by_contra hr
    exact hcond (hdue.mpr ⟨hx.1, by simpa using hr, hx.2.2⟩)

end

theorem Aligned.processed (backed : ℕ → ℕ) (hc : CutFrom isn stream a k)
    (hwhole : a.packet.flags.fin = true → a.rest.flatten = [])
    (hsyn : a.packet.flags.syn = true → a.first = [] ∧ a.packet.flags.fin = false)
    (hw : Within (v.rx.tail + v.core.finReceived.toNat) k a.length) :
    let w := (if takesPayload v.core.state then v.payload a backed else v).fin a
    w.Aligned isn stream ∧ (w.core.finReceived = true ↔ v.core.finReceived = true ∨
      a.packet.flags.fin = true ∧ takesPayload v.core.state = true ∧
        w.rx.tail = stream.length) := by
  have hnear {n : ℕ} (hn : v.rx.tail ≤ n) (hf : a.packet.flags.fin = true) :
      stream.length < n + 2147483648 := by
    have hend := hc.fin hf
    obtain ⟨-, hw⟩ := hw
    by_cases hr : v.core.finReceived = true
    · have := h.fin hr
      omega
    · rw [Bool.not_eq_true] at hr
      rw [hr, Bool.toNat_false] at hw
      omega
  have hsyn' (hs : a.packet.flags.syn = true) := (hsyn hs).2
  split
  · next ht =>
    obtain ⟨hp, hle⟩ := h.payload backed hc (fun hs => (hsyn hs).1) hw
    obtain ⟨rx, rcvNxt, heq⟩ := v.payload_eq a backed
    obtain ⟨hal, hiff⟩ := hp.fin_step hc hwhole hsyn' (hnear hle)
    refine ⟨hal, hiff.trans ?_⟩
    rw [heq]
    rfl
  · exact h.fin_step hc hwhole hsyn' (hnear (Nat.le_refl _))

theorem Aligned.congr {w : View} (h1 : w.irs = v.irs)
    (h2 : w.core.rcvNxt = v.core.rcvNxt) (h3 : w.core.finReceived = v.core.finReceived)
    (h4 : w.rx = v.rx) : w.Aligned isn stream := by
  refine ⟨h1.trans h.irs, ?_, ?_, ?_, ?_⟩
  · rw [h2, h3, h4]
    exact h.rcvNxt
  · rw [h4]
    exact h.stored
  · rw [h3, h4]
    exact h.fin
  · rw [h4]
    exact h.size

end

/-- An acknowledgment leaves the receive side alone, and takes the connection neither into nor out
of the states that expect payload while the FIN is missing. -/
theorem closeSide_inbound (v : View) (acknowledgment : Option TcpSeq) (sndWnd : ℕ) :
    let w := v.closeSide acknowledgment sndWnd
    w.irs = v.irs ∧ w.core.rcvNxt = v.core.rcvNxt ∧ w.core.finReceived = v.core.finReceived ∧
      w.rx = v.rx ∧ (v.core.finReceived = false →
        takesPayload w.core.state = takesPayload v.core.state) ∧
      (v.core.state ≠ .synRcvd → w.core.state ≠ .synRcvd) := by
  obtain ⟨una, huna⟩ := v.core.ack_eq acknowledgment
  have hcore : (v.ack acknowledgment sndWnd).core = { v.core with sndUna := una } := huna
  have hnext : (v.core.finReceived = false → takesPayload v.closeNext = takesPayload v.core.state) ∧
      (v.core.state ≠ .synRcvd → v.closeNext ≠ .synRcvd) := by
    unfold closeNext TcpConnection.closeNext
    cases hs : v.core.state with
    | finWait1 =>
      dsimp only
      refine ⟨fun hr => ?_, fun _ => ?_⟩
      · rw [hr]
        split <;> rfl
      · split_ifs <;> decide
    | lastAck =>
      dsimp only
      refine ⟨fun _ => ?_, fun _ => ?_⟩ <;> split <;> first | rfl | decide
    | _ => simp [takesPayload]
  dsimp only
  unfold closeSide
  split
  · rw [hcore]
    exact ⟨rfl, rfl, rfl, rfl, hnext⟩
  · rw [hcore]
    exact ⟨rfl, rfl, rfl, rfl, fun _ => rfl, id⟩

end View

namespace TcpEndpoint

variable {C : Type}

/-- A segment of the peer, a read of the application, or what the connection does by itself. -/
inductive Input where
  | segment (node : InputNode) (a : Arrival) (k : ℕ) (backed : ℕ → ℕ) (now : Instant)
  | read (length : ℕ)
  | own (event : LocalEvent)

/-- The bytes taken in order, and the FIN. -/
def position (e : TcpEndpoint C) : ℕ := e.rx.tail + e.connection.finReceived.toNat

/-- The peer's segments come from its stream, from less than half the sequence space away. -/
def Input.Cut (isn : TcpSeq) (stream : List UInt8) (e : TcpEndpoint C) : Input → Prop
  | .segment _ a k _ _ => CutFrom isn stream a k ∧ Within e.position k a.length
  | _ => True

/-- A FIN comes in a single buffer, and a repeated SYN comes with neither payload nor FIN. -/
def Input.Whole : Input → Prop
  | .segment _ a _ _ _ =>
    (a.packet.flags.fin = true → a.rest.flatten = []) ∧
      (a.packet.flags.syn = true → a.first = [] ∧ a.packet.flags.fin = false)
  | _ => True

instance (isn : TcpSeq) (stream : List UInt8) (e : TcpEndpoint C) (i : Input) :
    Decidable (i.Cut isn stream e) :=
  match i with
  | .segment .. => inferInstanceAs (Decidable (CutFrom .. ∧ Within ..))
  | .read _ | .own _ => isTrue trivial

instance (i : Input) : Decidable i.Whole :=
  match i with
  | .segment .. => inferInstanceAs (Decidable ((_ → _) ∧ (_ → _)))
  | .read _ | .own _ => isTrue trivial

/-- Whether a node takes the FIN of a packet in this state. -/
def InputNode.expectsFin (node : InputNode) (state : TcpState) : Bool :=
  match node with
  | .established => state = .established
  | .rcvProcess => takesPayload state

section

theorem acceptPayloadFrom_start {c : TcpConnection C} {n : ℕ} (h0 : n ≠ 0) (hn : n ≤ 65535) :
    c.acceptPayloadFrom c.rcvNxt n = some (0, 0) := by
  have hle : ¬ le (advance c.rcvNxt n) c.rcvNxt = true := by
    rw [le_iff, distanceTo_advance (by omega)]
    omega
  have hlt : ¬ lt c.rcvNxt c.rcvNxt = true := by
    rw [lt_iff, distanceTo_self]
    omega
  unfold TcpConnection.acceptPayloadFrom TcpConnection.acceptAt
  rw [if_neg h0, if_neg hle, if_neg hlt, distanceTo_self]

theorem view_synAckPayload (e : TcpEndpoint C) (a : Arrival) (backed : ℕ → ℕ) : ∃ rx rcvNxt,
    (e.synAckPayload a backed).view =
      { e.view with rx := rx, core := { e.view.core with rcvNxt := rcvNxt } } := by
  unfold synAckPayload
  split
  · rw [view_deliverPayload]
    exact e.view.deliver_eq a backed _ _
  · exact ⟨_, _, rfl⟩

variable [CongestionSender C]

def receive (e : TcpEndpoint C) : Input → TcpEndpoint C
  | .segment node a _ backed now => node.frame e a backed now
  | .read length => { e with rx := e.rx.dropDequeue length }
  | .own event => e.ofConnection (e.connection.handle event.event).1

/-- A connection after its handshake: opened by a peer, or by the peer's SYN-ACK, whose payload
`tcp-syn-sent` delivers. One that `accept_fast_open` makes, with payload in its SYN, is left out. -/
inductive Opened (isn : TcpSeq) (stream : List UInt8) : TcpEndpoint C → Prop
  | passive {e : TcpEndpoint C} {size : ℕ} (state : e.connection.state = .established)
      (irs : e.connection.irs = isn) (rcvNxt : e.connection.rcvNxt = advance isn 1)
      (fin : e.connection.finReceived = false) (rx : e.rx = .empty size)
      (bounded : size ≤ U32_MAX) : Opened isn stream e
  | active {e : TcpEndpoint C} {size : ℕ} {a : Arrival} {localCapabilities : TcpCapabilities}
      {backed : ℕ → ℕ} {now : Instant} (state : e.connection.state = .synSent)
      (fin : e.connection.finReceived = false) (rx : e.rx = .empty size)
      (bounded : size ≤ U32_MAX) (cut : CutFrom isn stream a 0)
      (syn : a.packet.flags.syn = true)
      (opened : (e.tcpSynSentFrame a localCapabilities backed now).connection.state =
        .established) :
      Opened isn stream (e.tcpSynSentFrame a localCapabilities backed now)

inductive Reached (isn : TcpSeq) (stream : List UInt8) : TcpEndpoint C → Prop
  | opened {e : TcpEndpoint C} (h : Opened isn stream e) : Reached isn stream e
  | step {e : TcpEndpoint C} (h : Reached isn stream e) (i : Input) (cut : i.Cut isn stream e)
      (whole : i.Whole) : Reached isn stream (e.receive i)

structure Delivering (isn : TcpSeq) (stream : List UInt8) (e : TcpEndpoint C) : Prop where
  aligned : e.view.Aligned isn stream
  state : e.connection.state ≠ .synRcvd

variable {e e' : TcpEndpoint C} {a : Arrival} {backed : ℕ → ℕ} {isn : TcpSeq}
  {stream : List UInt8} {k : ℕ} {now : Instant} {node : InputNode}

omit [CongestionSender C] in
theorem Delivering.handlePostponedDequeues (h : Delivering isn stream e) :
    Delivering isn stream e.handlePostponedDequeues.1 ∧
      e.handlePostponedDequeues.1.connection.finReceived = e.connection.finReceived ∧
      e.handlePostponedDequeues.1.rx = e.rx := by
  obtain ⟨k, deqPending, tx, hview, hk⟩ := e.view_handlePostponedDequeues
  have hrx := congrArg View.rx hview
  have hirs := congrArg View.irs hview
  have hcore := congrArg View.core hview
  have hk' : k.rcvNxt = e.view.core.rcvNxt ∧ k.finReceived = e.view.core.finReceived ∧
      k.state ≠ .synRcvd := by
    rcases hk with rfl | ⟨-, rfl⟩
    · exact ⟨rfl, rfl, h.state⟩
    · refine ⟨rfl, rfl, ?_⟩
      dsimp only
      split
      · decide
      · exact h.state
  have hfin := (congrArg Core.finReceived hcore).trans hk'.2.1
  refine ⟨⟨h.aligned.congr hirs ((congrArg Core.rcvNxt hcore).trans hk'.1) hfin hrx, ?_⟩, hfin, hrx⟩
  rw [show e.handlePostponedDequeues.1.connection.state = k.state from congrArg Core.state hcore]
  exact hk'.2.2

omit [CongestionSender C] in
theorem Delivering.processed {v : View} (h : e.view.Aligned isn stream)
    (hirs : v.irs = e.view.irs) (hrcv : v.core.rcvNxt = e.view.core.rcvNxt)
    (hfin : v.core.finReceived = e.view.core.finReceived) (hrx : v.rx = e.view.rx)
    (hstate : v.core.state ≠ .synRcvd)
    (hcut : Input.Cut isn stream e (.segment node a k backed now))
    (hwhole : Input.Whole (.segment node a k backed now))
    (hp : Processed e a backed v (takesPayload v.core.state) e') :
    Delivering isn stream e' ∧ (e'.connection.finReceived = true ↔
      e.connection.finReceived = true ∨ a.packet.flags.fin = true ∧
        takesPayload v.core.state = true ∧ e'.rx.tail = stream.length) := by
  obtain ⟨d, hview, -⟩ := hp
  have hv : View.Aligned isn stream { v with deqPending := d } := h.congr hirs hrcv hfin hrx
  obtain ⟨hcut, hwithin⟩ := hcut
  have hw : Within (v.rx.tail + v.core.finReceived.toNat) k a.length := by
    rw [hrx, hfin]
    exact hwithin
  obtain ⟨hal, hiff⟩ := hv.processed backed hcut hwhole.1 hwhole.2 hw
  obtain ⟨rx, state, rcvNxt, finReceived, heq, hnext⟩ :=
    View.processed_eq { v with deqPending := d } a backed (takesPayload v.core.state)
  have hsame : e'.connection.state = state := congrArg (fun v => v.core.state) (hview.trans heq)
  rw [← hview] at hal hiff
  refine ⟨⟨hal, ?_⟩, ?_⟩
  · rw [hsame]
    rcases hnext with rfl | hnext
    · exact hstate
    · rintro rfl
      exact Core.finNext_ne_synRcvd hnext
  · refine hiff.trans ?_
    rw [show ({ v with deqPending := d } : View).core.finReceived = e.connection.finReceived
      from hfin]
    rfl

omit [CongestionSender C] in
theorem Delivering.index (h : Delivering isn stream e)
    (hcut : Input.Cut isn stream e (.segment node a k backed now))
    (hwhole : Input.Whole (.segment node a k backed now))
    (hrst : a.packet.flags.rst = true → e'.view = e.view.close)
    (hproc : a.packet.flags.rst = false → Processed e a backed (e.ackView a now)
      (takesPayload (e.ackView a now).core.state) e') :
    Delivering isn stream e' ∧ (e'.connection.finReceived = true ↔
      e.connection.finReceived = true ∨ a.packet.flags.fin = true ∧ a.packet.flags.rst = false ∧
        takesPayload e.connection.state = true ∧ e'.rx.tail = stream.length) := by
  cases hr : a.packet.flags.rst with
  | true =>
    have hview := hrst hr
    have hfin : e'.connection.finReceived = e.connection.finReceived :=
      congrArg (fun v => v.core.finReceived) hview
    have hclose : e'.view.Aligned isn stream := by
      rw [hview]
      exact h.aligned.congr rfl rfl rfl rfl
    refine ⟨⟨hclose, ?_⟩, ?_⟩
    · rw [show e'.connection.state = .closed from congrArg (fun v => v.core.state) hview]
      decide
    · rw [hfin]
      simp
  | false =>
    have hv : (e.ackView a now).irs = e.view.irs ∧
        (e.ackView a now).core.rcvNxt = e.view.core.rcvNxt ∧
        (e.ackView a now).core.finReceived = e.view.core.finReceived ∧
        (e.ackView a now).rx = e.view.rx ∧ (e.view.core.finReceived = false →
          takesPayload (e.ackView a now).core.state = takesPayload e.view.core.state) ∧
        (e.view.core.state ≠ .synRcvd → (e.ackView a now).core.state ≠ .synRcvd) := by
      unfold ackView
      split
      · exact e.view.closeSide_inbound a.packet.acknowledgment (e.windowOf a)
      · exact ⟨rfl, rfl, rfl, rfl, fun _ => rfl, id⟩
    obtain ⟨h1, h2, h3, h4, h5, h6⟩ := hv
    obtain ⟨hdel, hiff⟩ :=
      Delivering.processed h.aligned h1 h2 h3 h4 (h6 h.state) hcut hwhole (hproc hr)
    refine ⟨hdel, hiff.trans ?_⟩
    cases hf : e.connection.finReceived with
    | true => simp
    | false =>
      rw [h5 hf]
      simp only [Bool.false_eq_true, false_or, true_and]
      rfl

theorem receiveOpenReply_opened {c d : TcpConnection C} {p : TcpPacket}
    {localCapabilities : TcpCapabilities} {control : Option TcpSegment}
    (h : c.receiveOpenReply p localCapabilities now = .ok (d, control))
    (hs : d.state = .established) :
    d.irs = p.sequence ∧ d.rcvNxt = advance p.sequence 1 ∧ d.finReceived = c.finReceived := by
  have haccept (hc : c.state = .synSent)
      (hs : (c.acceptOpenReply p localCapabilities now).1.state = .established) :
      (c.acceptOpenReply p localCapabilities now).1.irs = p.sequence ∧
        (c.acceptOpenReply p localCapabilities now).1.rcvNxt = advance p.sequence 1 ∧
        (c.acceptOpenReply p localCapabilities now).1.finReceived = c.finReceived := by
    obtain ⟨timestamps, timely, hx⟩ := TcpConnection.observeInboundTimestamp_eq
      (c.applyPeerHandshakeCapabilities localCapabilities p.capabilities)
      p.flags p.timestamp p.sequence p.payloadLen now
    have hf : c.state ≠ .established := by
      rw [hc]
      decide
    unfold TcpConnection.acceptOpenReply at hs ⊢
    dsimp only at hs ⊢
    rw [hx] at hs ⊢
    cases timely with
    | false => exact absurd hs hf
    | true =>
      simp only [Bool.not_true, Bool.false_eq_true, if_false] at hs ⊢
      cases hack : p.acknowledgment with
      | none =>
        rw [hack] at hs
        cases hs
      | some n =>
        rw [hack] at hs
        dsimp only at hs ⊢
        split_ifs at hs ⊢
        · exact absurd hs hf
        · exact ⟨rfl, rfl, rfl⟩
  unfold TcpConnection.receiveOpenReply at h
  split at h
  · cases h
  next hc =>
  have hc' : c.state = .synSent := not_not.mp hc
  have hidle : c.state ≠ .established := by
    rw [hc']
    decide
  dsimp only at h
  split at h
  · split at h <;> cases h <;> exact absurd hs hidle
  split at h
  · split at h <;> cases h
    · cases hs
    · exact absurd hs hidle
  split at h
  · cases h
    exact absurd hs hidle
  · have hd : (c.acceptOpenReply p localCapabilities now).1 = d :=
      congrArg Prod.fst (Except.ok.inj h)
    rw [← hd] at hs ⊢
    exact haccept hc' hs

theorem Delivering.of_synAck {localCapabilities : TcpCapabilities} {control : Option TcpSegment}
    {keep : Bool} {size : ℕ}
    (h : e.tcpSynSentIndex a localCapabilities backed now = .ok (e', control, keep))
    (ho : e'.connection.state = .established)
    (hfin : e.connection.finReceived = false) (hrx : e.rx = .empty size) (hsize : size ≤ U32_MAX)
    (hcut : CutFrom isn stream a 0) (hsyn : a.packet.flags.syn = true) :
    Delivering isn stream e' := by
  unfold tcpSynSentIndex at h
  cases hc : e.connection.receiveOpenReply a.packet localCapabilities now with
  | error _ =>
    rw [hc] at h
    cases h
  | ok x =>
    obtain ⟨c, control'⟩ := x
    rw [hc] at h
    obtain ⟨e1, he1, hv1, -⟩ := e.acked_view c
    dsimp only at h
    rw [he1] at h
    have hstate1 : e1.connection.state = c.state := congrArg (fun v => v.core.state) hv1
    -- the session state is not part of the view
    have hview : ∃ p : Bool, e'.view = (if p then e1.synAckPayload a backed else e1).view ∧
        (p = true → a.packet.payloadLen ≠ 0) := by
      have hend := congrArg Prod.fst (Except.ok.inj h)
      dsimp only at hend
      refine ⟨(e.connection.state = .synSent && c.state = .established) &&
        a.packet.payloadLen != 0, ?_, fun hp => ?_⟩
      · rw [← hend]
        exact view_ite rfl
      · simp only [Bool.and_eq_true, bne_iff_ne] at hp
        exact hp.2
    obtain ⟨p, hview, hp⟩ := hview
    obtain ⟨rx, rcvNxt, hpayload⟩ := e1.view_synAckPayload a backed
    have hopen : c.state = .established := by
      rw [← hstate1, ← ho]
      show e1.view.core.state = e'.view.core.state
      rw [hview]
      cases p with
      | false => rfl
      | true =>
        rw [if_pos rfl, hpayload]
    obtain ⟨hirs, hrcv, hfin'⟩ := receiveOpenReply_opened hc hopen
    have hisn := (hcut.syn hsyn).1
    have hbase : e1.view.Aligned isn stream := by
      rw [hv1]
      exact View.Aligned.fresh (hirs.trans hisn) (hrcv.trans (by rw [hisn])) (hfin'.trans hfin)
        hrx hsize
    refine ⟨?_, by rw [ho]; decide⟩
    rw [hview]
    cases p with
    | false => exact hbase
    | true =>
      have hlen := hp rfl
      have hb := a.bounded
      have hrcv1 : e1.connection.rcvNxt = advance a.packet.sequence 1 :=
        (congrArg (fun v => v.core.rcvNxt) hv1).trans hrcv
      have htail : e1.view.rx = .empty size := (congrArg View.rx hv1).trans hrx
      rw [if_pos rfl, synAckPayload, ← hrcv1,
        acceptPayloadFrom_start hlen (by rw [a.counted]; omega)]
      rw [view_deliverPayload]
      refine (hbase.inOrder ?_ ?_ ?_).1
      · exact (congrArg (fun v => v.core.finReceived) hv1).trans (hfin'.trans hfin)
      · rw [← a.counted]
        omega
      · rw [htail]
        exact hcut.first

theorem Delivering.opened (h : Opened isn stream e) : Delivering isn stream e := by
  cases h with
  | passive state irs rcvNxt fin rx bounded =>
    refine ⟨View.Aligned.fresh irs rcvNxt fin rx bounded, ?_⟩
    rw [state]
    decide
  | @active e size a localCapabilities backed now state fin rx bounded cut syn opened =>
    have hkeep (f : TcpEndpoint C) (hf : f.handlePostponedDequeues.1.connection.state =
        .established) : f.connection.state = .established := by
      obtain ⟨k, deqPending, tx, hview, hk⟩ := f.view_handlePostponedDequeues
      have hs : k.state = .established := (congrArg (fun v => v.core.state) hview).symm.trans hf
      rcases hk with rfl | ⟨-, rfl⟩
      · exact hs
      · split at hs
        · cases hs
        · exact hs
    unfold tcpSynSentFrame at opened ⊢
    cases hindex : e.tcpSynSentIndex a localCapabilities backed now with
    | error _ =>
      rw [hindex] at opened
      rw [hkeep e opened] at state
      cases state
    | ok x =>
      obtain ⟨e', control, keep⟩ := x
      rw [hindex] at opened
      exact (Delivering.of_synAck hindex (hkeep e' opened) fin rx bounded cut
        syn).handlePostponedDequeues.1

/-- A step of a run: the receiver stays aligned, and consumes a FIN exactly when the segment that
carries it leaves nothing missing before it. -/
theorem Delivering.step (h : Delivering isn stream e) (i : Input) (hcut : i.Cut isn stream e)
    (hwhole : i.Whole) : Delivering isn stream (e.receive i) ∧
      ((e.receive i).connection.finReceived = true ↔ e.connection.finReceived = true ∨
        ∃ node a k backed now, i = .segment node a k backed now ∧ a.packet.flags.fin = true ∧
          a.packet.flags.rst = false ∧ node.expectsFin e.connection.state = true ∧
          (e.receive i).rx.tail = stream.length) := by
  cases i with
  | segment node a k backed now =>
    have hindex : ∃ e', e.receive (.segment node a k backed now) = e'.handlePostponedDequeues.1 ∧
        Delivering isn stream e' ∧ (e'.connection.finReceived = true ↔
          e.connection.finReceived = true ∨ a.packet.flags.fin = true ∧
            a.packet.flags.rst = false ∧ node.expectsFin e.connection.state = true ∧
            e'.rx.tail = stream.length) := by
      rcases node.frame_cases e a backed now h.state with
        ⟨⟨rfl, hs⟩, hframe⟩ | ⟨hn, e', control, -, hframe, hrst, hproc⟩
      · refine ⟨e, hframe, h, ?_⟩
        rw [show InputNode.expectsFin .established e.connection.state = false from
          decide_eq_false hs]
        simp
      · have hexpects : node.expectsFin e.connection.state = takesPayload e.connection.state := by
          cases node with
          | established =>
            rw [not_not.mp fun hs => hn ⟨rfl, hs⟩]
            rfl
          | rcvProcess => rfl
        rw [hexpects]
        exact ⟨e', hframe, h.index hcut hwhole hrst hproc⟩
    obtain ⟨e', heq, hdel, hiff⟩ := hindex
    obtain ⟨hdel', hfin, hrx⟩ := hdel.handlePostponedDequeues
    rw [heq, hfin, hrx, hiff]
    refine ⟨hdel', or_congr_right ⟨fun hx => ⟨node, a, k, backed, now, rfl, hx⟩, ?_⟩⟩
    rintro ⟨node', a', k', backed', now', heq', hx⟩
    cases heq'
    exact hx
  | read length =>
    refine ⟨⟨⟨h.aligned.irs, h.aligned.rcvNxt, h.aligned.stored.dropDequeue length, h.aligned.fin,
      h.aligned.size⟩, h.state⟩, ?_⟩
    simp [receive]
  | own event =>
    have hk := e.connection.keepsInbound_handle event
    refine ⟨⟨h.aligned.congr hk.irs hk.rcvNxt hk.finReceived rfl, ?_⟩, ?_⟩
    · show (e.connection.handle event.event).1.state ≠ .synRcvd
      rcases hk.state with hs | hs | hs | hs <;> rw [hs]
      · exact h.state
      all_goals decide
    · rw [show (e.receive (.own event)).connection.finReceived = e.connection.finReceived from
        hk.finReceived]
      simp

theorem Reached.delivering (h : Reached isn stream e) : Delivering isn stream e := by
  induction h with
  | opened h => exact .opened h
  | step _ i hcut hwhole ih => exact (ih.step i hcut hwhole).1

/-- In every run the RX FIFO took a beginning of the peer's stream, `rcvNxt` counts it and the FIN,
nothing comes after the FIN, and a segment's FIN is consumed exactly if the node expects one and no
byte before it is missing. -/
theorem delivery_in_order (h : Reached isn stream e) :
    e.rx.received = stream.take e.rx.tail ∧
      e.rx.contents = (stream.take e.rx.tail).drop e.rx.head ∧
      e.connection.rcvNxt =
        advance e.connection.irs (1 + (e.rx.tail + e.connection.finReceived.toNat)) ∧
      (e.connection.finReceived = true → e.rx.received = stream) ∧
      ∀ i : Input, i.Cut isn stream e → i.Whole →
        ((e.receive i).connection.finReceived = true ↔ e.connection.finReceived = true ∨
          ∃ node a k backed now, i = .segment node a k backed now ∧ a.packet.flags.fin = true ∧
            a.packet.flags.rst = false ∧ node.expectsFin e.connection.state = true ∧
            (e.receive i).rx.received = stream) := by
  have hdel := h.delivering
  have hal := hdel.aligned
  have hrec : e.rx.received = stream.take e.rx.tail := hal.stored.received
  refine ⟨hrec, by rw [e.rx.contents_eq, hrec], ?_, fun hf => ?_, fun i hcut hwhole => ?_⟩
  · rw [show e.connection.irs = isn from hal.irs]
    exact hal.rcvNxt
  · rw [hrec, show e.rx.tail = stream.length from hal.fin hf, List.take_length]
  · obtain ⟨hdel', hiff⟩ := hdel.step i hcut hwhole
    have hall : (e.receive i).rx.received = stream ↔ (e.receive i).rx.tail = stream.length := by
      have hstored : (e.receive i).rx.Agrees stream := hdel'.aligned.stored
      have hle := hstored.tail_le_length
      rw [hstored.received, List.take_eq_self_iff]
      omega
    rw [hiff]
    simp only [hall]

end

/-- A packet of the peer, split into a first buffer and the buffers chained to it. -/
def chained (sequence : TcpSeq) (flags : TcpSegmentFlags) (first : List UInt8)
    (rest : List (List UInt8)) (h : first.length + rest.flatten.length ≤ 65535) : Arrival where
  packet := { Machine.samplePacket sequence 101 flags with payloadLen := first.length }
  first := first
  rest := rest
  counted := rfl
  bounded := h

/-- The second byte of the stream overtakes the first. -/
def reordered : TcpEndpoint Unit :=
  (sampleEndpoint.receive
    (.segment .established (chained 502 .ACK [2] [] (by decide)) 1 (fun _ => 4096) 0)).receive
    (.segment .established (chained 501 .ACK [1] [] (by decide)) 0 (fun _ => 4096) 0)

theorem sampleEndpoint_opened (stream : List UInt8) : Opened 500 stream sampleEndpoint :=
  .passive rfl rfl (by decide) rfl rfl (by decide)

theorem reordered_reached : Reached 500 [1, 2] reordered :=
  .step (.step (.opened (sampleEndpoint_opened _)) _ (by decide +kernel) (by decide +kernel)) _
    (by decide +kernel) (by decide +kernel)

theorem delivery_in_order_reordered : Reached 500 [1, 2] reordered ∧ reordered.rx.tail = 2 ∧
    reordered.rx.received = [1, 2].take reordered.rx.tail :=
  ⟨reordered_reached, by decide +kernel, (delivery_in_order reordered_reached).1⟩

/-- The last segment of a stream of two bytes, with each byte in a buffer of its own. The FIN is
consumed with the second byte missing. -/
theorem split_fin_loses_byte :
    let i : Input :=
      .segment .established (chained 501 .FIN_ACK [1] [[2]] (by decide)) 0 (fun _ => 4096) 0
    Opened 500 [1, 2] sampleEndpoint ∧ i.Cut 500 [1, 2] sampleEndpoint ∧
      (sampleEndpoint.receive i).connection.finReceived = true ∧
      (sampleEndpoint.receive i).connection.rcvNxt = advance 500 (1 + 1 + 1) ∧
      (sampleEndpoint.receive i).rx.received = [1] := by
  exact ⟨sampleEndpoint_opened _, by decide +kernel⟩

end TcpEndpoint

end Tcp
