import Hammer.TcpInput

/-! # Segments outside the receive window

Neither `tcp-established` nor `tcp-rcv-process` compares a segment with the receive window. What
a segment outside the window must not carry if it is to leave the connection alone.
-/

namespace Tcp

open TcpSeq Recovery

namespace View

open TcpEndpoint

variable {v : View} {a : Arrival} {backed : ℕ → ℕ}

def NewBytes (rcvNxt : TcpSeq) (a : Arrival) : Prop :=
  a.first ≠ [] ∧ le (advance a.packet.sequence a.first.length) rcvNxt = false

/-- A write at this distance from the tail would not change the FIFO. -/
def Refuses (rx : StreamFifo UInt8) (backed offset : ℕ) (bytes : List UInt8) : Prop :=
  offset + bytes.length ≤ rx.maxEnqueue → offset + bytes.length ≤ backed →
    ∀ j < bytes.length, rx.cell (rx.tail + offset + j) = bytes[j]?

theorem placed_eq_iff (rx : StreamFifo UInt8) (backed : ℕ) (bytes : List UInt8) {offset : ℕ}
    (h0 : offset ≠ 0) : placed backed rx offset bytes = rx ↔ Refuses rx backed offset bytes := by
  unfold placed StreamFifo.enqueueOoo
  rw [dif_neg h0]
  by_cases h1 : offset + bytes.length ≤ rx.maxEnqueue
  · rw [dif_pos h1]
    by_cases h2 : offset + bytes.length ≤ backed
    · rw [if_pos h2]
      constructor
      · intro heq _ _ j hj
        have hcell := congrFun (congrArg StreamFifo.cell heq) (rx.tail + offset + j)
        rw [← hcell]
        have hin : StreamFifo.fill rx.cell (rx.tail + offset) bytes (rx.tail + offset + j) =
            bytes[rx.tail + offset + j - (rx.tail + offset)]? :=
          StreamFifo.fill_inside (by omega) (by omega)
        rw [Nat.add_sub_cancel_left] at hin
        exact hin
      · intro hsame
        apply StreamFifo.ext
        · rfl
        · rfl
        · rfl
        · funext i
          by_cases hi : rx.tail + offset ≤ i ∧ i < rx.tail + offset + bytes.length
          · have := hsame h1 h2 (i - (rx.tail + offset)) (by omega)
            rw [Nat.add_sub_cancel' hi.1] at this
            rw [this]
            exact StreamFifo.fill_inside hi.1 hi.2
          · exact StreamFifo.fill_outside (by omega)
    · rw [if_neg h2]
      exact iff_of_true rfl fun _ h => absurd h h2
  · rw [dif_neg h1]
    exact iff_of_true rfl fun h => absurd h h1

theorem trim_lt {s r : TcpSeq} {n : ℕ} (hn : n < 4294967296) (hlt : lt s r = true)
    (hle : le (advance s n) r = false) : distanceTo s r < n := by
  have h1 := lt_iff.mp hlt
  have h2 : ¬ le (advance s n) r = true := by rw [hle]; decide
  rw [le_iff] at h2
  unfold distanceTo advance at *
  bv_omega

theorem accept_of_newBytes (h : NewBytes v.core.rcvNxt a) :
    lt a.packet.sequence v.core.rcvNxt = true ∧
        distanceTo a.packet.sequence v.core.rcvNxt < a.first.length ∧
        v.accept a = some (distanceTo a.packet.sequence v.core.rcvNxt, 0) ∨
      lt a.packet.sequence v.core.rcvNxt = false ∧
        v.accept a = some (0, distanceTo v.core.rcvNxt a.packet.sequence) := by
  have hb := a.bounded
  unfold accept TcpConnection.acceptAt
  rw [a.counted, if_neg (fun hn => h.1 (List.length_eq_zero_iff.mp hn)),
    if_neg (by rw [h.2]; decide)]
  split
  · next hlt =>
    exact Or.inl ⟨hlt, trim_lt (by omega) hlt h.2, rfl⟩
  · next hlt =>
    exact Or.inr ⟨by simpa using hlt, rfl⟩

theorem accept_of_not_newBytes (h : ¬ NewBytes v.core.rcvNxt a) : v.accept a = none := by
  unfold accept TcpConnection.acceptAt
  rw [a.counted]
  split
  · rfl
  · next hne =>
    split
    · rfl
    · next hle =>
      exact absurd ⟨fun hnil => hne (by rw [hnil]; rfl), by simpa using hle⟩ h

theorem deliver_inOrder_cases {trim : ℕ} (h : trim < a.first.length) :
    (v.rx.maxEnqueue = 0 ∨ backed 0 = 0) ∧ v.deliver a backed trim 0 = v ∨
      ¬(v.rx.maxEnqueue = 0 ∨ backed 0 = 0) ∧ (v.deliver a backed trim 0).rx ≠ v.rx := by
  have hne : a.first.drop trim ≠ [] := by
    rw [ne_eq, List.drop_eq_nil_iff]
    omega
  rw [deliver_inOrder _ _ _ h, ← StreamFifo.enqueueInOrder_room hne]
  obtain ⟨g, accepted, delivered, hg, hspec⟩ :=
    v.rx.enqueueInOrder_spec (backed 0) (a.first.drop trim)
  by_cases hacc : accepted = 0
  · have hnone := StreamFifo.enqueueInOrder_none
      (show (v.rx.enqueueInOrder (backed 0) (a.first.drop trim)).2.1 = 0 by rw [hg]; exact hacc)
    rw [hnone]
    refine Or.inl ⟨rfl, ?_⟩
    dsimp only
    rw [show satAdd U32_MAX 0 0 = 0 from rfl, advance_zero]
  · rw [hg]
    refine Or.inr ⟨hacc, fun hrx => ?_⟩
    have htail := hspec.tail
    rw [show g = v.rx from hrx, if_pos rfl] at htail
    dsimp only at htail
    omega

/-- What keeps the payload of a packet out of the RX FIFO. -/
structure Barred (v : View) (a : Arrival) (backed : ℕ) : Prop where
  ahead : NewBytes v.core.rcvNxt a → lt a.packet.sequence v.core.rcvNxt = false →
    a.packet.sequence ≠ v.core.rcvNxt →
      Refuses v.rx backed (distanceTo v.core.rcvNxt a.packet.sequence) a.first
  inOrder : NewBytes v.core.rcvNxt a →
    lt a.packet.sequence v.core.rcvNxt = true ∨ a.packet.sequence = v.core.rcvNxt →
      v.rx.maxEnqueue = 0 ∨ backed = 0

theorem payload_cases (v : View) (a : Arrival) (backed : ℕ → ℕ) :
    Barred v a (backed 0) ∧ v.payload a backed = v ∨
    ¬ Barred v a (backed 0) ∧ (v.payload a backed).rx ≠ v.rx := by
  unfold payload
  by_cases hnew : NewBytes v.core.rcvNxt a
  · rcases accept_of_newBytes hnew with ⟨hlt, htrim, haccept⟩ | ⟨hlt, haccept⟩
    · rw [haccept]
      rcases deliver_inOrder_cases htrim with ⟨hroom, heq⟩ | ⟨hroom, hne⟩
      · exact Or.inl ⟨⟨fun _ hge => absurd hlt (by rw [hge]; decide), fun _ _ => hroom⟩, heq⟩
      · exact Or.inr ⟨fun h => hroom (h.inOrder hnew (Or.inl hlt)), hne⟩
    · rw [haccept]
      have hlen := List.length_pos_iff.mpr hnew.1
      by_cases hseq : a.packet.sequence = v.core.rcvNxt
      · rw [show distanceTo v.core.rcvNxt a.packet.sequence = 0 by rw [hseq, distanceTo_self]]
        rcases deliver_inOrder_cases hlen with ⟨hroom, heq⟩ | ⟨hroom, hne⟩
        · exact Or.inl ⟨⟨fun _ _ hne => absurd hseq hne, fun _ _ => hroom⟩, heq⟩
        · exact Or.inr ⟨fun h => hroom (h.inOrder hnew (Or.inr hseq)), hne⟩
      · have h0 : distanceTo v.core.rcvNxt a.packet.sequence ≠ 0 :=
          fun h => hseq (distanceTo_eq_zero.mp h).symm
        have hplaced := placed_eq_iff v.rx (backed 0) a.first h0
        dsimp only
        rw [deliver_outOfOrder _ _ _ hlen h0, List.drop_zero]
        by_cases hsame : placed (backed 0) v.rx (distanceTo v.core.rcvNxt a.packet.sequence)
            a.first = v.rx
        · refine Or.inl ⟨⟨fun _ _ _ => hplaced.mp hsame, fun _ hold => ?_⟩, by rw [hsame]⟩
          rcases hold with hold | hold
          · exact absurd hold (by rw [hlt]; decide)
          · exact absurd hold hseq
        · exact Or.inr ⟨fun h => hsame (hplaced.mpr (h.ahead hnew hlt hseq)), hsame⟩
  · rw [accept_of_not_newBytes hnew]
    exact Or.inl ⟨⟨fun h => absurd h hnew, fun h => absurd h hnew⟩, rfl⟩

theorem fin_of_elsewhere (h : a.packet.flags.fin = true →
    advance a.packet.sequence a.first.length ≠ v.core.rcvNxt) : v.fin a = v := by
  have hkeep : v.core.takeFin a.packet = v.core := by
    unfold Core.takeFin
    rw [a.counted, if_neg fun hfin => h hfin.1 hfin.2]
  unfold fin
  rw [hkeep]

theorem rcvNxt_fin_ne (ht : takesPayload v.core.state = true) (hfin : a.packet.flags.fin = true)
    (hseq : advance a.packet.sequence a.first.length = v.core.rcvNxt) :
    (v.fin a).core.rcvNxt ≠ v.core.rcvNxt := by
  obtain ⟨next, hnext⟩ := Option.isSome_iff_exists.mp ((finNext_isSome v.core).trans ht)
  unfold fin Core.takeFin
  rw [a.counted, if_pos ⟨hfin, hseq⟩, hnext]
  change advance v.core.rcvNxt 1 ≠ v.core.rcvNxt
  unfold advance
  bv_omega

/-- An acknowledgment that leaves the view alone. -/
def QuietAck (v : View) (acknowledgment : Option TcpSeq) (sndWnd : ℕ) : Prop :=
  ∀ n, acknowledgment = some n → v.core.acceptsAck n = true →
    n = v.core.sndUna ∧ sndWnd = v.sndWnd ∧ (n = v.core.sndNxt →
      ¬(v.core.state = .closing ∨
        (v.core.state = .finWait1 ∨ v.core.state = .lastAck) ∧ v.core.finSent = true))

/-- Once its FIN is acknowledged, a connection does not come back to the state it was in. -/
theorem closeNext_left {k : Core} {state : TcpState} (h : v.core.state = .closing ∨
    (v.core.state = .finWait1 ∨ v.core.state = .lastAck) ∧ v.core.finSent = true)
    (hk : k.state = v.closeNext) (hstate : state = k.state ∨ k.finNext = some state) :
    state = .timeWait ∨ state = .closed ∨ state = .finWait2 := by
  have hnext : k.state = .timeWait ∨ k.state = .closed ∨ k.state = .finWait2 := by
    rw [hk]
    unfold closeNext TcpConnection.closeNext
    rcases h with h | ⟨h | h, hsent⟩
    · rw [h]
      exact Or.inl rfl
    · rw [h]
      dsimp only
      rw [if_pos hsent]
      split
      · exact Or.inr (Or.inl rfl)
      · exact Or.inr (Or.inr rfl)
    · rw [h]
      dsimp only
      rw [if_pos hsent]
      exact Or.inr (Or.inl rfl)
  rcases hstate with rfl | hfin
  · exact hnext
  · unfold Core.finNext at hfin
    rcases hnext with hn | hn | hn <;> rw [hn] at hfin
    · cases hfin
    · cases hfin
    · cases hfin
      exact Or.inl rfl

variable {acknowledgment : Option TcpSeq}

theorem ack_of_quietAck {sndWnd : ℕ}
    (h : QuietAck v acknowledgment sndWnd) : v.ack acknowledgment sndWnd = v := by
  unfold ack
  cases acknowledgment with
  | none => rfl
  | some n =>
    rw [Option.any_some]
    dsimp only [Core.ack, Core.applyAck]
    by_cases hn : v.core.acceptsAck n = true
    · obtain ⟨huna, hwnd, -⟩ := h n rfl hn
      rw [if_pos hn, if_pos hn, huna, hwnd]
    · rw [if_neg hn, if_neg hn]

theorem closeSide_of_quietAck {sndWnd : ℕ}
    (h : QuietAck v acknowledgment sndWnd) : v.closeSide acknowledgment sndWnd = v := by
  unfold closeSide
  rw [ack_of_quietAck h]
  split
  · next hcovers =>
    cases acknowledgment with
    | none => cases hcovers
    | some n =>
      simp only [coversAll, Option.any_some, Bool.and_eq_true, beq_iff_eq] at hcovers
      obtain ⟨-, -, hstate⟩ := h n rfl hcovers.1
      rw [closeNext_eq (hstate hcovers.2)]
  · rfl

end View

namespace TcpEndpoint

variable {C : Type}

/-- The sequence numbers of a segment, the first of them even if it is empty. -/
def Arrival.Occupies (a : Arrival) (x : TcpSeq) : Prop :=
  x = a.packet.sequence ∨
    distanceTo a.packet.sequence x < a.packet.flags.syn.toNat + a.length + a.packet.flags.fin.toNat

/-- No sequence number of the segment is one of the `rcvWnd` numbers from `rcvNxt` on. -/
def OutsideWindow (e : TcpEndpoint C) (a : Arrival) : Prop :=
  ∀ x, a.Occupies x → e.connection.rcvWnd ≤ distanceTo e.connection.rcvNxt x

structure Unmoved (e e' : TcpEndpoint C) : Prop where
  state : e'.connection.state = e.connection.state
  rcvNxt : e'.connection.rcvNxt = e.connection.rcvNxt
  sndUna : e'.connection.sndUna = e.connection.sndUna
  sndWnd : e'.connection.sndWnd = e.connection.sndWnd
  rx : e'.rx = e.rx
  tx : e'.tx = e.tx

/-- What a segment outside the window must not carry. -/
structure Harmless (e : TcpEndpoint C) (a : Arrival) (backed : ℕ) (now : Instant) : Prop where
  reset : a.packet.flags.rst = false
  ack : e.timely a now = true → e.view.QuietAck a.packet.acknowledgment (e.windowOf a)
  /-- Payload ahead of the window does not fit the RX FIFO, or is there already. -/
  ahead : takesPayload e.connection.state = true → View.NewBytes e.connection.rcvNxt a →
    lt a.packet.sequence e.connection.rcvNxt = false → a.packet.sequence ≠ e.connection.rcvNxt →
      View.Refuses e.rx backed (distanceTo e.connection.rcvNxt a.packet.sequence) a.first
  /-- With a closed window nothing is outside it, and the RX FIFO has to refuse the payload. -/
  inOrder : e.connection.rcvWnd = 0 → takesPayload e.connection.state = true →
    View.NewBytes e.connection.rcvNxt a →
      lt a.packet.sequence e.connection.rcvNxt = true ∨
        a.packet.sequence = e.connection.rcvNxt → e.rx.maxEnqueue = 0 ∨ backed = 0
  fin : e.connection.rcvWnd = 0 → takesPayload e.connection.state = true →
    a.packet.flags.fin = true → advance a.packet.sequence a.first.length ≠ e.connection.rcvNxt

/-- The states in which segments are exchanged with a peer. -/
def exchanges : TcpState → Bool
  | .established | .finWait1 | .finWait2 | .closeWait | .closing | .lastAck => true
  | _ => false

section

variable {e : TcpEndpoint C} {a : Arrival} {backed : ℕ → ℕ} {now : Instant} {node : InputNode}

theorem OutsideWindow.start (h : e.OutsideWindow a) (hw : e.connection.rcvWnd ≠ 0) :
    ¬ a.Occupies e.connection.rcvNxt := by
  intro hx
  have := h _ hx
  rw [distanceTo_self] at this
  omega

theorem Arrival.occupies_of_inOrder (hnew : View.NewBytes e.connection.rcvNxt a)
    (h : lt a.packet.sequence e.connection.rcvNxt = true ∨
      a.packet.sequence = e.connection.rcvNxt) : a.Occupies e.connection.rcvNxt := by
  have hb := a.bounded
  rcases h with h | h
  · have := View.trim_lt (by omega) h hnew.2
    exact Or.inr (by unfold Arrival.length; omega)
  · exact Or.inl h.symm

theorem Arrival.occupies_fin (hfin : a.packet.flags.fin = true)
    (h : advance a.packet.sequence a.first.length = e.connection.rcvNxt) :
    a.Occupies e.connection.rcvNxt := by
  have hb := a.bounded
  refine Or.inr ?_
  rw [← h, distanceTo_advance (by omega), hfin, Bool.toNat_true]
  unfold Arrival.length
  omega

theorem Harmless.barred (h : e.Harmless a (backed 0) now) (hout : e.OutsideWindow a)
    (ht : takesPayload e.connection.state = true) : e.view.Barred a (backed 0) where
  ahead := h.ahead ht
  inOrder := by
    intro hnew hold
    by_cases hw : e.connection.rcvWnd = 0
    · exact h.inOrder hw ht hnew hold
    · exact absurd (Arrival.occupies_of_inOrder hnew hold) (hout.start hw)

theorem Harmless.noFin (h : e.Harmless a (backed 0) now) (hout : e.OutsideWindow a) :
    e.view.fin a = e.view := by
  cases ht : takesPayload e.view.core.state with
  | false => exact View.fin_of_not_takesPayload ht
  | true =>
    refine View.fin_of_elsewhere fun hfin hseq => ?_
    by_cases hw : e.connection.rcvWnd = 0
    · exact h.fin hw ht hfin hseq
    · exact hout.start hw (Arrival.occupies_fin hfin hseq)

variable {e' : TcpEndpoint C}

theorem Unmoved.of_view (h : e'.view = e.view) : e.Unmoved e' where
  state := congrArg (fun v => v.core.state) h
  rcvNxt := congrArg (fun v => v.core.rcvNxt) h
  sndUna := congrArg (fun v => v.core.sndUna) h
  sndWnd := congrArg View.sndWnd h
  rx := congrArg View.rx h
  tx := congrArg View.tx h

theorem Harmless.view_eq (h : e.Harmless a (backed 0) now) (hout : e.OutsideWindow a)
    (hp : Processed e a backed (e.ackView a now) (takesPayload (e.ackView a now).core.state) e') :
    e'.view = e.view := by
  have hack : e.ackView a now = e.view := by
    unfold ackView
    split
    · next ht => exact View.closeSide_of_quietAck (h.ack ht)
    · rfl
  rw [hack] at hp
  obtain ⟨d, hview, hd⟩ := hp
  rw [hview, hd rfl]
  split
  · next ht =>
    rcases View.payload_cases e.view a backed with ⟨-, heq⟩ | ⟨hb, -⟩
    · rw [heq, h.noFin hout]
    · exact absurd (h.barred hout ht) hb
  · exact h.noFin hout

theorem ackView_deqPending : (e.ackView a now).deqPending = e.view.deqPending := by
  unfold ackView
  split
  · unfold View.closeSide
    split <;> rfl
  · rfl

theorem sndUna_handlePostponedDequeues (e : TcpEndpoint C) :
    e.handlePostponedDequeues.1.connection.sndUna = e.connection.sndUna := by
  obtain ⟨k, deqPending, tx, hview, hk⟩ := e.view_handlePostponedDequeues
  have huna := congrArg (fun v => v.core.sndUna) hview
  rcases hk with rfl | ⟨-, rfl⟩ <;> exact huna

theorem Unmoved.quietAck {takes d : Bool} (hu : e.Unmoved e') (ht : e.timely a now = true)
    (hview : e'.view = (if takes then View.payload { e.ackView a now with deqPending := d } a backed
      else { e.ackView a now with deqPending := d }).fin a) :
    e.view.QuietAck a.packet.acknowledgment (e.windowOf a) := by
  intro n hn hacc
  obtain ⟨rx, state, rcvNxt, finReceived, heq, hstate⟩ :=
    View.processed_eq { e.ackView a now with deqPending := d } a backed takes
  rw [heq] at hview
  have hack : e.ackView a now = e.view.closeSide (some n) (e.windowOf a) := by
    unfold ackView
    rw [if_pos ht, hn]
  have hview' : (e.view.closeSide (some n) (e.windowOf a)).core.sndUna = n ∧
      (e.view.closeSide (some n) (e.windowOf a)).sndWnd = e.windowOf a := by
    unfold View.closeSide View.ack Core.ack Core.applyAck
    rw [Option.any_some]
    dsimp only
    split <;> exact ⟨rfl, rfl⟩
  rw [hack] at hview hstate
  have huna : e'.connection.sndUna = n := (congrArg (fun v => v.core.sndUna) hview).trans hview'.1
  have hwnd : e'.connection.sndWnd = e.windowOf a := (congrArg View.sndWnd hview).trans hview'.2
  refine ⟨huna.symm.trans hu.sndUna, hwnd.symm.trans hu.sndWnd, fun hnxt hclosing => ?_⟩
  have hcovers : e.view.coversAll (some n) = true := by
    unfold View.coversAll
    rw [Option.any_some, hacc, hnxt]
    exact beq_self_eq_true _
  have hnext : (e.view.closeSide (some n) (e.windowOf a)).core.state = e.view.closeNext := by
    unfold View.closeSide
    rw [if_pos hcovers]
  have hleft := View.closeNext_left hclosing hnext hstate
  have hsame : state = e.view.core.state :=
    (congrArg (fun v => v.core.state) hview).symm.trans hu.state
  rw [hsame] at hleft
  rcases hclosing with h | ⟨h | h, -⟩ <;> rw [h] at hleft <;> simp at hleft

theorem Harmless.of_unmoved (hu : e.Unmoved e') (hr : a.packet.flags.rst = false)
    (hview : e'.view = (if takesPayload (e.ackView a now).core.state then
      View.payload (e.ackView a now) a backed else e.ackView a now).fin a) :
    e.Harmless a (backed 0) now := by
  have hquiet (ht : e.timely a now = true) :
      e.view.QuietAck a.packet.acknowledgment (e.windowOf a) := hu.quietAck ht hview
  have hack : e.ackView a now = e.view := by
    unfold ackView
    split
    · next ht => exact View.closeSide_of_quietAck (hquiet ht)
    · rfl
  rw [hack] at hview
  have hbarred (ht : takesPayload e.connection.state = true) :
      e.view.Barred a (backed 0) ∧ e.view.payload a backed = e.view := by
    rcases View.payload_cases e.view a backed with hb | ⟨-, hne⟩
    · exact hb
    · rw [if_pos (show takesPayload e.view.core.state = true from ht)] at hview
      exact absurd ((congrArg View.rx hview).symm.trans hu.rx) hne
  refine ⟨hr, hquiet, fun ht => (hbarred ht).1.ahead, fun _ ht => (hbarred ht).1.inOrder,
    fun _ ht hfin hseq => ?_⟩
  rw [if_pos (show takesPayload e.view.core.state = true from ht), (hbarred ht).2] at hview
  exact View.rcvNxt_fin_ne ht hfin hseq
    ((congrArg (fun v => v.core.rcvNxt) hview).symm.trans hu.rcvNxt)

section

variable [CongestionSender C]

/-- A segment outside the receive window leaves the connection alone exactly if it is harmless, or
comes to `tcp-established` in another state. The postponed dequeues run at the end of every frame,
so that none waits when the segment arrives. -/
theorem outside_window_unmoved_iff (node : InputNode) (e : TcpEndpoint C) (a : Arrival)
    (backed : ℕ → ℕ) (now : Instant) (hs : exchanges e.connection.state = true)
    (hd : e.connection.deqPending = false) (hout : e.OutsideWindow a) :
    e.Unmoved (node.frame e a backed now) ↔
      (node = .established ∧ e.connection.state ≠ .established) ∨
        e.Harmless a (backed 0) now := by
  rcases node.frame_cases e a backed now (by intro h; rw [h] at hs; cases hs) with
    ⟨hn, hframe⟩ | ⟨hn, e', control, -, hframe, hrst, hproc⟩
  · refine iff_of_true ?_ (Or.inl hn)
    rw [hframe, handlePostponedDequeues_idle hd]
    exact Unmoved.of_view rfl
  · rw [hframe]
    cases hr : a.packet.flags.rst with
    | true =>
      have hclosed := hrst hr
      rw [handlePostponedDequeues_idle ((congrArg View.deqPending hclosed).trans hd)]
      refine iff_of_false (fun hu => ?_) (fun h => ?_)
      · have hstate : e.connection.state = .closed :=
          hu.state.symm.trans (congrArg (fun v => v.core.state) hclosed)
        rw [hstate] at hs
        cases hs
      · rcases h with h | h
        · exact hn h
        · exact absurd h.reset (by rw [hr]; decide)
    | false =>
      constructor
      · intro hu
        obtain ⟨d, hview, hdeq⟩ := hproc hr
        obtain ⟨rx, state, rcvNxt, finReceived, heq, -⟩ := View.processed_eq
          { e.ackView a now with deqPending := d } a backed
            (takesPayload (e.ackView a now).core.state)
        have hrest := hview.trans heq
        have huna : (e.ackView a now).core.sndUna = e.view.core.sndUna :=
          (congrArg (fun v => v.core.sndUna) hrest).symm.trans
            (e'.sndUna_handlePostponedDequeues.symm.trans hu.sndUna)
        have hidle : e'.connection.deqPending = false :=
          (congrArg View.deqPending hrest).trans ((hdeq huna).trans (ackView_deqPending.trans hd))
        rw [handlePostponedDequeues_idle hidle] at hu
        rw [hdeq huna] at hview
        exact Or.inr (Harmless.of_unmoved hu hr hview)
      · intro h
        rcases h with h | h
        · exact absurd h hn
        · have hview := h.view_eq hout (hproc hr)
          rw [handlePostponedDequeues_idle ((congrArg View.deqPending hview).trans hd)]
          exact Unmoved.of_view hview

end

end

/-- A reset segment without payload. -/
def resetAt (sequence : TcpSeq) : Arrival where
  packet := Machine.samplePacket sequence 0 .RST
  first := []
  rest := []
  counted := rfl
  bounded := by decide

theorem resetAt_outside : sampleEndpoint.OutsideWindow (resetAt 2000000000) := by
  intro x hx
  rcases hx with rfl | hx
  · decide
  · exact absurd hx (Nat.not_lt_zero _)

theorem outside_window_unmoved_iff_reset :
    sampleEndpoint.Unmoved
        (InputNode.established.frame sampleEndpoint (resetAt 2000000000) (fun _ => 4096) 0) ↔
      (InputNode.established = .established ∧ sampleEndpoint.connection.state ≠ .established) ∨
        sampleEndpoint.Harmless (resetAt 2000000000) 4096 0 :=
  outside_window_unmoved_iff .established sampleEndpoint (resetAt 2000000000) (fun _ => 4096) 0
    rfl rfl resetAt_outside

/-- A reset two billion numbers ahead of the window closes the connection. -/
theorem reset_outside_window_closes :
    exchanges sampleEndpoint.connection.state = true ∧
      sampleEndpoint.OutsideWindow (resetAt 2000000000) ∧
      (InputNode.established.frame sampleEndpoint (resetAt 2000000000) (fun _ => 4096)
        0).connection.state = .closed ∧
      ¬ sampleEndpoint.Unmoved
        (InputNode.established.frame sampleEndpoint (resetAt 2000000000) (fun _ => 4096) 0) := by
  have hclosed : (InputNode.established.frame sampleEndpoint (resetAt 2000000000) (fun _ => 4096)
      0).connection.state = .closed := by
    decide +kernel
  refine ⟨rfl, resetAt_outside, hclosed, fun h => ?_⟩
  have hstate := h.state
  cases hstate

end TcpEndpoint

end Tcp
