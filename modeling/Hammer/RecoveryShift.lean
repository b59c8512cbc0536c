import Hammer.RecoveryRuns

/-! # Translated flights

Adding one constant to every sequence number commutes with all operations on the flight: they
compare sequence numbers and measure distances, and nothing else.
-/
namespace Recovery

open TcpSeq OrderedMap TcpSentSample

def TcpSentSample.shift (c : TcpSeq) (x : TcpSentSample) : TcpSentSample :=
  { x with sequence := x.sequence + c, endSequence := x.endSequence + c }

def Flight.shift (c : TcpSeq) (f : Flight) : Flight :=
  { f with
    sentSamples := f.sentSamples.map (TcpSentSample.shift c)
    sampleLookup := f.sampleLookup.map (Prod.map (· + c) id) }

section Samples

variable (c : TcpSeq) (x : TcpSentSample) (a b : TcpSeq)

theorem shift_sequence : (x.shift c).sequence = x.sequence + c := rfl

theorem shift_endSequence : (x.shift c).endSequence = x.endSequence + c := rfl

theorem shift_rackDeadline : (x.shift c).rackDeadline = x.rackDeadline := rfl

theorem shift_sampleHead (f : Flight) : (f.shift c).sampleHead = f.sampleHead := rfl

theorem covers_shift_sample : (x.shift c).covers (a + c) = x.covers a := by
  unfold covers shift
  simp only [le_shift, gt_shift]

theorem overlaps_shift : (x.shift c).overlaps (a + c) (b + c) = x.overlaps a b := by
  unfold overlaps shift
  simp only [lt_shift, gt_shift]

theorem split_shift : (x.shift c).split (a + c) =
    (x.split a).map fun p => (p.1.shift c, p.2.shift c) := by
  unfold split shift
  simp only [le_shift, ge_shift, distanceTo_shift]
  split <;> rfl

end Samples

namespace Flight

variable (c : TcpSeq) (f : Flight)

theorem sentSample_shift (i : ℕ) :
    (f.shift c).sentSample i = (f.sentSample i).map (TcpSentSample.shift c) :=
  Pool.get_map ..

theorem updateSample_shift {g g' : TcpSentSample → TcpSentSample}
    (h : ∀ x, g' (x.shift c) = (g x).shift c) (i : ℕ) :
    (f.shift c).updateSample i g' = (f.updateSample i g).shift c := by
  unfold updateSample shift
  rw [Pool.modify_map h]

theorem chain_shift (pool : Pool TcpSentSample) : ∀ (n : ℕ) (cursor : Option ℕ),
    chain (pool.map (TcpSentSample.shift c)) n cursor = chain pool n cursor := by
  intro n
  induction n with
  | zero => intro cursor; rfl
  | succ n ih =>
    intro cursor
    cases cursor with
    | none => rfl
    | some i =>
      simp only [chain, Pool.get_map]
      cases pool.get i with
      | none => rfl
      | some x => simp [ih, TcpSentSample.shift]

theorem chainFrom_shift (cursor : Option ℕ) : (f.shift c).chainFrom cursor = f.chainFrom cursor := by
  unfold chainFrom shift
  simp only [chain_shift]
  simp [Pool.map]

theorem samples_shift : (f.shift c).samples = f.samples.map (TcpSentSample.shift c) := by
  unfold samples
  rw [chainFrom_shift, List.map_filterMap]
  apply List.filterMap_congr
  intro i _
  exact sentSample_shift c f i

theorem rackRescanEarliest_shift :
    (f.shift c).rackRescanEarliest = f.rackRescanEarliest.shift c := by
  unfold rackRescanEarliest
  rw [samples_shift, List.foldl_map]
  rfl

theorem rackInvalidateCleared_shift (cleared : Option Instant) :
    (f.shift c).rackInvalidateCleared cleared = (f.rackInvalidateCleared cleared).shift c := by
  unfold rackInvalidateCleared
  rw [rackRescanEarliest_shift, show (f.shift c).rackDeadline = f.rackDeadline from rfl]
  split <;> rfl

theorem lookup_shift (a : TcpSeq) : get cmp (a + c) (f.shift c).sampleLookup =
      get cmp a f.sampleLookup := by
  unfold shift
  rw [get_map (φ := (· + c)) (fun x y => cmp_shift c x y)]
  simp

theorem nextSample_shift (a : TcpSeq) : (f.shift c).nextSample (a + c) = f.nextSample a := by
  unfold nextSample shift
  rw [successor_map (φ := (· + c)) (fun x y => cmp_shift c x y), Option.map_map]
  rfl

theorem sampleAtOrAfter_shift (a : TcpSeq) (covering : Bool) :
    (f.shift c).sampleAtOrAfter (a + c) covering = f.sampleAtOrAfter a covering := by
  have hnext := nextSample_shift c f a
  unfold nextSample at hnext
  unfold sampleAtOrAfter
  rw [lookup_shift]
  simp only [hnext]
  have hpred : predecessor cmp (a + c) (f.shift c).sampleLookup =
      (predecessor cmp a f.sampleLookup).map (Prod.map (· + c) id) :=
    predecessor_map (φ := (· + c)) (fun x y => cmp_shift c x y) _ _
  have hcov : ∀ i, ((f.shift c).sentSample i).any (·.covers (a + c)) =
      (f.sentSample i).any (·.covers a) := by
    intro i
    rw [sentSample_shift, Option.any_map]
    congr 1
    funext x
    exact covers_shift_sample c x a
  rw [hpred]
  cases predecessor cmp a f.sampleLookup with
  | none => simp
  | some e =>
    obtain ⟨k, j⟩ := e
    simp [hcov]

theorem setNext_shift (node value : Option ℕ) :
    (f.shift c).setNext node value = (f.setNext node value).shift c := by
  cases node with
  | none => rfl
  | some i =>
    exact updateSample_shift c f (g := fun x => { x with next := value }) (fun _ => rfl) i

theorem setPrev_shift (node value : Option ℕ) :
    (f.shift c).setPrev node value = (f.setPrev node value).shift c := by
  cases node with
  | none => rfl
  | some i =>
    exact updateSample_shift c f (g := fun x => { x with prev := value }) (fun _ => rfl) i

theorem missing_shift (node : Option ℕ) : (f.shift c).missing node = f.missing node := by
  cases node with
  | none => rfl
  | some i => simp [missing, sentSample_shift]

theorem eraseLookup_shift (a : TcpSeq) : { f.shift c with
      sampleLookup := erase TcpSeq.cmp (a + c) (f.shift c).sampleLookup } =
    ({ f with sampleLookup := erase TcpSeq.cmp a f.sampleLookup } : Flight).shift c := by
  unfold shift
  rw [erase_map (φ := (· + c)) (fun x y => cmp_shift c x y)]

theorem takeSent_shift (i : ℕ) : (f.shift c).takeSent i =
    (f.takeSent i).map fun r => (r.1.shift c, r.2.shift c) := by
  unfold takeSent
  rw [sentSample_shift]
  cases f.sentSample i with
  | none => rfl
  | some x =>
    have hfields : (x.shift c).sequence = x.sequence + c ∧ (x.shift c).prev = x.prev ∧
      (x.shift c).next = x.next ∧ (x.shift c).rackDeadline = x.rackDeadline :=
      ⟨rfl, rfl, rfl, rfl⟩
    simp only [Option.map_some, hfields.1, hfields.2.1, hfields.2.2.1, hfields.2.2.2, lookup_shift,
      missing_shift, eraseLookup_shift, setNext_shift, setPrev_shift]
    split
    · rfl
    · split
      · rfl
      · set f' := ({ f with
          sampleLookup := erase TcpSeq.cmp x.sequence f.sampleLookup }.setNext
            x.prev x.next).setPrev x.next x.prev with hf'
        have hrem : (f'.shift c).sentSamples.remove i =
            (f'.sentSamples.remove i).map fun r => (r.1.map (TcpSentSample.shift c), r.2.shift c) :=
          Pool.remove_map ..
        rw [hrem]
        cases f'.sentSamples.remove i with
        | none => rfl
        | some r =>
          simp only [Option.map_some]
          congr 2
          exact rackInvalidateCleared_shift c { f' with
            sentSamples := r.1
            bytesInFlight := f'.bytesInFlight - r.2.bytes } x.rackDeadline

theorem trimTo_shift (i : ℕ) (x y : TcpSentSample) :
    (f.shift c).trimTo i (x.shift c) (y.shift c) = (f.trimTo i x y).shift c := by
  unfold trimTo
  simp only [shift_sequence, eraseLookup_shift]
  rw [updateSample_shift c _ (g := fun current => { current with
    sequence := y.sequence
    bytes := y.bytes
    payloadLen := y.payloadLen
    rackDeadline := x.rackDeadline }) fun _ => rfl]
  congr 1
  exact insert_map (φ := (· + c)) (ψ := id) (fun x y => cmp_shift c x y) _ _ _

theorem insertSampleBefore_shift (i : ℕ) (x : TcpSentSample) :
    (f.shift c).insertSampleBefore i (x.shift c) =
      ((f.insertSampleBefore i x).1.shift c, (f.insertSampleBefore i x).2) := by
  unfold insertSampleBefore
  rw [sentSample_shift]
  cases f.sentSample i with
  | none => rfl
  | some y =>
    have hkey : containsKey cmp (x.shift c).sequence (f.shift c).sampleLookup =
        containsKey cmp x.sequence f.sampleLookup :=
      containsKey_map (φ := (· + c)) (fun x y => cmp_shift c x y) _ _
    have hins : (f.shift c).sentSamples.insert
        { x.shift c with prev := (y.shift c).prev, next := some i } =
        ((f.sentSamples.insert { x with prev := y.prev, next := some i }).1.map
            (TcpSentSample.shift c),
          (f.sentSamples.insert { x with prev := y.prev, next := some i }).2) :=
      Pool.insert_map (TcpSentSample.shift c) f.sentSamples
        { x with prev := y.prev, next := some i }
    have hlook : ∀ j, insert cmp (x.shift c).sequence j (f.shift c).sampleLookup =
        (insert cmp x.sequence j f.sampleLookup).map (Prod.map (· + c) id) :=
      fun j => insert_map (φ := (· + c)) (ψ := id) (fun x y => cmp_shift c x y) _ j _
    have hf : ∀ (pool : Pool TcpSentSample) (lookup : List (TcpSeq × ℕ)), ({ f.shift c with
          sentSamples := pool.map (TcpSentSample.shift c)
          sampleLookup := lookup.map (Prod.map (· + c) id) } : Flight) =
        ({ f with sentSamples := pool, sampleLookup := lookup } : Flight).shift c :=
      fun _ _ => rfl
    simp only [Option.map_some, hkey, missing_shift, hins, hlook, hf, setNext_shift, setPrev_shift]
    rw [show (y.shift c).prev = y.prev from rfl]
    split
    · rfl
    · split <;> rfl

theorem splitSample_shift (i : ℕ) (a : TcpSeq) : (f.shift c).splitSample i (a + c) =
    ((f.splitSample i a).1.shift c, (f.splitSample i a).2) := by
  unfold splitSample
  rw [sentSample_shift]
  cases f.sentSample i with
  | none => rfl
  | some x =>
    simp only [Option.map_some, split_shift]
    cases x.split a with
    | none => rfl
    | some p =>
      obtain ⟨pre, suffix⟩ := p
      simp only [Option.map_some, shift_sequence, lookup_shift, shift_rackDeadline,
        show (x.shift c).txLost = x.txLost from rfl]
      split
      · rfl
      · rw [trimTo_shift, insertSampleBefore_shift]
        cases hi : (f.trimTo i x suffix).insertSampleBefore i pre with
        | mk f' j =>
          cases j with
          | none => rfl
          | some j =>
            cases x.rackDeadline with
            | none => rfl
            | some deadline =>
              simp only
              split
              · rfl
              · rw [updateSample_shift c f' (g := fun s =>
                  { s with rackDeadline := some deadline }) fun _ => rfl]
                rfl

theorem takeSamplePrefix_shift (i : ℕ) (a : TcpSeq) : (f.shift c).takeSamplePrefix i (a + c) =
    (f.takeSamplePrefix i a).map fun r => (r.1.shift c, r.2.shift c) := by
  unfold takeSamplePrefix
  rw [sentSample_shift]
  cases f.sentSample i with
  | none => rfl
  | some x =>
    simp only [Option.map_some, split_shift]
    cases x.split a with
    | none => rfl
    | some p =>
      obtain ⟨pre, suffix⟩ := p
      simp only [Option.map_some, shift_sequence, lookup_shift, shift_rackDeadline]
      split
      · rfl
      · rw [trimTo_shift]
        congr 2
        exact rackInvalidateCleared_shift c { f.trimTo i x suffix with
          bytesInFlight := (f.trimTo i x suffix).bytesInFlight - pre.bytes } x.rackDeadline

theorem lostBytes_shift : (f.shift c).lostBytes = f.lostBytes := by
  unfold lostBytes
  rw [samples_shift, List.foldl_map]
  rfl

theorem markLoop_shift (a b : TcpSeq) : ∀ (is : List ℕ) (f : Flight),
    markLoop (a + c) (b + c) is (f.shift c) = (markLoop a b is f).shift c := by
  intro is
  induction is with
  | nil => intro f; rfl
  | cons i is ih =>
    intro f
    unfold markLoop
    rw [sentSample_shift]
    cases f.sentSample i with
    | none => rfl
    | some x =>
      simp only [Option.map_some, shift_sequence, shift_endSequence, ge_shift, gt_shift, lt_shift]
      split
      · rfl
      · split
        · rw [updateSample_shift c f (g := markLost) fun _ => rfl, ih]
        · exact ih f

theorem markSamplesInRangeLost_shift (a b : TcpSeq) :
    (f.shift c).markSamplesInRangeLost (a + c) (b + c) =
      (f.markSamplesInRangeLost a b).shift c := by
  unfold markSamplesInRangeLost
  rw [le_shift, sampleAtOrAfter_shift, chainFrom_shift]
  split
  · rfl
  · exact markLoop_shift c a b _ f

theorem tlpLoop_shift (a b : TcpSeq) : ∀ (is : List ℕ) (f : Flight),
    tlpLoop (a + c) (b + c) is (f.shift c) = (tlpLoop a b is f).shift c := by
  intro is
  induction is with
  | nil => intro f; rfl
  | cons i is ih =>
    intro f
    unfold tlpLoop
    rw [sentSample_shift]
    cases f.sentSample i with
    | none => rfl
    | some x =>
      simp only [Option.map_some, overlaps_shift]
      split
      · rw [updateSample_shift c f (g := fun current =>
          { current with retransmitted := true, rackDeadline := none }) fun _ => rfl, ih]
      · exact ih f

end Flight

end Recovery
