import Hammer.BinaryApi
import Mathlib.Data.List.GetD
import Mathlib.Data.List.Induction
import Mathlib.Order.Lattice
import Mathlib.Tactic.Ring

/-! # What is encoded is decoded

The encoder writes the bytes of a pure function of type and value. The decoder inverts it unless an
array is the value of a field `client_index`: the encoder keeps the byte order of that field for the
elements, the decoder does not.
-/

namespace BinaryApi

open List Serializer

@[simp] theorem length_toBeBytes (bytes n : ℕ) : (toBeBytes bytes n).length = bytes := by
  induction bytes generalizing n with
  | zero => rfl
  | succ bytes ih => simp [toBeBytes, ih]

theorem fromBeBytes_concat (l : List UInt8) (b : UInt8) :
    fromBeBytes (l ++ [b]) = fromBeBytes l * 256 + b.toNat := by
  simp [fromBeBytes, foldl_append]

theorem fromBeBytes_toBeBytes {bytes n : ℕ} (h : n < 256 ^ bytes) :
    fromBeBytes (toBeBytes bytes n) = n := by
  induction bytes generalizing n with
  | zero => simp_all [toBeBytes, fromBeBytes]
  | succ bytes ih =>
    have hdiv : n / 256 < 256 ^ bytes := by
      rw [Nat.div_lt_iff_lt_mul (by decide)]
      rwa [pow_succ] at h
    rw [toBeBytes, fromBeBytes_concat, ih hdiv]
    simp
    omega

theorem toBeBytes_fromBeBytes (l : List UInt8) : toBeBytes l.length (fromBeBytes l) = l := by
  induction l using reverseRecOn with
  | nil => rfl
  | append_singleton l b ih =>
    have hb := b.toNat_lt
    rw [length_append, length_singleton, toBeBytes, fromBeBytes_concat,
      show (fromBeBytes l * 256 + b.toNat) / 256 = fromBeBytes l by omega, ih,
      show (fromBeBytes l * 256 + b.toNat) % 256 = b.toNat by omega, UInt8.ofNat_toNat]

theorem fromNeBytes_toNeBytes (endian : Endian) {bytes n : ℕ} (h : n < 256 ^ bytes) :
    fromNeBytes endian (toNeBytes endian bytes n) = n := by
  cases endian <;> simp [toNeBytes, fromNeBytes, fromBeBytes_toBeBytes h]

/-- An integer of a field is written and read by a flag each. -/
def intBytes (endian : Endian) (isOpaque : Bool) (bytes n : ℕ) : List UInt8 :=
  if isOpaque then toNeBytes endian bytes n else toBeBytes bytes n

@[simp] theorem length_intBytes (endian : Endian) (isOpaque : Bool) (bytes n : ℕ) :
    (intBytes endian isOpaque bytes n).length = bytes := by
  cases isOpaque <;> cases endian <;> simp [intBytes, toNeBytes]

@[simp] theorem intBytes_eq_nil (endian : Endian) (isOpaque : Bool) (bytes n : ℕ) :
    intBytes endian isOpaque bytes n = [] ↔ bytes = 0 := by
  rw [← length_eq_zero_iff, length_intBytes]

/-- With different flags, an integer survives if its bytes read the same in both orders. -/
theorem int_read_iff {endian : Endian} {enc dec : Bool} {bytes n : ℕ} (h : n < 256 ^ bytes) :
    (if dec then fromNeBytes endian (intBytes endian enc bytes n)
      else fromBeBytes (intBytes endian enc bytes n)) = n ↔
      enc = dec ∨ toNeBytes endian bytes n = toBeBytes bytes n := by
  have hrev : fromBeBytes (toBeBytes bytes n).reverse = n ↔
      (toBeBytes bytes n).reverse = toBeBytes bytes n := by
    constructor
    · intro heq
      have := toBeBytes_fromBeBytes (toBeBytes bytes n).reverse
      rw [heq, length_reverse, length_toBeBytes] at this
      exact this.symm
    · intro heq
      rw [heq, fromBeBytes_toBeBytes h]
  cases enc <;> cases dec <;> cases endian <;>
    simp [intBytes, toNeBytes, fromNeBytes, fromBeBytes_toBeBytes h, hrev]

mutual

def encode (endian : Endian) (isOpaque : Bool) : Ty → Value → List UInt8
  | .int bytes, .int n => intBytes endian isOpaque bytes n
  | .bool, .bool b => [if b then 1 else 0]
  | .f64, .f64 n => toNeBytes endian 8 n
  | .string, .string buf => toBeBytes 4 buf.length ++ buf
  | .struct fields, .struct vs => encodeFields endian fields vs
  | .array _ ty, .array vs => vs.flatMap fun v => encode endian isOpaque ty v
  | _, _ => []

def encodeFields (endian : Endian) : Fields → List Value → List UInt8
  | .cons name ty rest, v :: vs =>
    encode endian (name == "client_index") ty v ++ encodeFields endian rest vs
  | _, _ => []

end

mutual

/-- The values of a type; an array element occupies at least one byte. -/
def HasType : Ty → List Value → Value → Prop
  | .int bytes, _, .int n => n < 256 ^ bytes
  | .bool, _, .bool _ => True
  | .f64, _, .f64 n => n < 256 ^ 8
  | .string, _, .string buf => buf.length < 2 ^ 32
  | .struct fields, _, .struct vs => HaveTypes fields [] vs
  | .array count ty, before, .array vs => vs.length = count before ∧
      ∀ v ∈ vs, HasType ty before v ∧ ∀ endian isOpaque, encode endian isOpaque ty v ≠ []
  | _, _, _ => False

def HaveTypes : Fields → List Value → List Value → Prop
  | .nil, _, [] => True
  | .cons _ ty rest, before, v :: vs => HasType ty before v ∧ HaveTypes rest (before ++ [v]) vs
  | _, _, _ => False

end

mutual

/-- No integer with two different byte orders stands in an array of a field `client_index`. -/
def Plain (endian : Endian) (enc dec : Bool) : Ty → Value → Prop
  | .int bytes, .int n => enc = dec ∨ toNeBytes endian bytes n = toBeBytes bytes n
  | .struct fields, .struct vs => PlainFields endian fields vs
  | .array _ ty, .array vs => ∀ v ∈ vs, Plain endian enc false ty v
  | _, _ => True

def PlainFields (endian : Endian) : Fields → List Value → Prop
  | .cons name ty rest, v :: vs =>
    Plain endian (name == "client_index") (name == "client_index") ty v ∧
      PlainFields endian rest vs
  | _, _ => True

end

namespace Serializer

variable {s : Serializer} {l l' : List UInt8}

def Inside (s : Serializer) : Prop := ∀ output, s.output = some output → s.offset ≤ output.length

theorem write_nil (h : s.Inside) : s.write [] = .ok s := by
  obtain ⟨output, offset, isOpaque⟩ := s
  cases output with
  | none => rfl
  | some output =>
    have hle : offset ≤ output.length := h output rfl
    simp [write, not_lt.mpr hle]

theorem write_write (s : Serializer) (l l' : List UInt8) :
    ((s.write l).bind fun t => t.write l') = s.write (l ++ l') := by
  obtain ⟨output, offset, isOpaque⟩ := s
  cases output with
  | none => simp [write, Except.bind, Nat.add_assoc]
  | some output =>
    simp only [write]
    split
    · rw [if_pos (by rw [length_append]; omega)]
      rfl
    · have htake : (output.take offset).length = offset := by
        rw [length_take]
        omega
      simp only [Except.bind, length_append, htake, length_drop]
      split
      · rw [if_pos (by omega)]
      · rw [if_neg (by omega)]
        have hpre : (output.take offset ++ l).length = offset + l.length := by
          rw [length_append, htake]
        rw [take_left' hpre, ← Nat.add_assoc offset, ← hpre,
          drop_append]
        simp [Nat.add_assoc]

theorem write_ok {t : Serializer} (h : s.write l = .ok t) : t.isOpaque = s.isOpaque ∧ t.Inside := by
  obtain ⟨output, offset, isOpaque⟩ := s
  cases output with
  | none =>
    cases h
    exact ⟨rfl, nofun⟩
  | some output =>
    simp only [write] at h
    split at h
    · cases h
    · cases h
      refine ⟨rfl, fun o ho => ?_⟩
      cases ho
      simp only [length_append, length_take, length_drop]
      omega

theorem write_flag (s : Serializer) (b : Bool) (l : List UInt8) :
    { s with isOpaque := b }.write l = (s.write l).map fun t => { t with isOpaque := b } := by
  obtain ⟨output, offset, isOpaque⟩ := s
  cases output with
  | none => rfl
  | some output =>
    simp only [write]
    split <;> rfl

theorem serializeBytes_eq (s : Serializer) (hl : l.length < 2 ^ 32) :
    s.serializeBytes l = s.write (toBeBytes 4 l.length ++ l) := by
  obtain ⟨output, offset, isOpaque⟩ := s
  rw [← write_write, serializeBytes, if_neg (by omega)]
  cases output with
  | none => rfl
  | some output =>
    dsimp only
    split
    · next hshort =>
      -- the early check fails where one of the two writes would
      rw [decide_eq_true_eq] at hshort
      rw [write_write, write]
      simp only [length_append, length_toBeBytes]
      rw [if_pos (by omega)]
    · rfl

theorem foldlM_write {f : Serializer → Value → Except Error Serializer}
    {g : Bool → Value → List UInt8} {vs : List Value}
    (hf : ∀ v ∈ vs, ∀ s : Serializer, s.Inside → f s v = s.write (g s.isOpaque v))
    (h : s.Inside) : vs.foldlM f s = s.write (vs.flatMap (g s.isOpaque)) := by
  induction vs generalizing s with
  | nil => exact (write_nil h).symm
  | cons v vs ih =>
    rw [foldlM_cons, hf v (by simp) s h, flatMap_cons, ← write_write]
    cases hw : s.write (g s.isOpaque v) with
    | error e => rfl
    | ok t =>
      obtain ⟨hflag, hinside⟩ := write_ok hw
      have := ih (fun v hv => hf v (by simp [hv])) hinside
      rwa [hflag] at this

end Serializer

section

variable (endian : Endian)

mutual

theorem serializeValue_eq : ∀ (ty : Ty) (before : List Value) (v : Value) (s : Serializer),
    HasType ty before v → s.Inside →
    serializeValue endian ty v s = s.write (encode endian s.isOpaque ty v)
  | .int _, _, .int _, _, _, _ => rfl
  | .bool, _, .bool _, _, _, _ => rfl
  | .f64, _, .f64 _, _, _, _ => rfl
  | .string, _, .string _, s, ht, _ => s.serializeBytes_eq ht
  | .struct fields, _, .struct vs, s, ht, hs => serializeFields_eq fields [] vs s ht hs
  | .array _ ty, before, .array _, _, ht, hs =>
    foldlM_write (g := fun isOpaque v => encode endian isOpaque ty v)
      (fun v hv s hs => serializeValue_eq ty before v s (ht.2 v hv).1 hs) hs

theorem serializeFields_eq : ∀ (fields : Fields) (before vs : List Value) (s : Serializer),
    HaveTypes fields before vs → s.Inside →
    serializeFields endian fields vs s = s.write (encodeFields endian fields vs)
  | .nil, _, [], _, _, hs => (write_nil hs).symm
  | .cons name ty rest, before, v :: vs, s, ht, hs => by
    have hv := serializeValue_eq ty before v { s with isOpaque := name == "client_index" } ht.1 hs
    rw [serializeFields, hv, encodeFields, write_flag, ← write_write]
    cases hw : s.write (encode endian (name == "client_index") ty v) with
    | error e => rfl
    | ok t =>
      obtain ⟨hflag, hinside⟩ := write_ok hw
      have hrest := serializeFields_eq rest (before ++ [v]) vs t ht.2 hinside
      rw [← hflag]
      exact hrest

end

end

def Deserializer.skip (d : Deserializer) (n : ℕ) : Deserializer := { d with offset := d.offset + n }

theorem Deserializer.skip_skip (d : Deserializer) (m n : ℕ) :
    (d.skip m).skip n = d.skip (m + n) := by
  simp [Deserializer.skip, Nat.add_assoc]

/-- The bytes before the decoder begin with a list. -/
def Deserializer.Ahead (d : Deserializer) (l : List UInt8) : Prop :=
  d.offset ≤ d.input.length ∧ ∃ rest, d.input.drop d.offset = l ++ rest

/-- A call returns a value, with the decoder up to the steps, if and only if a condition holds. -/
def Returns {α : Type} (P : Prop) (m : Decode α) (d : Deserializer) (a : α) (d' : Deserializer) :
    Prop :=
  (P → ∃ k, m d = (.ok a, { d' with steps := k })) ∧ ∀ e, m d = (.ok a, e) → P

section Returns

variable {α β : Type} {P Q : Prop} {d d' d'' : Deserializer} {l l' : List UInt8}

theorem Deserializer.Ahead.left (h : d.Ahead (l ++ l')) : d.Ahead l := by
  obtain ⟨hle, rest, hrest⟩ := h
  exact ⟨hle, l' ++ rest, by rw [hrest, append_assoc]⟩

theorem Deserializer.Ahead.length_le (h : d.Ahead l) : d.offset + l.length ≤ d.input.length := by
  obtain ⟨hle, rest, hrest⟩ := h
  have := congrArg length hrest
  rw [length_drop, length_append] at this
  omega

theorem Deserializer.Ahead.right (h : d.Ahead (l ++ l')) : (d.skip l.length).Ahead l' := by
  have hle := h.left.length_le
  obtain ⟨-, rest, hrest⟩ := h
  refine ⟨hle, rest, ?_⟩
  have := congrArg (drop l.length) hrest
  rwa [drop_drop, append_assoc, drop_left] at this

theorem read_ahead (h : d.Ahead l) : read l.length d = (.ok l, d.skip l.length) := by
  have hle := h.length_le
  obtain ⟨-, rest, hrest⟩ := h
  rw [read, if_pos hle, hrest, take_left]
  rfl

variable {m : Decode α} {a : α}

theorem Returns.of_eq (a' : α) (h : m d = (.ok a', d')) (hP : a' = a ↔ P) : Returns P m d a d' := by
  refine ⟨fun hp => ⟨d'.steps, ?_⟩, fun e he => ?_⟩
  · rw [h, hP.mpr hp]
  · rw [h, Prod.mk.injEq, Except.ok.injEq] at he
    exact hP.mp he.1

/-- The value of the first call must be the one the second call needs for its own. -/
theorem Returns.bind {f : α → Decode β} {b : β} (h : Returns P m d a d')
    (hf : ∀ k, Returns Q (f a) { d' with steps := k } b d'')
    (hinj : ∀ a' e e', f a' e = (.ok b, e') → a' = a) : Returns (P ∧ Q) (m.bind f) d b d'' := by
  constructor
  · rintro ⟨hp, hq⟩
    obtain ⟨k, hk⟩ := h.1 hp
    obtain ⟨k', hk'⟩ := (hf k).1 hq
    exact ⟨k', by rw [Decode.bind, hk]; exact hk'⟩
  · intro e he
    rw [Decode.bind] at he
    split at he
    · next a' e' hm =>
      cases hinj a' e' e he
      have hp := h.2 e' hm
      obtain ⟨k, hk⟩ := h.1 hp
      rw [hk, Prod.mk.injEq] at hm
      exact ⟨hp, (hf k).2 e (hm.2 ▸ he)⟩
    · cases he

theorem Returns.wrap {f : α → β} (h : Returns P m d a d') (hf : ∀ a', f a' = f a → a' = a) :
    Returns P (m.bind fun x => Decode.pure (f x)) d (f a) d' := by
  have hpure : ∀ k, Returns True (Decode.pure (f a)) { d' with steps := k } (f a) d' :=
    fun k => ⟨fun _ => ⟨k, rfl⟩, fun _ _ => trivial⟩
  refine and_true P ▸ h.bind hpure fun a' e e' he => hf a' ?_
  simpa using (Prod.mk.inj he).1

theorem Returns.cons {f : α → Decode (List α)} {as : List α} (h : Returns P m d a d')
    (hf : ∀ k, Returns Q (f a) { d' with steps := k } as d'') :
    Returns (P ∧ Q) (m.bind fun v => (f v).bind fun vs => Decode.pure (v :: vs)) d (a :: as)
      d'' := by
  refine h.bind (fun k => (hf k).wrap fun _ h => (cons.inj h).2) fun a' e e' he => ?_
  rw [Decode.bind] at he
  split at he
  · exact (cons.inj (Except.ok.inj (Prod.mk.inj he).1)).1
  · cases he

theorem Returns.element {seed : Decode Value} {v : Value} {n r : ℕ} (hr : d.remaining = r + 1)
    (h : ∀ k, Returns P seed { d with
        isOpaque := d.fields[d.fields.length - d.remaining]? == some "client_index"
        remaining := r
        steps := k } v
      { d with
        isOpaque := d.fields[d.fields.length - d.remaining]? == some "client_index"
        remaining := r
        offset := d.offset + n })
    (hn : d.fields = [] → 0 < n) :
    Returns P (BinaryApi.element seed) d v { d.skip n with remaining := r } := by
  obtain ⟨h1, h2⟩ := h (if d.fields.isEmpty then d.steps + 1 else d.steps)
  have hpred : d.remaining - 1 = r := by omega
  have hne : ¬ d.remaining = 0 := by omega
  unfold BinaryApi.element nextElementSeed
  constructor
  · intro hp
    obtain ⟨k, hk⟩ := h1 hp
    refine ⟨k, ?_⟩
    have hmoved : ¬ (d.fields.isEmpty = true ∧ d.offset + n = d.offset) := by
      rintro ⟨hf, he⟩
      have := hn (isEmpty_iff.mp hf)
      omega
    simp only [Decode.bind, if_neg hne, hpred, hk, if_neg hmoved]
    rfl
  · intro e he
    simp only [Decode.bind, if_neg hne, hpred] at he
    generalize hs : seed _ = result at he
    obtain ⟨outcome, d1⟩ := result
    cases outcome with
    | error => cases he
    | ok v' =>
      by_cases hstay : d.fields.isEmpty = true ∧ d1.offset = d.offset
      · simp only [if_pos hstay] at he
        cases he
      · simp only [if_neg hstay, Decode.pure, Prod.mk.injEq, Except.ok.injEq] at he
        exact h2 d1 (he.1 ▸ hs)

theorem Returns.sequence {visit : Decode (List Value)} {vs : List Value} {n len : ℕ}
    {fields : List String} (hle : d.offset ≤ d.input.length)
    (hlen : fields = [] → len ≤ d.input.length - d.offset)
    (h : Returns P visit { d with remaining := len, fields := fields } vs
      { d.skip n with remaining := 0, fields := fields }) :
    Returns P (BinaryApi.sequence len fields visit) d vs (d.skip n) := by
  have hroom : ¬ (fields.isEmpty = true ∧ d.input.length - d.offset < len) := by
    rintro ⟨hf, hlt⟩
    have := hlen (isEmpty_iff.mp hf)
    omega
  unfold BinaryApi.sequence remainingBytes
  constructor
  · intro hp
    obtain ⟨k, hk⟩ := h.1 hp
    refine ⟨k, ?_⟩
    simp only [if_neg (not_lt.mpr hle), if_neg hroom, hk, ne_eq, not_true_eq_false, if_false]
    rfl
  · intro e he
    simp only [if_neg (not_lt.mpr hle), if_neg hroom] at he
    generalize hs : visit _ = result at he
    obtain ⟨outcome, d1⟩ := result
    cases outcome with
    | error => cases he
    | ok vs' =>
      by_cases hz : d1.remaining ≠ 0
      · simp only [if_pos hz] at he
        cases he
      · simp only [if_neg hz, Prod.mk.injEq, Except.ok.injEq] at he
        exact h.2 d1 (he.1 ▸ hs)

theorem Returns.elements {seed : Decode Value} {vs : List Value} {P : Value → Prop}
    {code : Value → List UInt8} (hf : d.fields = []) (hr : d.remaining = vs.length)
    (ha : d.Ahead (vs.flatMap code)) (hcode : ∀ v ∈ vs, code v ≠ [])
    (h : ∀ v ∈ vs, ∀ e : Deserializer, e.isOpaque = false → e.Ahead (code v) →
      Returns (P v) seed e v (e.skip (code v).length)) :
    Returns (∀ v ∈ vs, P v) (BinaryApi.elements seed vs.length) d vs
      { d.skip (vs.flatMap code).length with remaining := 0 } := by
  induction vs generalizing d with
  | nil =>
    refine ⟨fun _ => ⟨d.steps, ?_⟩, fun _ _ => by simp⟩
    have hz : d = { d with remaining := 0 } := by
      rw [length_nil] at hr
      rw [← hr]
    exact congrArg (Prod.mk _) hz
  | cons v vs ih =>
    have hflag : (d.fields[d.fields.length - d.remaining]? == some "client_index") = false := by
      simp [hf]
    have hfirst : Returns (P v) (BinaryApi.element seed) d v
        { d.skip (code v).length with remaining := vs.length } := by
      refine Returns.element hr (fun k => ?_) fun _ => length_pos_iff.mpr (hcode v (by simp))
      exact h v (by simp) _ hflag ha.left
    have hrest : ∀ k, Returns (∀ v ∈ vs, P v) (BinaryApi.elements seed vs.length)
        { d.skip (code v).length with remaining := vs.length, steps := k } vs
        { (d.skip (code v).length).skip (vs.flatMap code).length with remaining := 0 } :=
      fun k => ih hf rfl ha.right (fun v hv => hcode v (by simp [hv]))
        fun v hv => h v (by simp [hv])
    rw [flatMap_cons, length_append, ← Deserializer.skip_skip]
    rw [forall_mem_cons]
    exact hfirst.cons hrest

end Returns

section Decoding

variable (endian : Endian)

theorem length_le_flatMap {vs : List Value} {code : Value → List UInt8}
    (h : ∀ v ∈ vs, code v ≠ []) : vs.length ≤ (vs.flatMap code).length := by
  induction vs with
  | nil => exact Nat.zero_le _
  | cons v vs ih =>
    have hv := length_pos_iff.mpr (h v (by simp))
    have := ih fun v hv => h v (by simp [hv])
    rw [flatMap_cons, length_append, length_cons]
    omega

mutual

/-- A decoder on the encoding of a value returns the value if and only if it is plain. -/
theorem deserializeValue_returns : ∀ (ty : Ty) (before : List Value) (v : Value) (enc : Bool)
    (d : Deserializer), HasType ty before v → d.Ahead (encode endian enc ty v) →
    Returns (Plain endian enc d.isOpaque ty v) (deserializeValue endian ty before) d v
      (d.skip (encode endian enc ty v).length)
  | .int bytes, _, .int n, enc, d, ht, ha => by
    have hread := read_ahead ha
    rw [encode, length_intBytes] at hread
    refine Returns.of_eq _ ?_ (Value.int.injEq .. ▸ int_read_iff ht)
    rw [deserializeValue, deserializeInt, Decode.bind, hread, encode, length_intBytes]
    rfl
  | .bool, _, .bool b, _, d, _, ha => by
    have hread : read 1 d = _ := read_ahead ha
    refine Returns.of_eq (.bool b) ?_ (by simp [Plain])
    rw [deserializeValue, deserializeBool, Decode.bind, hread]
    cases b <;> rfl
  | .f64, _, .f64 n, _, d, ht, ha => by
    have hlen : (toNeBytes endian 8 n).length = 8 := length_intBytes endian true 8 n
    have hread := read_ahead ha
    rw [encode, hlen] at hread
    refine Returns.of_eq (.f64 n) ?_ (by simp [Plain])
    rw [deserializeValue, deserializeF64, Decode.bind, hread, encode, hlen]
    simp only [fromNeBytes_toNeBytes endian ht]
    rfl
  | .string, _, .string buf, _, d, ht, ha => by
    have hread := read_ahead ha.left
    have hrest := read_ahead ha.right
    rw [length_toBeBytes] at hread hrest
    have hcount : fromBeBytes (toBeBytes 4 buf.length) = buf.length := fromBeBytes_toBeBytes ht
    refine Returns.of_eq (.string buf) ?_ (by simp [Plain])
    rw [deserializeValue, deserializeByteBuf, Decode.bind, hread]
    simp only [Decode.bind, hcount, hrest, encode, length_append, length_toBeBytes,
      Deserializer.skip_skip]
    rfl
  | .struct fields, _, .struct vs, _, d, ht, ha =>
    Returns.wrap (f := Value.struct) (Returns.sequence ha.1
      (fun hnil => by rw [hnil]; exact Nat.zero_le _)
      (visitFields_returns fields [] vs _ ht ⟨[], rfl⟩ rfl ha)) fun _ h => Value.struct.inj h
  | .array count ty, before, .array vs, enc, d, ht, ha => by
    have hcode := fun v hv => (ht.2 v hv).2 endian enc
    have hroom := ha.length_le
    have hle : vs.length ≤ (vs.flatMap fun v => encode endian enc ty v).length :=
      length_le_flatMap hcode
    rw [deserializeValue, ← ht.1]
    refine Returns.wrap (f := Value.array) (Returns.sequence ha.1 (fun _ => ?_)
      (Returns.elements rfl rfl ha hcode fun v hv e he hahead => ?_)) fun _ h => Value.array.inj h
    · rw [encode] at hroom
      omega
    · have := deserializeValue_returns ty before v enc e (ht.2 v hv).1 hahead
      rwa [he] at this

theorem visitFields_returns : ∀ (fields : Fields) (before vs : List Value) (d : Deserializer),
    HaveTypes fields before vs → (∃ pre, d.fields = pre ++ fields.names) →
    d.remaining = fields.names.length → d.Ahead (encodeFields endian fields vs) →
    Returns (PlainFields endian fields vs) (visitFields endian fields before) d vs
      { d.skip (encodeFields endian fields vs).length with remaining := 0 }
  | .nil, _, [], d, _, _, hr, _ => by
    have hz : d = { d with remaining := 0 } := by
      rw [show (0 : ℕ) = d.remaining from hr.symm]
    exact Returns.of_eq [] (congrArg (Prod.mk _) hz) (by simp [PlainFields])
  | .cons name ty rest, before, v :: vs, d, ht, ⟨pre, hpre⟩, hr, ha => by
    have hflag : (d.fields[d.fields.length - d.remaining]? == some "client_index") =
        (name == "client_index") := by
      rw [hr, hpre]
      simp [Fields.names]
    have hfirst : Returns (Plain endian (name == "client_index") (name == "client_index") ty v)
        (element (deserializeValue endian ty before)) d v
        { d.skip (encode endian (name == "client_index") ty v).length with
          remaining := rest.names.length } := by
      refine Returns.element hr (fun k => ?_) fun hnil => by simp [hpre, Fields.names] at hnil
      rw [hflag]
      exact deserializeValue_returns ty before v (name == "client_index") { d with
          isOpaque := name == "client_index", remaining := rest.names.length, steps := k }
        ht.1 ha.left
    rw [encodeFields, length_append, ← Deserializer.skip_skip]
    exact hfirst.cons fun k => visitFields_returns rest (before ++ [v]) vs _ ht.2
      ⟨pre ++ [name], by simp [Deserializer.skip, hpre, Fields.names]⟩ rfl ha.right

end

end Decoding

mutual

def Ty.levels : Ty → ℕ
  | .struct fields => fields.levels
  | .array _ ty => ty.levels + 1
  | _ => 0

def Fields.levels : Fields → ℕ
  | .nil => 0
  | .cons _ ty rest => max ty.levels rest.levels

end

/-- The bytes that a call accounts for: those it consumed, or all that were left when it fails. -/
def spent {α : Type} (d : Deserializer) (r : Except Error α × Deserializer) : ℕ :=
  match r.1 with
  | .ok _ => r.2.offset - d.offset
  | .error _ => d.input.length - d.offset

/-- What a call keeps on any input: it stays inside, does not panic, and takes one step for each
of its `count` array elements, of which each consumes a byte, and `rate` steps for each byte. -/
structure Kept {α : Type} (rate count : ℕ) (d : Deserializer) (r : Except Error α × Deserializer) :
    Prop where
  input : r.2.input = d.input
  fields : r.2.fields = d.fields
  le : d.offset ≤ r.2.offset
  inside : r.2.offset ≤ d.input.length
  total : r.1 ≠ .error .panic
  consumed : ∀ a, r.1 = .ok a → d.offset + count ≤ r.2.offset
  steps : r.2.steps ≤ d.steps + count + rate * spent d r

namespace Kept

variable {α β : Type} {rate rate' count count' : ℕ} {d : Deserializer}

theorem mono {r : Except Error α × Deserializer} (h : Kept rate count d r) (hle : rate ≤ rate') :
    Kept rate' count d r :=
  { h with steps := h.steps.trans (Nat.add_le_add_left (Nat.mul_le_mul_right _ hle) _) }

theorem bind {m : Decode α} {f : α → Decode β} (h : Kept rate count d (m d))
    (hf : ∀ a e, e.fields = d.fields → e.offset ≤ e.input.length → Kept rate count' e (f a e)) :
    Kept rate (count + count') d (m.bind f d) := by
  unfold Decode.bind
  generalize m d = result at h ⊢
  obtain ⟨r, e⟩ := result
  obtain ⟨hinput, hfields, hle, hinside, htotal, hconsumed, hsteps⟩ := h
  dsimp only at hinput hfields hle hinside
  cases r with
  | error x =>
    exact ⟨hinput, hfields, hle, hinside, by simpa using htotal, by simp,
      hsteps.trans (by simp only [spent]; omega)⟩
  | ok a =>
    have h' := hf a e hfields (hinput ▸ hinside)
    have hinside' := h'.inside.trans_eq (congrArg _ hinput)
    refine ⟨h'.input.trans hinput, h'.fields.trans hfields, hle.trans h'.le, hinside', h'.total,
      fun b hb => ?_, ?_⟩
    · have h1 := hconsumed a rfl
      have h2 := h'.consumed b hb
      dsimp only at h1 ⊢
      omega
    -- what both calls account for together
    have hsum : spent d (f a e) = (e.offset - d.offset) + spent e (f a e) := by
      have := h'.le
      simp only [spent, hinput]
      split <;> omega
    have h2 := h'.steps
    dsimp only at hsteps ⊢
    rw [hsum, Nat.mul_add]
    simp only [spent] at hsteps
    omega

theorem of_same {r : Except Error α} (hd : d.offset ≤ d.input.length) (hr : r ≠ .error .panic) :
    Kept rate 0 d (r, d) :=
  ⟨rfl, rfl, le_refl _, hd, hr, fun _ _ => le_refl _, Nat.le_add_right _ _⟩

theorem read (hd : d.offset ≤ d.input.length) (n : ℕ) : Kept rate 0 d (BinaryApi.read n d) := by
  unfold BinaryApi.read
  split
  · next h =>
    exact ⟨rfl, rfl, Nat.le_add_right _ _, h, by simp, fun _ _ => Nat.le_add_right _ _,
      Nat.le_add_right _ _⟩
  · exact of_same hd (by simp)

section

variable {seed : Decode Value}
  (h : ∀ d : Deserializer, d.offset ≤ d.input.length → Kept rate 0 d (seed d))
include h

/-- An array element counts one step and then consumes a byte or fails. -/
theorem element (hd : d.offset ≤ d.input.length) :
    Kept rate (if d.fields.isEmpty then 1 else 0) d (BinaryApi.element seed d) := by
  unfold BinaryApi.element nextElementSeed Decode.bind
  by_cases hr : d.remaining = 0
  · simp only [if_pos hr]
    exact ⟨rfl, rfl, le_refl _, hd, by simp [Decode.fail], by simp [Decode.fail],
      (Nat.le_add_right _ _).trans (Nat.le_add_right _ _)⟩
  simp only [if_neg hr]
  have hk := h { d with
    isOpaque := d.fields[d.fields.length - d.remaining]? == some "client_index"
    remaining := d.remaining - 1
    steps := if d.fields.isEmpty then d.steps + 1 else d.steps } hd
  generalize seed _ = result at hk ⊢
  obtain ⟨outcome, e⟩ := result
  obtain ⟨hinput, hfields, hoff, hinside, htotal, -, hsteps⟩ := hk
  dsimp only at hinput hfields hoff hinside htotal hsteps
  have hcount : (if d.fields.isEmpty then d.steps + 1 else d.steps) =
      d.steps + if d.fields.isEmpty then 1 else 0 := by split <;> rfl
  rw [hcount, Nat.add_zero] at hsteps
  cases outcome with
  | error x => exact ⟨hinput, hfields, hoff, hinside, by simpa using htotal, by simp, hsteps⟩
  | ok v =>
    by_cases hstay : d.fields.isEmpty = true ∧ e.offset = d.offset
    · simp only [if_pos hstay]
      refine ⟨hinput, hfields, hoff, hinside, by simp, by simp, hsteps.trans ?_⟩
      exact Nat.add_le_add_left (Nat.mul_le_mul_left rate (Nat.sub_le_sub_right hinside _)) _
    · simp only [if_neg hstay]
      refine ⟨hinput, hfields, hoff, hinside, by simp [Decode.pure], fun _ _ => ?_, hsteps⟩
      simp only [Decode.pure]
      split
      · next hempty =>
        have : e.offset ≠ d.offset := fun heq => hstay ⟨hempty, heq⟩
        omega
      · exact hoff

theorem elements (n : ℕ) (hd : d.offset ≤ d.input.length) (hfields : d.fields = []) :
    Kept rate n d (BinaryApi.elements seed n d) := by
  induction n generalizing d with
  | zero => exact of_same hd (by simp)
  | succ n ih =>
    have hfirst : Kept rate 1 d (BinaryApi.element seed d) := by
      have := element h hd
      rwa [hfields] at this
    have hrest : Kept rate (1 + n) d (BinaryApi.elements seed (n + 1) d) :=
      hfirst.bind fun v e hf he => (ih he (hf.trans hfields)).bind fun vs e _ he =>
        of_same he (by simp)
    rwa [Nat.add_comm] at hrest

end

/-- The elements of an array are at most as many as the bytes left when it begins. -/
theorem sequence {visit : Decode (List Value)} {fields : List String} {len : ℕ}
    (hd : d.offset ≤ d.input.length)
    (h : Kept rate count { d with remaining := len, fields := fields }
      (visit { d with remaining := len, fields := fields }))
    (hcount : count = 0 ∨ fields.isEmpty = true ∧ count = len)
    (hrate : ∀ n, count ≤ n → count + rate * n ≤ rate' * n) :
    Kept rate' 0 d (BinaryApi.sequence len fields visit d) := by
  unfold BinaryApi.sequence remainingBytes
  simp only [if_neg (not_lt.mpr hd)]
  by_cases hroom : fields.isEmpty = true ∧ d.input.length - d.offset < len
  · simp only [if_pos hroom]
    exact of_same hd (by simp)
  simp only [if_neg hroom]
  have hle : count ≤ d.input.length - d.offset := by
    rcases hcount with rfl | ⟨hempty, rfl⟩
    · exact Nat.zero_le _
    · exact Nat.le_of_not_lt fun hlt => hroom ⟨hempty, hlt⟩
  generalize visit _ = result at h ⊢
  obtain ⟨outcome, e⟩ := result
  obtain ⟨hinput, -, hoff, hinside, htotal, hconsumed, hsteps⟩ := h
  dsimp only at hinput hoff hinside
  -- the steps when the call accounts for `n` bytes
  have hcost : ∀ n, count ≤ n → d.steps + count + rate * n ≤ d.steps + 0 + rate' * n := by
    intro n hn
    have := hrate n hn
    omega
  cases outcome with
  | error x =>
    exact ⟨hinput, rfl, hoff, hinside, by simpa using htotal, by simp, hsteps.trans (hcost _ hle)⟩
  | ok vs =>
    have hlong : count ≤ e.offset - d.offset := by
      have := hconsumed vs rfl
      dsimp only at this
      omega
    by_cases hz : e.remaining ≠ 0
    · simp only [if_pos hz]
      have hmono := Nat.mul_le_mul_left rate (Nat.sub_le_sub_right hinside d.offset)
      exact ⟨hinput, rfl, hoff, hinside, by simp, by simp,
        (hsteps.trans (Nat.add_le_add_left hmono _)).trans (hcost _ hle)⟩
    · simp only [if_neg hz]
      exact ⟨hinput, rfl, hoff, hinside, by simp, fun _ _ => hoff, hsteps.trans (hcost _ hlong)⟩

end Kept

section Any

variable (endian : Endian)

mutual

theorem deserializeValue_kept : ∀ (ty : Ty) (before : List Value) (d : Deserializer),
    d.offset ≤ d.input.length → Kept ty.levels 0 d (deserializeValue endian ty before d)
  | .int _, _, _, hd | .bool, _, _, hd | .f64, _, _, hd =>
    (Kept.read hd _).bind fun _ _ _ he => Kept.of_same he (by simp)
  | .string, _, _, hd => (Kept.read hd _).bind fun _ _ _ he =>
    (Kept.read he _).bind fun _ _ _ he => Kept.of_same he (by simp)
  | .struct fields, _, d, hd =>
    (Kept.sequence hd (visitFields_kept fields []
      { d with remaining := fields.names.length, fields := fields.names } hd ⟨[], rfl⟩)
      (.inl rfl) fun n _ => (Nat.zero_add _).le).bind fun _ _ _ he => Kept.of_same he (by simp)
  | .array count ty, before, d, hd =>
    (Kept.sequence hd (Kept.elements (d := { d with remaining := count before, fields := [] })
      (deserializeValue_kept ty before) _ hd rfl) (.inr ⟨rfl, rfl⟩) fun n hn => by
        rw [Ty.levels, Nat.succ_mul, Nat.add_comm]
        exact Nat.add_le_add_left hn _).bind fun _ _ _ he => Kept.of_same he (by simp)

theorem visitFields_kept : ∀ (fields : Fields) (before : List Value) (d : Deserializer),
    d.offset ≤ d.input.length → (∃ pre, d.fields = pre ++ fields.names) →
    Kept fields.levels 0 d (visitFields endian fields before d)
  | .nil, _, _, hd, _ => Kept.of_same hd (by simp)
  | .cons name ty rest, before, d, hd, ⟨pre, hpre⟩ => by
    have hnames : d.fields.isEmpty = false := by simp [hpre, Fields.names]
    have hfirst : Kept ty.levels 0 d (element (deserializeValue endian ty before) d) := by
      have := Kept.element (deserializeValue_kept ty before) hd
      rwa [hnames] at this
    have hrest : ∀ v e, e.fields = d.fields → e.offset ≤ e.input.length →
        Kept (max ty.levels rest.levels) 0 e ((visitFields endian rest (before ++ [v])).bind
          (fun vs => Decode.pure (v :: vs)) e) := by
      intro v e hfields he
      refine ((visitFields_kept rest (before ++ [v]) e he ⟨pre ++ [name], ?_⟩).mono
        (le_max_right _ _)).bind fun _ _ _ he => Kept.of_same he (by simp)
      simp [hfields, hpre, Fields.names]
    exact (hfirst.mono (le_max_left _ _)).bind hrest

end

end Any

/-- Serializing writes as many bytes as `serialized_len` says; deserializing them consumes exactly
those and returns the value if and only if it is plain. On any input the decoder stays inside, does
not panic and takes, on each level of nested arrays, at most one step for each byte. -/
theorem codec_round_trip (endian : Endian) (ty : Ty) :
    (∀ v, HasType ty [] v → ∃ bytes : List UInt8,
      serializedLen endian ty v = .ok bytes.length ∧
      (∀ output : List UInt8, bytes.length ≤ output.length → serialize endian ty v output =
        .ok (bytes.length, some (bytes ++ output.drop bytes.length))) ∧
      ((∀ trailing, ∃ d, deserialize endian ty (bytes ++ trailing) = (.ok v, d) ∧
        d.offset = bytes.length) ↔ Plain endian false false ty v)) ∧
    ∀ input, (deserialize endian ty input).1 ≠ .error .panic ∧
      (deserialize endian ty input).2.offset ≤ input.length ∧
      (deserialize endian ty input).2.steps ≤ ty.levels * input.length := by
  constructor
  · intro v ht
    have hwrite := fun s hs => serializeValue_eq endian ty [] v s ht hs
    refine ⟨encode endian false ty v, ?_, fun output hle => ?_, ?_⟩
    · rw [serializedLen, hwrite _ fun _ h => by cases h]
      simp [Serializer.write, Except.map]
    · rw [serialize, hwrite _ fun _ _ => Nat.zero_le _]
      simp [Serializer.write, Except.map, not_lt.mpr hle]
    · have hreturns := fun trailing => deserializeValue_returns endian ty [] v false
        ⟨encode endian false ty v ++ trailing, 0, 0, [], false, 0⟩ ht
        ⟨Nat.zero_le _, trailing, rfl⟩
      constructor
      · intro h
        obtain ⟨d, hd, -⟩ := h []
        exact (hreturns []).2 d hd
      · intro hplain trailing
        obtain ⟨k, hk⟩ := (hreturns trailing).1 hplain
        exact ⟨_, hk, Nat.zero_add _⟩
  · intro input
    have hkept := deserializeValue_kept endian ty [] ⟨input, 0, 0, [], false, 0⟩ (Nat.zero_le _)
    have hinside : (deserialize endian ty input).2.offset ≤ input.length := hkept.inside
    refine ⟨hkept.total, hinside, hkept.steps.trans ?_⟩
    simp only [spent, Nat.zero_add, Nat.sub_zero]
    split
    · exact Nat.mul_le_mul_left _ hinside
    · exact le_refl _

example : (deserialize .little (.array (fun _ => 2) (.array (fun _ => 1) (.int 1))) [7, 9]).2.steps =
    4 := rfl

def countBefore : List Value → ℕ
  | [_, .int n] => n
  | _ => 0

def countedRequest : Ty :=
  .struct (.cons "client_index" (.int 4) (.cons "count" (.int 1)
    (.cons "items" (.array countBefore (.int 2)) .nil)))

theorem codec_round_trip_counted : ∃ bytes : List UInt8, ∀ trailing, ∃ d,
    deserialize .little countedRequest (bytes ++ trailing) =
      (.ok (.struct [.int 7, .int 2, .array [.int 1, .int 2]]), d) ∧ d.offset = bytes.length := by
  have ht : HasType countedRequest [] (.struct [.int 7, .int 2, .array [.int 1, .int 2]]) := by
    simp [countedRequest, HasType, HaveTypes, encode, countBefore]
  obtain ⟨bytes, -, -, h⟩ := (codec_round_trip .little countedRequest).1 _ ht
  exact ⟨bytes, h.mpr (by simp [countedRequest, Plain, PlainFields])⟩

/-- A field `client_index` of two integers: they are written in the order of the machine and read
in network order. -/
theorem client_index_array_swapped :
    let ty : Ty := .struct (.cons "client_index" (.array (fun _ => 2) (.int 2)) .nil)
    let v : Value := .struct [.array [.int 1, .int 2]]
    HasType ty [] v ∧
      serialize .little ty v [9, 9, 9, 9] = .ok (4, some [1, 0, 2, 0]) ∧
      (deserialize .little ty [1, 0, 2, 0]).1 = .ok (.struct [.array [.int 256, .int 512]]) := by
  refine ⟨?_, rfl, rfl⟩
  simp [HasType, HaveTypes, encode]

end BinaryApi
