import Mathlib

/-! # The binary API codec

The encoder and the decoder of `hammer-ipc/src/binary_api/codec.rs` over every type tree that serde
can drive them with: primitives, length-prefixed strings, structs and arrays. The element count of
an array is given by the containing definition and may depend on the fields decoded before it. The
memory of a machine bounds lengths, so that offsets do not overflow.
-/

namespace BinaryApi

inductive Endian where
  | little
  | big
  deriving DecidableEq, Repr

/-- A value; integers are given by their bits, as is a floating-point number. -/
inductive Value where
  | int (bits : ℕ)
  | bool (value : Bool)
  | f64 (bits : ℕ)
  | string (buf : List UInt8)
  | struct (fields : List Value)
  | array (elements : List Value)

mutual

/-- Types of messages; `int` stands for `u8` to `u64` and `i8` to `i64` with their bytes. -/
inductive Ty where
  | int (bytes : ℕ)
  | bool
  | f64
  | string
  | struct (fields : Fields)
  | array (count : List Value → ℕ) (element : Ty)

inductive Fields where
  | nil
  | cons (name : String) (ty : Ty) (rest : Fields)

end

def Fields.names : Fields → List String
  | .nil => []
  | .cons name _ rest => name :: rest.names

inductive Error where
  | custom (message : String)
  | panic
  deriving DecidableEq, Repr

def toBeBytes : ℕ → ℕ → List UInt8
  | 0, _ => []
  | bytes + 1, n => toBeBytes bytes (n / 256) ++ [UInt8.ofNat (n % 256)]

def fromBeBytes (l : List UInt8) : ℕ := l.foldl (fun n b => n * 256 + b.toNat) 0

def toNeBytes (endian : Endian) (bytes n : ℕ) : List UInt8 :=
  match endian with
  | .little => (toBeBytes bytes n).reverse
  | .big => toBeBytes bytes n

def fromNeBytes (endian : Endian) (l : List UInt8) : ℕ :=
  match endian with
  | .little => fromBeBytes l.reverse
  | .big => fromBeBytes l

structure Serializer where
  output : Option (List UInt8)
  offset : ℕ
  isOpaque : Bool

def Serializer.write (s : Serializer) (bytes : List UInt8) : Except Error Serializer :=
  let last := s.offset + bytes.length
  match s.output with
  | none => .ok { s with offset := last }
  | some output =>
    if output.length < last then .error (.custom "API output slice is too short")
    else .ok { s with
      output := some (output.take s.offset ++ bytes ++ output.drop last)
      offset := last }

def Serializer.serializeBytes (s : Serializer) (value : List UInt8) : Except Error Serializer :=
  if 2 ^ 32 ≤ value.length then .error (.custom "out of range integral type conversion attempted")
  else
    let short : Bool := match s.output with
      | none => false
      | some output => decide (output.length - s.offset < 4 ∨
          output.length - s.offset - 4 < value.length)
    if short then .error (.custom "API output slice is too short")
    else (s.write (toBeBytes 4 value.length)).bind fun s => s.write value

mutual

def serializeValue (endian : Endian) : Ty → Value → Serializer → Except Error Serializer
  | .int bytes, .int n, s =>
    s.write (if s.isOpaque then toNeBytes endian bytes n else toBeBytes bytes n)
  | .bool, .bool b, s => s.write [if b then 1 else 0]
  | .f64, .f64 n, s => s.write (toNeBytes endian 8 n)
  | .string, .string buf, s => s.serializeBytes buf
  | .struct fields, .struct vs, s => serializeFields endian fields vs s
  | .array _ element, .array vs, s => vs.foldlM (fun s v => serializeValue endian element v s) s
  | _, _, _ => .error .panic

def serializeFields (endian : Endian) : Fields → List Value → Serializer → Except Error Serializer
  | .nil, [], s => .ok s
  | .cons name ty rest, v :: vs, s =>
    (serializeValue endian ty v { s with isOpaque := name == "client_index" }).bind fun t =>
      serializeFields endian rest vs { t with isOpaque := s.isOpaque }
  | _, _, _ => .error .panic

end

/-- `serialize`: the bytes written, with the buffer. -/
def serialize (endian : Endian) (ty : Ty) (v : Value) (output : List UInt8) :
    Except Error (ℕ × Option (List UInt8)) :=
  (serializeValue endian ty v ⟨some output, 0, false⟩).map fun s => (s.offset, s.output)

def serializedLen (endian : Endian) (ty : Ty) (v : Value) : Except Error ℕ :=
  (serializeValue endian ty v ⟨none, 0, false⟩).map Serializer.offset

/-- The decoder; the steps over array elements are counted. -/
structure Deserializer where
  input : List UInt8
  offset : ℕ
  remaining : ℕ
  fields : List String
  isOpaque : Bool
  steps : ℕ

/-- A call that changes the decoder also when it fails. -/
abbrev Decode (α : Type) := Deserializer → Except Error α × Deserializer

namespace Decode

variable {α β : Type}

def pure (a : α) : Decode α := fun d => (.ok a, d)

def fail (e : Error) : Decode α := fun d => (.error e, d)

def bind (m : Decode α) (f : α → Decode β) : Decode β := fun d =>
  match m d with
  | (.ok a, d) => f a d
  | (.error e, d) => (.error e, d)

end Decode

/-- `remaining_bytes` panics behind the end of the input. -/
def remainingBytes : Decode ℕ := fun d =>
  if d.input.length < d.offset then (.error .panic, d)
  else (.ok (d.input.length - d.offset), d)

def read (length : ℕ) : Decode (List UInt8) := fun d =>
  if d.offset + length ≤ d.input.length then
    (.ok ((d.input.drop d.offset).take length), { d with offset := d.offset + length })
  else (.error (.custom "truncated API message"), d)

def deserializeInt (endian : Endian) (bytes : ℕ) : Decode Value :=
  (read bytes).bind fun l d =>
    (.ok (.int (if d.isOpaque then fromNeBytes endian l else fromBeBytes l)), d)

def deserializeBool : Decode Value :=
  (read 1).bind fun l => Decode.pure (.bool (l.headD 0 != 0))

def deserializeF64 (endian : Endian) : Decode Value :=
  (read 8).bind fun l => Decode.pure (.f64 (fromNeBytes endian l))

def deserializeByteBuf : Decode Value :=
  (read 4).bind fun l => (read (fromBeBytes l)).bind fun buf => Decode.pure (.string buf)

def nextElementSeed (seed : Decode Value) : Decode (Option Value) := fun d =>
  if d.remaining = 0 then (.ok none, d)
  else
    let arrayElement := d.fields.isEmpty
    let r := seed { d with
      isOpaque := d.fields[d.fields.length - d.remaining]? == some "client_index"
      remaining := d.remaining - 1
      steps := if arrayElement then d.steps + 1 else d.steps }
    let d' := { r.2 with isOpaque := d.isOpaque }
    match r.1 with
    | .error e => (.error e, d')
    | .ok v =>
      if arrayElement ∧ d'.offset = d.offset then
        (.error (.custom "API array elements must consume wire bytes"), d')
      else (.ok (some v), d')

/-- The element that a visitor asks for; without one the length is invalid. -/
def element (seed : Decode Value) : Decode Value :=
  (nextElementSeed seed).bind fun
    | some v => Decode.pure v
    | none => Decode.fail (.custom "invalid length")

/-- `visit_seq` of the arrays. -/
def elements (seed : Decode Value) : ℕ → Decode (List Value)
  | 0 => Decode.pure []
  | n + 1 => (element seed).bind fun v => (elements seed n).bind fun vs => Decode.pure (v :: vs)

def sequence (length : ℕ) (fields : List String) (visit : Decode (List Value)) :
    Decode (List Value) := fun d =>
  match remainingBytes d with
  | (.error e, d) => (.error e, d)
  | (.ok bytes, d) =>
    if fields.isEmpty ∧ bytes < length then (.error (.custom "truncated API array"), d)
    else
      let r := visit { d with remaining := length, fields := fields }
      let d' := { r.2 with remaining := d.remaining, fields := d.fields }
      match r.1 with
      | .error e => (.error e, d')
      | .ok vs =>
        if r.2.remaining ≠ 0 then (.error (.custom "API array element count mismatch"), d')
        else (.ok vs, d')

mutual

/-- The decoder of a type, after the fields before it in its struct. -/
def deserializeValue (endian : Endian) : Ty → List Value → Decode Value
  | .int bytes, _ => deserializeInt endian bytes
  | .bool, _ => deserializeBool
  | .f64, _ => deserializeF64 endian
  | .string, _ => deserializeByteBuf
  | .struct fields, _ =>
    (sequence fields.names.length fields.names (visitFields endian fields [])).bind fun vs =>
      Decode.pure (.struct vs)
  | .array count ty, before =>
    (sequence (count before) [] (elements (deserializeValue endian ty before) (count before))).bind
      fun vs => Decode.pure (.array vs)

def visitFields (endian : Endian) : Fields → List Value → Decode (List Value)
  | .nil, _ => Decode.pure []
  | .cons _ ty rest, before =>
    (element (deserializeValue endian ty before)).bind fun v =>
      (visitFields endian rest (before ++ [v])).bind fun vs => Decode.pure (v :: vs)

end

/-- `deserialize`, with the decoder it leaves. -/
def deserialize (endian : Endian) (ty : Ty) (input : List UInt8) :
    Except Error Value × Deserializer :=
  deserializeValue endian ty [] ⟨input, 0, 0, [], false, 0⟩

end BinaryApi
