import ProtoWire.Filler
import ProtoWire.Key
import ProtoWire.Payload
import ProtoWire.ScalarType

/-!
# `ProtoWire.FieldType`: the types a known field can have

A field is a scalar or a string. Its type fixes the layout of its
values, which value is left out when writing, and what reading does to
the value that is there before. The statements:

* `encodeField_of_default`, `fieldSize_of_default`: a default value
  takes no bytes.
* `readField_of_ne`: a value in the wrong layout is refused before
  anything is read or changed.
* `forward_readInto`, `forward_readField`: reading only moves forward.
-/

set_option autoImplicit false

namespace ProtoWire

/-- The types a known field can have. -/
inductive FieldType where
  | scalar (s : ScalarType)
  | string
  deriving DecidableEq, Repr

namespace FieldType

/-- The values of a type. -/
@[reducible]
def Value : FieldType → Type
  | scalar s => s.Value
  | string => String

/-- The layout values are written in. -/
def wireType : FieldType → WireType
  | scalar _ => .varint
  | string => .len

/-- The value a field has when nothing was said about it. -/
def default : (t : FieldType) → t.Value
  | scalar s => s.default
  | string => ""

/-- Whether a value is the default one. -/
def isDefault : (t : FieldType) → t.Value → Bool
  | scalar s, v => s.isDefault v
  | string, v => v.isEmpty

/-- Writes a value, without a key. -/
def encode : (t : FieldType) → t.Value → List UInt8
  | scalar s, v => s.encode v
  | string, v => Payload.encode v.toUTF8.data.toList

/-- How many bytes `encode` writes. -/
def size : (t : FieldType) → t.Value → Nat
  | scalar s, v => s.size v
  | string, v => Payload.size v.utf8ByteSize

/-- Reads a scalar. A failed read leaves the old value. -/
def readScalarInto (s : ScalarType) : Filler s.Value Unit := do
  let n ← Filler.reading (Varint.readValue .w64)
  Filler.store (s.ofVarint n)

/-- Reads a text. The old text is given up as soon as the bytes of the
new one are there; if they are not well-formed, nothing takes its
place. -/
def readTextInto : Filler String Unit := do
  let bytes ← Filler.reading Payload.read
  Filler.store ""
  match String.fromUTF8? ⟨bytes.toArray⟩ with
  | some text => Filler.store text
  | none => throw .invalidUtf8

/-- Reads a value, without a key, over the one that is there. -/
def readInto : (t : FieldType) → Filler t.Value Unit
  | scalar s => readScalarInto s
  | string => readTextInto

/-! ### Values under a key -/

/-- Writes a value under a field number, and nothing at all for the
default value. -/
def encodeField (t : FieldType) (number : Nat) (v : t.Value) : List UInt8 :=
  if t.isDefault v then [] else Key.encode t.wireType number ++ t.encode v

/-- How many bytes `encodeField` writes. -/
def fieldSize (t : FieldType) (number : Nat) (v : t.Value) : Nat :=
  if t.isDefault v then 0 else Key.size number + t.size v

/-- Reads the value behind a key over the one that is there, provided
that the key announces the layout of the type. -/
def readField (t : FieldType) (key : Key) : Filler t.Value Unit :=
  if key.wireType = t.wireType then t.readInto
  else throw (.wireTypeMismatch key.number.val t.wireType key.wireType)

/-- The test for the default value is an equation, for texts as well. -/
theorem isDefault_iff {t : FieldType} {v : t.Value} : t.isDefault v = true ↔ v = t.default := by
  cases t with
  | scalar s => exact ScalarType.isDefault_iff
  | string => exact String.isEmpty_iff

/-- For the default value not even the key is written. -/
theorem encodeField_of_default (t : FieldType) (number : Nat) :
    t.encodeField number t.default = [] :=
  if_pos (isDefault_iff.mpr rfl)

/-- Nothing is counted for the default value. -/
theorem fieldSize_of_default (t : FieldType) (number : Nat) :
    t.fieldSize number t.default = 0 :=
  if_pos (isDefault_iff.mpr rfl)

/-- A value in the wrong layout is refused before anything is read or
changed. -/
theorem readField_of_ne {t : FieldType} {key : Key} (h : key.wireType ≠ t.wireType)
    (s : Intake t.Value) :
    t.readField key s = .error (.wireTypeMismatch key.number.val t.wireType key.wireType) s := by
  rw [readField, if_neg h]
  rfl

/-! ### Reading moves forward -/

/-- Reading a value only drops bytes from the front, be it a value or
not. -/
theorem forward_readInto (t : FieldType) : Filler.Forward t.readInto := by
  cases t with
  | scalar s =>
    exact (Filler.Forward.reading (Varint.Forward.readValue .w64)).bind
      fun _ => Filler.Forward.store _
  | string =>
    -- Only the payload is read; whether it is well-formed moves nothing.
    refine (Filler.Forward.reading Payload.forward_read).bind fun bytes =>
      (Filler.Forward.store _).bind fun _ => ?_
    cases String.fromUTF8? ⟨bytes.toArray⟩ with
    | some text => exact Filler.Forward.store text
    | none => exact Filler.Forward.throw _

/-- Reading a value behind a key only drops bytes from the front. -/
theorem forward_readField (t : FieldType) (key : Key) : Filler.Forward (t.readField key) := by
  unfold readField
  split
  · exact forward_readInto t
  · exact Filler.Forward.throw _

end FieldType

end ProtoWire
