import ProtoWire.Key
import ProtoWire.LittleEndian
import ProtoWire.Payload

/-!
# `ProtoWire.WireValue`: a value without a schema

What the layout of a value alone says about it: a number, four or
eight bytes, or a payload. A reader that does not know a field can
still keep its value in this form, or pass over it. The statements:

* `wireType_of_read`: a value that is read has the layout it was read
  with.
* `forward_read`, `forward_skip`: both ways past a value only move
  forward.
-/

set_option autoImplicit false

namespace ProtoWire

/-- A value as its layout shows it. -/
inductive WireValue where
  | varint (value : UInt64)
  | fixed64 (value : UInt64)
  | bytes (payload : List UInt8)
  | fixed32 (value : UInt32)
  deriving DecidableEq, Repr

namespace WireValue

/-- The layout a value is written in. -/
def wireType : WireValue → WireType
  | varint _ => .varint
  | fixed64 _ => .i64
  | bytes _ => .len
  | fixed32 _ => .i32

/-- Reads a value of the given layout. -/
def read : WireType → Decoder WireValue
  | .varint => (fun n => varint (UInt64.ofNat n)) <$> Varint.readValue .w64
  | .i64 => (fun bs => fixed64 (UInt64.ofNat (LittleEndian.toNat bs))) <$> Decoder.takeBytes 8
  | .len => bytes <$> Payload.read
  | .i32 => (fun bs => fixed32 (UInt32.ofNat (LittleEndian.toNat bs))) <$> Decoder.takeBytes 4
  | .startGroup => throw .groupNotSupported
  | .endGroup => throw .groupNotSupported

/-- Passes over a value of the given layout without looking at it. -/
def skip : WireType → Decoder Unit
  | .varint => (fun _ => ()) <$> Varint.read .w64
  | .i64 => Decoder.skipBytes 8
  | .len => Payload.readLength >>= Decoder.skipBytes
  | .i32 => Decoder.skipBytes 4
  | .startGroup => throw .groupNotSupported
  | .endGroup => throw .groupNotSupported

/-- Writes a value in its layout. -/
def encode : WireValue → List UInt8
  | varint value => Varint.encode value.toNat
  | fixed64 value => LittleEndian.ofNat 8 value.toNat
  | bytes payload => Payload.encode payload
  | fixed32 value => LittleEndian.ofNat 4 value.toNat

/-- How many bytes `encode` writes. -/
def size : WireValue → Nat
  | varint value => Varint.size value.toNat
  | fixed64 _ => 8
  | bytes payload => Payload.size payload.length
  | fixed32 _ => 4

/-! ### Reading and skipping move forward -/

/-- Reading a value only drops bytes from the front, in every layout. -/
theorem forward_read (wireType : WireType) : Decoder.Forward (read wireType) := by
  cases wireType with
  | varint => exact (Varint.Forward.readValue .w64).map _
  | i64 => exact (Decoder.Forward.takeBytes 8).map _
  | len => exact Payload.forward_read.map _
  | i32 => exact (Decoder.Forward.takeBytes 4).map _
  | startGroup => exact Decoder.Forward.throw _
  | endGroup => exact Decoder.Forward.throw _

/-- Passing over a value only drops bytes from the front, in every
layout. -/
theorem forward_skip (wireType : WireType) : Decoder.Forward (skip wireType) := by
  cases wireType with
  | varint => exact (Varint.Forward.read .w64).map _
  | i64 => exact Decoder.Forward.skipBytes 8
  | len => exact Payload.forward_readLength.bind Decoder.Forward.skipBytes
  | i32 => exact Decoder.Forward.skipBytes 4
  | startGroup => exact Decoder.Forward.throw _
  | endGroup => exact Decoder.Forward.throw _

/-- A value comes in the layout it was asked for. -/
theorem wireType_of_read {wireType : WireType} {input rest : Input} {value : WireValue}
    (h : read wireType input = .ok value rest) : value.wireType = wireType := by
  cases wireType <;> simp only [read] at h
  case startGroup => cases h
  case endGroup => cases h
  all_goals
    obtain ⟨_, _, _, rfl⟩ := Decoder.eq_of_map_ok h
    rfl

end WireValue

end ProtoWire
