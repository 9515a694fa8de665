import ProtoWire.WireType

/-!
# `ProtoWire.Error`: what can go wrong

A read can fail for a number of causes, a bounded write for one. Each
cause is a constructor that carries what its message needs, and the
wording lives in `DecodeError.message` and `EncodeError.message` alone.
-/

set_option autoImplicit false

namespace ProtoWire

/-- Why bytes could not be read. -/
inductive DecodeError where
  /-- A key whose low three bits are `code`, which no layout has. -/
  | invalidWireType (code : Nat)
  /-- A key was asked for where no byte is left. -/
  | missingKey
  /-- A field number outside the range that keys can carry. -/
  | fieldNumberOutOfRange
  /-- A varint that is too long, or too large for its width. -/
  | invalidVarint
  /-- The input ends inside what is being read. -/
  | unexpectedEnd
  /-- A group marker where a value should be. -/
  | groupNotSupported
  /-- A text payload that is not well-formed UTF-8. -/
  | invalidUtf8
  /-- A length that no buffer in memory could have. With addresses of 64
  bits every length could be one, so no read ends this way. -/
  | lengthOverflow (length : Nat)
  /-- A message longer than the reader is willing to take. -/
  | messageTooLarge (length limit : Nat)
  /-- A known field whose value has the wrong layout. -/
  | wireTypeMismatch (number : Nat) (expected actual : WireType)
  deriving DecidableEq, Repr

/-- The text shown for a failed read. -/
def DecodeError.message : DecodeError → String
  | invalidWireType code => s!"invalid 'wire type' value: {code}"
  | missingKey => "invalid key: 'empty buffer'"
  | fieldNumberOutOfRange => "invalid key: 'tag out of range'"
  | invalidVarint => "invalid leb128 varint"
  | unexpectedEnd => "unexpected end of buffer"
  | groupNotSupported => "deprecated group encoding not supported"
  | invalidUtf8 => "invalid UTF-8 in string field"
  | lengthOverflow length => s!"length prefix {length} exceeds platform addressable memory"
  | messageTooLarge length limit =>
    s!"message of {length} bytes exceeds the limit of {limit} bytes"
  | wireTypeMismatch number expected actual =>
    s!"field {number} has wire type {actual.name}, expected {expected.name}"

/-- Why a message was not written: it needs `required` bytes and the
destination has room for `room`. -/
structure EncodeError where
  required : Nat
  room : Nat
  deriving DecidableEq, Repr

/-- The text shown for a refused write. -/
def EncodeError.message (e : EncodeError) : String :=
  s!"insufficient buffer capacity: required {e.required} bytes, {e.room} remaining"

/-- The texts, with numbers and layouts where they stand. -/
example :
    [DecodeError.invalidWireType 6, .missingKey, .fieldNumberOutOfRange, .invalidVarint,
        .unexpectedEnd, .groupNotSupported, .invalidUtf8, .lengthOverflow 4294967296,
        .messageTooLarge 12 10, .wireTypeMismatch 2 .varint .startGroup].map DecodeError.message
      = ["invalid 'wire type' value: 6", "invalid key: 'empty buffer'",
        "invalid key: 'tag out of range'", "invalid leb128 varint", "unexpected end of buffer",
        "deprecated group encoding not supported", "invalid UTF-8 in string field",
        "length prefix 4294967296 exceeds platform addressable memory",
        "message of 12 bytes exceeds the limit of 10 bytes",
        "field 2 has wire type SGroup, expected Varint"] ∧
      EncodeError.message ⟨4, 3⟩
        = "insufficient buffer capacity: required 4 bytes, 3 remaining" := by
  decide +kernel

end ProtoWire
