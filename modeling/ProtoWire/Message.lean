import ProtoWire.FieldType
import ProtoWire.Record

/-!
# `ProtoWire.Message`: messages with known and unknown fields

A type of message is given by a table of its fields and by a place for
the records that have no field there. Writing, measuring and reading
are then the same for every type: the fields are written in the order
of the table, those with their default value not at all, and the
unknown records follow in the order they were found. The statements:

* `field?_eq_some`: the field found for a number is in the table and
  has that number.
* `forward_readKnown`: reading a known field only moves forward.
-/

set_option autoImplicit false

namespace ProtoWire

/-- A field of the messages of type `M`. -/
structure Field (M : Type) where
  number : FieldNumber
  type : FieldType
  get : M → type.Value
  set : type.Value → M → M

/-- A type of message. -/
class Message (M : Type) where
  /-- The name of the type, as reports show it. -/
  fullName : String
  /-- The message in which every field has its default value. -/
  empty : M
  /-- The known fields, in the order they are written. -/
  fields : List (Field M)
  /-- The records that no known field took, in the order they came. -/
  unknown : M → List Record
  /-- Puts other records in their place. -/
  setUnknown : List Record → M → M

namespace Field

variable {M : Type}

/-- Writes a field of a message. -/
def encode (message : M) (field : Field M) : List UInt8 :=
  field.type.encodeField field.number.val (field.get message)

/-- How many bytes `encode` writes. -/
def size (message : M) (field : Field M) : Nat :=
  field.type.fieldSize field.number.val (field.get message)

/-- Reads the value behind a key over the value of a field. -/
def readInto (key : Key) (field : Field M) : Filler M Unit :=
  (field.type.readField key).within field.get field.set

end Field

namespace Message

variable {M : Type} [Message M]

/-- Adds a record behind the unknown ones. -/
def addUnknown (record : Record) (message : M) : M :=
  setUnknown (unknown message ++ [record]) message

/-- The known field with a given number. -/
def field? (M : Type) [Message M] (number : FieldNumber) : Option (Field M) :=
  (fields : List (Field M)).find? fun field => field.number = number

/-- Reads the value behind a key if its field is known. Answers whether
it is; if not, neither the input nor the message is touched. -/
def readKnown (key : Key) : Filler M Bool :=
  match field? M key.number with
  | some field => do
    field.readInto key
    pure true
  | none => pure false

/-- Writes a message. -/
def encode (message : M) : List UInt8 :=
  fields.flatMap (Field.encode message) ++ Record.encodeAll (unknown message)

/-- How many bytes `encode` writes, without writing them. -/
def size (message : M) : Nat :=
  fields.foldr (fun field rest => field.size message + rest) (Record.sizeAll (unknown message))

/-- Writes a message behind its length, so that others can follow. The
length is the computed one. -/
def encodeDelimited (message : M) : List UInt8 :=
  Varint.encode (size message) ++ encode message

/-- How many bytes `encodeDelimited` writes. -/
def delimitedSize (message : M) : Nat :=
  Payload.size (size message)

/-- The field that is found for a number is in the table and has that
number. -/
theorem field?_eq_some {number : FieldNumber} {field : Field M}
    (h : field? M number = some field) : field ∈ fields ∧ field.number = number := by
  have hnumber := List.find?_some h
  exact ⟨List.mem_of_find?_eq_some h, of_decide_eq_true hnumber⟩

/-! ### Reading moves forward -/

/-- Reading a known field only drops bytes from the front, and nothing
is dropped where there is none. -/
theorem forward_readKnown (key : Key) : Filler.Forward (readKnown key : Filler M Bool) := by
  unfold readKnown
  split
  · exact (Filler.Forward.within (FieldType.forward_readField _ key)).bind
      fun _ => Filler.Forward.pure true
  · exact Filler.Forward.pure false

end Message

end ProtoWire
