import ProtoWire.WireValue

/-!
# `ProtoWire.Record`: a field number and a value

An encoded message is a sequence of records: a key, and a value in the
layout the key names. Read without a schema, all records are kept, and
written again they are the same message. The statements:

* `remaining_lt_of_read`: reading a record uses up at least one byte,
  so a message has finitely many.
* `encodeAll_append`, `sizeAll_append`: the records of a message are
  written one after the other.
-/

set_option autoImplicit false

namespace ProtoWire

/-- A value under its field number, with the layout it came in. -/
structure Record where
  number : FieldNumber
  value : WireValue
  deriving DecidableEq, Repr

namespace Record

/-- A record for a number, if the number can be one. -/
def ofParts? (number : Nat) (value : WireValue) : Option Record :=
  (FieldNumber.ofNat? number).map fun number => ⟨number, value⟩

/-- Reads the value that a key announces. -/
def readValue (key : Key) : Decoder Record :=
  Record.mk key.number <$> WireValue.read key.wireType

/-- Reads a key and the value it announces. -/
def read : Decoder Record :=
  Key.read >>= readValue

/-- Writes a record. -/
def encode (record : Record) : List UInt8 :=
  Key.encode record.value.wireType record.number.val ++ record.value.encode

/-- How many bytes `encode` writes. -/
def size (record : Record) : Nat :=
  Key.size record.number.val + record.value.size

/-- Writes records one after the other. -/
def encodeAll (records : List Record) : List UInt8 :=
  records.flatMap encode

/-- How many bytes `encodeAll` writes. -/
def sizeAll (records : List Record) : Nat :=
  records.foldr (fun record rest => record.size + rest) 0

/-! ### Reading every record -/

/-- Reading the value of a record only drops bytes from the front. -/
theorem forward_readValue (key : Key) : Decoder.Forward (readValue key) :=
  (WireValue.forward_read key.wireType).map _

/-- A record starts with a key, so reading it leaves less. -/
theorem remaining_lt_of_read {input rest : Input} {record : Record}
    (h : read input = .ok record rest) : rest.remaining < input.remaining := by
  unfold read at h
  cases hkey : Key.read input with
  | error e left =>
    rw [Decoder.bind_of_error hkey] at h
    cases h
  | ok key left =>
    -- The key has used up a byte already, and its value gives none back.
    rw [Decoder.bind_of_ok hkey] at h
    have hle := (forward_readValue key).remaining_le left
    rw [Decoder.rest_of_ok h] at hle
    exact Nat.lt_of_le_of_lt hle (Key.remaining_lt_of_read hkey)

/-- Reads records until nothing is left, after those in `found`. -/
def readAllAfter (found : List Record) (input : Input) :
    EStateM.Result DecodeError Input (List Record) :=
  if input.isEmpty then .ok found input
  else
    match _ : read input with
    | .ok record rest => readAllAfter (found ++ [record]) rest
    | .error e rest => .error e rest
termination_by input.remaining
decreasing_by exact remaining_lt_of_read ‹_›

/-- All records of a message, in the order they arrive. -/
def readAll : Decoder (List Record) :=
  readAllAfter []

/-! ### Writing record by record -/

@[simp]
theorem encodeAll_nil : encodeAll [] = [] := rfl

/-- Records are written one behind the other. -/
@[simp]
theorem encodeAll_cons (record : Record) (records : List Record) :
    encodeAll (record :: records) = record.encode ++ encodeAll records := by
  simp [encodeAll]

/-- Two lists of records are written one behind the other. -/
@[simp]
theorem encodeAll_append (xs ys : List Record) :
    encodeAll (xs ++ ys) = encodeAll xs ++ encodeAll ys := by
  simp [encodeAll]

@[simp]
theorem sizeAll_nil : sizeAll [] = 0 := rfl

@[simp]
theorem sizeAll_cons (record : Record) (records : List Record) :
    sizeAll (record :: records) = record.size + sizeAll records := rfl

/-- A record of a list takes no more than the list. -/
theorem size_le_sizeAll {record : Record} {records : List Record} (h : record ∈ records) :
    record.size ≤ sizeAll records := by
  induction records with
  | nil => cases h
  | cons other records ih =>
    rw [sizeAll_cons]
    rcases List.mem_cons.mp h with rfl | hrest
    · exact Nat.le_add_right _ _
    · exact Nat.le_add_left_of_le (ih hrest)

/-- The sizes of two lists of records add up. -/
@[simp]
theorem sizeAll_append (xs ys : List Record) :
    sizeAll (xs ++ ys) = sizeAll xs + sizeAll ys := by
  induction xs with
  | nil => rw [List.nil_append, sizeAll_nil, Nat.zero_add]
  | cons x xs ih => rw [List.cons_append, sizeAll_cons, sizeAll_cons, ih, Nat.add_assoc]

end Record

end ProtoWire
