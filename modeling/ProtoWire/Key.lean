import ProtoWire.Varint.Read

/-!
# `ProtoWire.Key`: the key in front of every value

A key names the field a value belongs to and the layout of the value.
It is a 32-bit varint with the layout's code in the low three bits and
the field number in the other 29. The statements:

* `FieldNumber.ofNat?_eq_some_iff`: the numbers that a key can carry.
* `Key.ofPacked_packed`: packing a layout and a number and taking them
  apart again gives the key of both.
* `Key.remaining_lt_of_read`: reading a key uses up at least one byte.
-/

set_option autoImplicit false

namespace ProtoWire

/-- The number of a field: positive, and of at most 29 bits. -/
structure FieldNumber where
  val : Nat
  one_le : 1 ≤ val := by decide
  le_largest : val ≤ 536870911 := by decide
  deriving DecidableEq, Repr

namespace FieldNumber

/-- The least number of a field. -/
def smallest : Nat := 1

/-- The greatest number of a field: 29 bits, all set. -/
def largest : Nat := 536870911

/-- The number most messages begin with. -/
def one : FieldNumber := { val := 1 }

/-- The number after it. -/
def two : FieldNumber := { val := 2 }

/-- The number after that. -/
def three : FieldNumber := { val := 3 }

/-- The number that no other comes after. -/
def last : FieldNumber := { val := 536870911 }

/-- The field number `n`, if it is one. -/
def ofNat? (n : Nat) : Option FieldNumber :=
  if h : smallest ≤ n ∧ n ≤ largest then some ⟨n, h.1, h.2⟩ else none

/-- A field number is nothing but its value. -/
theorem eq_iff {m n : FieldNumber} : m = n ↔ m.val = n.val := by
  cases m
  cases n
  simp

/-- A number is made into a field number exactly if it is one. -/
theorem ofNat?_eq_some_iff {n : Nat} {number : FieldNumber} :
    ofNat? n = some number ↔ n = number.val := by
  unfold ofNat?
  constructor
  · intro h
    split at h
    · cases h
      rfl
    · cases h
  · rintro rfl
    exact dif_pos ⟨number.one_le, number.le_largest⟩

/-- A field number can be made again from its value. -/
@[simp]
theorem ofNat?_val (number : FieldNumber) : ofNat? number.val = some number :=
  ofNat?_eq_some_iff.mpr rfl

end FieldNumber

/-- What stands in front of a value. -/
structure Key where
  wireType : WireType
  number : FieldNumber
  deriving DecidableEq, Repr

/-- The layout with a given code, or the error that names the code. -/
def WireType.ofCode (code : Nat) : Except DecodeError WireType :=
  match WireType.ofCode? code with
  | some wireType => .ok wireType
  | none => .error (.invalidWireType code)

namespace Key

/-- The key for a layout and a number, if the number can be one. -/
def ofParts (wireType : WireType) (number : Nat) : Except DecodeError Key :=
  match FieldNumber.ofNat? number with
  | some number => .ok ⟨wireType, number⟩
  | none => .error .fieldNumberOutOfRange

/-- The key for the code of a layout and a number. The layout is looked
at before the number, so of two faults the layout is reported. -/
def ofCode (code number : Nat) : Except DecodeError Key :=
  match WireType.ofCode code with
  | .ok wireType => ofParts wireType number
  | .error e => .error e

/-- The 32 bits of a key. The number is shifted over the code; of a
number that is no field number, the bits above the 29th are lost. -/
def packed (wireType : WireType) (number : Nat) : Nat :=
  8 * number % UInt32.size + wireType.code

/-- Takes the 32 bits of a key apart. -/
def ofPacked (bits : Nat) : Except DecodeError Key :=
  ofCode (bits % 8) (bits / 8)

/-- Writes the key for a layout and a number. -/
def encode (wireType : WireType) (number : Nat) : List UInt8 :=
  Varint.encode (packed wireType number)

/-- How many bytes the key of a number has. The code of the layout only
fills the low three bits, which never changes the length. -/
def size (number : Nat) : Nat :=
  Varint.size (8 * number % UInt32.size)

/-- Reads a key. Its varint is used up before what it says is looked
at; where nothing is left, there is no key to speak of. -/
def read : Decoder Key := fun input =>
  if input.isEmpty then .error .missingKey input
  else
    match Varint.readShort .w32 input with
    | .ok bits rest =>
      match ofPacked bits with
      | .ok key => .ok key rest
      | .error e => .error e rest
    | .error e rest => .error e rest

/-- A key in words. -/
def description (key : Key) : String :=
  "ProtoKey \x7b wire_type: " ++ key.wireType.name ++ ", tag: " ++ toString key.number.val
    ++ " \x7d"

/-! ### Packing -/

/-- No bit of a field number is lost when it is packed with a layout. -/
theorem packed_of_number (wireType : WireType) (number : FieldNumber) :
    packed wireType number.val = 8 * number.val + wireType.code := by
  -- A field number has 29 bits, so shifting it by three stays within 32.
  have := number.le_largest
  unfold packed
  rw [Nat.mod_eq_of_lt (by rw [UInt32.size]; omega)]

/-- The two parts do not disturb each other. -/
theorem ofPacked_packed (wireType : WireType) (number : FieldNumber) :
    ofPacked (packed wireType number.val) = .ok ⟨wireType, number⟩ := by
  have hcode := wireType.code_lt
  have hlow : (8 * number.val + wireType.code) % 8 = wireType.code := by omega
  have hhigh : (8 * number.val + wireType.code) / 8 = number.val := by omega
  rw [packed_of_number]
  simp only [ofPacked, ofCode, WireType.ofCode, ofParts, hlow, hhigh, WireType.ofCode?_code,
    FieldNumber.ofNat?_val]

/-! ### Reading moves forward -/

/-- Reading a key only drops bytes from the front. -/
theorem forward_read : Decoder.Forward read := by
  intro input
  by_cases hempty : input.isEmpty = true
  · -- Nothing is there, so nothing can be dropped.
    have hrun : read input = .error .missingKey input := if_pos hempty
    exact (Decoder.rest_of_error hrun).symm ▸ List.suffix_refl _
  · have hbits := Varint.Forward.readShort .w32 input
    unfold Decoder.rest at hbits ⊢
    unfold read
    rw [if_neg hempty]
    cases hrun : Varint.readShort .w32 input with
    | error e rest =>
      rw [hrun] at hbits
      exact hbits
    | ok bits rest =>
      rw [hrun] at hbits
      -- The bits are judged after they were read, and the verdict moves nothing.
      cases hkey : ofPacked bits with
      | ok key => simpa only [hkey] using hbits
      | error e => simpa only [hkey] using hbits

/-- A key that is there has a byte, so reading it leaves less. -/
theorem remaining_lt_of_read {input rest : Input} {key : Key}
    (h : read input = .ok key rest) : rest.remaining < input.remaining := by
  unfold read at h
  split at h
  · cases h
  · split at h
    · rename_i bits left hrun
      split at h
      · cases h
        exact Varint.remaining_lt_of_readShort hrun
      · cases h
    · cases h

end Key

end ProtoWire
