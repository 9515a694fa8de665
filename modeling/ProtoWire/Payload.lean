import ProtoWire.Varint.Read

/-!
# `ProtoWire.Payload`: bytes behind their length

Text, bytes and messages inside a stream are written as a length and
that many bytes. The length is a 64-bit varint that is checked against
what is left before anything is taken, so a length can be as large as
it likes without harm. The statements:

* `readCheckedLength_of_le`, `readCheckedLength_of_lt`,
  `readCheckedLength_of_error`: the three ways the check can end.
* `le_remaining_of_readCheckedLength`: after a checked length, that
  many bytes are there.
* `forward_readLength`, `forward_readCheckedLength`, `forward_read`:
  the reads only move forward.
-/

set_option autoImplicit false

namespace ProtoWire.Payload

/-- Reads a length, and nothing of what it announces. -/
def readLength : Decoder Nat :=
  Varint.readShort .w64

/-- Reads a length and makes sure that many bytes follow. If they do
not, the length itself is used up all the same. -/
def readCheckedLength : Decoder Nat := fun input =>
  match readLength input with
  | .ok length rest =>
    if rest.remaining < length then .error .unexpectedEnd rest else .ok length rest
  | .error e rest => .error e rest

/-- Reads a length and the bytes it announces. -/
def read : Decoder (List UInt8) :=
  readCheckedLength >>= Decoder.takeBytes

/-- Writes bytes behind their length. -/
def encode (bytes : List UInt8) : List UInt8 :=
  Varint.encode bytes.length ++ bytes

/-- How many bytes `encode` writes for `length` bytes. -/
def size (length : Nat) : Nat :=
  Varint.size length + length

/-! ### The check -/

section

variable {input rest : Input} {length : Nat} {e : DecodeError}

/-- A length passes the check if its bytes are there. -/
theorem readCheckedLength_of_le (h : readLength input = .ok length rest)
    (hle : length ≤ rest.remaining) : readCheckedLength input = .ok length rest := by
  simp only [readCheckedLength, h, Nat.not_lt.mpr hle, if_false]

/-- A length that says too much is used up, and nothing behind it. -/
theorem readCheckedLength_of_lt (h : readLength input = .ok length rest)
    (hlt : rest.remaining < length) : readCheckedLength input = .error .unexpectedEnd rest := by
  simp only [readCheckedLength, h, hlt, if_true]

/-- Where there is no length, its error is passed on. -/
theorem readCheckedLength_of_error (h : readLength input = .error e rest) :
    readCheckedLength input = .error e rest := by
  simp only [readCheckedLength, h]

end

/-! ### Reading moves forward -/

/-- Reading a length only drops bytes from the front. -/
theorem forward_readLength : Decoder.Forward readLength :=
  Varint.Forward.readShort .w64

/-- Checking a length drops nothing besides the length. -/
theorem forward_readCheckedLength : Decoder.Forward readCheckedLength := by
  intro input
  have hlength := forward_readLength input
  cases hrun : readLength input with
  | error e rest =>
    rw [Decoder.rest_of_error hrun] at hlength
    rwa [Decoder.rest_of_error (readCheckedLength_of_error hrun)]
  | ok length rest =>
    rw [Decoder.rest_of_ok hrun] at hlength
    by_cases hshort : rest.remaining < length
    · rwa [Decoder.rest_of_error (readCheckedLength_of_lt hrun hshort)]
    · rwa [Decoder.rest_of_ok (readCheckedLength_of_le hrun (Nat.not_lt.mp hshort))]

/-- Reading a length and the bytes behind it only drops bytes from the
front. -/
theorem forward_read : Decoder.Forward read :=
  forward_readCheckedLength.bind Decoder.Forward.takeBytes

/-- What a checked length announces is there. -/
theorem le_remaining_of_readCheckedLength {input rest : Input} {length : Nat}
    (h : readCheckedLength input = .ok length rest) : length ≤ rest.remaining := by
  unfold readCheckedLength at h
  split at h
  · split at h
    · cases h
    · rename_i henough
      cases h
      exact Nat.not_lt.mp henough
  · cases h

end ProtoWire.Payload
