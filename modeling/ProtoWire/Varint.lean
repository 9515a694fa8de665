import ProtoWire.Error

/-!
# `ProtoWire.Varint`: numbers in base-128 digits

A varint is a number written in base 128, lowest digit first, one digit
to a byte; the high bit of a byte says that another digit follows. A
number is written with as few digits as it needs, but trailing zero
digits are accepted when reading, up to the number of bytes its width
allows. The statements:

* `encode_of_lt`, `encode_of_ge`: the two equations of the writer.
* `encode_ne_nil`: every number has at least one byte.
* `decode_count`: an accepted varint uses between one and
  `Width.maxBytes` bytes, all of which are there.
-/

set_option autoImplicit false

namespace ProtoWire.Varint

/-- The two widths a varint can be read at. -/
inductive Width where
  | w32
  | w64
  deriving DecidableEq, Repr

namespace Width

/-- How many values there are of the width. -/
def size : Width → Nat
  | w32 => UInt32.size
  | w64 => UInt64.size

/-- How many digits fit the width whatever they are: seven bits each,
they leave a rest that only a part of the last digit can fill. -/
def freeDigits : Width → Nat
  | w32 => 4
  | w64 => 9

/-- The largest last digit: four bits are left of 32, one of 64. -/
def lastDigitMax : Width → Nat
  | w32 => 0x0f
  | w64 => 0x01

/-- The most bytes that are read as one number. -/
def maxBytes (w : Width) : Nat :=
  w.freeDigits + 1

end Width

/-- Reads digits, of which `free` may have any value. The digit after
those must be the last, and at most `last`. Answers the value and the
number of bytes it took. -/
def decodeDigits (last : Nat) : (free : Nat) → List UInt8 → Except DecodeError (Nat × Nat)
  | _, [] => .error .unexpectedEnd
  | 0, b :: _ => if b.toNat ≤ last then .ok (b.toNat, 1) else .error .invalidVarint
  | free + 1, b :: bs =>
    if b.toNat < 128 then .ok (b.toNat, 1)
    else
      match decodeDigits last free bs with
      | .ok (value, count) => .ok (b.toNat - 128 + 128 * value, count + 1)
      | .error e => .error e

/-- Reads the varint at the front of `bytes`: its value and how many
bytes it has. -/
def decode (w : Width) (bytes : List UInt8) : Except DecodeError (Nat × Nat) :=
  decodeDigits w.lastDigitMax w.freeDigits bytes

/-- Writes a number with the fewest digits. -/
def encode (n : Nat) : List UInt8 :=
  if n < 128 then [UInt8.ofNat n]
  else UInt8.ofNat (n % 128 + 128) :: encode (n / 128)
termination_by n
decreasing_by omega

/-- How many bytes `encode` writes, from the position of the highest
bit: seven bits go into a byte, and zero takes one byte as well. -/
def size (n : Nat) : Nat :=
  n.log2 / 7 + 1

/-! ### Writing -/

/-- A number of seven bits is one byte. -/
theorem encode_of_lt {n : Nat} (h : n < 128) : encode n = [UInt8.ofNat n] := by
  rw [encode, if_pos h]

/-- A larger one begins with its lowest digit, which says that others
follow. -/
theorem encode_of_ge {n : Nat} (h : 128 ≤ n) :
    encode n = UInt8.ofNat (n % 128 + 128) :: encode (n / 128) := by
  rw [encode, if_neg (Nat.not_lt.mpr h)]

/-- Every number has a byte, zero too. -/
theorem encode_ne_nil (n : Nat) : encode n ≠ [] := by
  rw [encode]
  split <;> simp

/-! ### Reading -/

/-- Reading digits takes a byte at least, one more than the free digits
at most, and no more than are there. -/
theorem decodeDigits_count {last free value count : Nat} {bytes : List UInt8}
    (h : decodeDigits last free bytes = .ok (value, count)) :
    0 < count ∧ count ≤ free + 1 ∧ count ≤ bytes.length := by
  fun_induction decodeDigits last free bytes generalizing value count with
  | case1 => cases h
  | case2 =>
    cases h
    simp
  | case3 => cases h
  | case4 =>
    cases h
    simp
  | case5 _ _ _ _ v c heq ih =>
    -- One more digit in front of a number that satisfies the bounds with one free digit less.
    cases h
    have := ih heq
    simp
    omega
  | case6 => cases h

/-- An accepted varint has at least one byte, no more than its width
allows, and no more than are there. -/
theorem decode_count {w : Width} {bytes : List UInt8} {value count : Nat}
    (h : decode w bytes = .ok (value, count)) :
    0 < count ∧ count ≤ w.maxBytes ∧ count ≤ bytes.length :=
  decodeDigits_count h

end ProtoWire.Varint
