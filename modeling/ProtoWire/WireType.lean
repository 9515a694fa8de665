/-!
# `ProtoWire.WireType`: how the value of a record is laid out

Every record of an encoded message opens with a key, and the low three
bits of the key say how long the value is and how to read it. Six of
the eight codes are in use. The statements:

* `WireType.ofCode?_eq_some_iff`: a layout is read from its own code
  and from no other.
* `WireType.ofCode?_eq_none_iff`: the codes without a layout are those
  from 6 on, so of the three-bit codes only 6 and 7 mean nothing.
-/

set_option autoImplicit false

namespace ProtoWire

/-- The layouts a value can have. Groups are an old way to nest
messages; their two markers keep a code, but no value is read for
them. -/
inductive WireType where
  /-- A number in base-128 digits. -/
  | varint
  /-- Eight bytes, little endian. -/
  | i64
  /-- A length and that many bytes. -/
  | len
  /-- The opening marker of a group. -/
  | startGroup
  /-- The closing marker of a group. -/
  | endGroup
  /-- Four bytes, little endian. -/
  | i32
  deriving DecidableEq, Repr

namespace WireType

/-- The three-bit code of a layout. -/
def code : WireType → Nat
  | varint => 0
  | i64 => 1
  | len => 2
  | startGroup => 3
  | endGroup => 4
  | i32 => 5

/-- The layout with the given code. -/
def ofCode? : Nat → Option WireType
  | 0 => some varint
  | 1 => some i64
  | 2 => some len
  | 3 => some startGroup
  | 4 => some endGroup
  | 5 => some i32
  | _ => none

/-- The name a layout goes by in messages to the user. -/
def name : WireType → String
  | varint => "Varint"
  | i64 => "I64"
  | len => "Len"
  | startGroup => "SGroup"
  | endGroup => "EGroup"
  | i32 => "I32"

/-- The codes go from 0 to 5. -/
theorem code_lt (w : WireType) : w.code < 6 := by
  cases w <;> decide

/-- A layout is found again by its code. -/
@[simp]
theorem ofCode?_code (w : WireType) : ofCode? w.code = some w := by
  cases w <;> rfl

/-- Only the code of a layout finds it, so no two have the same. -/
theorem ofCode?_eq_some_iff {n : Nat} {w : WireType} : ofCode? n = some w ↔ n = w.code := by
  constructor
  · intro h
    unfold ofCode? at h
    split at h <;> simp_all <;> subst h <;> rfl
  · rintro rfl
    exact ofCode?_code w

/-- The codes without a layout are those from 6 on. -/
theorem ofCode?_eq_none_iff {n : Nat} : ofCode? n = none ↔ 6 ≤ n := by
  match n with
  | 0 | 1 | 2 | 3 | 4 | 5 => simp [ofCode?]
  | n + 6 => simp [ofCode?]

end WireType

end ProtoWire
