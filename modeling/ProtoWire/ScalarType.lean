import ProtoWire.Varint

/-!
# `ProtoWire.ScalarType`: field types that are written as one varint

Numbers and truth values travel as 64-bit varints. A signed number is
widened to 64 bits with its sign, so a negative one always takes ten
bytes, and a narrow type keeps only the low bits of what it reads. A
truth value is the number 0 or 1, but no writer of varints is needed for
it: it is one byte, and is put as that. The statements:

* `toVarint_lt`: what is written fits in 64 bits.
* `ofVarint_toVarint`: reading back what was written gives the value.
* `isDefault_iff`: the test for the default value is an equation.
* `encode_eq`, `size_eq`: the byte of a truth value is the varint of its
  number, so all types are written alike.
-/

set_option autoImplicit false

namespace ProtoWire

/-- The field types that are written as one varint. -/
inductive ScalarType where
  | uint32
  | uint64
  | int32
  | int64
  | bool
  deriving DecidableEq, Repr

namespace ScalarType

/-- The values of a type. -/
@[reducible]
def Value : ScalarType → Type
  | uint32 => UInt32
  | uint64 => UInt64
  | int32 => Int32
  | int64 => Int64
  | bool => Bool

/-- The value a field has when nothing was said about it. -/
def default : (s : ScalarType) → s.Value
  | uint32 => 0
  | uint64 => 0
  | int32 => 0
  | int64 => 0
  | bool => false

/-- Whether a value is the default one. -/
def isDefault : (s : ScalarType) → s.Value → Bool
  | uint32, v => v == 0
  | uint64, v => v == 0
  | int32, v => v == 0
  | int64, v => v == 0
  | bool, v => !v

/-- The number that stands for a value. -/
def toVarint : (s : ScalarType) → s.Value → Nat
  | uint32, v => v.toNat
  | uint64, v => v.toNat
  | int32, v => v.toInt64.toUInt64.toNat
  | int64, v => v.toUInt64.toNat
  | bool, v => v.toNat

/-- Writes a value. A truth value is one byte. -/
def encode : (s : ScalarType) → s.Value → List UInt8
  | bool, v => [v.toUInt8]
  | s, v => Varint.encode (s.toVarint v)

/-- How many bytes `encode` writes. -/
def size : (s : ScalarType) → s.Value → Nat
  | bool, _ => 1
  | s, v => Varint.size (s.toVarint v)

/-- The value that a number stands for. Every number stands for one:
bits that the type has no room for are dropped, and any number but
zero is true. -/
def ofVarint : (s : ScalarType) → Nat → s.Value
  | uint32, n => UInt32.ofNat n
  | uint64, n => UInt64.ofNat n
  | int32, n => (UInt32.ofNat n).toInt32
  | int64, n => (UInt64.ofNat n).toInt64
  | bool, n => n != 0

/-- Widening a number with its sign and cutting it back to its low
bits changes nothing. -/
theorem toInt32_toInt64 (v : Int32) : v.toInt64.toUInt64.toUInt32.toInt32 = v := by
  apply Int32.toBitVec_inj.mp
  rw [UInt32.toBitVec_toInt32, UInt64.toBitVec_toUInt32, Int64.toBitVec_toUInt64,
    Int32.toBitVec_toInt64]
  -- The low 32 bits of the widened number are the bits it was widened from.
  ext i hi
  have hwide : i < 64 := by omega
  rw [BitVec.getElem_setWidth, BitVec.getLsbD_signExtend]
  simp [hi, hwide, BitVec.getLsbD_eq_getElem]

/-- The number that stands for a value fits in 64 bits. -/
theorem toVarint_lt (s : ScalarType) (v : s.Value) : s.toVarint v < UInt64.size := by
  cases s with
  | uint32 => exact Nat.lt_trans (UInt32.toNat_lt v) (by decide)
  | uint64 => exact UInt64.toNat_lt v
  | int32 => exact UInt64.toNat_lt _
  | int64 => exact UInt64.toNat_lt _
  | bool => cases v <;> decide

/-- The number that stands for a value stands for that value. -/
theorem ofVarint_toVarint (s : ScalarType) (v : s.Value) : s.ofVarint (s.toVarint v) = v := by
  cases s with
  | uint32 => exact UInt32.ofNat_toNat
  | uint64 => exact UInt64.ofNat_toNat
  | int32 =>
    show (UInt32.ofNat (Int32.toInt64 v).toUInt64.toNat).toInt32 = v
    rw [UInt32.ofNat_uInt64ToNat]
    exact toInt32_toInt64 v
  | int64 =>
    show (UInt64.ofNat (Int64.toUInt64 v).toNat).toInt64 = v
    rw [UInt64.ofNat_toNat, Int64.toInt64_toUInt64]
  | bool => cases v <;> rfl

/-- The test for the default value is an equation. -/
theorem isDefault_iff {s : ScalarType} {v : s.Value} : s.isDefault v = true ↔ v = s.default := by
  cases s with
  | uint32 => exact beq_iff_eq
  | uint64 => exact beq_iff_eq
  | int32 => exact beq_iff_eq
  | int64 => exact beq_iff_eq
  | bool => cases v <;> decide

/-! ### All types are written alike -/

/-- The byte of a truth value is the varint of 0 or 1. -/
theorem encode_bool (v : Bool) : bool.encode v = Varint.encode v.toNat := by
  have hsmall : v.toNat < 128 := Nat.lt_of_le_of_lt (Bool.toNat_le v) (by decide)
  rw [Varint.encode_of_lt hsmall]
  cases v <;> rfl

/-- Whichever the type, what is written is the varint of the number that
stands for the value. -/
theorem encode_eq (s : ScalarType) (v : s.Value) : s.encode v = Varint.encode (s.toVarint v) := by
  cases s with
  | bool => exact encode_bool v
  | _ => rfl

/-- The one byte that is counted for a truth value is what its number
takes. -/
theorem size_eq (s : ScalarType) (v : s.Value) : s.size v = Varint.size (s.toVarint v) := by
  cases s with
  | bool => cases v <;> decide
  | _ => rfl

end ScalarType

end ProtoWire
