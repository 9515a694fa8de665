import ProtoWire.Proofs.FieldType.Value

/-!
# `ProtoWire.Proofs.FieldType.Growth`: how much longer a value can get

A value that was read and is written again need not have the length it
came in. Zero digits go away, and so do bits that the type has no room
for, which makes it shorter. The one way to get longer is a signed
number of 32 bits: cut to these it can be negative, and a negative
number is written with its sign over 64 bits. That takes ten bytes. To
have a bit at the place of the sign, the number it was read from has
five at least, so it grows by five at most (`ScalarType.size_toVarint_le`).

`FieldType.size_le_of_ofValue?` says the same of every type of field:
the wire value that stands for a value bounds what is written for it,
up to the growth of the type.
-/

set_option autoImplicit false

namespace ProtoWire

namespace ScalarType

/-- How many bytes more a number can take than it was read from. -/
def growth : ScalarType → Nat
  | int32 => 5
  | _ => 0

/-- An `int32` is written as its low 32 bits, with 32 bits set above
them if it is negative. -/
theorem toVarint_ofVarint_int32 (n : Nat) :
    int32.toVarint (int32.ofVarint n)
      = n % 2 ^ 32 + if 2 ^ 31 ≤ n % 2 ^ 32 then 2 ^ 64 - 2 ^ 32 else 0 := by
  show (UInt32.ofNat n).toInt32.toInt64.toUInt64.toNat = _
  rw [← UInt64.toNat_toBitVec, Int64.toBitVec_toUInt64, Int32.toBitVec_toInt64,
    UInt32.toBitVec_toInt32, UInt32.toBitVec_ofNat', BitVec.toNat_signExtend,
    BitVec.msb_eq_decide, BitVec.toNat_setWidth, BitVec.toNat_ofNat]
  have hlow : n % 2 ^ 32 % 2 ^ 64 = n % 2 ^ 32 := by omega
  simp only [hlow, decide_eq_true_eq]

/-- Ten bytes are needed at most, and where the sign is set five were
there. -/
theorem size_toVarint_int32_le (n : Nat) :
    Varint.size (int32.toVarint (int32.ofVarint n)) ≤ Varint.size n + 5 := by
  by_cases hsign : 2 ^ 31 ≤ n % 2 ^ 32
  · have hten : Varint.size (int32.toVarint (int32.ofVarint n)) ≤ 10 :=
      Varint.size_le_maxBytes (w := .w64) (int32.toVarint_lt _)
    have hfive : Varint.size (2 ^ 31) = 5 := by decide +kernel
    have hread : Varint.size (2 ^ 31) ≤ Varint.size n := Varint.size_le_size (by omega)
    omega
  · rw [toVarint_ofVarint_int32, if_neg hsign]
    exact Nat.le_add_right_of_le (Varint.size_le_size (Nat.mod_le _ _))

/-- Read from a number and written again, a value is longer by its
growth at most. -/
theorem size_toVarint_le (s : ScalarType) (n : Nat) :
    Varint.size (s.toVarint (s.ofVarint n)) ≤ Varint.size n + s.growth := by
  cases s with
  -- The types without a sign of 32 bits only ever make the number smaller.
  | uint32 =>
    refine Varint.size_le_size ?_
    show (UInt32.ofNat n).toNat ≤ n
    rw [UInt32.toNat_ofNat']
    exact Nat.mod_le _ _
  | uint64 =>
    refine Varint.size_le_size ?_
    show (UInt64.ofNat n).toNat ≤ n
    rw [UInt64.toNat_ofNat']
    exact Nat.mod_le _ _
  | int64 =>
    refine Varint.size_le_size ?_
    show (UInt64.ofNat n).toInt64.toUInt64.toNat ≤ n
    rw [UInt64.toUInt64_toInt64, UInt64.toNat_ofNat']
    exact Nat.mod_le _ _
  | bool =>
    refine Varint.size_le_size ?_
    show (n != 0).toNat ≤ n
    by_cases hn : n = 0
    · rw [hn]
      decide
    · rw [bne_iff_ne.mpr hn]
      exact Nat.one_le_iff_ne_zero.mpr hn
  | int32 => exact size_toVarint_int32_le n

end ScalarType

namespace FieldType

/-- How many bytes more a value can take than it was read from. -/
def growth : FieldType → Nat
  | scalar s => s.growth
  | string => 0

/-- What is written for a value is longer than what stood for it by the
growth of its type at most. -/
theorem size_le_of_ofValue? {t : FieldType} {value : WireValue} {v : t.Value}
    (h : t.ofValue? value = some v) : t.size v ≤ value.size + t.growth := by
  cases t with
  | scalar s =>
    obtain ⟨n, rfl, rfl⟩ := ofValue?_scalar_eq_some_iff.mp h
    show s.size (s.ofVarint n.toNat) ≤ _
    rw [s.size_eq]
    exact s.size_toVarint_le n.toNat
  | string =>
    -- A text is the payload that was there.
    rw [← size_toValue, toValue_string, ← ofValue?_string_eq_some_iff.mp h]
    exact Nat.le_add_right _ _

end FieldType

end ProtoWire
