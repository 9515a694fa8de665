import ProtoWire.Proofs.FieldType.Growth
import ProtoWire.Proofs.Varint.Gather

/-!
# `ProtoWire.Proofs.FieldType.Scalar`: numbers and what they stand for

A scalar is read from a number of 64 bits, whatever its own width is.
`ScalarType.StandsFor` says of each type which value a number stands
for, in whole numbers: the remainder that fits the width, counted from
the sign where there is one, or the answer whether the number is zero.

* `standsFor_ofVarint`: this is the value that is stored.
* `readInto_of_varint_ok`, `readInto_of_varint_error`: a varint is all
  that is read for it. Where there is none, its error is passed on and
  the old value is kept.
* `toVarint_toInt64`, `toVarint_toUInt32_of_nonneg`: an `int32` is
  written as an `int64` is, and as a `uint32` if it has no sign.
* `scalarsStandForNumbers`: spellings of a number are read as what it
  stands for, be there zero digits or not, and what is written is read
  back.
-/

set_option autoImplicit false

namespace ProtoWire

open Varint (IsVarint NoVarint)

namespace ScalarType

/-- The signed number whose low bits are those of `n`: with the highest
of them set, it counts from below zero. -/
def twosComplement (bits n : Nat) : Int :=
  if n % 2 ^ bits < 2 ^ (bits - 1) then (n % 2 ^ bits : Nat)
  else (n % 2 ^ bits : Nat) - (2 ^ bits : Nat)

/-- A number of 64 bits stands for a value. -/
def StandsFor : (s : ScalarType) → Nat → s.Value → Prop
  | uint32, n, v => v.toNat = n % 2 ^ 32
  | uint64, n, v => v.toNat = n
  | int32, n, v => v.toInt = twosComplement 32 n
  | int64, n, v => v.toInt = twosComplement 64 n
  | bool, n, v => v = true ↔ n ≠ 0

/-! ### The value a number stands for -/

/-- The value of bits with a sign. -/
theorem toInt_ofNat_eq (b n : Nat) : (BitVec.ofNat (b + 1) n).toInt = twosComplement (b + 1) n := by
  have hhalf : 2 * (n % 2 ^ (b + 1)) < 2 ^ (b + 1) ↔ n % 2 ^ (b + 1) < 2 ^ (b + 1 - 1) := by
    rw [Nat.add_sub_cancel]
    omega
  rw [BitVec.toInt_eq_toNat_cond, BitVec.toNat_ofNat, twosComplement]
  simp only [hhalf]

/-- What is stored for a number of 64 bits is what it stands for. -/
theorem standsFor_ofVarint (s : ScalarType) {n : Nat} (hn : n < UInt64.size) :
    s.StandsFor n (s.ofVarint n) := by
  cases s with
  | uint32 => exact UInt32.toNat_ofNat'
  | uint64 => exact UInt64.toNat_ofNat_of_lt' hn
  | int32 =>
    show (UInt32.ofNat n).toInt32.toInt = twosComplement 32 n
    rw [← Int32.toInt_toBitVec, UInt32.toBitVec_toInt32, UInt32.toBitVec_ofNat']
    exact toInt_ofNat_eq 31 n
  | int64 =>
    show (UInt64.ofNat n).toInt64.toInt = twosComplement 64 n
    rw [← Int64.toInt_toBitVec, UInt64.toBitVec_toInt64, UInt64.toBitVec_ofNat']
    exact toInt_ofNat_eq 63 n
  | bool => exact bne_iff_ne

/-- The 32 bits of a number, read as a number, stand for it. -/
theorem ofVarint_toUInt32 (v : Int32) : int32.ofVarint v.toUInt32.toNat = v := by
  show (UInt32.ofNat v.toUInt32.toNat).toInt32 = v
  rw [UInt32.ofNat_toNat, Int32.toInt32_toUInt32]

/-- Without a sign these bits are the number. -/
theorem toNat_toUInt32_of_nonneg {v : Int32} (h : 0 ≤ v.toInt) :
    (v.toUInt32.toNat : Int) = v.toInt ∧ v.toUInt32.toNat < 2 ^ 31 := by
  have hlt : v.toUInt32.toNat < 2 ^ 32 := v.toUInt32.toNat_lt
  have hstands : v.toInt = twosComplement 32 v.toUInt32.toNat := by
    have hread := standsFor_ofVarint int32 (n := v.toUInt32.toNat) (Nat.lt_trans hlt (by decide))
    rwa [ofVarint_toUInt32] at hread
  rw [hstands] at h ⊢
  unfold twosComplement at h ⊢
  rw [Nat.mod_eq_of_lt hlt] at h ⊢
  -- From the upper half of the bits on, the number would have a sign.
  split at h
  · rename_i hsmall
    rw [if_pos hsmall]
    exact ⟨rfl, hsmall⟩
  · omega

/-- A number with a sign is widened to 64 bits before it is written. -/
theorem toVarint_toInt64 (v : Int32) : int64.toVarint v.toInt64 = int32.toVarint v := rfl

/-- A number without one is written as its 32 bits. -/
theorem toVarint_toUInt32_of_nonneg {v : Int32} (h : 0 ≤ v.toInt) :
    uint32.toVarint v.toUInt32 = int32.toVarint v := by
  obtain ⟨-, hsmall⟩ := toNat_toUInt32_of_nonneg h
  have hwritten := toVarint_ofVarint_int32 v.toUInt32.toNat
  rw [ofVarint_toUInt32, Nat.mod_eq_of_lt (by omega), if_neg (by omega)] at hwritten
  exact hwritten.symm

end ScalarType

namespace FieldType

/-! ### Reading a number -/

variable {s : ScalarType} {old : s.Value} {input rest : Input} {n count : Nat} {e : DecodeError}

/-- Whatever was there before, the value of the number takes its
place. -/
theorem readInto_of_varint_ok (h : Varint.read .w64 input = .ok (n, count) rest) :
    (scalar s).readInto ⟨input, old⟩ = .ok () ⟨rest, s.ofVarint n⟩ := by
  have hread : Varint.readValue .w64 input = .ok n rest := Decoder.map_of_ok Prod.fst h
  show readScalarInto s ⟨input, old⟩ = _
  rw [readScalarInto, Filler.bind_of_ok (Filler.reading_of_ok hread)]
  rfl

/-- Without a number, nothing changes but what is left. -/
theorem readInto_of_varint_error (h : Varint.read .w64 input = .error e rest) :
    (scalar s).readInto ⟨input, old⟩ = .error e ⟨rest, old⟩ := by
  have hread : Varint.readValue .w64 input = .error e rest := Decoder.map_of_error Prod.fst h
  show readScalarInto s ⟨input, old⟩ = _
  rw [readScalarInto, Filler.bind_of_error (Filler.reading_of_error hread)]

/-- A spelling of a number is read as its value. -/
theorem stores_of_isVarint {digits : List UInt8} (s : ScalarType) (h : IsVarint .w64 digits n) :
    (scalar s).Stores digits (s.ofVarint n) := by
  have hfits : (UInt64.ofNat n).toNat = n := UInt64.toNat_ofNat_of_lt' h.lt
  have hvalue : IsValue digits (.varint (UInt64.ofNat n)) := .varint (by rwa [hfits])
  refine stores_of_isValue hvalue ?_
  show some (s.ofVarint (UInt64.ofNat n).toNat) = some (s.ofVarint n)
  rw [hfits]

/-- A number has no payload, so nothing can be too long. -/
theorem stores_encode_scalar (s : ScalarType) (v : s.Value) :
    (scalar s).Stores ((scalar s).encode v) v :=
  stores_encode fun _ hpayload => nomatch hpayload

/-! ### All types -/

/-- Scalars as numbers of 64 bits. -/
structure ScalarsStandForNumbers : Prop where
  /-- All spellings of a number are read as the value it stands for. -/
  found : ∀ (s : ScalarType) (digits : List UInt8) (n : Nat), IsVarint .w64 digits n →
    ∃ v, s.StandsFor n v ∧ (scalar s).Stores digits v
  /-- Where there is none, the error and what is left are those of
  reading a varint, and the old value is kept. -/
  missing : ∀ (s : ScalarType) (old : s.Value) (input : Input), NoVarint .w64 input.bytes →
    ∃ e rest, Varint.decode .w64 input.bytes = .error e ∧
      Varint.read .w64 input = .error e rest ∧
      (scalar s).readInto ⟨input, old⟩ = .error e ⟨rest, old⟩
  written : ∀ (s : ScalarType) (v : s.Value), (scalar s).Stores ((scalar s).encode v) v
  /-- A negative number can be read at both widths. -/
  negative : ∀ v : Int32, v.toInt < 0 → ∃ wide : Int64, wide.toInt = v.toInt ∧
    (scalar .int32).encode v = (scalar .int64).encode wide ∧
    (scalar .int64).Stores ((scalar .int32).encode v) wide ∧
    (scalar .int32).Stores ((scalar .int64).encode wide) v
  nonneg : ∀ v : Int32, 0 ≤ v.toInt → ∃ plain : UInt32, (plain.toNat : Int) = v.toInt ∧
    (scalar .int32).encode v = (scalar .uint32).encode plain

/-- **Scalars stand for numbers of 64 bits**: any spelling of a number
is read as its value in the type, and a value is written so that it is
read back, also at the other width of a signed number. -/
theorem scalarsStandForNumbers : ScalarsStandForNumbers where
  found s _ _ h := ⟨_, s.standsFor_ofVarint h.lt, stores_of_isVarint s h⟩
  missing s old input h := by
    obtain ⟨e, rest, hread, hdec⟩ := Varint.exists_read_of_noVarint h
    exact ⟨e, rest, hdec, hread, readInto_of_varint_error hread⟩
  written := stores_encode_scalar
  negative v _ := by
    have hsame : (scalar .int32).encode v = (scalar .int64).encode v.toInt64 :=
      congrArg Varint.encode (ScalarType.toVarint_toInt64 v).symm
    refine ⟨v.toInt64, v.toInt_toInt64, hsame, ?_, ?_⟩
    · rw [hsame]
      exact stores_encode_scalar .int64 v.toInt64
    · rw [← hsame]
      exact stores_encode_scalar .int32 v
  nonneg v h := by
    refine ⟨v.toUInt32, (ScalarType.toNat_toUInt32_of_nonneg h).1, ?_⟩
    exact congrArg Varint.encode (ScalarType.toVarint_toUInt32_of_nonneg h).symm

/-- Of a number that is too wide the low bits count, and in an `int32`
the highest of these is the sign. -/
example :
    ScalarType.int32.StandsFor (2 ^ 32 + 7) 7 ∧ ScalarType.int32.StandsFor (2 ^ 32 - 1) (-1) ∧
      ScalarType.int64.StandsFor (2 ^ 32 - 1) 4294967295 ∧
      ScalarType.bool.StandsFor (2 ^ 32) true :=
  ⟨rfl, rfl, rfl, by simp [ScalarType.StandsFor]⟩

end FieldType

end ProtoWire
