import ProtoWire.Proofs.Record.Grammar
import ProtoWire.Proofs.Rejects

/-!
# `ProtoWire.Proofs.Record.Faults`: what is wrong with bytes that are no record

The grammar of records says which bytes are one. This module is its
counterpart: it says of the others what is wrong with them, as a grammar
of faults and apart from any reader.

* `VarintFault`: the bytes end before a digit that could be the last, or
  there is none among those that the width allows.
* `KeyFault`: there is no byte, no varint of 32 bits, no such layout, or
  the number is zero.
* `ValueFault`: there is no value in the layout, for the same faults of
  a varint or because bytes are missing; a group has none at all.

The reads fail exactly on these, with their errors
(`Varint.rejects_readValue`, `Key.rejects_read`,
`WireValue.rejects_read`). The faults that name the end of the input are
those that more bytes can mend. `VarintFault.append` and its like say
that the others stay when bytes come behind.
-/

set_option autoImplicit false

namespace ProtoWire

open Varint (IsVarint)

/-! ### The faults -/

namespace Varint

/-- What is wrong with bytes that do not begin with digits of which
`free` may have any value and one more is at most `last`. -/
inductive DigitsFault (last free : Nat) : List UInt8 → DecodeError → Prop where
  /-- The bytes end, and no digit was the last. -/
  | ended {bytes : List UInt8} : bytes.length ≤ free → (∀ b ∈ bytes, 128 ≤ b.toNat) →
      DigitsFault last free bytes .unexpectedEnd
  /-- The digit behind the free ones is not the last, or is too large. -/
  | tooLarge {front rest : List UInt8} {b : UInt8} : front.length = free →
      (∀ b ∈ front, 128 ≤ b.toNat) → last < b.toNat →
      DigitsFault last free (front ++ b :: rest) .invalidVarint

end Varint

/-- What is wrong with bytes that do not begin with a varint. -/
def VarintFault (w : Varint.Width) : List UInt8 → DecodeError → Prop :=
  Varint.DigitsFault w.lastDigitMax w.freeDigits

/-- What is wrong with bytes that do not begin with a key. -/
inductive KeyFault : List UInt8 → DecodeError → Prop where
  | missing : KeyFault [] .missingKey
  | digits {bytes : List UInt8} {e : DecodeError} : bytes ≠ [] → VarintFault .w32 bytes e →
      KeyFault bytes e
  | layout {key rest : List UInt8} {bits : Nat} : IsVarint .w32 key bits → 6 ≤ bits % 8 →
      KeyFault (key ++ rest) (.invalidWireType (bits % 8))
  | number {key rest : List UInt8} {bits : Nat} : IsVarint .w32 key bits → bits % 8 < 6 →
      bits / 8 = 0 → KeyFault (key ++ rest) .fieldNumberOutOfRange

/-- What is wrong with bytes that do not begin with a value of a given
layout. -/
inductive ValueFault : WireType → List UInt8 → DecodeError → Prop where
  | varint {bytes : List UInt8} {e : DecodeError} : VarintFault .w64 bytes e →
      ValueFault .varint bytes e
  | fixed64 {bytes : List UInt8} : bytes.length < 8 → ValueFault .i64 bytes .unexpectedEnd
  | length {bytes : List UInt8} {e : DecodeError} : VarintFault .w64 bytes e →
      ValueFault .len bytes e
  | payload {length bytes : List UInt8} {n : Nat} : IsVarint .w64 length n → bytes.length < n →
      ValueFault .len (length ++ bytes) .unexpectedEnd
  | fixed32 {bytes : List UInt8} : bytes.length < 4 → ValueFault .i32 bytes .unexpectedEnd
  | startGroup {bytes : List UInt8} : ValueFault .startGroup bytes .groupNotSupported
  | endGroup {bytes : List UInt8} : ValueFault .endGroup bytes .groupNotSupported

/-! ### The reads fail on them -/

namespace Varint

/-- A varint has bytes. -/
theorem IsVarint.append_ne_nil {w : Width} {bytes : List UInt8} {n : Nat}
    (h : IsVarint w bytes n) (rest : List UInt8) : bytes ++ rest ≠ [] :=
  List.append_ne_nil_of_left_ne_nil (List.ne_nil_of_length_pos h.digits.length_pos) rest

/-- One more digit in front of a fault leaves it a fault with one more
free digit. -/
theorem DigitsFault.cons {last free : Nat} {bytes : List UInt8} {e : DecodeError} {b : UInt8}
    (hb : 128 ≤ b.toNat) (h : DigitsFault last free bytes e) :
    DigitsFault last (free + 1) (b :: bytes) e := by
  cases h with
  | ended hlen hhigh =>
    exact .ended (Nat.succ_le_succ hlen) (List.forall_mem_cons.mpr ⟨hb, hhigh⟩)
  | @tooLarge front rest d hlen hhigh hd =>
    have hfront : (b :: front).length = free + 1 := congrArg Nat.succ hlen
    exact .tooLarge hfront (List.forall_mem_cons.mpr ⟨hb, hhigh⟩) hd

/-- Behind a digit that another follows, decoding fails as it does on
what follows. -/
theorem decodeDigits_cons_error {last free : Nat} {bytes : List UInt8} {e : DecodeError} {b : UInt8}
    (hb : 128 ≤ b.toNat) (h : decodeDigits last free bytes = .error e) :
    decodeDigits last (free + 1) (b :: bytes) = .error e := by
  rw [decodeDigits, if_neg (Nat.not_lt.mpr hb), h]

/-- Decoding fails exactly on the faults. -/
theorem decodeDigits_eq_error_iff {last free : Nat} {bytes : List UInt8} {e : DecodeError} :
    decodeDigits last free bytes = .error e ↔ DigitsFault last free bytes e := by
  constructor
  · intro h
    fun_induction decodeDigits last free bytes generalizing e with
    | case1 =>
      cases h
      exact .ended (Nat.zero_le _) (by simp)
    | case2 => cases h
    | case3 b bs hb =>
      cases h
      have hfault : DigitsFault last 0 ([] ++ b :: bs) .invalidVarint :=
        .tooLarge rfl (by simp) (Nat.not_le.mp hb)
      exact hfault
    | case4 => cases h
    | case5 => cases h
    | case6 free b bs hb e' heq ih =>
      cases h
      exact (ih heq).cons (Nat.not_lt.mp hb)
  · intro h
    cases h with
    | ended hlen hhigh =>
      induction bytes generalizing free with
      | nil => cases free <;> rfl
      | cons b bs ih =>
        obtain ⟨hb, hbs⟩ := List.forall_mem_cons.mp hhigh
        cases free with
        | zero => simp at hlen
        | succ free => exact decodeDigits_cons_error hb (ih (Nat.le_of_succ_le_succ hlen) hbs)
    | @tooLarge front rest d hlen hhigh hd =>
      subst hlen
      induction front with
      | nil => exact if_neg (Nat.not_le.mpr hd)
      | cons b front ih =>
        obtain ⟨hb, hfront⟩ := List.forall_mem_cons.mp hhigh
        exact decodeDigits_cons_error hb (ih hfront)

/-- A varint is refused for a fault of its digits, and for nothing
else. -/
theorem rejects_readValue (w : Width) : (readValue w).Rejects (VarintFault w) := by
  refine Decoder.Rejects.of_outcome fun input e => ?_
  rw [outcome_readValue]
  refine Iff.trans ?_ decodeDigits_eq_error_iff
  show _ ↔ decode w input.bytes = .error e
  cases decode w input.bytes <;> simp [Except.map]

end Varint

/-- Of the numbers that 29 bits can say, only zero is no field number. -/
theorem FieldNumber.ofNat?_eq_none_iff_of_le {n : Nat} (h : n ≤ largest) :
    ofNat? n = none ↔ n = 0 := by
  unfold ofNat?
  rcases Nat.eq_zero_or_pos n with rfl | hpos
  · simp [smallest]
  · have hrange : smallest ≤ n ∧ n ≤ largest := ⟨hpos, h⟩
    simp [hrange, Nat.pos_iff_ne_zero.mp hpos]

namespace Key

/-- Of 32 bits, those are no key whose layout is none or whose number is
zero; of two faults the layout is named. -/
theorem ofPacked_eq_error_iff {bits : Nat} {e : DecodeError} (h : bits < UInt32.size) :
    ofPacked bits = .error e ↔
      (6 ≤ bits % 8 ∧ e = .invalidWireType (bits % 8)) ∨
        (bits % 8 < 6 ∧ bits / 8 = 0 ∧ e = .fieldNumberOutOfRange) := by
  have hlargest : bits / 8 ≤ FieldNumber.largest := by
    rw [UInt32.size] at h
    rw [FieldNumber.largest]
    omega
  have hzero := FieldNumber.ofNat?_eq_none_iff_of_le hlargest
  cases hlayout : WireType.ofCode? (bits % 8) with
  | none =>
    have hcode := WireType.ofCode?_eq_none_iff.mp hlayout
    have herror : ofPacked bits = .error (.invalidWireType (bits % 8)) := by
      simp only [ofPacked, ofCode, WireType.ofCode, hlayout]
    rw [herror]
    simp [hcode, Nat.not_lt.mpr hcode, eq_comm]
  | some wireType =>
    have hcode : bits % 8 < 6 := by
      rw [WireType.ofCode?_eq_some_iff.mp hlayout]
      exact wireType.code_lt
    have hparts : ofPacked bits = ofParts wireType (bits / 8) := by
      simp only [ofPacked, ofCode, WireType.ofCode, hlayout]
    cases hnumber : FieldNumber.ofNat? (bits / 8) with
    | none =>
      have herror : ofParts wireType (bits / 8) = .error .fieldNumberOutOfRange := by
        simp only [ofParts, hnumber]
      rw [hparts, herror]
      simp [hcode, Nat.not_le.mpr hcode, hzero.mp hnumber, eq_comm]
    | some number =>
      have hok : ofParts wireType (bits / 8) = .ok ⟨wireType, number⟩ := by
        simp only [ofParts, hnumber]
      have hne : bits / 8 ≠ 0 := fun h => by simp [hzero.mpr h] at hnumber
      rw [hparts, hok]
      simp [Nat.not_le.mpr hcode, hne]

/-- A key is refused for one of its faults, and for nothing else. -/
theorem rejects_read : read.Rejects KeyFault := by
  have hbits := (Varint.rejects_readValue .w32).bind (Varint.reads_readValue .w32)
    fun bits => Decoder.Rejects.ofExcept (ofPacked bits)
  constructor
  · intro input rest e hrun
    by_cases hempty : input.bytes = []
    · rw [read_of_nil hempty] at hrun
      cases hrun
      rw [hempty]
      exact .missing
    · rw [read_of_ne_nil hempty] at hrun
      rcases hbits.sound hrun with hfault | ⟨key, left, bits, hb, hkey, hfault⟩
      · exact .digits hempty hfault
      · rw [hb]
        rcases (ofPacked_eq_error_iff hkey.lt).mp hfault with ⟨hcode, rfl⟩ | ⟨hcode, hzero, rfl⟩
        · exact .layout hkey hcode
        · exact .number hkey hcode hzero
  · intro input e hfault
    generalize hb : input.bytes = b at hfault
    cases hfault with
    | missing => exact ⟨input, read_of_nil hb⟩
    | digits hne hfault =>
      rw [read_of_ne_nil (hb ▸ hne)]
      exact hbits.complete (.inl (hb ▸ hfault))
    | layout hkey hcode =>
      rw [read_of_ne_nil (hb ▸ hkey.append_ne_nil _)]
      refine hbits.complete (.inr ⟨_, _, _, hb, hkey, ?_⟩)
      exact (ofPacked_eq_error_iff hkey.lt).mpr (.inl ⟨hcode, rfl⟩)
    | number hkey hcode hzero =>
      rw [read_of_ne_nil (hb ▸ hkey.append_ne_nil _)]
      refine hbits.complete (.inr ⟨_, _, _, hb, hkey, ?_⟩)
      exact (ofPacked_eq_error_iff hkey.lt).mpr (.inr ⟨hcode, hzero, rfl⟩)

end Key

/-- A payload is refused for its length, or because it is not all
there. -/
theorem Payload.rejects_read : Payload.read.Rejects (ValueFault .len) := by
  rw [Payload.read_eq, Payload.readLength, Varint.readShort_eq_readValue]
  refine ((Varint.rejects_readValue .w64).bind (Varint.reads_readValue .w64)
    Decoder.Rejects.takeBytes).congr fun b e => ?_
  constructor
  · rintro (hfault | ⟨length, left, n, rfl, hlength, hshort, rfl⟩)
    · exact .length hfault
    · exact .payload hlength hshort
  · intro hfault
    cases hfault with
    | length hfault => exact .inl hfault
    | payload hlength hshort => exact .inr ⟨_, _, _, rfl, hlength, hshort, rfl⟩

namespace WireValue

/-- A value is refused for the faults of its layout. -/
theorem rejects_read (wireType : WireType) : (read wireType).Rejects (ValueFault wireType) := by
  cases wireType with
  | varint =>
    refine ((Varint.rejects_readValue .w64).map _).congr fun b e => ⟨.varint, fun hfault => ?_⟩
    cases hfault with
    | varint hfault => exact hfault
  | i64 =>
    refine ((Decoder.Rejects.takeBytes 8).map _).congr fun b e => ⟨?_, fun hfault => ?_⟩
    · rintro ⟨hshort, rfl⟩
      exact .fixed64 hshort
    · cases hfault with
      | fixed64 hshort => exact ⟨hshort, rfl⟩
  | len => exact Payload.rejects_read.map _
  | i32 =>
    refine ((Decoder.Rejects.takeBytes 4).map _).congr fun b e => ⟨?_, fun hfault => ?_⟩
    · rintro ⟨hshort, rfl⟩
      exact .fixed32 hshort
    · cases hfault with
      | fixed32 hshort => exact ⟨hshort, rfl⟩
  | startGroup =>
    refine (Decoder.Rejects.throw _).congr fun b e => ⟨?_, fun hfault => ?_⟩
    · rintro rfl
      exact .startGroup
    · cases hfault with
      | startGroup => rfl
  | endGroup =>
    refine (Decoder.Rejects.throw _).congr fun b e => ⟨?_, fun hfault => ?_⟩
    · rintro rfl
      exact .endGroup
    · cases hfault with
      | endGroup => rfl

end WireValue

/-- A record is refused for a fault of its value. -/
theorem Record.rejects_readValue (key : Key) :
    (Record.readValue key).Rejects (ValueFault key.wireType) :=
  (WireValue.rejects_read key.wireType).map _

/-! ### What more bytes cannot mend -/

/-- If its end is not what is wrong with a varint, more bytes do not
mend it. -/
theorem VarintFault.append {w : Varint.Width} {b : List UInt8} {e : DecodeError}
    (h : VarintFault w b e) (he : e ≠ .unexpectedEnd) (z : List UInt8) :
    VarintFault w (b ++ z) e := by
  cases h with
  | ended => exact absurd rfl he
  | tooLarge hlen hhigh hd =>
    rw [List.append_assoc, List.cons_append]
    exact .tooLarge hlen hhigh hd

/-- Where there is no byte, a key can still come. -/
theorem KeyFault.append {b : List UInt8} {e : DecodeError} (h : KeyFault b e) (hne : b ≠ [])
    (he : e ≠ .unexpectedEnd) (z : List UInt8) : KeyFault (b ++ z) e := by
  cases h with
  | missing => exact absurd rfl hne
  | digits _ hfault => exact .digits (List.append_ne_nil_of_left_ne_nil hne z) (hfault.append he z)
  | layout hkey hcode =>
    rw [List.append_assoc]
    exact .layout hkey hcode
  | number hkey hcode hzero =>
    rw [List.append_assoc]
    exact .number hkey hcode hzero

/-- If its end is not what is wrong with a value, more bytes do not mend
it. -/
theorem ValueFault.append {wireType : WireType} {b : List UInt8} {e : DecodeError}
    (h : ValueFault wireType b e) (he : e ≠ .unexpectedEnd) (z : List UInt8) :
    ValueFault wireType (b ++ z) e := by
  cases h with
  | varint hfault => exact .varint (hfault.append he z)
  | length hfault => exact .length (hfault.append he z)
  | startGroup => exact .startGroup
  | endGroup => exact .endGroup
  | _ => exact absurd rfl he

end ProtoWire
