import ProtoWire.Proofs.Varint.Cuts
import ProtoWire.Proofs.WireValue.Skip
import ProtoWire.Record

/-!
# `ProtoWire.Proofs.Record.Cuts`: a record over cuts

A cut can run through the key of a record, through a length, or
through a payload. None of them shows in what is read. A length, and a
key with it, is looked at through the chunk in front
(`Varint.readShort`); everything else that decides a read goes by the
bytes that remain. So each read of this module is free of the cuts
because the reads it is made of are.
-/

set_option autoImplicit false

namespace ProtoWire

namespace Key

/-- Where a byte is left, a key is a varint and a verdict on its
bits. -/
theorem read_of_ne_nil {input : Input} (h : input.bytes ≠ []) :
    read input
      = (Varint.readValue .w32 >>= fun bits => Decoder.ofExcept (ofPacked bits)) input := by
  have hempty : input.isEmpty = false :=
    Bool.eq_false_iff.mpr fun he => h (Input.isEmpty_iff.mp he)
  -- The code takes the short cut for one byte, which is no different.
  rw [← Varint.readShort_eq_readValue]
  cases hbits : Varint.readShort .w32 input with
  | error e rest =>
    rw [Decoder.bind_of_error hbits]
    simp [read, hempty, hbits]
  | ok bits rest =>
    rw [Decoder.bind_of_ok hbits]
    cases hkey : ofPacked bits <;> simp [read, hempty, hbits, hkey, Decoder.ofExcept]

/-- Where no byte is left, there is no key. -/
theorem read_of_nil {input : Input} (h : input.bytes = []) :
    read input = .error .missingKey input :=
  if_pos (Input.isEmpty_iff.mpr h)

/-- A key is refused for the same fault wherever it is cut. -/
theorem cutFree_read : Decoder.CutFree read := by
  intro i j h
  by_cases hempty : j.bytes = []
  · rw [Decoder.outcome_of_error (read_of_nil (h.trans hempty)),
      Decoder.outcome_of_error (read_of_nil hempty)]
  · have hbits : Decoder.CutFree
        (Varint.readValue .w32 >>= fun bits => Decoder.ofExcept (ofPacked bits)) :=
      (Varint.CutFree.readValue .w32).bind fun bits => Decoder.CutFree.ofExcept _
    have hout := hbits i j h
    unfold Decoder.outcome at hout ⊢
    rwa [read_of_ne_nil hempty, read_of_ne_nil (h ▸ hempty)]

end Key

namespace Payload

/-- A length is a varint, which may run over cuts. -/
theorem cutFree_readLength : Decoder.CutFree readLength :=
  Varint.CutFree.readShort .w64

/-- A length is checked against the number of bytes that are left,
which counts over all pieces. -/
theorem cutFree_readCheckedLength : Decoder.CutFree readCheckedLength := by
  intro i j h
  rcases cutFree_readLength.cases h with ⟨length, ri, rj, hi, hj, hrest⟩ | ⟨e, ri, rj, hi, hj⟩
  · -- The lengths are the same, and so is what they are checked against.
    have hleft := Input.remaining_congr hrest
    by_cases hshort : rj.remaining < length
    · rw [Decoder.outcome_of_error (readCheckedLength_of_lt hi (hleft ▸ hshort)),
        Decoder.outcome_of_error (readCheckedLength_of_lt hj hshort)]
    · have henough := Nat.not_lt.mp hshort
      rw [Decoder.outcome_of_ok (readCheckedLength_of_le hi (hleft ▸ henough)),
        Decoder.outcome_of_ok (readCheckedLength_of_le hj henough), hrest]
  · rw [Decoder.outcome_of_error (readCheckedLength_of_error hi),
      Decoder.outcome_of_error (readCheckedLength_of_error hj)]

/-- A payload does not depend on the cuts through it or through its
length. -/
theorem cutFree_read : Decoder.CutFree read :=
  cutFree_readCheckedLength.bind Decoder.CutFree.takeBytes

end Payload

namespace WireValue

/-- A value of any layout does not depend on the cuts. -/
theorem cutFree_read (wireType : WireType) : Decoder.CutFree (read wireType) := by
  cases wireType with
  | varint => exact (Varint.CutFree.readValue .w64).map _
  | i64 => exact (Decoder.CutFree.takeBytes 8).map _
  | len => exact Payload.cutFree_read.map _
  | i32 => exact (Decoder.CutFree.takeBytes 4).map _
  | startGroup => exact Decoder.CutFree.throw _
  | endGroup => exact Decoder.CutFree.throw _

/-- Where passing over a value ends does not depend on the cuts. -/
theorem cutFree_skip (wireType : WireType) : Decoder.CutFree (skip wireType) := by
  rw [skip_eq_map_read]
  exact (cutFree_read wireType).map _

end WireValue

/-- The value of a record does not depend on the cuts. -/
theorem Record.cutFree_readValue (key : Key) : Decoder.CutFree (Record.readValue key) :=
  (WireValue.cutFree_read key.wireType).map _

end ProtoWire
