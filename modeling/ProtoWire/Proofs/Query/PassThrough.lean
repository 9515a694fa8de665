import ProtoWire.Proofs.Message.PassThrough
import ProtoWire.Proofs.Query.Meaning
import ProtoWire.Proofs.Record.ReadAll

/-!
# `ProtoWire.Proofs.Query.PassThrough`: what a query keeps of a newer message

A message with more fields than a query has is read as a query and
written again. `PassesThrough before after` says what becomes of its
records, in terms of the raw records on both sides, those that
`Record.readAll` finds without knowing of queries. `passesThrough` says
that this is so for all bytes that can be read as a query with unknown
records preserved, whoever wrote them.

The records under other numbers pass through as they are. Those under
1, 2 and 3 are put in order in front of them, and at most one of each is
left, with what the last one said. A text is left as it was. A number is
cut to the 32 bits that a query has for it and written with its sign
over 64 bits (`widened`), so a record of a newer writer that needs more
bits is not left as it was. Where the last one said zero or the empty
text, none is left.
-/

set_option autoImplicit false

namespace ProtoWire.Query

open Message

/-- The low 32 bits of a number, taken as two's complement and written
with 64 bits. -/
def widened (bits : UInt64) : UInt64 :=
  UInt64.ofBitVec ((bits.toBitVec.setWidth 32).signExtend 64)

/-- Raw records that were read as a query, and those of the query. -/
structure PassesThrough (before after : List Record) : Prop where
  /-- The records under other numbers are the same, in the same order. -/
  others : after.filter (fun record => record.number.val ∉ [1, 2, 3])
    = before.filter fun record => record.number.val ∉ [1, 2, 3]
  /-- In front of them is at most one record for each of 1, 2 and 3, in
  this order. -/
  front : ∃ known, after = known ++ after.filter (fun record => record.number.val ∉ [1, 2, 3]) ∧
    (known.map fun record => record.number.val).Sublist [1, 2, 3]
  /-- There is a text exactly if the last one was not empty, and it is
  the last one. -/
  text : ∀ value, ⟨.one, value⟩ ∈ after ↔
    ∃ last, last? .one before = some last ∧
      ∃ text, SaysText last.value text ∧ text ≠ "" ∧ value = last.value
  /-- There is a number exactly if the last one was not zero in 32 bits,
  and it is the last one, widened from these. -/
  number : ∀ number ∈ [FieldNumber.two, .three], ∀ value, ⟨number, value⟩ ∈ after ↔
    ∃ last, last? number before = some last ∧
      ∃ n bits, SaysNumber last.value n ∧ n ≠ 0 ∧ last.value = .varint bits ∧
        value = .varint (widened bits)

/-! ### What a field writes for what it read -/

/-- An `int32` writes what it has kept of a number. -/
theorem toValue_ofVarint_int32 (bits : UInt64) :
    (FieldType.scalar .int32).toValue (ScalarType.int32.ofVarint bits.toNat)
      = .varint (widened bits) := by
  show WireValue.varint (UInt64.ofNat (UInt32.ofNat bits.toNat).toInt32.toInt64.toUInt64.toNat) = _
  rw [UInt64.ofNat_toNat, UInt32.ofNat_uInt64ToNat]
  refine congrArg WireValue.varint (UInt64.toBitVec_inj.mp ?_)
  -- Both sides are the same cut and extension, in one the types have names.
  rw [Int64.toBitVec_toUInt64, Int32.toBitVec_toInt64, UInt32.toBitVec_toInt32]
  rfl

/-- The text that a field writes is the one it read. -/
theorem writes_text_iff {value value' : WireValue} :
    (∃ v, FieldType.string.ofValue? value = some v ∧ v ≠ FieldType.string.default ∧
      value' = FieldType.string.toValue v) ↔
      ∃ text, SaysText value text ∧ text ≠ "" ∧ value' = value := by
  refine exists_congr fun text => ?_
  rw [FieldType.ofValue?_string_eq_some_iff, FieldType.toValue_string]
  refine and_congr_right fun htext => and_congr_right fun _ => ?_
  rw [htext]

/-- The number that a field writes is the one it read, cut and widened. -/
theorem writes_number_iff {value value' : WireValue} :
    (∃ v, (FieldType.scalar .int32).ofValue? value = some v ∧
      v ≠ (FieldType.scalar .int32).default ∧
      value' = (FieldType.scalar .int32).toValue v) ↔
      ∃ n bits, SaysNumber value n ∧ n ≠ 0 ∧ value = .varint bits ∧
        value' = .varint (widened bits) := by
  constructor
  · intro hwritten
    rcases hwritten with ⟨n, hn, hne, rfl⟩
    obtain ⟨bits, hbits, rfl⟩ := FieldType.ofValue?_scalar_eq_some_iff.mp hn
    exact ⟨_, bits, saysNumber_of_ofValue? hn, hne, hbits, toValue_ofVarint_int32 bits⟩
  · intro hlast
    rcases hlast with ⟨n, bits, hn, hne, rfl, rfl⟩
    -- The varint has one meaning only, so what the field makes of it is what it says.
    have hread : (FieldType.scalar .int32).ofValue? (.varint bits)
        = some (ScalarType.int32.ofVarint bits.toNat) := rfl
    obtain rfl := hn.unique (saysNumber_of_ofValue? hread)
    exact ⟨_, hread, hne, (toValue_ofVarint_int32 bits).symm⟩

/-! ### Reading and writing -/

/-- What records make of the empty query is written as records that
differ from them in the known fields only. -/
theorem passesThrough_of_absorb {rs : List Record} {q : Query}
    (h : absorb .preserve empty rs = some q) : PassesThrough rs (records q) where
  others := by
    rw [← strangers_eq_filter, ← strangers_eq_filter]
    exact strangers_records_of_absorb h
  front := by
    -- What stands in front are the fields that are written, in the order of the table.
    refine ⟨(fields : List (Field Query)).filterMap (Field.record? q), ?_, ?_⟩
    · rw [← strangers_eq_filter]
      exact records_eq_append_strangers (clean_of_absorb clean_empty h)
    · have hsub := (Field.sublist_map_number q fieldTable).map FieldNumber.val
      rwa [List.map_map] at hsub
  text value := by
    have hfield : fieldTable[0] ∈ (fields : List (Field Query)) := by simp [fields, fieldTable]
    exact (mem_records_iff_of_absorb h hfield).trans
      (exists_congr fun _ => and_congr_right fun _ => writes_text_iff)
  number number hnumber value := by
    have hpage : number = .two ∨ number = .three := by simpa using hnumber
    rcases hpage with rfl | rfl
    · have hfield : fieldTable[1] ∈ (fields : List (Field Query)) := by simp [fields, fieldTable]
      exact (mem_records_iff_of_absorb h hfield).trans
        (exists_congr fun _ => and_congr_right fun _ => writes_number_iff)
    · have hfield : fieldTable[2] ∈ (fields : List (Field Query)) := by simp [fields, fieldTable]
      exact (mem_records_iff_of_absorb h hfield).trans
        (exists_congr fun _ => and_congr_right fun _ => writes_number_iff)

/-- **Records of newer schemas pass through.** Bytes that are read as a
query with unknown records preserved, and the bytes that are written for
this query, can both be read record by record, in any pieces, and the
records of the first pass through to the second. -/
theorem passesThrough {options : DecodeOptions} (hpolicy : options.unknownFields = .preserve)
    {input : Input} {q : Query} (h : (decode options input).result = .ok q) :
    ∃ before after,
      (∀ i : Input, i.bytes = input.bytes → Record.readAll.outcome i = .ok (before, [])) ∧
      (∀ i : Input, i.bytes = encode q → Record.readAll.outcome i = .ok (after, [])) ∧
      PassesThrough before after := by
  obtain ⟨-, rs, hrs, habsorb⟩ := readAll_eq_ok_iff.mp h
  rw [hpolicy] at habsorb
  refine ⟨rs, records q, fun i hi => ?_, fun i hi => ?_, passesThrough_of_absorb habsorb⟩
  · rw [Record.outcome_readAll_eq_ok_iff, hi]
    exact hrs
  · rw [Record.outcome_readAll_eq_ok_iff, hi]
    exact areRecords_encode_of_absorb hrs habsorb

/-- Two of each known record, out of order and cut inside a text. The
last text is left, the last page number is written over ten bytes since
its 33 bits are cut to -1, and of the page size nothing is left, since
the last one is zero. The unknown record that was spelled with a digit
too many is the same without it. -/
theorem passesThrough_of_repeated_and_wide :
    let nine : Record := ⟨⟨9, by decide, by decide⟩, .varint 1⟩
    let four : Record := ⟨⟨4, by decide, by decide⟩, .fixed32 7⟩
    let input : Input := ⟨[[0x48, 0x81, 0x00, 0x0a, 0x01], [0x61, 0x10, 0x07, 0x18, 0x05, 0x0a],
      [0x01, 0x71, 0x10, 0xff, 0xff, 0xff, 0xff, 0x1f, 0x18, 0x00, 0x25, 0x07, 0x00, 0x00, 0x00]]⟩
    let q : Query := { query := "q", pageNumber := -1, unknown := [nine, four] }
    let before : List Record := [nine, ⟨.one, .bytes [0x61]⟩, ⟨.two, .varint 7⟩,
      ⟨.three, .varint 5⟩, ⟨.one, .bytes [0x71]⟩, ⟨.two, .varint 8589934591⟩,
      ⟨.three, .varint 0⟩, four]
    let after : List Record := [⟨.one, .bytes [0x71]⟩, ⟨.two, .varint 18446744073709551615⟩,
      nine, four]
    (decode {} input).result = .ok q ∧
      Record.readAll.outcome input = .ok (before, []) ∧
      Record.readAll.outcome (.ofBytes (encode q)) = .ok (after, []) ∧
      PassesThrough before after := by
  intro nine four input q before after
  have hread : (decode {} input).result = .ok q := by decide +kernel
  have hbefore : Record.readAll.outcome input = .ok (before, []) := by decide +kernel
  have hafter : Record.readAll.outcome (.ofBytes (encode q)) = .ok (after, []) := by
    decide +kernel
  obtain ⟨rs, rs', hrs, hrs', hpass⟩ := passesThrough rfl hread
  -- What the theorem speaks of are the records that were computed.
  have hsame : before = rs :=
    congrArg Prod.fst (Except.ok.inj (hbefore.symm.trans (hrs input rfl)))
  have hsame' : after = rs' :=
    congrArg Prod.fst (Except.ok.inj (hafter.symm.trans (hrs' _ (Input.bytes_ofBytes _))))
  rw [hsame, hsame']
  exact ⟨hread, hrs input rfl, hrs' _ (Input.bytes_ofBytes _), hpass⟩

end ProtoWire.Query
