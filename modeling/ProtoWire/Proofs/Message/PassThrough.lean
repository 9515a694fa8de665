import ProtoWire.Proofs.Message.RoundTrip

/-!
# `ProtoWire.Proofs.Message.PassThrough`: reading a message and writing it again

A message of an older schema is read, and written again. The bytes it
was read from can be any: records out of order, repeated, under numbers
that are not known, or spelled with more digits than needed. This module
compares the records on both sides. In terms of the records `rs` that
were read and the message `message` that has absorbed them:

* `areRecords_encode_of_absorb`: what is written are records again. No
  length can be too large for this, since each payload that is written
  was read behind its length.
* `strangers_records_of_absorb`: the records that no field takes are the
  same on both sides, in the same order.
* `records_eq_append_strangers`, `Field.sublist_map_number`: the records of
  the fields come in front of them, one for each field at most, in the
  order of the table.
* `mem_records_iff_of_absorb`: a field has a record exactly if its last
  one did not say the default, and then it says the same again.
-/

set_option autoImplicit false

namespace ProtoWire

/-- The records of fields come in the order of the table, and none
twice. -/
theorem Field.sublist_map_number {M : Type} (message : M) (table : List (Field M)) :
    ((table.filterMap (record? message)).map Record.number).Sublist (table.map number) := by
  induction table with
  | nil => exact .slnil
  | cons field table ih =>
    rw [List.filterMap_cons, List.map_cons]
    cases hwritten : field.record? message with
    | none => exact ih.cons _
    | some record =>
      obtain rfl := eq_of_record?_eq_some hwritten
      exact ih.cons_cons _

namespace Message

variable {M : Type} [Message M]

/-- What is kept was there. -/
theorem mem_of_mem_kept {policy : UnknownFieldPolicy} {rs : List Record} {record : Record}
    (h : record ∈ kept M policy rs) : record ∈ rs := by
  cases policy with
  | preserve => exact List.mem_of_mem_filter h
  | discard => cases h

section

variable [LawfulMessage M]

/-- The records of a clean message are those of its fields, and behind
them those that no field takes. -/
theorem records_eq_append_strangers {message : M} (hclean : Clean message) :
    records message
      = (fields : List (Field M)).filterMap (Field.record? message)
        ++ strangers M (records message) := by
  rw [strangers_records hclean]
  rfl

variable {policy : UnknownFieldPolicy} {rs : List Record} {message : M}

/-- The records that no field takes pass through. -/
theorem strangers_records_of_absorb (h : absorb .preserve empty rs = some message) :
    strangers M (records message) = strangers M rs := by
  rw [strangers_records (clean_of_absorb clean_empty h), unknown_of_absorb_empty h]
  rfl

/-- Which records are written for a field. Its value is what the last
record said that was read for it, so the new record says that too. -/
theorem mem_records_iff_of_absorb (h : absorb policy empty rs = some message) {field : Field M}
    (hfield : field ∈ (fields : List (Field M))) {value : WireValue} :
    ⟨field.number, value⟩ ∈ records message ↔
      ∃ last, last? field.number rs = some last ∧ ∃ v, field.type.ofValue? last.value = some v ∧
        v ≠ field.type.default ∧ value = field.type.toValue v := by
  constructor
  · intro hmem
    have hwritten := record?_of_mem_records (clean_of_absorb clean_empty h) hfield hmem rfl
    obtain ⟨hne, hrecord⟩ := Field.record?_eq_some_iff.mp hwritten
    cases hlast : last? field.number rs with
    | some last =>
      have hget := ofValue?_of_last h hfield hlast
      exact ⟨last, rfl, _, hget, hne, congrArg Record.value hrecord⟩
    | none =>
      -- Nothing was read for the field, so it is at its default and is not written.
      have hdefault := get_of_no_last h hfield hlast
      rw [LawfulMessage.get_empty field hfield] at hdefault
      exact absurd hdefault hne
  · intro hsaid
    rcases hsaid with ⟨last, hlast, v, hv, hne, rfl⟩
    obtain rfl := Option.some.inj (hv.symm.trans (ofValue?_of_last h hfield hlast))
    exact mem_records_of_record? hfield (Field.record?_eq_some_iff.mpr ⟨hne, rfl⟩)

/-- A message that was read from records is written as records. -/
theorem areRecords_encode_of_absorb {b : List UInt8} (hrs : AreRecords b rs)
    (h : absorb policy empty rs = some message) :
    AreRecords (encode message) (records message) := by
  rw [encode_eq_encodeAll]
  refine Record.areRecords_encodeAll_of_forall fun record hrecord => ?_
  -- Each value was read, or stands for one that was, so it has some spelling.
  rcases List.mem_append.mp hrecord with hknown | hunknown
  · obtain ⟨field, hfield, hwritten⟩ := List.mem_filterMap.mp hknown
    obtain rfl := Field.eq_of_record?_eq_some hwritten
    obtain ⟨last, hlast, v, hv, -, hvalue⟩ := (mem_records_iff_of_absorb h hfield).mp hrecord
    obtain ⟨b', hspelled⟩ := hrs.isValue_of_mem (mem_of_last? hlast).1
    have hagain := FieldType.isValue_encode_toValue hspelled hv
    rw [← hvalue] at hagain
    exact Record.isRecord_encode_of_isValue hagain
  · rw [unknown_of_absorb_empty h] at hunknown
    obtain ⟨b', hspelled⟩ := hrs.isValue_of_mem (mem_of_mem_kept hunknown)
    exact Record.isRecord_encode_of_isValue hspelled

end

end Message

end ProtoWire
