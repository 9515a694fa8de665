import ProtoWire.Proofs.Message.Absorb
import ProtoWire.Proofs.Message.Alike
import ProtoWire.Proofs.Message.Overlay

/-!
# `ProtoWire.Proofs.Message.InPlace`: reading into a message that is there

Bytes can be read into a message, or read by themselves and the result
laid over the message. This module compares the two.

Whether a read fails, and how, is up to the bytes: what is there has no
say in it (`readAll_error_iff`). Where nothing fails, both have absorbed
the same records, and differ only in the fields that no record is for
(`get_of_absorb_both`). Laying over leaves a field alone also where the
bytes say its default, because it cannot see that they say anything. So
the results are the same unless a default was to be written over
something else (`isOverlay_iff_of_absorb`).
-/

set_option autoImplicit false

namespace ProtoWire.Message

variable {M : Type} [Message M]

/-! ### Failing -/

/-- The records are taken alike, whatever they are read into. -/
theorem sameWay_of_bytes (policy : UnknownFieldPolicy) {s t : Intake (Progress M)}
    (hbytes : s.input.bytes = t.input.bytes) (hevents : t.dest.events = s.dest.events) :
    Filler.SameWay (Counterpart (fun _ _ => True) id) (fun _ _ => True) (mergeRecords policy s)
      (mergeRecords policy t) := by
  have hknown : ∀ key, Filler.Alike (fun _ _ : M => True) Eq (readKnown key) (readKnown key) :=
    alike_readKnown (V := fun _ _ _ => True) (fun _ _ => trivial) (fun _ _ _ _ _ => trivial)
      fun _ _ _ _ _ _ _ _ => trivial
  have hunknown := alike_mergeUnknown_same (R := fun _ _ : M => True)
    (fun _ _ _ _ => trivial) policy
  refine alike_mergeRecords (alike_mergeRecord hknown hunknown fun _ => rfl) s t hbytes ?_
  exact ⟨trivial, by rw [List.map_id, hevents]⟩

/-- A read fails on the same bytes with the same error, whatever it
reads into and for whatever purpose. -/
theorem readAll_error_iff {purpose purpose' : Purpose} {options : DecodeOptions}
    {message message' : M} {i j : Input} (h : i.bytes = j.bytes) {e : DecodeError} :
    (readAll purpose options message i).result = .error e ↔
      (readAll purpose' options message' j).result = .error e := by
  have hlen := Input.remaining_congr h
  by_cases hlong : options.maxMessageLength < j.remaining
  · rw [readAll_of_long (hlen ▸ hlong), readAll_of_long hlong, hlen]
  · have hlong' : ¬ options.maxMessageLength < i.remaining := hlen ▸ hlong
    have hrun := sameWay_of_bytes options.unknownFields
      (s := ⟨i, { message := message }⟩) (t := ⟨j, { message := message' }⟩) h rfl
    rcases readAll_of_sameWay purpose purpose' options options hlong' hlong hrun with
      ⟨s, t, -, -, hi, hj⟩ | ⟨e, s, t, -, hi, hj⟩
    · rw [hi, hj]
      exact ⟨fun he => (nomatch he), fun he => (nomatch he)⟩
    · rw [hi, hj]

/-! ### Succeeding -/

section

variable [LawfulMessage M] {policy : UnknownFieldPolicy} {message merged decoded : M}
  {records : List Record}

/-- A field that records are for is the same in both results. -/
theorem get_of_absorb_both (hmerge : absorb policy message records = some merged)
    (hdecode : absorb policy empty records = some decoded) {field : Field M}
    (hfield : field ∈ (fields : List (Field M))) {last : Record}
    (hlast : last? field.number records = some last) :
    field.get merged = field.get decoded := by
  have hm := ofValue?_of_last hmerge hfield hlast
  rw [ofValue?_of_last hdecode hfield hlast] at hm
  exact (Option.some.inj hm).symm

/-- Merging keeps the unknown records that were there, and behind them
those that decoding keeps. -/
theorem unknown_of_absorb_both (hmerge : absorb policy message records = some merged)
    (hdecode : absorb policy empty records = some decoded) :
    unknown merged = unknown message ++ unknown decoded := by
  rw [unknown_of_absorb hmerge, unknown_of_absorb_empty hdecode]

/-- What was merged is what was decoded, laid over the message, exactly
unless the records say the default for a field that is not at it. -/
theorem isOverlay_iff_of_absorb (hmerge : absorb policy message records = some merged)
    (hdecode : absorb policy empty records = some decoded) :
    IsOverlay message decoded merged ↔
      ¬ ∃ field ∈ (fields : List (Field M)), (∃ record ∈ records, record.number = field.number) ∧
        field.get decoded = field.type.default ∧ field.get message ≠ field.type.default := by
  constructor
  · intro hover hwritten
    obtain ⟨field, hfield, ⟨record, hrecord, hnumber⟩, hdefault⟩ := hwritten
    cases hlast : last? field.number records with
    | some last =>
      -- The record was applied, but laying over takes its default for nothing.
      have hsame := hover.get_eq field hfield
      rw [get_of_absorb_both hmerge hdecode hfield hlast] at hsame
      exact (field.type.layOver_eq_upper_iff.mp hsame.symm) hdefault
    | none => exact ne_of_last?_eq_none hlast record hrecord hnumber
  · intro hnone
    refine ⟨fun field hfield => ?_, unknown_of_absorb_both hmerge hdecode⟩
    cases hlast : last? field.number records with
    | some last =>
      rw [get_of_absorb_both hmerge hdecode hfield hlast]
      refine (field.type.layOver_eq_upper_iff.mpr fun hdefault => ?_).symm
      exact hnone ⟨field, hfield, ⟨last, mem_of_last? hlast⟩, hdefault⟩
    | none =>
      rw [get_of_no_last hmerge hfield hlast, get_of_no_last hdecode hfield hlast,
        LawfulMessage.get_empty field hfield, FieldType.layOver_default]

end

end ProtoWire.Message
