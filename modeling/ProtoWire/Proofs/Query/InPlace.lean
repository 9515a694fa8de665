import ProtoWire.Proofs.Message.InPlace
import ProtoWire.Proofs.Query.Meaning
import ProtoWire.Proofs.Query.MergeFrom
import ProtoWire.Query.Edit

/-!
# `ProtoWire.Proofs.Query.InPlace`: merging bytes into a query

There are two ways to bring bytes into a query. `merge` reads them into
it. Or they are decoded by themselves, and the result is laid over the
query by `mergeFrom`. `MergesInPlace` says how far the two agree, on any
bytes: the writer's and those that say a field twice, say a default, or
are no message at all.

They fail on the same bytes. Where they succeed, `merge` takes the last
record of each field for what it says, `mergeFrom` sees only what the
records came to. So there is one way for them to differ: a field is said
to be at its default, with a zero, an empty text or a number whose low
bits are zero, and it is at something else in the query.
-/

set_option autoImplicit false

namespace ProtoWire.Query

open Message

/-- Merging bytes into a query, beside decoding them. The bytes may be
cut in two ways for the two. -/
structure MergesInPlace (options : DecodeOptions) (q : Query) (bytes : List UInt8) (i j : Input) :
    Prop where
  /-- The two fail alike. -/
  error_iff : ∀ e : DecodeError, (merge options q i).result = .error e ↔
    (decode options j : Outcome Query).result = .error e
  /-- A session in which the query was to be merged into is left as it
  was when that fails, and the error is the reply. -/
  unchanged_of_error : ∀ (session : Session Query) (name : String) (e : DecodeError),
    session.slot name = q → (merge options q i).result = .error e →
      (session.step ⟨name, .merge options i⟩).session = session ∧
      (session.step ⟨name, .merge options i⟩).reply = .failed e
  /-- The query that is merged into is touched by no failure, however far
  the copy has come. -/
  untouched_of_error : ∀ (scratch : Query) (e : DecodeError),
    (merge options q i).result = .error e →
      ∃ s : Intake (Workspace Query),
        mergeInto options ⟨i, { message := q, scratch := scratch }⟩ = .error e s ∧
        s.dest.message = q
  /-- When both succeed, each field says what its last record says, or
  what it said before, and the unknown records of both are kept. The
  result is the decoded query laid over the old one, exactly unless some
  field occurs in the bytes, was decoded to its default, and is at
  something else in the old query. -/
  of_ok : ∀ merged decoded : Query, (merge options q i).result = .ok merged →
    (decode options j : Outcome Query).result = .ok decoded →
      merged.unknown = q.unknown ++ decoded.unknown ∧
      ∃ records, AreRecords bytes records ∧
        LastSays SaysText q.query .one records merged.query ∧
        LastSays SaysNumber q.pageNumber .two records merged.pageNumber ∧
        LastSays SaysNumber q.pageSize .three records merged.pageSize ∧
        (merged = q.mergeFrom decoded ↔
          ¬ ∃ field ∈ fieldTable, (∃ record ∈ records, record.number = field.number) ∧
            field.get decoded = field.type.default ∧ field.get q ≠ field.type.default)

/-- Being the one overlay is being an overlay. -/
theorem eq_mergeFrom_iff {q other result : Query} :
    result = q.mergeFrom other ↔ IsOverlay q other result := by
  constructor
  · rintro rfl
    exact isOverlay_mergeFrom q other
  · intro hover
    exact hover.unique (isOverlay_mergeFrom q other)

/-- A session keeps nothing of a merge that failed. -/
theorem step_merge_of_error {options : DecodeOptions} {input : Input} {session : Session Query}
    {name : String} {e : DecodeError}
    (h : (merge options (session.slot name) input).result = .error e) :
    (session.step ⟨name, .merge options input⟩).session = session ∧
      (session.step ⟨name, .merge options input⟩).reply = .failed e := by
  have hstep : session.step ⟨name, .merge options input⟩
      = ⟨session, .failed e, (merge options (session.slot name) input).events⟩ :=
    Session.mergeAt_of_error .done h
  rw [hstep]
  exact ⟨rfl, rfl⟩

/-- **Merging in place, and decoding and laying over.** On every bytes,
under all options and into every query the two fail alike, and then the
query is as it was; and where they succeed it is known which records
make them differ. -/
theorem mergesInPlace (options : DecodeOptions) (q : Query) (bytes : List UInt8) (i j : Input)
    (hi : i.bytes = bytes) (hj : j.bytes = bytes) : MergesInPlace options q bytes i j where
  error_iff e := readAll_error_iff (hi.trans hj.symm)
  unchanged_of_error session name e hslot herror := by
    subst hslot
    exact step_merge_of_error herror
  untouched_of_error scratch e herror := by
    obtain ⟨s, hrun, hmessage, -, -⟩ := mergeInto_of_error scratch herror
    exact ⟨s, hrun, hmessage⟩
  of_ok merged decoded hmerged hdecoded := by
    obtain ⟨-, records, hrecords, hmerge⟩ := readAll_eq_ok_iff.mp hmerged
    obtain ⟨-, records', hrecords', hdecode⟩ := readAll_eq_ok_iff.mp hdecoded
    -- Both have taken the records of the same bytes, and bytes have one reading only.
    rw [hi] at hrecords
    rw [hj] at hrecords'
    obtain rfl := hrecords.unique hrecords'
    obtain ⟨htext, hnumber, hsize⟩ := fields_of_absorb hmerge
    refine ⟨unknown_of_absorb_both hmerge hdecode, records, hrecords, htext, hnumber, hsize, ?_⟩
    rw [eq_mergeFrom_iff]
    exact isOverlay_iff_of_absorb hmerge hdecode

/-- A number of five bytes whose low bits are zero, into a query whose
page is 7: merged it sets the page to 0, decoded and laid over it leaves
the page alone. A text that is cut off behind a number fails both ways. -/
theorem mergesInPlace_of_wide_zero_and_cut_text :
    let bytes : List UInt8 := [0x10, 0x80, 0x80, 0x80, 0x80, 0x10]
    let cut : Input := ⟨[[0x10, 0x80], [0x80, 0x80, 0x80], [0x10]]⟩
    let short : List UInt8 := [0x18, 0x01, 0x0a, 0x05, 0x61]
    let q : Query := { query := "old", pageNumber := 7 }
    (cut.bytes = bytes ∧ (Input.ofBytes bytes).bytes = bytes ∧
      MergesInPlace {} q bytes cut (.ofBytes bytes) ∧
      (merge {} q cut).result = .ok { query := "old" } ∧
      (decode {} (.ofBytes bytes) : Outcome Query).result = .ok {} ∧
      q.mergeFrom {} = q) ∧
    ((Input.ofBytes short).bytes = short ∧
      MergesInPlace {} q short (.ofBytes short) (.ofBytes short) ∧
      (merge {} q (.ofBytes short)).result = .error .unexpectedEnd) := by
  intro bytes cut short q
  have hcut : cut.bytes = bytes := by decide
  have hone : (Input.ofBytes bytes).bytes = bytes := Input.bytes_ofBytes bytes
  have hshort : (Input.ofBytes short).bytes = short := Input.bytes_ofBytes short
  refine ⟨⟨hcut, hone, ?_, by decide +kernel, by decide +kernel, by decide +kernel⟩,
    hshort, ?_, by decide +kernel⟩
  · exact mergesInPlace {} q bytes cut (.ofBytes bytes) hcut hone
  · exact mergesInPlace {} q short (.ofBytes short) (.ofBytes short) hshort hshort

end ProtoWire.Query
