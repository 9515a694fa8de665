import ProtoWire.Proofs.Message.RoundTrip

/-!
# `ProtoWire.Proofs.Query.MergeFrom`: laying queries over each other

`Query.mergeFrom` works in memory: it tests every field for its default
and copies those that are not. Reading works on bytes: the writer leaves
default values out, and of the values that are there the last one wins.
The two come to the same, because both are overlays
(`isOverlay_mergeFrom`, `Message.exists_absorb_records`).

So queries may be laid over each other before they are written, or
written one behind the other and read as one. That covers any number of
them (`absorb_flatMap_records`, by induction on their list), and any
unknown records that no field would take.
-/

set_option autoImplicit false

namespace ProtoWire.Query

open Message

/-- What `mergeFrom` does to the fields, one after the other, is what
laying over says of each. -/
theorem isOverlay_mergeFrom (q other : Query) : IsOverlay q other (q.mergeFrom other) where
  get_eq := by
    simp [fields, fieldTable, mergeFrom, FieldType.layOver, FieldType.isDefault,
      ScalarType.isDefault]
  unknown_eq := rfl

/-! ### In memory -/

/-- Of three queries merged in order, it does not matter which two go
first. -/
theorem mergeFrom_assoc (a b c : Query) :
    (a.mergeFrom b).mergeFrom c = a.mergeFrom (b.mergeFrom c) := by
  have hleft := (isOverlay_mergeFrom a b).assoc (isOverlay_mergeFrom (a.mergeFrom b) c)
    (isOverlay_mergeFrom b c)
  exact hleft.unique (isOverlay_mergeFrom a (b.mergeFrom c))

/-- Merging the empty query in changes nothing. -/
theorem mergeFrom_empty (q : Query) : q.mergeFrom {} = q :=
  (isOverlay_mergeFrom q {}).unique (IsOverlay.of_empty_upper q)

/-- Merging into the empty query gives what is merged. -/
theorem empty_mergeFrom (q : Query) : mergeFrom {} q = q :=
  (isOverlay_mergeFrom {} q).unique (IsOverlay.of_empty_lower q)

/-! ### In bytes -/

/-- Absorbing what is written for a query is laying the query over. -/
theorem absorb_records_eq_mergeFrom (q : Query) {other : Query} (hclean : Clean other) :
    absorb .preserve q (records other) = some (q.mergeFrom other) := by
  obtain ⟨result, habsorb, hover⟩ := exists_absorb_records q hclean
  rw [habsorb, hover.unique (isOverlay_mergeFrom q other)]

/-- Queries that are written one behind the other are the records of
all of them. -/
theorem areRecords_flatMap_encode (qs : List Query)
    (hsize : (qs.flatMap encode).length < UInt64.size) :
    AreRecords (qs.flatMap encode) (qs.flatMap records) := by
  induction qs with
  | nil => exact .nil
  | cons q qs ih =>
    rw [List.flatMap_cons, List.length_append, length_encode] at hsize
    rw [List.flatMap_cons, List.flatMap_cons]
    exact (areRecords_encode q (by omega)).append (ih (by omega))

/-- These records are absorbed query by query. The induction is on the
queries, with the one that is there left open: each turn lays one more
over it. -/
theorem absorb_flatMap_records (q : Query) (qs : List Query) (hclean : ∀ q ∈ qs, Clean q) :
    absorb .preserve q (qs.flatMap records) = some (qs.foldl mergeFrom q) := by
  induction qs generalizing q with
  | nil => rfl
  | cons first qs ih =>
    have hfirst := absorb_records_eq_mergeFrom q (hclean first List.mem_cons_self)
    rw [List.flatMap_cons, absorb_append _ hfirst, List.foldl_cons]
    exact ih (q.mergeFrom first) fun other hother => hclean other (List.mem_cons_of_mem _ hother)

/-- Reading what was written for some queries, one behind the other. -/
theorem readAll_flatMap_encode (purpose : Purpose) {limit : Nat} (hword : limit < UInt64.size)
    (q : Query) (qs : List Query) (hclean : ∀ q ∈ qs, Clean q) {input : Input}
    (hbytes : input.bytes = qs.flatMap encode) (hlimit : (qs.flatMap encode).length ≤ limit) :
    (readAll purpose ⟨.preserve, limit⟩ q input).result = .ok (qs.foldl mergeFrom q) := by
  refine readAll_eq_ok_iff.mpr ⟨hbytes ▸ hlimit, qs.flatMap records, ?_, ?_⟩
  · rw [hbytes]
    exact areRecords_flatMap_encode qs (Nat.lt_of_le_of_lt hlimit hword)
  · exact absorb_flatMap_records q qs hclean

/-- A query is clean if its unknown records have none of the numbers of
its fields. -/
theorem clean_iff {q : Query} : Clean q ↔ ∀ record ∈ q.unknown, record.number.val ∉ [1, 2, 3] :=
  forall₂_congr fun _ _ => field?_query_eq_none_iff

/-- **Laying over in memory is writing one behind the other.** Queries
with `mergeFrom` are a monoid, and the empty query is its unit. Merging
the encoding of `b` into `a` gives `a.mergeFrom b`, and reading the
encodings of any queries in a row gives them laid over each other in
that order. For this no unknown record of the written queries may have
one of the numbers 1, 2 and 3, and the limit has to be kept; it is a
number of 64 bits. -/
theorem mergeFrom_matches_concatenation :
    (∀ a b c : Query, (a.mergeFrom b).mergeFrom c = a.mergeFrom (b.mergeFrom c)) ∧
    (∀ q : Query, q.mergeFrom {} = q ∧ mergeFrom {} q = q) ∧
    (∀ (limit : Nat) (a b : Query) (input : Input), limit < UInt64.size →
      (∀ record ∈ b.unknown, record.number.val ∉ [1, 2, 3]) → size b ≤ limit →
      input.bytes = encode b →
      (merge ⟨.preserve, limit⟩ a input).result = .ok (a.mergeFrom b)) ∧
    (∀ (limit : Nat) (qs : List Query) (input : Input), limit < UInt64.size →
      (∀ q ∈ qs, ∀ record ∈ q.unknown, record.number.val ∉ [1, 2, 3]) →
      (qs.flatMap encode).length ≤ limit → input.bytes = qs.flatMap encode →
      (decode ⟨.preserve, limit⟩ input).result = .ok (qs.foldl mergeFrom {})) := by
  refine ⟨mergeFrom_assoc, fun q => ⟨mergeFrom_empty q, empty_mergeFrom q⟩, ?_, ?_⟩
  · intro limit a b input hword hclean hlimit hbytes
    -- One query is a row of one.
    have hrow : [b].flatMap encode = encode b := List.append_nil _
    refine readAll_flatMap_encode .merge hword a [b] ?_ (hbytes.trans hrow.symm) ?_
    · exact List.forall_mem_singleton.mpr (clean_iff.mpr hclean)
    · rw [hrow, length_encode]
      exact hlimit
  · intro limit qs input hword hclean hlimit hbytes
    exact readAll_flatMap_encode .decode hword {} qs
      (fun q hq => clean_iff.mpr (hclean q hq)) hbytes hlimit

/-- A negative number and an unknown record, in bytes that are cut
inside the number and merged into a query, or read behind the bytes of
that query, under the least limits there are. -/
theorem mergeFrom_matches_concatenation_of_negative_and_unknown :
    let four : Record := ⟨⟨4, by decide, by decide⟩, .fixed32 7⟩
    let a : Query := { query := "a", pageNumber := 7 }
    let b : Query := { pageNumber := -1, unknown := [four] }
    let cut : Input := ⟨[[0x10, 0xff, 0xff, 0xff, 0xff], [], [0xff, 0xff, 0xff, 0xff, 0xff, 0x01],
      [0x25, 0x07, 0x00, 0x00, 0x00]]⟩
    let row : Input := ⟨[[0x0a, 0x01, 0x61, 0x10], [0x07]] ++ cut.pieces⟩
    a.mergeFrom b = { query := "a", pageNumber := -1, unknown := [four] } ∧
      (size b = 16 ∧ cut.bytes = encode b ∧
        (merge ⟨.preserve, 16⟩ a cut).result = .ok (a.mergeFrom b)) ∧
      (([a, b].flatMap encode).length = 21 ∧ row.bytes = [a, b].flatMap encode ∧
        (decode ⟨.preserve, 21⟩ row).result = .ok (a.mergeFrom b)) := by
  intro four a b cut row
  have hsize : size b = 16 := by decide +kernel
  have hcut : cut.bytes = encode b := by decide +kernel
  have hlength : ([a, b].flatMap encode).length = 21 := by decide +kernel
  have hrow : row.bytes = [a, b].flatMap encode := by decide +kernel
  obtain ⟨-, hunit, hmerge, hdecode⟩ := mergeFrom_matches_concatenation
  refine ⟨by decide +kernel, ⟨hsize, hcut, ?_⟩, hlength, hrow, ?_⟩
  · exact hmerge 16 a b cut (by decide) (by decide) (Nat.le_of_eq hsize) hcut
  · have hread := hdecode 21 [a, b] row (by decide) (by decide) (Nat.le_of_eq hlength) hrow
    rwa [List.foldl_cons, List.foldl_cons, List.foldl_nil, (hunit a).2] at hread

end ProtoWire.Query
