import ProtoWire.Proofs.Message.Absorb
import ProtoWire.Proofs.Message.Overlay

/-!
# `ProtoWire.Proofs.Message.RoundTrip`: which messages survive a round trip

A message is written as records: one for each field that is not at its
default, and then the unknown ones (`records`). Reading it back is
absorbing these records into the empty message, and the question is
when that gives the message again.

It does exactly for the messages that are `Clean`. An unknown record
with the number of a field would be taken for that field, so it cannot
come back as an unknown one, whatever it holds
(`clean_of_absorb`). Nothing else can go wrong
(`absorb_records`): the numbers of the fields are distinct, so each
field is decided by its own record, and a field without a record is at
its default, which is what the empty message has there.

The start need not be the empty message. Whatever is there, absorbing
the records of a clean message lays that message over it
(`exists_absorb_records`).
-/

set_option autoImplicit false

namespace ProtoWire

variable {M : Type}

namespace Field

/-- The record a field is written as, unless it is at its default. -/
def record? (message : M) (field : Field M) : Option Record :=
  if field.type.isDefault (field.get message) then none
  else some ⟨field.number, field.type.toValue (field.get message)⟩

/-- A field has a record exactly if it is not at its default, and then
it is the one with its number and its value. -/
theorem record?_eq_some_iff {message : M} {field : Field M} {record : Record} :
    field.record? message = some record ↔ field.get message ≠ field.type.default ∧
      record = ⟨field.number, field.type.toValue (field.get message)⟩ := by
  rw [ne_eq, ← FieldType.isDefault_iff, record?]
  by_cases hdefault : field.type.isDefault (field.get message) = true
  · simp [hdefault]
  · simp [hdefault, eq_comm]

/-- The record of a field has its number and the wire value of what it
holds. -/
theorem eq_of_record?_eq_some {message : M} {field : Field M} {record : Record}
    (h : field.record? message = some record) :
    record = ⟨field.number, field.type.toValue (field.get message)⟩ :=
  (record?_eq_some_iff.mp h).2

/-- A field without a record is at its default. -/
theorem get_of_record?_eq_none {message : M} {field : Field M}
    (h : field.record? message = none) : field.get message = field.type.default := by
  by_contra hne
  rw [record?_eq_some_iff.mpr ⟨hne, rfl⟩] at h
  cases h

/-- A field is written as its record, or not at all. -/
theorem encode_eq_encodeAll (message : M) (field : Field M) :
    field.encode message = Record.encodeAll (field.record? message).toList := by
  unfold encode FieldType.encodeField record?
  split
  · rfl
  · rw [Option.toList_some, Record.encodeAll_cons, Record.encodeAll_nil, List.append_nil,
      Record.encode, FieldType.wireType_toValue, FieldType.encode_toValue]

/-- What is counted for it is the size of that record. -/
theorem size_eq_sizeAll (message : M) (field : Field M) :
    field.size message = Record.sizeAll (field.record? message).toList := by
  unfold size FieldType.fieldSize record?
  split
  · rfl
  · rw [Option.toList_some, Record.sizeAll_cons, Record.sizeAll_nil, Nat.add_zero,
      Record.size, FieldType.size_toValue]

end Field

namespace Message

variable [Message M]

/-- The records a message is written as. -/
def records (message : M) : List Record :=
  fields.filterMap (Field.record? message) ++ unknown message

/-- The record of a field is one of the message. -/
theorem mem_records_of_record? {message : M} {field : Field M}
    (hfield : field ∈ (fields : List (Field M))) {record : Record}
    (h : field.record? message = some record) : record ∈ records message :=
  List.mem_append_left _ (List.mem_filterMap.mpr ⟨field, hfield, h⟩)

/-! ### A message is written as its records -/

/-- A message is written as its records, one behind the other. -/
theorem encode_eq_encodeAll (message : M) :
    encode message = Record.encodeAll (records message) := by
  unfold encode records
  rw [Record.encodeAll_append]
  congr 1
  induction (fields : List (Field M)) with
  | nil => rfl
  | cons field rest ih =>
    rw [List.flatMap_cons, ih, Field.encode_eq_encodeAll, List.filterMap_cons]
    cases field.record? message <;> simp

/-- What is counted for it is what they take. -/
theorem size_eq_sizeAll (message : M) : size message = Record.sizeAll (records message) := by
  unfold size records
  rw [Record.sizeAll_append]
  induction (fields : List (Field M)) with
  | nil => exact (Nat.zero_add _).symm
  | cons field rest ih =>
    rw [List.foldr_cons, ih, Field.size_eq_sizeAll, List.filterMap_cons]
    cases field.record? message <;> simp [Nat.add_assoc]

/-- The computed length is the length. -/
theorem length_encode (message : M) : (encode message).length = size message := by
  rw [encode_eq_encodeAll, size_eq_sizeAll, Record.length_encodeAll]

/-- Behind its length, a message takes as many bytes as are counted for
both. -/
theorem length_encodeDelimited (message : M) :
    (encodeDelimited message).length = delimitedSize message := by
  rw [encodeDelimited, List.length_append, Varint.length_encode, length_encode, delimitedSize,
    Payload.size]

/-- The bytes of a message spell its records, if 64 bits can say how
many they are. -/
theorem areRecords_encode (message : M) (h : size message < UInt64.size) :
    AreRecords (encode message) (records message) := by
  rw [encode_eq_encodeAll]
  exact Record.areRecords_encodeAll _ (size_eq_sizeAll message ▸ h)

/-! ### Absorbing the records of a message -/

variable [LawfulMessage M]

/-- Absorbing records leaves a clean message clean. -/
theorem clean_of_absorb {policy : UnknownFieldPolicy} {message absorbed : M}
    {rs : List Record} (hclean : Clean message)
    (h : absorb policy message rs = some absorbed) : Clean absorbed := by
  intro record hrecord
  rw [unknown_of_absorb h, List.mem_append] at hrecord
  rcases hrecord with hold | hnew
  · exact hclean record hold
  · cases policy with
    | preserve => exact Option.isNone_iff_eq_none.mp (List.mem_filter.mp hnew).2
    | discard => cases hnew

/-- The empty message has no unknown records, so it is clean. -/
theorem clean_empty : Clean (empty : M) := by
  intro record hrecord
  rw [LawfulMessage.unknown_empty] at hrecord
  cases hrecord

/-- In a clean message, a record with the number of a field is the one
that the field is written as. -/
theorem record?_of_mem_records {message : M} (hclean : Clean message) {field : Field M}
    (hfield : field ∈ (fields : List (Field M))) {record : Record}
    (hrecord : record ∈ records message) (hnumber : record.number = field.number) :
    field.record? message = some record := by
  rcases List.mem_append.mp hrecord with hknown | hunknown
  · obtain ⟨other, hother, hwritten⟩ := List.mem_filterMap.mp hknown
    obtain rfl := Field.eq_of_record?_eq_some hwritten
    rw [← eq_of_number_eq hfield hother hnumber, hwritten]
  · have hnone := hclean record hunknown
    rw [hnumber, field?_of_mem hfield] at hnone
    cases hnone

/-- Every record of a clean message means something to its field. -/
theorem fits_of_mem_records {message : M} (hclean : Clean message) {record : Record}
    (hrecord : record ∈ records message) : Fits M record := by
  intro field hfield
  obtain ⟨hmem, hnumber⟩ := field?_eq_some hfield
  obtain rfl := Field.eq_of_record?_eq_some
    (record?_of_mem_records hclean hmem hrecord hnumber.symm)
  rw [FieldType.ofValue?_toValue]
  rfl

/-- Of the records of a clean message, the unknown ones are those that
no field takes. -/
theorem strangers_records {message : M} (hclean : Clean message) :
    strangers M (records message) = unknown message := by
  unfold strangers records
  rw [List.filter_append]
  have hknown : ∀ record ∈ (fields : List (Field M)).filterMap (Field.record? message),
      ¬ (field? M record.number).isNone = true := by
    intro record hrecord
    obtain ⟨field, hfield, hwritten⟩ := List.mem_filterMap.mp hrecord
    obtain rfl := Field.eq_of_record?_eq_some hwritten
    simp [field?_of_mem hfield]
  have hunknown : ∀ record ∈ unknown message, (field? M record.number).isNone = true :=
    fun record hrecord => Option.isNone_iff_eq_none.mpr (hclean record hrecord)
  rw [List.filter_eq_nil_iff.mpr hknown, List.filter_eq_self.mpr hunknown, List.nil_append]

/-- What is written for a field decides it, and so the value of the
written message is laid over the one that is there. -/
theorem get_of_absorb_records {policy : UnknownFieldPolicy} {lower upper absorbed : M}
    (hclean : Clean upper) (h : absorb policy lower (records upper) = some absorbed)
    {field : Field M} (hfield : field ∈ (fields : List (Field M))) :
    field.get absorbed = field.type.layOver (field.get lower) (field.get upper) := by
  unfold FieldType.layOver
  cases hlast : last? field.number (records upper) with
  | some record =>
    -- The last record of the field is its own, and stands for the value it was written for.
    have hget := ofValue?_of_last h hfield hlast
    obtain ⟨hmem, hnumber⟩ := mem_of_last? hlast
    have hwritten := record?_of_mem_records hclean hfield hmem hnumber
    obtain rfl := Field.eq_of_record?_eq_some hwritten
    rw [FieldType.ofValue?_toValue] at hget
    have hne := (Field.record?_eq_some_iff.mp hwritten).1
    rw [if_neg (mt FieldType.isDefault_iff.mp hne)]
    exact (Option.some.inj hget).symm
  | none =>
    -- No record was written for the field, so it is at its default in the written message.
    have hunwritten : field.record? upper = none := by
      cases hwritten : field.record? upper with
      | none => rfl
      | some record =>
        have hmem := mem_records_of_record? hfield hwritten
        obtain rfl := Field.eq_of_record?_eq_some hwritten
        exact absurd rfl (ne_of_last?_eq_none hlast _ hmem)
    rw [if_pos (FieldType.isDefault_iff.mpr (Field.get_of_record?_eq_none hunwritten)),
      get_of_no_last h hfield hlast]

/-- **Absorbing the records of a clean message is laying it over.** -/
theorem exists_absorb_records (lower : M) {upper : M} (hclean : Clean upper) :
    ∃ result, absorb .preserve lower (records upper) = some result ∧
      IsOverlay lower upper result := by
  have hsome := (absorb_isSome_iff .preserve lower).mpr
    fun record hrecord => fits_of_mem_records hclean hrecord
  obtain ⟨result, habsorb⟩ := Option.isSome_iff_exists.mp hsome
  refine ⟨result, habsorb, fun field hfield => get_of_absorb_records hclean habsorb hfield, ?_⟩
  rw [unknown_of_absorb habsorb]
  exact congrArg _ (strangers_records hclean)

/-- The empty message becomes a clean one by absorbing its records. -/
theorem absorb_records {message : M} (hclean : Clean message) :
    absorb .preserve empty (records message) = some message := by
  obtain ⟨result, habsorb, hover⟩ := exists_absorb_records empty hclean
  rw [habsorb, hover.unique (IsOverlay.of_empty_lower message)]

/-! ### The round trip -/

/-- A message that was written comes back exactly if it is clean. -/
theorem decode_eq_ok_iff_clean {options : DecodeOptions} {message : M} {input : Input}
    (hbytes : input.bytes = encode message) (hpolicy : options.unknownFields = .preserve)
    (hlimit : size message ≤ options.maxMessageLength) (hsize : size message < UInt64.size) :
    (decode options input).result = .ok message ↔ Clean message := by
  show (readAll .decode options empty input).result = .ok message ↔ _
  rw [readAll_eq_ok_iff, hbytes, hpolicy]
  have hwritten := areRecords_encode message hsize
  constructor
  · intro hread
    obtain ⟨-, rs, hrs, habsorb⟩ := hread
    exact clean_of_absorb clean_empty habsorb
  · intro hclean
    refine ⟨?_, records message, hwritten, absorb_records hclean⟩
    rw [length_encode]
    exact hlimit

/-- **The round trip and its domain.** However a query is written out
in pieces, reading it under a limit it keeps and with unknown records
preserved gives the query again, exactly if no unknown record of it has
one of the numbers 1, 2 and 3. For `Scalars` the numbers are those of
its six fields. Lengths are to fit in 64 bits. -/
theorem decode_encode_eq_ok_iff (options : DecodeOptions)
    (hpolicy : options.unknownFields = .preserve) :
    (∀ (q : Query) (input : Input), input.bytes = encode q →
      size q ≤ options.maxMessageLength → size q < UInt64.size →
      ((decode options input).result = .ok q ↔
        ∀ record ∈ q.unknown, record.number.val ∉ [1, 2, 3])) ∧
    (∀ (m : Scalars) (input : Input), input.bytes = encode m →
      size m ≤ options.maxMessageLength → size m < UInt64.size →
      ((decode options input).result = .ok m ↔
        ∀ record ∈ m.unknown, record.number.val ∉ [1, 2, 3, 15, 16, 536870911])) := by
  constructor
  · intro q input hbytes hlimit hsize
    rw [decode_eq_ok_iff_clean hbytes hpolicy hlimit hsize]
    exact forall₂_congr fun record _ => field?_query_eq_none_iff
  · intro m input hbytes hlimit hsize
    rw [decode_eq_ok_iff_clean hbytes hpolicy hlimit hsize]
    exact forall₂_congr fun record _ => field?_scalars_eq_none_iff

/-- A query with a negative number and an unknown record, cut inside
the text and inside the number, comes back. A message whose unknown
record has the number 15 comes back as a query, which has no such
field, and not as `Scalars`, which has. -/
theorem decode_encode_of_unknown_four_and_fifteen :
    let four : Record := ⟨⟨4, by decide, by decide⟩, .fixed32 7⟩
    let fifteen : Record := ⟨⟨15, by decide, by decide⟩, .bytes [0xff]⟩
    let q : Query := { query := "hi", pageNumber := -1, unknown := [four, fifteen] }
    let m : Scalars := { e := true, unknown := [fifteen] }
    let cut : Input := ⟨[[0x0a, 0x02, 0x68], [], [0x69, 0x10, 0xff, 0xff, 0xff, 0xff, 0xff],
      [0xff, 0xff, 0xff, 0xff, 0x01, 0x25, 0x07, 0x00, 0x00], [0x00, 0x7a, 0x01, 0xff]]⟩
    let cut' : Input := ⟨[[0x80, 0x01, 0x01, 0x7a], [0x01, 0xff]]⟩
    (cut.bytes = encode q ∧ size q = 23 ∧ (decode {} cut).result = .ok q) ∧
      (cut'.bytes = encode m ∧ size m = 6 ∧ (decode {} cut').result ≠ .ok m) := by
  intro four fifteen q m cut cut'
  have hcut : cut.bytes = encode q := by decide +kernel
  have hsize : size q = 23 := by decide +kernel
  have hcut' : cut'.bytes = encode m := by decide +kernel
  have hsize' : size m = 6 := by decide +kernel
  have hback := (decode_encode_eq_ok_iff {} rfl).1 q cut hcut (hsize ▸ by decide)
    (hsize ▸ by decide)
  have hlost := (decode_encode_eq_ok_iff {} rfl).2 m cut' hcut' (hsize' ▸ by decide)
    (hsize' ▸ by decide)
  refine ⟨⟨hcut, hsize, hback.mpr (by decide)⟩, hcut', hsize', ?_⟩
  intro h
  exact absurd (hlost.mp h) (by decide)

end Message

end ProtoWire
