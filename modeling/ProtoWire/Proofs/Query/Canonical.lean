import ProtoWire.Proofs.Query.PassThrough
import ProtoWire.Proofs.Record.Shortest

/-!
# `ProtoWire.Proofs.Query.Canonical`: bytes that are written as they were read

Many bytes are read as the same query: records may be repeated, be out
of order or say the default, and varints may be longer than they need to
be. One of these spellings is the one that is written. `Canonical` says
which, of the bytes alone: the records are `InOrder`, and each part of
them is as short as it can be (`AreTerseRecords`).

The order of records and the length of their parts are separate matters,
and that is how the proof takes them. Terse records are the bytes that
are written for these records, whatever they are
(`areTerseRecords_iff`). What is left is a question of records and not
of bytes: accepted records are those of a clean query exactly if they
are in order (`exists_records_eq_iff`). From such records the query can
be put together by hand, one field after the other
(`Field.exists_record?_eq`), and reading gives it and no other.

No way of being different has to be looked at by itself, and so it does
not matter that one makes the bytes longer and another shorter.
-/

set_option autoImplicit false

namespace ProtoWire

/-! ### What a field is written as -/

namespace Field

variable {M : Type}

/-- A record that a field can be written as. -/
def Writes (field : Field M) (record : Record) : Prop :=
  record.number = field.number ∧
    ∃ v, v ≠ field.type.default ∧ record.value = field.type.toValue v

/-- The record that a field has is one it writes. -/
theorem writes_of_record? {message : M} {field : Field M} {record : Record}
    (h : field.record? message = some record) : field.Writes record := by
  obtain ⟨hne, rfl⟩ := record?_eq_some_iff.mp h
  exact ⟨rfl, _, hne, rfl⟩

/-- A record that a field can be written as is what it is written as, at
some value; and so is no record. -/
theorem exists_record?_eq (field : Field M) {record? : Option Record}
    (h : ∀ record ∈ record?, field.Writes record) :
    ∃ v, ∀ message, field.get message = v → field.record? message = record? := by
  cases record? with
  | none =>
    refine ⟨field.type.default, fun message hget => ?_⟩
    rw [Field.record?, hget, if_pos (FieldType.isDefault_iff.mpr rfl)]
  | some record =>
    obtain ⟨hnumber, v, hne, hvalue⟩ := h record rfl
    refine ⟨v, fun message hget => record?_eq_some_iff.mpr ⟨hget ▸ hne, ?_⟩⟩
    rw [hget, ← hnumber, ← hvalue]

end Field

namespace Query

open Message

/-! ### Canonical bytes -/

/-- A text, and not the empty one. -/
def IsText (record : Record) : Prop :=
  record.number.val = 1 ∧ ∃ payload, payload ≠ [] ∧ record.value = .bytes payload

/-- A number, and not zero, that is its low 32 bits with their sign
extended to 64. -/
def IsNumber (number : Nat) (record : Record) : Prop :=
  record.number.val = number ∧
    ∃ bits, bits ≠ 0 ∧ bits = widened bits ∧ record.value = .varint bits

/-- One record at most for each field of a query, in their order, and
the records under other numbers behind them. -/
def InOrder (records : List Record) : Prop :=
  ∃ (text page size : Option Record) (others : List Record),
    records = text.toList ++ page.toList ++ size.toList ++ others ∧
    (∀ record ∈ text, IsText record) ∧ (∀ record ∈ page, IsNumber 2 record) ∧
    (∀ record ∈ size, IsNumber 3 record) ∧ ∀ record ∈ others, 4 ≤ record.number.val

/-- Bytes that are records in order, in which every key, every varint
that is a value and every length has as few bytes as it can have. -/
def Canonical (b : List UInt8) : Prop :=
  ∃ records, AreTerseRecords b records ∧ InOrder records

/-! ### The fields of a query as records -/

/-- Only the empty text has no bytes. -/
theorem textBytes_eq_nil_iff {text : String} : textBytes text = [] ↔ text = "" := by
  constructor
  · intro h
    exact textBytes_injective (h.trans rfl)
  · rintro rfl
    rfl

/-- The text can be written as the accepted records with a payload. -/
theorem writes_query_iff {record : Record} :
    (fieldTable[0] : Field Query).Writes record ↔ IsText record ∧ Accepts record := by
  constructor
  · rintro ⟨hnumber, text, hne, hvalue⟩
    have hone : record.number.val = 1 := congrArg FieldNumber.val hnumber
    have hbytes : record.value = .bytes (textBytes text) :=
      hvalue.trans (FieldType.toValue_string text)
    refine ⟨⟨hone, _, mt textBytes_eq_nil_iff.mp hne, hbytes⟩, fun _ => ⟨text, hbytes⟩, ?_⟩
    intro hother
    omega
  · rintro ⟨⟨hone, payload, hne, hpayload⟩, haccepts⟩
    obtain ⟨text, htext⟩ := haccepts.text hone
    refine ⟨FieldNumber.eq_iff.mpr hone, text, ?_, ?_⟩
    · rintro rfl
      exact hne (WireValue.bytes.inj (hpayload.symm.trans htext))
    · exact htext.trans (FieldType.toValue_string text).symm

/-- The varints that an `int32` is written as: they are what is written
for what they are read as. -/
theorem exists_toValue_int32_iff {value : WireValue} :
    (∃ v, v ≠ (FieldType.scalar .int32).default ∧
      value = (FieldType.scalar .int32).toValue v) ↔
      ∃ bits, bits ≠ 0 ∧ bits = widened bits ∧ value = .varint bits := by
  have hzero : (FieldType.scalar .int32).toValue (FieldType.scalar .int32).default = .varint 0 := by
    decide +kernel
  constructor
  · rintro ⟨v, hne, rfl⟩
    -- What is written for `v` is read as `v`, and read back it is written the same.
    obtain ⟨bits, hbits, rfl⟩ := FieldType.ofValue?_scalar_eq_some_iff.mp
      (FieldType.ofValue?_toValue (.scalar .int32) v)
    refine ⟨bits, ?_, ?_, hbits⟩
    · rintro rfl
      exact hne rfl
    · exact WireValue.varint.inj (hbits.symm.trans (toValue_ofVarint_int32 bits))
  · rintro ⟨bits, hne, hwide, rfl⟩
    have hagain := toValue_ofVarint_int32 bits
    rw [← hwide] at hagain
    refine ⟨ScalarType.int32.ofVarint bits.toNat, fun hdefault => hne ?_, hagain.symm⟩
    rw [hdefault, hzero] at hagain
    exact (WireValue.varint.inj hagain).symm

/-- The second field writes the numbers under 2. -/
theorem writes_pageNumber_iff {record : Record} :
    (fieldTable[1] : Field Query).Writes record ↔ IsNumber 2 record :=
  and_congr FieldNumber.eq_iff exists_toValue_int32_iff

/-- The third writes those under 3. -/
theorem writes_pageSize_iff {record : Record} :
    (fieldTable[2] : Field Query).Writes record ↔ IsNumber 3 record :=
  and_congr FieldNumber.eq_iff exists_toValue_int32_iff

/-- The records of a query are one for each field that is not at its
default, in the order of the table, and then the unknown ones. -/
theorem records_eq (q : Query) :
    records q = (fieldTable[0].record? q).toList ++ (fieldTable[1].record? q).toList
      ++ (fieldTable[2].record? q).toList ++ q.unknown := by
  show fieldTable.filterMap (Field.record? q) ++ q.unknown = _
  rw [List.filterMap_eq_flatMap_toList]
  simp [fieldTable]

/-- The numbers that no field has are those from 4 on. -/
theorem notMem_iff_four_le {number : FieldNumber} :
    number.val ∉ [1, 2, 3] ↔ 4 ≤ number.val := by
  have := number.one_le
  simp only [List.mem_cons, List.not_mem_nil, or_false]
  omega

/-- The records of clean queries are the accepted records in order. -/
theorem exists_records_eq_iff {rs : List Record} :
    (∃ q : Query, Clean q ∧ records q = rs) ↔ (∀ record ∈ rs, Accepts record) ∧ InOrder rs := by
  constructor
  · rintro ⟨q, hclean, rfl⟩
    refine ⟨fun record hrecord => accepts_iff_fits.mpr (fits_of_mem_records hclean hrecord), ?_⟩
    refine ⟨_, _, _, _, records_eq q, ?_, ?_, ?_, ?_⟩
    · exact fun record h => (writes_query_iff.mp (Field.writes_of_record? h)).1
    · exact fun record h => writes_pageNumber_iff.mp (Field.writes_of_record? h)
    · exact fun record h => writes_pageSize_iff.mp (Field.writes_of_record? h)
    · exact fun record h => notMem_iff_four_le.mp (field?_query_eq_none_iff.mp (hclean record h))
  · rintro ⟨haccepts, text, page, size, others, rfl, htext, hpage, hsize, hothers⟩
    obtain ⟨query, hquery⟩ := Field.exists_record?_eq fieldTable[0]
      fun record h => writes_query_iff.mpr
        ⟨htext record h, haccepts record (by simp [Option.mem_def.mp h])⟩
    obtain ⟨pageNumber, hpageNumber⟩ := Field.exists_record?_eq fieldTable[1]
      fun record h => writes_pageNumber_iff.mpr (hpage record h)
    obtain ⟨pageSize, hpageSize⟩ := Field.exists_record?_eq fieldTable[2]
      fun record h => writes_pageSize_iff.mpr (hsize record h)
    -- The query with these values, and the other records behind them.
    refine ⟨⟨query, pageNumber, pageSize, others⟩, ?_, ?_⟩
    · exact fun record h => field?_query_eq_none_iff.mpr (notMem_iff_four_le.mpr (hothers record h))
    · rw [records_eq, hquery _ rfl, hpageNumber _ rfl, hpageSize _ rfl]

/-! ### Bytes that stay the same -/

/-- Accepted bytes are those of a clean query exactly if they are
canonical. -/
theorem exists_encode_eq_iff {b : List UInt8} {rs : List Record} (hrs : AreRecords b rs)
    (haccepts : ∀ record ∈ rs, Accepts record) :
    (∃ q : Query, Clean q ∧ records q = rs ∧ encode q = b) ↔ Canonical b := by
  constructor
  · rintro ⟨q, hclean, rfl, rfl⟩
    refine ⟨records q, areTerseRecords_iff.mpr ⟨hrs, encode_eq_encodeAll q⟩, ?_⟩
    exact (exists_records_eq_iff.mp ⟨q, hclean, rfl⟩).2
  · rintro ⟨rs', hterse, horder⟩
    obtain ⟨hrs', hb⟩ := areTerseRecords_iff.mp hterse
    obtain rfl := hrs.unique hrs'
    obtain ⟨q, hclean, rfl⟩ := exists_records_eq_iff.mpr ⟨haccepts, horder⟩
    exact ⟨q, hclean, rfl, (encode_eq_encodeAll q).trans hb.symm⟩

/-- Bytes that were read as a query are written for it exactly if they
are canonical. -/
theorem encode_eq_iff_of_absorb {b : List UInt8} {rs : List Record} {q : Query}
    (hrs : AreRecords b rs) (h : absorb .preserve empty rs = some q) :
    encode q = b ↔ Canonical b := by
  rw [← exists_encode_eq_iff hrs (exists_absorb_iff.mp ⟨q, h⟩)]
  constructor
  · rintro rfl
    have hwritten := areRecords_encode_of_absorb hrs h
    exact ⟨q, clean_of_absorb clean_empty h, hwritten.unique hrs, rfl⟩
  · rintro ⟨q', hclean, rfl, rfl⟩
    -- A clean query is what its records are read as.
    rw [absorb_records hclean] at h
    rw [Option.some.inj h]

/-- **The bytes that stay the same.** Bytes that are read as a query
with unknown records preserved, under whatever limit, are written for it
again exactly if they are canonical. The canonical bytes that are read
are the encodings of the queries none of whose unknown records has one
of the numbers 1, 2 and 3, as far as 64 bits can say their length. -/
theorem encode_eq_iff_canonical :
    (∀ (limit : Nat) (input : Input) (q : Query),
      (decode ⟨.preserve, limit⟩ input).result = .ok q →
        (encode q = input.bytes ↔ Canonical input.bytes)) ∧
    (∀ input : Input,
      ((∃ (limit : Nat) (q : Query), limit < UInt64.size ∧
          (decode ⟨.preserve, limit⟩ input).result = .ok q) ∧ Canonical input.bytes) ↔
        ∃ q : Query, (∀ record ∈ q.unknown, record.number.val ∉ [1, 2, 3]) ∧
          (encode q).length < UInt64.size ∧ input.bytes = encode q) := by
  have hsame : ∀ (limit : Nat) (input : Input) (q : Query),
      (decode ⟨.preserve, limit⟩ input).result = .ok q →
        (encode q = input.bytes ↔ Canonical input.bytes) := by
    intro limit input q h
    obtain ⟨-, rs, hrs, habsorb⟩ := readAll_eq_ok_iff.mp h
    exact encode_eq_iff_of_absorb hrs habsorb
  have hnumbers : ∀ q : Query,
      Clean q ↔ ∀ record ∈ q.unknown, record.number.val ∉ [1, 2, 3] :=
    fun q => forall₂_congr fun _ _ => field?_query_eq_none_iff
  refine ⟨hsame, fun input => ⟨?_, ?_⟩⟩
  · rintro ⟨⟨limit, q, hlimit, h⟩, hcanonical⟩
    have hencode := (hsame limit input q h).mpr hcanonical
    obtain ⟨hlen, rs, -, habsorb⟩ := readAll_eq_ok_iff.mp h
    refine ⟨q, (hnumbers q).mp (clean_of_absorb clean_empty habsorb), ?_, hencode.symm⟩
    rw [hencode]
    exact Nat.lt_of_le_of_lt hlen hlimit
  · rintro ⟨q, hclean, hsize, hbytes⟩
    rw [length_encode] at hsize
    -- The length of the encoding is limit enough.
    have h : (decode ⟨.preserve, size q⟩ input).result = .ok q :=
      (decode_eq_ok_iff_clean hbytes rfl (Nat.le_refl _) hsize).mpr ((hnumbers q).mpr hclean)
    exact ⟨⟨size q, q, hsize, h⟩, (hsame _ _ _ h).mp hbytes.symm⟩

/-- A text, a negative page number over ten bytes and an unknown record
are canonical. The same with the number over five bytes is not: it is
read as the same query, but as a varint is not the extension of its low
32 bits. Nor is it with a digit too many in the unknown record. -/
theorem encode_eq_iff_canonical_of_negative :
    let front : List UInt8 := [0x0a, 0x01, 0x61]
    let ten : List UInt8 := [0x10, 0xff, 0xff, 0xff, 0xff, 0xff, 0xff, 0xff, 0xff, 0xff, 0x01]
    let five : List UInt8 := [0x10, 0xff, 0xff, 0xff, 0xff, 0x0f]
    let q : Query :=
      { query := "a", pageNumber := -1, unknown := [⟨⟨4, by decide, by decide⟩, .varint 7⟩] }
    let whole : Input := ⟨[front, ten, [0x20, 0x07]]⟩
    let short : Input := ⟨[front, five, [0x20, 0x07]]⟩
    let long : Input := ⟨[front, ten, [0x20, 0x87, 0x00]]⟩
    ((decode {} whole).result = .ok q ∧ Canonical whole.bytes) ∧
      ((decode {} short).result = .ok q ∧ ¬ Canonical short.bytes) ∧
      ((decode {} long).result = .ok q ∧ ¬ Canonical long.bytes) ∧
      ∃ q' : Query, (∀ record ∈ q'.unknown, record.number.val ∉ [1, 2, 3]) ∧
        (encode q').length < UInt64.size ∧ whole.bytes = encode q' := by
  intro front ten five q whole short long
  have hwhole : (decode {} whole).result = .ok q := by decide +kernel
  have hshort : (decode {} short).result = .ok q := by decide +kernel
  have hlong : (decode {} long).result = .ok q := by decide +kernel
  have hcanonical := (encode_eq_iff_canonical.1 _ whole q hwhole).mp (by decide +kernel)
  refine ⟨⟨hwhole, hcanonical⟩, ⟨hshort, ?_⟩, ⟨hlong, ?_⟩, ?_⟩
  · rw [← encode_eq_iff_canonical.1 _ short q hshort]
    decide +kernel
  · rw [← encode_eq_iff_canonical.1 _ long q hlong]
    decide +kernel
  · exact (encode_eq_iff_canonical.2 whole).mp ⟨⟨_, q, by decide, hwhole⟩, hcanonical⟩

end Query

end ProtoWire
