import ProtoWire.Proofs.Message.Absorb

/-!
# `ProtoWire.Proofs.Query.Meaning`: what bytes mean as a query

The grammar of records says which bytes are a message of some type. A
query asks more: `Accepts record` says that a record under the number 1
is a text in UTF-8, and that one under 2 or 3 is a varint.
`Means policy records q` says which query accepted records are. The
last text is the text of the query, the last two numbers are its
numbers, cut to 32 bits and taken as two's complement, and the records
under other numbers are kept or dropped.

Neither mentions a reader, and `Means.unique` says that the meaning
leaves nothing open. Reading comes to the same
(`decode_eq_ok_iff_means`), by what is known of absorbing records into
a message of any type: `accepts_iff_fits`, `means_of_absorb`.
-/

set_option autoImplicit false

namespace ProtoWire.Query

open Message

/-! ### Accepted records and their meaning -/

/-- What a query asks of a record. -/
structure Accepts (record : Record) : Prop where
  text : record.number.val = 1 → ∃ text, record.value = .bytes (textBytes text)
  number : record.number.val = 2 ∨ record.number.val = 3 → ∃ bits, record.value = .varint bits

/-- A value says a text: the payload is the UTF-8 form of the text. -/
def SaysText (value : WireValue) (text : String) : Prop :=
  value = .bytes (textBytes text)

/-- A value says a number: the varint is the number modulo 2 ^ 32. -/
def SaysNumber (value : WireValue) (n : Int32) : Prop :=
  ∃ bits, value = .varint bits ∧ n.toInt = (bits.toNat : Int).bmod (2 ^ 32)

/-- What the last record with a number says, and `default` if there is
none. -/
def LastSays {α : Type} (Says : WireValue → α → Prop) (default : α) (number : FieldNumber)
    (records : List Record) (a : α) : Prop :=
  match last? number records with
  | some record => Says record.value a
  | none => a = default

/-- The query that records mean. -/
structure Means (policy : UnknownFieldPolicy) (records : List Record) (q : Query) : Prop where
  query : LastSays SaysText "" .one records q.query
  pageNumber : LastSays SaysNumber 0 .two records q.pageNumber
  pageSize : LastSays SaysNumber 0 .three records q.pageSize
  unknown : q.unknown =
    match policy with
    | .preserve => records.filter fun record => record.number.val ∉ [1, 2, 3]
    | .discard => []

/-! ### Records have one meaning at most -/

/-- A value says one text at most. -/
theorem SaysText.unique {value : WireValue} {text text' : String} (h : SaysText value text)
    (h' : SaysText value text') : text = text' := by
  have hbytes : WireValue.bytes (textBytes text) = .bytes (textBytes text') := h.symm.trans h'
  exact textBytes_injective (WireValue.bytes.inj hbytes)

/-- A value says one number at most. -/
theorem SaysNumber.unique {value : WireValue} {n n' : Int32} (h : SaysNumber value n)
    (h' : SaysNumber value n') : n = n' := by
  obtain ⟨bits, hbits, hn⟩ := h
  obtain ⟨bits', hbits', hn'⟩ := h'
  have hsame : bits = bits' := WireValue.varint.inj (hbits.symm.trans hbits')
  rw [hsame] at hn
  exact Int32.toInt_inj.mp (hn.trans hn'.symm)

/-- Records say one value at most for a field, by the last of them or,
where there is none, by the default. -/
theorem LastSays.unique {α : Type} {Says : WireValue → α → Prop} {default : α}
    {number : FieldNumber} {records : List Record} {a a' : α}
    (h : LastSays Says default number records a) (h' : LastSays Says default number records a')
    (hmean : ∀ {value : WireValue} {a a' : α}, Says value a → Says value a' → a = a') :
    a = a' := by
  unfold LastSays at h h'
  cases hlast : last? number records with
  | some record =>
    simp only [hlast] at h h'
    exact hmean h h'
  | none =>
    simp only [hlast] at h h'
    rw [h, h']

/-- Records mean one query at most. -/
theorem Means.unique {policy : UnknownFieldPolicy} {records : List Record} {q q' : Query}
    (h : Means policy records q) (h' : Means policy records q') : q = q' := by
  cases q
  cases q'
  congr 1
  · exact h.query.unique h'.query SaysText.unique
  · exact h.pageNumber.unique h'.pageNumber SaysNumber.unique
  · exact h.pageSize.unique h'.pageSize SaysNumber.unique
  · exact h.unknown.trans h'.unknown.symm

/-! ### Reading gives the meaning -/

/-- The records a query accepts are those that mean something to its
fields. -/
theorem accepts_iff_fits {record : Record} : Accepts record ↔ Fits Query record := by
  -- The table of fields, spelled out.
  have hfields : Fits Query record ↔
      (record.number.val = 1 → (FieldType.string.ofValue? record.value).isSome) ∧
      (record.number.val = 2 → ((FieldType.scalar .int32).ofValue? record.value).isSome) ∧
      (record.number.val = 3 → ((FieldType.scalar .int32).ofValue? record.value).isSome) := by
    rw [fits_iff_forall_mem]
    simp [fields, fieldTable, FieldNumber.eq_iff, FieldNumber.one, FieldNumber.two,
      FieldNumber.three]
  rw [hfields, FieldType.isSome_ofValue?_string_iff, FieldType.isSome_ofValue?_scalar_iff]
  constructor
  · intro h
    exact ⟨h.text, fun h2 => h.number (.inl h2), fun h3 => h.number (.inr h3)⟩
  · intro h
    obtain ⟨htext, hnumber, hsize⟩ := h
    exact ⟨htext, fun h => h.elim hnumber hsize⟩

/-- What a text is read from says it. -/
theorem saysText_of_ofValue? {value : WireValue} {text : String}
    (h : FieldType.string.ofValue? value = some text) : SaysText value text :=
  FieldType.ofValue?_string_eq_some_iff.mp h

/-- An `int32` has the low 32 bits of its varint, in two's
complement. -/
theorem saysNumber_of_ofValue? {value : WireValue} {n : Int32}
    (h : (FieldType.scalar .int32).ofValue? value = some n) : SaysNumber value n := by
  obtain ⟨bits, hbits, rfl⟩ := FieldType.ofValue?_scalar_eq_some_iff.mp h
  refine ⟨bits, hbits, ?_⟩
  -- Both conversions go through the same 32 bits.
  show (UInt32.ofNat bits.toNat).toInt32.toInt = _
  rw [← Int32.toInt_toBitVec, UInt32.toBitVec_toInt32, UInt32.toBitVec_ofNat',
    BitVec.toInt_ofNat']

/-- A field of the query says what the last record with its number
says, and what it said before if there is none. -/
theorem lastSays_of_absorb {policy : UnknownFieldPolicy} {records : List Record} {q q' : Query}
    (h : absorb policy q records = some q') (field : Field Query)
    (hfield : field ∈ fieldTable) {Says : WireValue → field.type.Value → Prop}
    (hmean : ∀ value v, field.type.ofValue? value = some v → Says value v) :
    LastSays Says (field.get q) field.number records (field.get q') := by
  unfold LastSays
  cases hlast : last? field.number records with
  | some record => exact hmean _ _ (ofValue?_of_last h hfield hlast)
  | none => exact get_of_no_last h hfield hlast

/-- The three fields of a query that absorbs records. -/
theorem fields_of_absorb {policy : UnknownFieldPolicy} {records : List Record} {q q' : Query}
    (h : absorb policy q records = some q') :
    LastSays SaysText q.query .one records q'.query ∧
      LastSays SaysNumber q.pageNumber .two records q'.pageNumber ∧
      LastSays SaysNumber q.pageSize .three records q'.pageSize :=
  ⟨lastSays_of_absorb h fieldTable[0] (by simp [fieldTable]) fun _ _ => saysText_of_ofValue?,
    lastSays_of_absorb h fieldTable[1] (by simp [fieldTable]) fun _ _ => saysNumber_of_ofValue?,
    lastSays_of_absorb h fieldTable[2] (by simp [fieldTable]) fun _ _ => saysNumber_of_ofValue?⟩

/-- No field takes what has none of their numbers. -/
theorem strangers_eq_filter (records : List Record) :
    strangers Query records = records.filter fun record => record.number.val ∉ [1, 2, 3] := by
  refine List.filter_congr fun record _ => ?_
  rw [Bool.eq_iff_iff, Option.isNone_iff_eq_none, decide_eq_true_iff]
  exact field?_query_eq_none_iff

/-- What records make of the empty query is what they mean. -/
theorem means_of_absorb {policy : UnknownFieldPolicy} {records : List Record} {q : Query}
    (h : absorb policy empty records = some q) : Means policy records q where
  query := (fields_of_absorb h).1
  pageNumber := (fields_of_absorb h).2.1
  pageSize := (fields_of_absorb h).2.2
  unknown := by
    have hkept : q.unknown = kept Query policy records := unknown_of_absorb_empty h
    rw [hkept]
    cases policy with
    | preserve => exact strangers_eq_filter records
    | discard => rfl

/-- Accepted records have a meaning, since they can be absorbed. -/
theorem exists_absorb_iff {policy : UnknownFieldPolicy} {records : List Record} :
    (∃ q : Query, absorb policy empty records = some q) ↔
      ∀ record ∈ records, Accepts record := by
  rw [← Option.isSome_iff_exists, absorb_isSome_iff]
  exact forall₂_congr fun _ _ => accepts_iff_fits.symm

/-- What absorbs accepted records is what they mean. -/
theorem absorb_eq_some_iff {policy : UnknownFieldPolicy} {records : List Record} {q : Query} :
    absorb policy empty records = some q ↔
      (∀ record ∈ records, Accepts record) ∧ Means policy records q := by
  constructor
  · intro h
    exact ⟨exists_absorb_iff.mp ⟨q, h⟩, means_of_absorb h⟩
  · intro h
    obtain ⟨haccepts, hmeans⟩ := h
    -- They come to some query, and records have one meaning only.
    obtain ⟨q', hq'⟩ := exists_absorb_iff.mpr haccepts
    rw [hq', hmeans.unique (means_of_absorb hq')]

/-- **Reading accepts the grammar of a query and computes its
meaning.** Bytes are read as some query exactly if they are not too
many and are records that a query accepts; and they are read as `q`
exactly if moreover `q` is what these records mean. -/
theorem decode_eq_ok_iff_means (options : DecodeOptions) (input : Input) :
    ((∃ q : Query, (decode options input).result = .ok q) ↔
      input.bytes.length ≤ options.maxMessageLength ∧
        ∃ records, AreRecords input.bytes records ∧ ∀ record ∈ records, Accepts record) ∧
    ∀ q : Query, (decode options input).result = .ok q ↔
      input.bytes.length ≤ options.maxMessageLength ∧
        ∃ records, AreRecords input.bytes records ∧ (∀ record ∈ records, Accepts record) ∧
          Means options.unknownFields records q := by
  have hread : ∀ q : Query, (decode options input).result = .ok q ↔
      input.bytes.length ≤ options.maxMessageLength ∧
        ∃ records, AreRecords input.bytes records ∧
          absorb options.unknownFields empty records = some q :=
    fun _ => readAll_eq_ok_iff
  constructor
  · constructor
    · intro hsome
      obtain ⟨q, hq⟩ := hsome
      obtain ⟨hlen, records, hrecords, habsorb⟩ := (hread q).mp hq
      exact ⟨hlen, records, hrecords, exists_absorb_iff.mp ⟨q, habsorb⟩⟩
    · intro hrecords
      obtain ⟨hlen, records, hrecords, haccepts⟩ := hrecords
      obtain ⟨q, hq⟩ := exists_absorb_iff.mpr haccepts
      exact ⟨q, (hread q).mpr ⟨hlen, records, hrecords, hq⟩⟩
  · intro q
    simp only [hread, absorb_eq_some_iff]

end ProtoWire.Query
