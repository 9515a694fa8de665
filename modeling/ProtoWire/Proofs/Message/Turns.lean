import ProtoWire.Proofs.Message.Frame

/-!
# `ProtoWire.Proofs.Message.Turns`: how often the loop turns

The loop that reads a message takes one record in each turn. A record
has a key of one byte at least. Its value has one byte at least, and
where it holds a payload it has the payload and, in front of it, a
length of one byte at least (`IsRecord.payloadSize_add_two_le`). So a
turn uses up two bytes and what it stores, whichever way it goes: into a
field, to the unknown records or past the value.

From this the loop is bounded, turn by turn (`Turns.remaining_le`), and
what it makes is as well. The records that are kept and the texts that
are read all come from different records of the input
(`payloadSizeAll_kept_add_le`). However large a length is, what is
stored for it has been read.
-/

set_option autoImplicit false

namespace ProtoWire

/-! ### What a record holds -/

/-- How many bytes the payload of a value has, if it has one. -/
def WireValue.payloadSize : WireValue → Nat
  | bytes payload => payload.length
  | _ => 0

namespace Record

/-- How many bytes the payloads of records have together. -/
def payloadSizeAll (records : List Record) : Nat :=
  records.foldr (fun record rest => record.value.payloadSize + rest) 0

/-- No records hold nothing. -/
@[simp]
theorem payloadSizeAll_nil : payloadSizeAll [] = 0 := rfl

/-- The payload of the first record comes to those of the others. -/
@[simp]
theorem payloadSizeAll_cons (record : Record) (records : List Record) :
    payloadSizeAll (record :: records) = record.value.payloadSize + payloadSizeAll records := rfl

/-- The payloads of two lists of records add up. -/
@[simp]
theorem payloadSizeAll_append (xs ys : List Record) :
    payloadSizeAll (xs ++ ys) = payloadSizeAll xs + payloadSizeAll ys := by
  induction xs with
  | nil => rw [List.nil_append, payloadSizeAll_nil, Nat.zero_add]
  | cons x xs ih =>
    rw [List.cons_append, payloadSizeAll_cons, payloadSizeAll_cons, ih, Nat.add_assoc]

end Record

/-- A key has a byte. -/
theorem IsKey.length_pos {b : List UInt8} {key : Key} (h : IsKey b key) : 0 < b.length := by
  obtain ⟨bits, hvarint, -⟩ := h
  exact hvarint.digits.length_pos

/-- A value has a byte more than its payload, if it has no more. -/
theorem IsValue.payloadSize_lt {b : List UInt8} {value : WireValue} (h : IsValue b value) :
    value.payloadSize < b.length := by
  cases h with
  | varint hvarint => exact hvarint.digits.length_pos
  | fixed64 hlength _ =>
    rw [hlength]
    exact Nat.zero_lt_succ 7
  -- The payload is all but the length, which has a byte at least.
  | @bytes length payload hlength =>
    have hpos := hlength.digits.length_pos
    rw [WireValue.payloadSize, List.length_append]
    omega
  | fixed32 hlength _ =>
    rw [hlength]
    exact Nat.zero_lt_succ 3

/-- A record has two bytes more than its payload: one for the key and
one for the length. -/
theorem IsRecord.payloadSize_add_two_le {b : List UInt8} {record : Record}
    (h : IsRecord b record) : record.value.payloadSize + 2 ≤ b.length := by
  obtain ⟨hkey, hvalue⟩ := h
  have hfront := hkey.length_pos
  have hbehind := hvalue.payloadSize_lt
  rw [List.length_append]
  omega

/-- Some records have two bytes for each of them besides what they
hold. -/
theorem AreRecords.payloadSizeAll_add_le {b : List UInt8} {records : List Record}
    (h : AreRecords b records) :
    Record.payloadSizeAll records + 2 * records.length ≤ b.length := by
  induction h with
  | nil => exact Nat.le_refl 0
  | cons hrecord _ ih =>
    have hhere := hrecord.payloadSize_add_two_le
    rw [Record.payloadSizeAll_cons, List.length_cons, List.length_append]
    omega

/-- How many bytes a value stores as text. -/
def FieldType.textSize : (t : FieldType) → t.Value → Nat
  | scalar _, _ => 0
  | string, text => text.utf8ByteSize

/-- A text has the bytes of the payload it was read from. -/
theorem FieldType.textSize_eq_of_ofValue? {t : FieldType} {value : WireValue} {v : t.Value}
    (h : t.ofValue? value = some v) : t.textSize v = value.payloadSize := by
  cases t with
  | scalar s =>
    obtain ⟨n, rfl, -⟩ := ofValue?_scalar_eq_some_iff.mp h
    rfl
  | string =>
    obtain rfl := ofValue?_string_eq_some_iff.mp h
    rw [WireValue.payloadSize, ← toList_toUTF8]
    rfl

namespace Message

variable {M : Type} [Message M]

/-! ### Turn by turn -/

/-- A turn that does not fail uses up two bytes at least, whatever it
does with the record. -/
theorem remaining_add_two_le_of_mergeRecord {policy : UnknownFieldPolicy}
    {s s' : Intake (Progress M)} (h : mergeRecord policy s = .ok () s') :
    s'.input.remaining + 2 ≤ s.input.remaining := by
  obtain ⟨b, hbytes, record, hrecord, -⟩ := (reads_mergeRecord policy).sound h
  have hsize := hrecord.payloadSize_add_two_le
  rw [Input.remaining_eq_length, Input.remaining_eq_length, hbytes, List.length_append]
  omega

/-- A number of turns, none of which fails. -/
inductive Turns (policy : UnknownFieldPolicy) :
    Nat → Intake (Progress M) → Intake (Progress M) → Prop where
  | done (s : Intake (Progress M)) : Turns policy 0 s s
  | turn {n : Nat} {s s₁ s' : Intake (Progress M)} : mergeRecord policy s = .ok () s₁ →
      Turns policy n s₁ s' → Turns policy (n + 1) s s'

/-- So no input has more turns than half of its bytes. -/
theorem Turns.remaining_le {policy : UnknownFieldPolicy} {n : Nat} {s s' : Intake (Progress M)}
    (h : Turns policy n s s') : s'.input.remaining + 2 * n ≤ s.input.remaining := by
  induction h with
  | done s => exact Nat.le_refl _
  | turn hturn _ ih =>
    have hhere := remaining_add_two_le_of_mergeRecord hturn
    omega

/-- How the loop ends after its last turn that does not fail: nothing is
left, or one more turn fails. -/
inductive Ends (policy : UnknownFieldPolicy) (s : Intake (Progress M)) :
    EStateM.Result DecodeError (Intake (Progress M)) Unit → Prop where
  | empty : s.input.bytes = [] → Ends policy s (.ok () s)
  | fault {e : DecodeError} {s' : Intake (Progress M)} : s.input.bytes ≠ [] →
      mergeRecord policy s = .error e s' → Ends policy s (.error e s')

/-- The loop is a number of turns, and then its end. -/
theorem exists_turns (policy : UnknownFieldPolicy) (s : Intake (Progress M)) :
    ∃ n s', Turns policy n s s' ∧ Ends policy s' (mergeRecords policy s) := by
  fun_induction mergeRecords policy s with
  | case1 s hempty => exact ⟨0, s, .done s, .empty (Input.isEmpty_iff.mp hempty)⟩
  | case2 s _ s₁ hturn ih =>
    obtain ⟨n, s', hturns, hends⟩ := ih
    exact ⟨n + 1, s', .turn hturn hturns, hends⟩
  | case3 s hne e s₁ hturn =>
    exact ⟨0, s, .done s, .fault (mt Input.isEmpty_iff.mpr hne) hturn⟩

/-! ### What is stored -/

/-- How many bytes of text a message holds that were read from some
records. A text that no record is for does not count. -/
def textRead (records : List Record) (message : M) : Nat :=
  Field.total (fun field =>
    if (last? field.number records).isSome then field.type.textSize (field.get message) else 0)
    fields

/-- A query has one text, which was read if there is a record for it. -/
theorem textRead_query (records : List Record) (q : Query) :
    textRead records q = if (last? .one records).isSome then q.query.utf8ByteSize else 0 := by
  simp [textRead, Field.total, fields, Query.fieldTable, FieldType.textSize]

/-- `Scalars` have one text, under the greatest number, which was read
if there is a record for it. -/
theorem textRead_scalars (records : List Record) (m : Scalars) :
    textRead records m = if (last? .last records).isSome then m.s.utf8ByteSize else 0 := by
  simp [textRead, Field.total, fields, Scalars.fieldTable, FieldType.textSize]

/-- How many bytes of payload the records have that decide the fields. -/
def payloadRead (M : Type) [Message M] (records : List Record) : Nat :=
  Field.total (fun field : Field M =>
    ((last? field.number records).map fun record => record.value.payloadSize).getD 0) fields

/-- No more records are kept than there are. -/
theorem length_kept_le (policy : UnknownFieldPolicy) (records : List Record) :
    (kept M policy records).length ≤ records.length := by
  cases policy with
  | preserve => exact List.length_filter_le _ _
  | discard => exact Nat.zero_le _

variable [LawfulMessage M]

/-- A text that was read has the bytes of the record that decides it. -/
theorem textRead_le {policy : UnknownFieldPolicy} {message absorbed : M} {records : List Record}
    (h : absorb policy message records = some absorbed) :
    textRead records absorbed ≤ payloadRead M records := by
  refine Field.total_le_total fun field hfield => ?_
  cases hlast : last? field.number records with
  | none => exact Nat.le_refl 0
  | some record =>
    exact Nat.le_of_eq (FieldType.textSize_eq_of_ofValue? (ofValue?_of_last h hfield hlast))

/-- One more record in front decides the fields with its number, at
most. -/
theorem payloadRead_cons_le (record : Record) (records : List Record) :
    payloadRead M (record :: records) ≤ payloadRead M records
      + if record.number ∈ (fields : List (Field M)).map Field.number
        then record.value.payloadSize else 0 := by
  refine Field.total_le_add LawfulMessage.nodup_numbers fun field _ => ?_
  rw [last?_cons]
  cases last? field.number records with
  -- A later record has the number of the field, and decides it instead.
  | some later => exact Nat.le_add_right _ _
  | none =>
    by_cases hnumber : record.number = field.number
    · rw [if_pos hnumber, if_pos hnumber]
      exact Nat.le_add_left _ _
    · rw [if_neg hnumber]
      exact Nat.zero_le _

/-- No payload is stored twice: a record is kept, or decides a field, or
neither. -/
theorem payloadSizeAll_kept_add_le (policy : UnknownFieldPolicy) (records : List Record) :
    Record.payloadSizeAll (kept M policy records) + payloadRead M records
      ≤ Record.payloadSizeAll records := by
  induction records with
  | nil =>
    have hkept : kept M policy [] = [] := by cases policy <;> rfl
    have hfields : payloadRead M [] = 0 := Field.total_eq_zero fun _ _ => rfl
    rw [hkept, hfields, Record.payloadSizeAll_nil]
  | cons record records ih =>
    have hfields := payloadRead_cons_le (M := M) record records
    rw [kept_cons, Record.payloadSizeAll_append, Record.payloadSizeAll_cons]
    rcases kept_singleton (M := M) policy record with hkept | ⟨hkept, hnew⟩
    · rw [hkept, Record.payloadSizeAll_nil]
      -- It is not kept, so its payload is counted for its field or not at all.
      split at hfields <;> omega
    · -- It is kept, and then it has the number of no field.
      rw [if_neg hnew] at hfields
      rw [hkept, Record.payloadSizeAll_cons, Record.payloadSizeAll_nil]
      omega

/-- What is kept of the records of an input, and the texts that are read
from it, are two bytes less than the input for every record. -/
theorem stored_add_le {policy : UnknownFieldPolicy} {message absorbed : M} {b : List UInt8}
    {records : List Record} (hrecords : AreRecords b records)
    (h : absorb policy message records = some absorbed) :
    Record.payloadSizeAll (kept M policy records) + textRead records absorbed
      + 2 * records.length ≤ b.length := by
  have hall := hrecords.payloadSizeAll_add_le
  have hparts := payloadSizeAll_kept_add_le (M := M) policy records
  have htext := textRead_le h
  omega

/-! ### All of it -/

omit [LawfulMessage M] in
/-- A read that is not refused for the length of its input is the turns
of the loop and their end. -/
theorem exists_turns_of_readAll {purpose : Purpose} {options : DecodeOptions} {message : M}
    {input : Input} (hlimit : ¬ options.maxMessageLength < input.remaining) :
    ∃ n s', Turns options.unknownFields n ⟨input, { message := message }⟩ s' ∧
      ((s'.input.bytes = [] ∧
          readAll purpose options message input = ⟨.ok s'.dest.message, s'.input, s'.dest.events⟩) ∨
        ∃ e s'', s'.input.bytes ≠ [] ∧ mergeRecord options.unknownFields s' = .error e s'' ∧
          readAll purpose options message input
            = ⟨.error e, s''.input, s''.dest.events ++ [.failure (fullName M) purpose e]⟩) := by
  obtain ⟨n, s', hturns, hends⟩ :=
    exists_turns options.unknownFields ⟨input, { message := message }⟩
  refine ⟨n, s', hturns, ?_⟩
  generalize hrun : mergeRecords options.unknownFields ⟨input, { message := message }⟩ = run
    at hends
  cases hends with
  | empty hempty => exact .inl ⟨hempty, readAll_of_ok hlimit hrun⟩
  | fault hne hfault => exact .inr ⟨_, _, hne, hfault, readAll_of_error hlimit hrun⟩

/-- What reading a message takes and what it stores, measured by the
input. `text` says how many bytes of text a message holds that were read
from some records. -/
structure WorksWithin (text : List Record → M → Nat) (purpose : Purpose) (options : DecodeOptions)
    (message : M) (input : Input) : Prop where
  /-- A turn that does not fail uses up two bytes at least. -/
  turn : ∀ s s' : Intake (Progress M), mergeRecord options.unknownFields s = .ok () s' →
    s'.input.remaining + 2 ≤ s.input.remaining
  /-- There cannot be more of them than half of the bytes. -/
  turns_le : ∀ (n : Nat) (s' : Intake (Progress M)),
    Turns options.unknownFields n ⟨input, { message := message }⟩ s' → n ≤ input.bytes.length / 2
  /-- What is longer than the options allow is refused without a turn. -/
  refused : options.maxMessageLength < input.remaining →
    (readAll purpose options message input).result
      = .error (.messageTooLarge input.remaining options.maxMessageLength) ∧
    (readAll purpose options message input).rest = input
  /-- Otherwise the read is a number of turns, and then it ends: with a
  success where nothing is left, or with one more turn that fails. -/
  ends : ¬ options.maxMessageLength < input.remaining →
    ∃ n s', Turns options.unknownFields n ⟨input, { message := message }⟩ s' ∧
      ((s'.input.bytes = [] ∧
          readAll purpose options message input = ⟨.ok s'.dest.message, s'.input, s'.dest.events⟩) ∨
        ∃ e s'', s'.input.bytes ≠ [] ∧ mergeRecord options.unknownFields s' = .error e s'' ∧
          readAll purpose options message input
            = ⟨.error e, s''.input, s''.dest.events ++ [.failure (fullName M) purpose e]⟩)
  /-- A success has used up all of the input. -/
  rest_of_ok : ∀ absorbed : M, (readAll purpose options message input).result = .ok absorbed →
    (readAll purpose options message input).rest.bytes = []
  /-- It has added no more unknown records than half of the bytes, and
  stored no more of their payloads and of text than two bytes less than
  there are. A field that no record is for has the value it had. -/
  stored_of_ok : ∀ absorbed : M, (readAll purpose options message input).result = .ok absorbed →
    ∃ records added, AreRecords input.bytes records ∧
      unknown absorbed = unknown message ++ added ∧
      added.length ≤ input.bytes.length / 2 ∧
      (input.bytes ≠ [] →
        Record.payloadSizeAll added + text records absorbed + 2 ≤ input.bytes.length) ∧
      ∀ field ∈ (fields : List (Field M)), last? field.number records = none →
        field.get absorbed = field.get message

/-- Reading works within its input for any type of message whose table is
in order, in whichever way its texts are counted. -/
theorem turns_le_half_and_stored_add_two_le_of_lawful {text : List Record → M → Nat}
    (htext : ∀ records m, text records m = textRead records m) (purpose : Purpose)
    (options : DecodeOptions) (message : M) (input : Input) :
    WorksWithin text purpose options message input where
  turn _ _ := remaining_add_two_le_of_mergeRecord
  turns_le n s' hturns := by
    have hleft := hturns.remaining_le
    have hlength := input.remaining_eq_length
    simp only at hleft
    omega
  refused hlong := by
    rw [readAll_of_long hlong]
    exact ⟨rfl, rfl⟩
  ends := exists_turns_of_readAll
  rest_of_ok _ := bytes_rest_of_ok
  stored_of_ok absorbed h := by
    obtain ⟨-, records, hrecords, habsorb⟩ := readAll_eq_ok_iff.mp h
    have hstored := stored_add_le hrecords habsorb
    have hkept := length_kept_le (M := M) options.unknownFields records
    refine ⟨records, _, hrecords, unknown_of_absorb habsorb, by omega, fun hne => ?_, ?_⟩
    · -- There is a record where there are bytes, and it has two that are not stored.
      have hpos : 0 < records.length := by
        refine List.length_pos_of_ne_nil fun hnil => hne ?_
        subst hnil
        exact hrecords.bytes_eq_nil
      rw [htext]
      omega
    · exact fun field hfield => get_of_no_last habsorb hfield

/-- **Reading works within its input.** Of any bytes in any pieces, under
any options and into any query, be it new or not: the loop makes at most
half as many turns as there are bytes, and perhaps one more that fails.
After a success nothing is left, and the payloads that were added and the
text that was read are at least two bytes less than the input. So it is
for `Scalars`, which has one text as well. -/
theorem turns_le_half_and_stored_add_two_le :
    (∀ (purpose : Purpose) (options : DecodeOptions) (q : Query) (input : Input),
      WorksWithin (fun records q =>
        if (last? .one records).isSome then q.query.utf8ByteSize else 0) purpose options q input) ∧
    (∀ (purpose : Purpose) (options : DecodeOptions) (m : Scalars) (input : Input),
      WorksWithin (fun records m =>
        if (last? .last records).isSome then m.s.utf8ByteSize else 0) purpose options m input) :=
  ⟨turns_le_half_and_stored_add_two_le_of_lawful fun records q => (textRead_query records q).symm,
    turns_le_half_and_stored_add_two_le_of_lawful
      fun records m => (textRead_scalars records m).symm⟩

/-- Nothing can be saved on the two bytes: a payload of three bytes under
an unknown number takes five. A length of nearly `2 ^ 64` with nothing
behind it ends the loop in the turn that reads it. -/
example :
    let least : Input := .ofBytes [0x22, 0x03, 0x61, 0x62, 0x63]
    let endless : Input := .ofBytes
      [0x10, 0x07, 0x22, 0xff, 0xff, 0xff, 0xff, 0xff, 0xff, 0xff, 0xff, 0xff, 0x01]
    ((decode {} least : Outcome Query).result.map Query.unknown
        = .ok [⟨⟨4, by decide, by decide⟩, .bytes [0x61, 0x62, 0x63]⟩]) ∧
      (decode {} endless : Outcome Query).result = .error .unexpectedEnd := by
  decide +kernel

end Message

end ProtoWire
