import ProtoWire.Proofs.Message.Absorb
import ProtoWire.Proofs.Record.Faults

/-!
# `ProtoWire.Proofs.Message.Faults`: where a message breaks off

The counterpart of `ProtoWire.Proofs.Message.Absorb` for reads that
fail. `RecordFault M b e` says what is wrong with bytes that do not
begin with a record a message of type `M` takes: it may be no record at
all, have the wrong layout for its field, or be a text that is not
well-formed. `Breaks M front rest e` says that bytes are records that
are taken, `front`, up to a fault.

* `rejects_mergeRecord`: a turn of the loop fails exactly on these
  faults. The policy for unknown records has no say in it, nor has the
  message that is there.
* `readAll_eq_error_iff`: a read fails exactly on bytes that are too
  many or break off, and the fault is its error.
* `RecordFault.not_record`: bytes with a fault do not begin with a
  record that is taken, so what is in front of a fault is the longest
  part that can be read (`Breaks.length_le`).
-/

set_option autoImplicit false

namespace ProtoWire

/-! ### The faults of a field -/

/-- What is wrong with bytes that do not begin with a value of the
type. -/
inductive FieldFault (t : FieldType) : List UInt8 → DecodeError → Prop where
  | value {bytes : List UInt8} {e : DecodeError} : ValueFault t.wireType bytes e →
      FieldFault t bytes e
  /-- There is a value in the layout of the type, but the type has none
  for it: a text that is not well-formed. -/
  | meaning {bytes rest : List UInt8} {value : WireValue} : IsValue bytes value →
      value.wireType = t.wireType → t.ofValue? value = none →
      FieldFault t (bytes ++ rest) .invalidUtf8

namespace FieldType

/-- A scalar is refused for a fault of its varint. -/
theorem rejects_readScalarInto (s : ScalarType) :
    (readScalarInto s).Rejects fun b _ e => FieldFault (scalar s) b e := by
  refine ((Filler.Rejects.reading (Varint.rejects_readValue .w64)).bind_of_total
    (Filler.Reads.reading (Varint.reads_readValue .w64))
    fun n => Filler.Rejects.update _).congr fun b _ e => ?_
  constructor
  · intro hfault
    exact .value (.varint hfault)
  · intro hfault
    cases hfault with
    | value hfault =>
      cases hfault with
      | varint hfault => exact hfault
    | meaning hvalue hlayout hnone =>
      -- Every number stands for a value of the type.
      cases hvalue with
      | varint => cases hnone
      | _ => cases hlayout

/-- A text is refused for a fault of its payload, or because this is not
the bytes of a text. -/
theorem rejects_readTextInto :
    readTextInto.Rejects fun b _ e => FieldFault string b e := by
  -- Behind the payload nothing is read: the old text is given up, and the new one judged.
  refine ((Filler.Rejects.reading Payload.rejects_read).bind
    (Filler.Reads.reading Payload.reads_read) (H := fun bytes _ _ e =>
      string.ofValue? (.bytes bytes) = none ∧ e = .invalidUtf8) fun bytes => ?_).congr
    fun b old e => ?_
  · show Filler.Rejects _ fun _ _ e => String.fromUTF8? ⟨bytes.toArray⟩ = none ∧ e = .invalidUtf8
    cases String.fromUTF8? ⟨bytes.toArray⟩ with
    | some text =>
      refine ((Filler.Rejects.update _).bind_of_total (Filler.Reads.update _)
        fun _ => Filler.Rejects.update _).congr fun b _ e => ?_
      simp
    | none =>
      refine ((Filler.Rejects.update _).bind (Filler.Reads.update _)
        fun _ => Filler.Rejects.throw _).congr fun b _ e => ?_
      simp
  · constructor
    · intro hfault
      rcases hfault with
        hfault | ⟨_, rest, payload, _, rfl, ⟨⟨length, rfl, hlength⟩, -⟩, hnone, rfl⟩
      · exact .value hfault
      · exact .meaning (.bytes hlength) rfl hnone
    · intro hfault
      cases hfault with
      | value hfault => exact .inl hfault
      | meaning hvalue hlayout hnone =>
        cases hvalue with
        | bytes hlength => exact .inr ⟨_, _, _, old, rfl, ⟨⟨_, rfl, hlength⟩, rfl⟩, hnone, rfl⟩
        | _ => cases hlayout

/-- A value is refused for the faults of a field of its type. -/
theorem rejects_readInto (t : FieldType) :
    t.readInto.Rejects fun b _ e => FieldFault t b e := by
  cases t with
  | scalar s => exact rejects_readScalarInto s
  | string => exact rejects_readTextInto

end FieldType

/-- What is wrong with bytes behind a key that are no value of a field
of the type. -/
inductive KeyedFault (t : FieldType) (key : Key) : List UInt8 → DecodeError → Prop where
  | layout {bytes : List UInt8} : key.wireType ≠ t.wireType →
      KeyedFault t key bytes (.wireTypeMismatch key.number.val t.wireType key.wireType)
  | field {bytes : List UInt8} {e : DecodeError} : key.wireType = t.wireType →
      FieldFault t bytes e → KeyedFault t key bytes e

/-- Behind a key, its layout is a further cause. -/
theorem FieldType.rejects_readField (t : FieldType) (key : Key) :
    (t.readField key).Rejects fun b _ e => KeyedFault t key b e := by
  by_cases hlayout : key.wireType = t.wireType
  · rw [readField, if_pos hlayout]
    refine (rejects_readInto t).congr fun b _ e => ⟨.field hlayout, fun hfault => ?_⟩
    -- In the right layout, only the value can be wrong.
    cases hfault with
    | layout hne => exact absurd hlayout hne
    | field _ hfault => exact hfault
  · rw [readField, if_neg hlayout]
    refine (Filler.Rejects.throw _).congr fun b _ e => ⟨?_, fun hfault => ?_⟩
    · rintro rfl
      exact .layout hlayout
    · cases hfault with
      | layout => rfl
      | field heq => exact absurd heq hlayout

/-- More bytes do not mend a value whose fault is not that it ends. -/
theorem FieldFault.append {t : FieldType} {b : List UInt8} {e : DecodeError}
    (h : FieldFault t b e) (he : e ≠ .unexpectedEnd) (z : List UInt8) :
    FieldFault t (b ++ z) e := by
  cases h with
  | value hfault => exact .value (hfault.append he z)
  | meaning hvalue hlayout hnone =>
    rw [List.append_assoc]
    exact .meaning hvalue hlayout hnone

/-- More bytes do not mend a value behind its key, be it the value or
the layout that is wrong. -/
theorem KeyedFault.append {t : FieldType} {key : Key} {b : List UInt8} {e : DecodeError}
    (h : KeyedFault t key b e) (he : e ≠ .unexpectedEnd) (z : List UInt8) :
    KeyedFault t key (b ++ z) e := by
  cases h with
  | layout hne => exact .layout hne
  | field heq hfault => exact .field heq (hfault.append he z)

namespace Message

variable {M : Type} [Message M]

/-! ### The faults of a record -/

/-- What is wrong with bytes that do not begin with a record that a
message of type `M` takes. -/
inductive RecordFault (M : Type) [Message M] : List UInt8 → DecodeError → Prop where
  | key {bytes : List UInt8} {e : DecodeError} : KeyFault bytes e → RecordFault M bytes e
  | known {bytes rest : List UInt8} {key : Key} {field : Field M} {e : DecodeError} :
      IsKey bytes key → field? M key.number = some field → KeyedFault field.type key rest e →
      RecordFault M (bytes ++ rest) e
  | unknown {bytes rest : List UInt8} {key : Key} {e : DecodeError} :
      IsKey bytes key → field? M key.number = none → ValueFault key.wireType rest e →
      RecordFault M (bytes ++ rest) e

/-- Where a field is known, its faults are the ones a value is refused
for. Where none is, nothing is refused. -/
theorem rejects_readKnown (key : Key) :
    (readKnown key : Filler M Bool).Rejects fun b _ e =>
      ∃ field, field? M key.number = some field ∧ KeyedFault field.type key b e := by
  unfold readKnown
  cases field? M key.number with
  | none => exact (Filler.Rejects.pure false).congr fun b _ e => by simp
  | some field =>
    refine ((Filler.Rejects.within (FieldType.rejects_readField field.type key)).bind_of_total
      (Filler.Reads.within (FieldType.reads_readField field.type key))
      fun _ => Filler.Rejects.pure true).congr fun b _ e => ?_
    simp

/-- The value of an unknown record is refused for the same faults under
both policies. -/
theorem rejects_mergeUnknown (policy : UnknownFieldPolicy) (key : Key) :
    (mergeUnknown policy key : Filler M Unit).Rejects fun b _ e =>
      ValueFault key.wireType b e := by
  cases policy with
  | preserve =>
    exact (Filler.Rejects.reading (Record.rejects_readValue key)).bind_of_total
      (Filler.Reads.reading (Record.reads_readValue key)) fun record => Filler.Rejects.update _
  | discard =>
    refine Filler.Rejects.reading ?_
    rw [WireValue.skip_eq_map_read]
    exact (WireValue.rejects_read key.wireType).map _

/-- A field that was found leaves nothing to fail; otherwise the value
is left. -/
theorem rejects_unlessKnown (policy : UnknownFieldPolicy) (key : Key) (known : Bool) :
    Filler.Rejects
      (if known then pure ()
        else do
          Message.report (.unknownField (fullName M) policy key)
          intoMessage (mergeUnknown policy key) : Filler (Progress M) Unit)
      fun b _ e => known = false ∧ ValueFault key.wireType b e := by
  cases known with
  | true => exact (Filler.Rejects.pure ()).congr fun b _ e => by simp
  | false =>
    refine ((Filler.Rejects.update _).bind (Filler.Reads.update _) fun _ =>
      Filler.Rejects.within (rejects_mergeUnknown policy key)).congr fun b p e => ?_
    simp

/-- A turn of the loop fails exactly on the faults of a record. -/
theorem rejects_mergeRecord (policy : UnknownFieldPolicy) :
    (mergeRecord policy : Filler (Progress M) Unit).Rejects fun b _ e => RecordFault M b e := by
  refine ((Filler.Rejects.reading Key.rejects_read).bind (Filler.Reads.reading Key.reads_read)
    fun key => (Filler.Rejects.within (rejects_readKnown key)).bind
      (Filler.Reads.within (reads_readKnown key))
      fun known => rejects_unlessKnown policy key known).congr fun b p e => ?_
  constructor
  · intro hsteps
    rcases hsteps with hfault | ⟨kb, rest, key, _, rfl, ⟨hkey, rfl⟩, hvalue⟩
    · exact .key hfault
    · rcases hvalue with ⟨field, hfield, hfault⟩ | ⟨b₁, b₂, known, _, rfl, hknown, rfl, hfault⟩
      · exact .known hkey hfield hfault
      · -- No field was found, so nothing of the value was read.
        obtain ⟨m, hknown, -⟩ := hknown
        cases hfield : field? M key.number with
        | none =>
          rw [hfield] at hknown
          obtain ⟨-, rfl, -⟩ := hknown
          exact .unknown hkey hfield hfault
        | some field =>
          rw [hfield] at hknown
          cases hknown.1
  · intro hfault
    cases hfault with
    | key hfault => exact .inl hfault
    | known hkey hfield hfault =>
      exact .inr ⟨_, _, _, p, rfl, ⟨hkey, rfl⟩, .inl ⟨_, hfield, hfault⟩⟩
    | unknown hkey hfield hfault =>
      refine .inr ⟨_, _, _, p, rfl, ⟨hkey, rfl⟩, .inr ⟨[], _, false, p, rfl, ?_, rfl, hfault⟩⟩
      rw [hfield]
      exact ⟨p.message, ⟨rfl, rfl, rfl⟩, rfl⟩

/-- Bytes with a fault do not begin with a record that is taken: a turn
of the loop cannot both fail and succeed. -/
theorem RecordFault.not_record {b z : List UInt8} {record : Record} {e : DecodeError}
    (h : RecordFault M (b ++ z) e) (hrecord : IsRecord b record) : ¬ Fits M record := by
  intro hfits
  -- Let a turn start with these bytes: by the grammar it would succeed, by the fault it fails.
  let s : Intake (Progress M) := ⟨.ofBytes (b ++ z), { message := empty }⟩
  have hbytes : s.input.bytes = b ++ z := Input.bytes_ofBytes (b ++ z)
  obtain ⟨placed, hplace⟩ :=
    Option.isSome_iff_exists.mp ((place_isSome_iff .preserve (empty : M)).mpr hfits)
  let after : Progress M := ⟨placed, [] ++ (report? M .preserve record).toList⟩
  have hgrammar : ∃ r, IsRecord b r ∧ place .preserve s.dest.message r = some after.message ∧
      after.events = s.dest.events ++ (report? M .preserve r).toList :=
    ⟨record, hrecord, hplace, rfl⟩
  obtain ⟨_, hok, -⟩ := (reads_mergeRecord .preserve).complete (a := ()) hbytes hgrammar
  obtain ⟨_, herror⟩ := (rejects_mergeRecord (M := M) .preserve).complete (s := s) (hbytes ▸ h)
  rw [hok] at herror
  cases herror

/-- Bytes have one fault at most: it is the error of a turn that starts
with them. -/
theorem RecordFault.unique {b : List UInt8} {e e' : DecodeError} (h : RecordFault M b e)
    (h' : RecordFault M b e') : e = e' := by
  let s : Intake (Progress M) := ⟨.ofBytes b, { message := empty }⟩
  have hbytes : s.input.bytes = b := Input.bytes_ofBytes b
  obtain ⟨_, hrun⟩ := (rejects_mergeRecord (M := M) .preserve).complete (s := s) (hbytes ▸ h)
  obtain ⟨_, hrun'⟩ := (rejects_mergeRecord (M := M) .preserve).complete (s := s) (hbytes ▸ h')
  rw [hrun] at hrun'
  cases hrun'
  rfl

/-! ### The loop -/

/-- Records that are taken, and behind them the fault that a read stops
at. -/
structure Breaks (M : Type) [Message M] (front rest : List UInt8) (e : DecodeError) : Prop where
  records : ∃ records, AreRecords front records ∧ ∀ record ∈ records, Fits M record
  ne_nil : rest ≠ []
  fault : RecordFault M rest e

/-- When the loop fails, it has taken records up to a fault. The
induction is on the run. -/
theorem breaks_of_mergeRecords {policy : UnknownFieldPolicy} {s s' : Intake (Progress M)}
    {e : DecodeError} (h : mergeRecords policy s = .error e s') :
    ∃ front rest, s.input.bytes = front ++ rest ∧ Breaks M front rest e := by
  fun_induction mergeRecords policy s with
  | case1 => cases h
  | case2 s _ s₁ hturn ih =>
    -- The record of this turn is taken, and so lies in front of the fault.
    obtain ⟨front, rest, hleft, ⟨records, hrecords, hfits⟩, hne, hfault⟩ := ih h
    obtain ⟨b, hb, record, hrecord, hplace, -⟩ := (reads_mergeRecord policy).sound hturn
    have hfit : Fits M record := (place_isSome_iff policy s.dest.message).mp (by simp [hplace])
    refine ⟨b ++ front, rest, ?_, ⟨record :: records, .cons hrecord hrecords, ?_⟩, hne, hfault⟩
    · rw [hb, hleft, List.append_assoc]
    · exact List.forall_mem_cons.mpr ⟨hfit, hfits⟩
  | case3 s hempty e' s₁ hturn =>
    cases h
    -- The loop fails here, so nothing is in front.
    refine ⟨[], s.input.bytes, rfl, ⟨[], .nil, by simp⟩, ?_, ?_⟩
    · exact fun hnil => hempty (Input.isEmpty_iff.mpr hnil)
    · exact (rejects_mergeRecord policy).sound hturn

/-- Where bytes break off, the loop fails. -/
theorem mergeRecords_of_breaks {policy : UnknownFieldPolicy} {s : Intake (Progress M)}
    {front rest : List UInt8} {e : DecodeError} (hb : s.input.bytes = front ++ rest)
    (h : Breaks M front rest e) : ∃ s', mergeRecords policy s = .error e s' := by
  obtain ⟨⟨records, hrecords, hfits⟩, hne, hfault⟩ := h
  obtain ⟨absorbed, habsorb⟩ :=
    Option.isSome_iff_exists.mp ((absorb_isSome_iff policy s.dest.message).mpr hfits)
  -- The records in front are taken, and then there is a turn that fails.
  obtain ⟨s₁, hrun, hleft, -⟩ := mergeRecords_of_areRecords hrecords hb habsorb
  obtain ⟨s', hturn⟩ := (rejects_mergeRecord (M := M) policy).complete (s := s₁) (hleft ▸ hfault)
  exact ⟨s', hrun.trans (mergeRecords_of_error (hleft ▸ hne) hturn)⟩

/-- What is in front of a fault is the longest part of the bytes that
records which are taken make up. -/
theorem Breaks.length_le {front rest front' rest' : List UInt8} {e : DecodeError}
    (h : Breaks M front rest e) {records : List Record} (hb : front ++ rest = front' ++ rest')
    (hrecords : AreRecords front' records) (hfits : ∀ record ∈ records, Fits M record) :
    front'.length ≤ front.length := by
  rcases List.append_eq_append_iff.mp hb with ⟨x, rfl, hrest⟩ | ⟨x, rfl, -⟩
  · obtain ⟨⟨_, hfront, -⟩, -, hfault⟩ := h
    obtain ⟨more, rfl, hmore⟩ := hfront.of_append hrecords
    cases hmore with
    | nil => exact Nat.le_of_eq (congrArg List.length (List.append_nil front))
    | cons hrecord _ =>
      -- Behind `front` would stand a record that is taken, where the fault is.
      rw [hrest, List.append_assoc] at hfault
      exact absurd (hfits _ (by simp)) (hfault.not_record hrecord)
  · rw [List.length_append]
    exact Nat.le_add_right _ _

/-- **Where a read fails.** A read fails exactly on bytes that are too
many, and names how many, or on bytes that break off, and then the
error is the fault they break off at. -/
theorem readAll_eq_error_iff {purpose : Purpose} {options : DecodeOptions} {message : M}
    {input : Input} {e : DecodeError} :
    (readAll purpose options message input).result = .error e ↔
      (options.maxMessageLength < input.bytes.length ∧
        e = .messageTooLarge input.bytes.length options.maxMessageLength) ∨
      (input.bytes.length ≤ options.maxMessageLength ∧
        ∃ front rest, input.bytes = front ++ rest ∧ Breaks M front rest e) := by
  have hlen := input.remaining_eq_length
  constructor
  · intro h
    rcases exists_mergeRecords_of_readAll_error h with ⟨hlong, he⟩ | ⟨hshort, s, hrun⟩
    · rw [hlen] at hlong he
      exact .inl ⟨hlong, he⟩
    · exact .inr ⟨by omega, breaks_of_mergeRecords hrun⟩
  · rintro (⟨hlong, rfl⟩ | ⟨hle, front, rest, hb, hbreaks⟩)
    · rw [← hlen] at hlong ⊢
      rw [readAll_of_long hlong]
    · have hshort : ¬ options.maxMessageLength < input.remaining := by omega
      -- The records in front of the fault are taken, and the turn behind them fails.
      have hfails : ∃ s', mergeRecords options.unknownFields ⟨input, { message := message }⟩
          = .error e s' := mergeRecords_of_breaks hb hbreaks
      obtain ⟨s', hrun⟩ := hfails
      rw [readAll_of_error hshort hrun]

/-! ### What more bytes cannot mend -/

/-- A record that is refused for something other than its end is refused
with more bytes behind it, if it has begun. -/
theorem RecordFault.append {b : List UInt8} {e : DecodeError} (h : RecordFault M b e) (hne : b ≠ [])
    (he : e ≠ .unexpectedEnd) (z : List UInt8) : RecordFault M (b ++ z) e := by
  cases h with
  | key hfault => exact .key (hfault.append hne he z)
  | known hkey hfield hfault =>
    rw [List.append_assoc]
    exact .known hkey hfield (hfault.append he z)
  | unknown hkey hfield hfault =>
    rw [List.append_assoc]
    exact .unknown hkey hfield (hfault.append he z)

/-- Where bytes break off for another reason than that they end, they do
so whatever comes behind. -/
theorem Breaks.append {front rest : List UInt8} {e : DecodeError} (h : Breaks M front rest e)
    (he : e ≠ .unexpectedEnd) (z : List UInt8) : Breaks M front (rest ++ z) e where
  records := h.records
  ne_nil := List.append_ne_nil_of_left_ne_nil h.ne_nil z
  fault := h.fault.append h.ne_nil he z

end Message

end ProtoWire
