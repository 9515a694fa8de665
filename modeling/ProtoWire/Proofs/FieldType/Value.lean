import ProtoWire.FieldType
import ProtoWire.Proofs.Record.Grammar

/-!
# `ProtoWire.Proofs.FieldType.Value`: what a field makes of a value

A value on the wire says only how long it is. The type of a field
gives it a meaning: `FieldType.ofValue?` takes a wire value to a value
of the type, provided the layout is right and a text is well-formed,
and `FieldType.toValue` goes the other way. Reading a field is reading
a wire value and giving it that meaning (`reads_readInto`,
`reads_readField`), writing one is writing the wire value
(`encode_toValue`), and the two directions fit (`ofValue?_toValue`). So
the bytes of a value are read as the value, wherever they stand
(`stores_of_isValue`, `stores_encode`).

A number that is too wide for its type loses its high bits, so many
wire values have the same meaning (`ofValue?_scalar_eq_some_iff`). A
text has one wire value only, its characters in UTF-8
(`ofValue?_string_eq_some_iff`).
-/

set_option autoImplicit false

namespace ProtoWire

/-- The bytes of a text: the UTF-8 form of each of its characters. -/
def textBytes (text : String) : List UInt8 :=
  text.toList.flatMap String.utf8EncodeChar

/-- A text is kept in the UTF-8 form of its characters. -/
theorem toList_toUTF8 (text : String) : text.toUTF8.data.toList = textBytes text := by
  have hchars : text.toByteArray = text.toList.utf8Encode := by
    rw [← String.toByteArray_ofList, String.ofList_toList]
  show text.toByteArray.data.toList = _
  rw [hchars]
  simp [List.utf8Encode, textBytes]

/-- Different texts have different bytes. -/
theorem textBytes_injective {text text' : String} (h : textBytes text = textBytes text') :
    text = text' := by
  rw [← toList_toUTF8, ← toList_toUTF8] at h
  exact String.toByteArray_inj.mp (ByteArray.ext (Array.toList_inj.mp h))

/-- Bytes are read as a text exactly if they are its UTF-8 form. -/
theorem fromUTF8?_eq_some_iff {bytes : List UInt8} {text : String} :
    String.fromUTF8? ⟨bytes.toArray⟩ = some text ↔ text.toUTF8.data.toList = bytes := by
  constructor
  · intro h
    unfold String.fromUTF8? at h
    split at h
    · cases h
      rfl
    · cases h
  · rintro rfl
    exact dif_pos text.isValidUTF8

namespace FieldType

/-- The value that a wire value stands for in a field of the type. -/
def ofValue? : (t : FieldType) → WireValue → Option t.Value
  | scalar s, .varint n => some (s.ofVarint n.toNat)
  | string, .bytes payload => String.fromUTF8? ⟨payload.toArray⟩
  | scalar _, _ => none
  | string, _ => none

/-- The wire value that is written for a value of the type. -/
def toValue : (t : FieldType) → t.Value → WireValue
  | scalar s, v => .varint (UInt64.ofNat (s.toVarint v))
  | string, v => .bytes v.toUTF8.data.toList

/-- A text is written as the UTF-8 form of its characters. -/
theorem toValue_string (text : String) : string.toValue text = .bytes (textBytes text) :=
  congrArg WireValue.bytes (toList_toUTF8 text)

/-- Every number stands for a value, and nothing else does. -/
theorem ofValue?_scalar_eq_some_iff {s : ScalarType} {value : WireValue} {v : s.Value} :
    (scalar s).ofValue? value = some v ↔ ∃ n, value = .varint n ∧ s.ofVarint n.toNat = v := by
  cases value <;> simp [ofValue?]

/-- One payload stands for a text, and nothing else does. -/
theorem ofValue?_string_eq_some_iff {value : WireValue} {text : String} :
    string.ofValue? value = some text ↔ value = .bytes (textBytes text) := by
  cases value with
  | bytes payload =>
    show String.fromUTF8? ⟨payload.toArray⟩ = some text ↔ _
    rw [fromUTF8?_eq_some_iff, toList_toUTF8, WireValue.bytes.injEq, eq_comm]
  | _ => simp [ofValue?]

/-- Every number means something to a scalar. -/
theorem isSome_ofValue?_scalar_iff {s : ScalarType} {value : WireValue} :
    ((scalar s).ofValue? value).isSome ↔ ∃ n, value = .varint n := by
  cases value <;> simp [ofValue?]

/-- Only payloads that are the bytes of a text mean something to a
text. -/
theorem isSome_ofValue?_string_iff {value : WireValue} :
    (string.ofValue? value).isSome ↔ ∃ text, value = .bytes (textBytes text) := by
  rw [Option.isSome_iff_exists]
  exact exists_congr fun _ => ofValue?_string_eq_some_iff

/-- Only a value in the layout of the type means something to it. -/
theorem wireType_of_ofValue? {t : FieldType} {value : WireValue} {v : t.Value}
    (h : t.ofValue? value = some v) : value.wireType = t.wireType := by
  cases t <;> cases value <;> first | rfl | cases h

/-- The wire value that is written for a value stands for it. -/
theorem ofValue?_toValue (t : FieldType) (v : t.Value) : t.ofValue? (t.toValue v) = some v := by
  cases t with
  | scalar s =>
    show some (s.ofVarint (UInt64.ofNat (s.toVarint v)).toNat) = some v
    rw [UInt64.toNat_ofNat_of_lt' (s.toVarint_lt v), s.ofVarint_toVarint]
  | string => exact fromUTF8?_eq_some_iff.mpr rfl

/-- The wire value that is written has the layout of the type. -/
theorem wireType_toValue (t : FieldType) (v : t.Value) : (t.toValue v).wireType = t.wireType :=
  wireType_of_ofValue? (ofValue?_toValue t v)

/-- A value is written as its wire value. -/
theorem encode_toValue (t : FieldType) (v : t.Value) : (t.toValue v).encode = t.encode v := by
  cases t with
  | scalar s =>
    show Varint.encode (UInt64.ofNat (s.toVarint v)).toNat = s.encode v
    rw [UInt64.toNat_ofNat_of_lt' (s.toVarint_lt v), s.encode_eq]
  | string => rfl

/-- The wire value takes as many bytes as are counted for the value. -/
theorem size_toValue (t : FieldType) (v : t.Value) : (t.toValue v).size = t.size v := by
  cases t with
  | scalar s =>
    show Varint.size (UInt64.ofNat (s.toVarint v)).toNat = s.size v
    rw [UInt64.toNat_ofNat_of_lt' (s.toVarint_lt v), s.size_eq]
  | string => rfl

/-- What a spelled value stands for can be spelled again: a number has
64 bits at most, and a text is the payload that was there. -/
theorem isValue_encode_toValue {t : FieldType} {b : List UInt8} {value : WireValue} {v : t.Value}
    (h : IsValue b value) (hv : t.ofValue? value = some v) :
    IsValue (t.toValue v).encode (t.toValue v) := by
  cases t with
  | scalar s => exact .varint (Varint.isVarint_encode (UInt64.toNat_lt _))
  | string =>
    rw [toValue_string, ← ofValue?_string_eq_some_iff.mp hv]
    exact WireValue.isValue_encode_of_isValue h

/-! ### Reading gives a wire value its meaning -/

/-- Whatever was there before, what is read takes its place. -/
theorem reads_readInto (t : FieldType) :
    t.readInto.Reads fun b _ _ v => ∃ value, IsValue b value ∧ t.ofValue? value = some v := by
  cases t with
  | scalar s =>
    refine ((Filler.Reads.reading (Varint.reads_readValue .w64)).bind_of_nil
      fun n => Filler.Reads.update fun _ => s.ofVarint n).congr fun b _ _ v => ?_
    constructor
    · intro hsteps
      rcases hsteps with ⟨n, _, ⟨hn, rfl⟩, rfl⟩
      have hfits : (UInt64.ofNat n).toNat = n := UInt64.toNat_ofNat_of_lt' hn.lt
      refine ⟨.varint (UInt64.ofNat n), .varint (by rwa [hfits]), ?_⟩
      show some (s.ofVarint (UInt64.ofNat n).toNat) = some (s.ofVarint n)
      rw [hfits]
    · intro hgrammar
      rcases hgrammar with ⟨value, hvalue, hv⟩
      cases hvalue with
      | @varint _ n hn =>
        cases hv
        exact ⟨n.toNat, _, ⟨hn, rfl⟩, rfl⟩
      | _ => cases hv
  | string =>
    -- Behind the payload nothing is read: the old text is given up, and the new one judged.
    refine ((Filler.Reads.reading Payload.reads_read).bind_of_nil (H := fun bytes _ _ v =>
      String.fromUTF8? ⟨bytes.toArray⟩ = some v) fun bytes => ?_).congr fun b _ _ v => ?_
    · refine ((Filler.Reads.update fun _ => "").bind_of_nil (H := fun _ _ _ v =>
        String.fromUTF8? ⟨bytes.toArray⟩ = some v) fun _ => ?_).congr fun b _ _ v => ?_
      · cases String.fromUTF8? ⟨bytes.toArray⟩ with
        | some text =>
          refine (Filler.Reads.update fun _ => text).congr fun b _ _ v => ?_
          simp [eq_comm]
        | none => exact (Filler.Reads.throw _).congr fun b _ _ v => by simp
      · simp
    · constructor
      · intro hsteps
        rcases hsteps with ⟨payload, _, ⟨⟨length, rfl, hlength⟩, -⟩, hv⟩
        exact ⟨.bytes payload, .bytes hlength, hv⟩
      · intro hgrammar
        rcases hgrammar with ⟨value, hvalue, hv⟩
        cases hvalue with
        | @bytes length payload hlength =>
          exact ⟨payload, _, ⟨⟨length, rfl, hlength⟩, rfl⟩, hv⟩
        | _ => cases hv

/-- The bytes are read as a value: wherever they are cut and whatever
follows, they are all that is used up, and the value is stored whatever
was there before. -/
def Stores (t : FieldType) (bytes : List UInt8) (v : t.Value) : Prop :=
  ∀ (old : t.Value) (input : Input) (tail : List UInt8), input.bytes = bytes ++ tail →
    ∃ rest, t.readInto ⟨input, old⟩ = .ok () ⟨rest, v⟩ ∧ rest.bytes = tail

/-- A spelled wire value is stored as what it stands for. -/
theorem stores_of_isValue {t : FieldType} {bytes : List UInt8} {value : WireValue} {v : t.Value}
    (h : IsValue bytes value) (hv : t.ofValue? value = some v) : t.Stores bytes v := by
  intro old input tail hbytes
  obtain ⟨⟨rest, _⟩, hrun, hrest, rfl⟩ :=
    (reads_readInto t).complete (s := ⟨input, old⟩) hbytes ⟨value, h, hv⟩
  exact ⟨rest, hrun, hrest⟩

/-- What is written is read back, unless it is a text whose length 64
bits cannot say. -/
theorem stores_encode {t : FieldType} {v : t.Value}
    (h : ∀ payload, t.toValue v = .bytes payload → payload.length < UInt64.size) :
    t.Stores (t.encode v) v := by
  rw [← encode_toValue]
  exact stores_of_isValue (WireValue.isValue_encode_of_payload h) (ofValue?_toValue t v)

/-- Behind a key, the layout has to be that of the type. -/
theorem reads_readField (t : FieldType) (key : Key) :
    (t.readField key).Reads fun b _ _ v =>
      ∃ value, IsValue b value ∧ value.wireType = key.wireType ∧ t.ofValue? value = some v := by
  by_cases hlayout : key.wireType = t.wireType
  · rw [readField, if_pos hlayout]
    refine (reads_readInto t).congr fun b _ _ v => ?_
    constructor
    · intro hsteps
      rcases hsteps with ⟨value, hvalue, hv⟩
      exact ⟨value, hvalue, (wireType_of_ofValue? hv).trans hlayout.symm, hv⟩
    · intro hgrammar
      rcases hgrammar with ⟨value, hvalue, -, hv⟩
      exact ⟨value, hvalue, hv⟩
  · rw [readField, if_neg hlayout]
    refine (Filler.Reads.throw _).congr fun b _ _ v => ⟨False.elim, ?_⟩
    intro hgrammar
    rcases hgrammar with ⟨value, -, hkey, hv⟩
    exact hlayout (hkey.symm.trans (wireType_of_ofValue? hv))

end FieldType

end ProtoWire
