import ProtoWire.Proofs.FieldType.Scalar
import ProtoWire.Proofs.FieldType.Text
import ProtoWire.Proofs.Message.Faults

/-!
# `ProtoWire.Proofs.Message.Known`: what reading a known field changes

Reading the value of a field does one of three things to the value that
is there (`ValueEffect`): another is stored, whatever was there; it is
kept; or, for a text that is not well-formed, it is given up. Which
error comes with which of the two last is part of this: only what is not
well-formed gives a text up.

A message passes this on to the field that the key names. Five things
can happen (`KnownEffect`), and in none of them is a field touched that
the key does not name.

* `effect_readInto`: the effect on a value, for every type of field.
* `effect_readKnown`: the effect on a message, for every type of message
  whose table is in order.
* `get_final_readKnown`: the fields that the key does not name.
-/

set_option autoImplicit false

namespace ProtoWire

/-- Bytes that are no value are never blamed for their characters. -/
theorem ValueFault.ne_invalidUtf8 {wireType : WireType} {bytes : List UInt8} {e : DecodeError}
    (h : ValueFault wireType bytes e) : e ≠ .invalidUtf8 := by
  rintro rfl
  cases h with
  | varint hfault => cases hfault
  | length hfault => cases hfault

namespace FieldType

/-! ### The value of a field -/

/-- What reading a value over `old` comes to. -/
inductive ValueEffect (t : FieldType) (input : Input) (old : t.Value) :
    EStateM.Result DecodeError (Intake t.Value) Unit → Prop where
  /-- Whatever was there, the value takes its place. -/
  | stored {rest : Input} {v : t.Value} :
      (∀ other, t.readInto ⟨input, other⟩ = .ok () ⟨rest, v⟩) →
      ValueEffect t input old (.ok () ⟨rest, v⟩)
  | kept {rest : Input} {e : DecodeError} : e ≠ .invalidUtf8 →
      ValueEffect t input old (.error e ⟨rest, old⟩)
  | givenUp {rest : Input} : t = .string →
      ValueEffect t input old (.error .invalidUtf8 ⟨rest, t.default⟩)

/-- A scalar is stored or kept, as its varint is read or not. -/
theorem effect_readScalar (s : ScalarType) (input : Input) (old : s.Value) :
    ValueEffect (scalar s) input old ((scalar s).readInto ⟨input, old⟩) := by
  cases hread : Varint.read .w64 input with
  | ok found rest =>
    rw [readInto_of_varint_ok hread]
    exact .stored fun other => readInto_of_varint_ok hread
  | error e rest =>
    have hvalue : Varint.readValue .w64 input = .error e rest :=
      Decoder.map_of_error Prod.fst hread
    have hfault : ValueFault .varint input.bytes e :=
      .varint ((Varint.rejects_readValue .w64).sound hvalue)
    rw [readInto_of_varint_error hread]
    exact .kept hfault.ne_invalidUtf8

/-- A text is kept where its bytes are not there, and given up where
they are no text. -/
theorem effect_readText (input : Input) (old : String) :
    ValueEffect string input old (string.readInto ⟨input, old⟩) := by
  cases hread : Payload.read input with
  | error e rest =>
    have hfault := Payload.rejects_read.sound hread
    rw [readInto_of_payload_error hread]
    exact .kept hfault.ne_invalidUtf8
  | ok payload rest =>
    cases htext : String.fromUTF8? ⟨payload.toArray⟩ with
    | some text =>
      rw [readInto_of_text hread htext]
      exact .stored fun other => readInto_of_text hread htext
    | none =>
      -- All bytes are there, and the old text is given up before they are judged.
      rw [readInto_of_notText hread htext]
      exact .givenUp rfl

/-- Reading a value over another has one of the three effects, for a
field of any type. -/
theorem effect_readInto (t : FieldType) (input : Input) (old : t.Value) :
    ValueEffect t input old (t.readInto ⟨input, old⟩) := by
  cases t with
  | scalar s => exact effect_readScalar s input old
  | string => exact effect_readText input old

end FieldType

namespace Message

variable {M : Type} [Message M]

/-! ### The field of a message -/

/-- What reading the value behind a key over the message `m` comes
to. -/
inductive KnownEffect (key : Key) (input : Input) (m : M) :
    EStateM.Result DecodeError (Intake M) Bool → Prop where
  | stranger : field? M key.number = none → KnownEffect key input m (.ok false ⟨input, m⟩)
  | mismatch {field : Field M} : field? M key.number = some field →
      key.wireType ≠ field.type.wireType →
      KnownEffect key input m
        (.error (.wireTypeMismatch key.number.val field.type.wireType key.wireType) ⟨input, m⟩)
  /-- Whatever the field held, the value takes its place. -/
  | filled {field : Field M} {rest : Input} {v : field.type.Value} :
      field? M key.number = some field → key.wireType = field.type.wireType →
      (∀ old, field.type.readInto ⟨input, old⟩ = .ok () ⟨rest, v⟩) →
      KnownEffect key input m (.ok true ⟨rest, field.set v m⟩)
  | kept {field : Field M} {rest : Input} {e : DecodeError} :
      field? M key.number = some field → key.wireType = field.type.wireType → e ≠ .invalidUtf8 →
      KnownEffect key input m (.error e ⟨rest, m⟩)
  | givenUp {field : Field M} {rest : Input} : field? M key.number = some field →
      key.wireType = field.type.wireType → field.type = .string →
      KnownEffect key input m (.error .invalidUtf8 ⟨rest, field.set field.type.default m⟩)

variable {key : Key} {field : Field M} {input rest : Input} {m : M} {e : DecodeError}

/-- Under a number that no field has, nothing is read and nothing
changes. -/
theorem readKnown_of_no_field (h : field? M key.number = none) (s : Intake M) :
    readKnown key s = .ok false s := by
  simp only [readKnown, h]
  rfl

/-- The value is read over that of the field, and put back. -/
theorem readKnown_of_ok {v : field.type.Value} (h : field? M key.number = some field)
    (hlayout : key.wireType = field.type.wireType)
    (hread : field.type.readInto ⟨input, field.get m⟩ = .ok () ⟨rest, v⟩) :
    readKnown key ⟨input, m⟩ = .ok true ⟨rest, field.set v m⟩ := by
  have hvalue : field.type.readField key ⟨input, field.get m⟩ = .ok () ⟨rest, v⟩ := by
    rw [FieldType.readField, if_pos hlayout, hread]
  have hfield : field.readInto key ⟨input, m⟩ = .ok () ⟨rest, field.set v m⟩ := by
    rw [Field.readInto, Filler.within, hvalue]
  simp only [readKnown, h]
  exact Filler.bind_of_ok hfield

/-- This is so even if the read fails. -/
theorem readKnown_of_error {v : field.type.Value} (h : field? M key.number = some field)
    (hvalue : field.type.readField key ⟨input, field.get m⟩ = .error e ⟨rest, v⟩) :
    readKnown key ⟨input, m⟩ = .error e ⟨rest, field.set v m⟩ := by
  have hfield : field.readInto key ⟨input, m⟩ = .error e ⟨rest, field.set v m⟩ := by
    rw [Field.readInto, Filler.within, hvalue]
  simp only [readKnown, h]
  exact Filler.bind_of_error hfield

variable [LawfulMessage M]

/-- In the wrong layout nothing is read, so nothing changes. -/
theorem readKnown_of_mismatch (h : field? M key.number = some field)
    (hlayout : key.wireType ≠ field.type.wireType) (input : Input) (m : M) :
    readKnown key ⟨input, m⟩
      = .error (.wireTypeMismatch key.number.val field.type.wireType key.wireType) ⟨input, m⟩ := by
  have hvalue := FieldType.readField_of_ne hlayout ⟨input, field.get m⟩
  rw [readKnown_of_error h hvalue, set_get (field?_eq_some h).1]

/-- Reading the value behind a key comes to one of the five. -/
theorem effect_readKnown (key : Key) (input : Input) (m : M) :
    KnownEffect key input m (readKnown key ⟨input, m⟩) := by
  cases hfield : field? M key.number with
  | none =>
    rw [readKnown_of_no_field hfield]
    exact .stranger hfield
  | some field =>
    by_cases hlayout : key.wireType = field.type.wireType
    · -- The value is read into the field, so what it can do there is what the read can do.
      have heffect := field.type.effect_readInto input (field.get m)
      have hvalue : field.type.readField key ⟨input, field.get m⟩
          = field.type.readInto ⟨input, field.get m⟩ := by
        rw [FieldType.readField, if_pos hlayout]
      generalize hread : field.type.readInto ⟨input, field.get m⟩ = result at heffect
      rw [hread] at hvalue
      cases heffect with
      | stored hall =>
        rw [readKnown_of_ok hfield hlayout hread]
        exact .filled hfield hlayout hall
      | kept he =>
        rw [readKnown_of_error hfield hvalue, set_get (field?_eq_some hfield).1]
        exact .kept hfield hlayout he
      | givenUp htype =>
        rw [readKnown_of_error hfield hvalue]
        exact .givenUp hfield hlayout htype
    · rw [readKnown_of_mismatch hfield hlayout]
      exact .mismatch hfield hlayout

/-- An answer is one of the five. -/
theorem knownEffect_of_eq {result : EStateM.Result DecodeError (Intake M) Bool}
    (h : readKnown key ⟨input, m⟩ = result) : KnownEffect key input m result := by
  rw [← h]
  exact effect_readKnown key input m

/-- Fields with other numbers keep their values, whichever way the read
ends. -/
theorem get_final_readKnown {other : Field M} (hother : other ∈ (fields : List (Field M)))
    (hne : other.number ≠ key.number) (s : Intake M) :
    other.get ((readKnown key).final s).dest = other.get s.dest := by
  have hset : ∀ {field : Field M} (v : field.type.Value),
      field? M key.number = some field → other.get (field.set v s.dest) = other.get s.dest := by
    intro field v hfield
    obtain ⟨hmem, hnumber⟩ := field?_eq_some hfield
    exact LawfulMessage.get_set_of_ne field hmem other hother (hnumber ▸ hne) v s.dest
  have heffect := effect_readKnown key s.input s.dest
  unfold Filler.final
  generalize readKnown key s = result at heffect ⊢
  cases heffect with
  | stranger => rfl
  | mismatch => rfl
  | filled hfield => exact hset _ hfield
  | kept => rfl
  | givenUp hfield => exact hset _ hfield

end Message

end ProtoWire
