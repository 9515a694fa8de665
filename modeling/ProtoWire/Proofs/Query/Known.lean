import ProtoWire.Proofs.Message.Known
import ProtoWire.Proofs.Query.Meaning
import ProtoWire.Proofs.Reader.Effect

/-!
# `ProtoWire.Proofs.Query.Known`: the field of a query that a key names

A query takes the value behind a key with number 1 for its text, and
those with the numbers 2 and 3 for the page and its size. Here is said
what this does to a query and to the input, for every key and however
the read ends. It is `effect_readKnown` for the table of a query, with
the fields spelled out.
-/

set_option autoImplicit false

namespace ProtoWire.Query

open Message (readKnown)

/-- A value is spelled in front of what is left, and says `a`. -/
def Decodes {α : Type} (Says : WireValue → α → Prop) (input rest : Input) (a : α) : Prop :=
  ∃ bytes value, input.bytes = bytes ++ rest.bytes ∧ IsValue bytes value ∧ Says value a

/-- The field with a number is filled with what is decoded, and the
others are left alone. Whatever the field held, the same is read. -/
inductive Fills (input : Input) (q : Query) : Nat → Intake Query → Prop where
  | query {rest : Input} {text : String} : Decodes SaysText input rest text →
      (∀ old, FieldType.string.readInto ⟨input, old⟩ = .ok () ⟨rest, text⟩) →
      Fills input q 1 ⟨rest, { q with query := text }⟩
  | pageNumber {rest : Input} {n : Int32} : Decodes SaysNumber input rest n →
      (∀ old, (FieldType.scalar .int32).readInto ⟨input, old⟩ = .ok () ⟨rest, n⟩) →
      Fills input q 2 ⟨rest, { q with pageNumber := n }⟩
  | pageSize {rest : Input} {n : Int32} : Decodes SaysNumber input rest n →
      (∀ old, (FieldType.scalar .int32).readInto ⟨input, old⟩ = .ok () ⟨rest, n⟩) →
      Fills input q 3 ⟨rest, { q with pageSize := n }⟩

/-- What is stored is what the bytes in front say. -/
theorem decodes_of_readInto {t : FieldType} {input rest : Input} {old v : t.Value}
    {Says : WireValue → t.Value → Prop}
    (hmean : ∀ {value v}, t.ofValue? value = some v → Says value v)
    (h : t.readInto ⟨input, old⟩ = .ok () ⟨rest, v⟩) : Decodes Says input rest v := by
  obtain ⟨bytes, hbytes, value, hvalue, hv⟩ := (FieldType.reads_readInto t).sound h
  exact ⟨bytes, value, hbytes, hvalue, hmean hv⟩

/-- What the value behind a key does to a query. -/
structure TouchesOwnField (key : Key) (input : Input) (q : Query) : Prop where
  stranger_iff : ∀ s, readKnown key ⟨input, q⟩ = .ok false s ↔
    key.number.val ∉ [1, 2, 3] ∧ s = ⟨input, q⟩
  /-- In the wrong layout nothing is read. -/
  wrongText : key.number.val = 1 → key.wireType ≠ .len →
    readKnown key ⟨input, q⟩ = .error (.wireTypeMismatch 1 .len key.wireType) ⟨input, q⟩
  wrongNumber : key.number.val = 2 ∨ key.number.val = 3 → key.wireType ≠ .varint →
    readKnown key ⟨input, q⟩
      = .error (.wireTypeMismatch key.number.val .varint key.wireType) ⟨input, q⟩
  filled : ∀ s, readKnown key ⟨input, q⟩ = .ok true s → Fills input q key.number.val s
  /-- Only a text that is not well-formed changes the query without
  filling a field. -/
  kept : ∀ e s, readKnown key ⟨input, q⟩ = .error e s → e ≠ .invalidUtf8 → s.dest = q
  notText : ∀ s, readKnown key ⟨input, q⟩ = .error .invalidUtf8 s →
    key.number.val = 1 ∧ s.dest = { q with query := "" }
  /-- However the read ends, the fields with other numbers are left
  alone, -/
  others : ∀ field ∈ fieldTable, field.number ≠ key.number →
    field.get ((readKnown key).final ⟨input, q⟩).dest = field.get q
  /-- and so are the unknown records. -/
  unknown : ((readKnown key).final ⟨input, q⟩).dest.unknown = q.unknown

/-- **A key touches its own field**. Where there is none, nothing
happens; where the value is read, that field has it; and a failure
changes nothing, except that an ill-formed text leaves none. -/
theorem touchesOwnField (key : Key) (input : Input) (q : Query) : TouchesOwnField key input q where
  stranger_iff s := by
    rw [← Message.field?_query_eq_none_iff]
    constructor
    · intro h
      cases Message.knownEffect_of_eq h with
      | stranger hnone => exact ⟨hnone, rfl⟩
    · rintro ⟨hnone, rfl⟩
      exact Message.readKnown_of_no_field hnone ⟨input, q⟩
  wrongText hone hlayout := by
    have hfield := Message.field?_query_eq_some_iff.mpr (.inl ⟨hone, rfl⟩)
    rw [Message.readKnown_of_mismatch hfield hlayout, hone]
    rfl
  wrongNumber hnumber hlayout := by
    rcases hnumber with htwo | hthree
    · have hfield := Message.field?_query_eq_some_iff.mpr (.inr (.inl ⟨htwo, rfl⟩))
      exact Message.readKnown_of_mismatch hfield hlayout input q
    · have hfield := Message.field?_query_eq_some_iff.mpr (.inr (.inr ⟨hthree, rfl⟩))
      exact Message.readKnown_of_mismatch hfield hlayout input q
  filled s h := by
    cases Message.knownEffect_of_eq h with
    | filled hfield _ hall =>
      rcases Message.field?_query_eq_some_iff.mp hfield with
        ⟨hnumber, rfl⟩ | ⟨hnumber, rfl⟩ | ⟨hnumber, rfl⟩
      · rw [hnumber]
        exact .query (decodes_of_readInto saysText_of_ofValue? (hall q.query)) hall
      · rw [hnumber]
        exact .pageNumber (decodes_of_readInto saysNumber_of_ofValue? (hall q.pageNumber)) hall
      · rw [hnumber]
        exact .pageSize (decodes_of_readInto saysNumber_of_ofValue? (hall q.pageSize)) hall
  kept e s h he := by
    cases Message.knownEffect_of_eq h with
    | mismatch => rfl
    | kept => rfl
    | givenUp => exact absurd rfl he
  notText s h := by
    cases Message.knownEffect_of_eq h with
    | kept _ _ he => exact absurd rfl he
    | givenUp hfield _ htype =>
      -- Of the three fields, only the first is a text.
      rcases Message.field?_query_eq_some_iff.mp hfield with
        ⟨hnumber, rfl⟩ | ⟨-, rfl⟩ | ⟨-, rfl⟩
      · exact ⟨hnumber, rfl⟩
      · cases htype
      · cases htype
  others _ hmem hne := Message.get_final_readKnown hmem hne ⟨input, q⟩
  unknown := Message.unknown_final_readKnown key ⟨input, q⟩

/-- An ill-formed text behind the key of the text. The page is kept. -/
example :
    let q : Query := { query := "old", pageNumber := 7 }
    readKnown ⟨.len, .one⟩ ⟨.ofBytes [0x01, 0xff, 0x08], q⟩
      = .error .invalidUtf8 ⟨.ofBytes [0x08], { pageNumber := 7 }⟩ := by
  cbv

end ProtoWire.Query
