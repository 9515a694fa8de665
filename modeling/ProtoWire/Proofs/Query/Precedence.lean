import ProtoWire.Proofs.Message.Faults
import ProtoWire.Proofs.Query.Meaning

/-!
# `ProtoWire.Proofs.Query.Precedence`: which fault is named

Bytes that are no query can be wrong in several ways at once: a key can
have no layout and no number, a value can be cut off under a number that
asks for another one. This module says which of the faults a read names.

It reads records as long as it can, and stops at the first bytes that do
not begin with one a query accepts (`IsLongestAccepted`). What may be
wrong there is listed in `Clause.all`, each said by itself and in terms
of the bytes. `FirstOf Clause.all` picks the first of them that applies,
and its error is the error of the read (`decode_eq_error_iff_firstOf`).

That the list is in the right order is `recordFault_of_firstOf`, clause
by clause: only where an earlier clause does not apply is a later one a
fault at all. That nothing is missing from it is
`exists_clause_of_recordFault`. The two are enough, since bytes have one
fault at most (`Message.RecordFault.unique`).
-/

set_option autoImplicit false

namespace ProtoWire.Query

open Message
open Varint (IsVarint)

/-! ### The first of several clauses -/

/-- Something that can be wrong with bytes, and the error for it. -/
abbrev Clause : Type :=
  List UInt8 → DecodeError → Prop

/-- The error of the first clause that applies. -/
inductive FirstOf : List Clause → List UInt8 → DecodeError → Prop where
  | here {clause : Clause} {clauses : List Clause} {s : List UInt8} {e : DecodeError} :
      clause s e → FirstOf (clause :: clauses) s e
  | later {clause : Clause} {clauses : List Clause} {s : List UInt8} {e : DecodeError} :
      (∀ e', ¬ clause s e') → FirstOf clauses s e → FirstOf (clause :: clauses) s e

/-- The first clause of a list applies, or it does not for any error and
one of the others is the first that does. -/
theorem firstOf_cons_iff {clause : Clause} {clauses : List Clause} {s : List UInt8}
    {e : DecodeError} : FirstOf (clause :: clauses) s e ↔
      clause s e ∨ ((∀ e', ¬ clause s e') ∧ FirstOf clauses s e) := by
  constructor
  · intro h
    cases h with
    | here happlies => exact .inl happlies
    | later hnone hlater => exact .inr ⟨hnone, hlater⟩
  · rintro (happlies | ⟨hnone, hlater⟩)
    · exact .here happlies
    · exact .later hnone hlater

/-- Where some clause applies, one is the first. -/
theorem exists_firstOf {clauses : List Clause} {s : List UInt8}
    (h : ∃ clause ∈ clauses, ∃ e, clause s e) : ∃ e, FirstOf clauses s e := by
  induction clauses with
  | nil => simp at h
  | cons clause clauses ih =>
    by_cases hhere : ∃ e, clause s e
    · obtain ⟨e, happlies⟩ := hhere
      exact ⟨e, .here happlies⟩
    · obtain ⟨other, hmem, happlies⟩ := h
      rcases List.mem_cons.mp hmem with rfl | hlater
      · exact absurd happlies hhere
      · obtain ⟨e, hfirst⟩ := ih ⟨other, hlater, happlies⟩
        exact ⟨e, .later (not_exists.mp hhere) hfirst⟩

/-- The first clause that applies is one of them, and applies. -/
theorem FirstOf.exists_mem {clauses : List Clause} {s : List UInt8} {e : DecodeError}
    (h : FirstOf clauses s e) : ∃ clause ∈ clauses, clause s e := by
  induction h with
  | here happlies => exact ⟨_, .head _, happlies⟩
  | later _ _ ih =>
    obtain ⟨clause, hmem, happlies⟩ := ih
    exact ⟨clause, .tail _ hmem, happlies⟩

/-! ### What can be wrong -/

namespace Clause

/-- The bits of the key that `s` begins with, and what comes behind. -/
def HasKeyBits (s : List UInt8) (bits : Nat) (rest : List UInt8) : Prop :=
  ∃ key, s = key ++ rest ∧ IsVarint .w32 key bits

/-- The key that `s` begins with, and what comes behind. -/
def HasKey (s : List UInt8) (key : Key) (rest : List UInt8) : Prop :=
  ∃ bytes, s = bytes ++ rest ∧ IsKey bytes key

/-- Behind a key of this layout comes a varint: the value, or a
length. -/
def OpensWithVarint (wireType : WireType) : Prop :=
  wireType = .varint ∨ wireType = .len

/-- The bytes end inside the key. -/
def endsInKey : Clause := fun s e =>
  s.length ≤ 4 ∧ (∀ b ∈ s, 0x80 ≤ b.toNat) ∧ e = .unexpectedEnd

/-- The key does not fit in 32 bits. -/
def keyTooLarge : Clause := fun s e =>
  ∃ front b rest, s = front ++ b :: rest ∧ front.length = 4 ∧ (∀ d ∈ front, 0x80 ≤ d.toNat) ∧
    0x0f < b.toNat ∧ e = .invalidVarint

/-- The low three bits of the key are no layout. -/
def noLayout : Clause := fun s e =>
  ∃ bits rest, HasKeyBits s bits rest ∧ 6 ≤ bits % 8 ∧ e = .invalidWireType (bits % 8)

/-- The other bits of the key are zero. -/
def noNumber : Clause := fun s e =>
  ∃ bits rest, HasKeyBits s bits rest ∧ bits / 8 = 0 ∧ e = .fieldNumberOutOfRange

/-- The key has the number of a field, and not its layout. -/
def wrongLayout : Clause := fun s e =>
  ∃ key rest, HasKey s key rest ∧
    ((key.number.val = 1 ∧ key.wireType ≠ .len ∧ e = .wireTypeMismatch 1 .len key.wireType) ∨
      ((key.number.val = 2 ∨ key.number.val = 3) ∧ key.wireType ≠ .varint ∧
        e = .wireTypeMismatch key.number.val .varint key.wireType))

/-- The key has another number, and is the marker of a group. -/
def groupMarker : Clause := fun s e =>
  ∃ key rest, HasKey s key rest ∧ key.number.val ∉ [1, 2, 3] ∧
    (key.wireType = .startGroup ∨ key.wireType = .endGroup) ∧ e = .groupNotSupported

/-- The bytes end inside the varint behind the key. -/
def endsInVarint : Clause := fun s e =>
  ∃ key rest, HasKey s key rest ∧ OpensWithVarint key.wireType ∧ rest.length < 10 ∧
    (∀ b ∈ rest, 0x80 ≤ b.toNat) ∧ e = .unexpectedEnd

/-- The varint behind the key does not fit in 64 bits. -/
def varintTooLarge : Clause := fun s e =>
  ∃ key front b rest, HasKey s key (front ++ b :: rest) ∧ OpensWithVarint key.wireType ∧
    front.length = 9 ∧ (∀ d ∈ front, 0x80 ≤ d.toNat) ∧ 1 < b.toNat ∧ e = .invalidVarint

/-- The bytes end inside a value of a fixed width, or a payload. -/
def endsInValue : Clause := fun s e =>
  ∃ key rest, HasKey s key rest ∧
    ((key.wireType = .i64 ∧ rest.length < 8) ∨ (key.wireType = .i32 ∧ rest.length < 4) ∨
      (key.wireType = .len ∧ ∃ length payload n, rest = length ++ payload ∧
        IsVarint .w64 length n ∧ payload.length < n)) ∧ e = .unexpectedEnd

/-- The text is not well-formed. -/
def notText : Clause := fun s e =>
  ∃ key length payload rest, HasKey s key (length ++ payload ++ rest) ∧ key.number.val = 1 ∧
    key.wireType = .len ∧ IsVarint .w64 length payload.length ∧
    (∀ text, payload ≠ textBytes text) ∧ e = .invalidUtf8

/-- Everything that can be wrong, in the order in which it is named. -/
def all : List Clause :=
  [endsInKey, keyTooLarge, noLayout, noNumber, wrongLayout, groupMarker, endsInVarint,
    varintTooLarge, endsInValue, notText]

end Clause

open Clause

/-! ### The fields of a query -/

/-- The fields that there are, by number. -/
theorem type_of_field? {number : FieldNumber} {field : Field Query}
    (h : field? Query number = some field) :
    (number.val = 1 ∧ field.type = .string) ∨
      ((number.val = 2 ∨ number.val = 3) ∧ field.type = .scalar .int32) := by
  rcases field?_query_eq_some_iff.mp h with ⟨hone, rfl⟩ | ⟨htwo, rfl⟩ | ⟨hthree, rfl⟩
  · exact .inl ⟨hone, rfl⟩
  · exact .inr ⟨.inl htwo, rfl⟩
  · exact .inr ⟨.inr hthree, rfl⟩

/-- Under 1 a query has its text. -/
theorem exists_field_of_one {number : FieldNumber} (h : number.val = 1) :
    ∃ field, field? Query number = some field ∧ field.type = .string :=
  ⟨fieldTable[0], field?_query_eq_some_iff.mpr (.inl ⟨h, rfl⟩), rfl⟩

/-- Under 2 and 3 it has numbers. -/
theorem exists_field_of_two_or_three {number : FieldNumber}
    (h : number.val = 2 ∨ number.val = 3) :
    ∃ field, field? Query number = some field ∧ field.type = .scalar .int32 := by
  rcases h with h | h
  · exact ⟨fieldTable[1], field?_query_eq_some_iff.mpr (.inr (.inl ⟨h, rfl⟩)), rfl⟩
  · exact ⟨fieldTable[2], field?_query_eq_some_iff.mpr (.inr (.inr ⟨h, rfl⟩)), rfl⟩

/-! ### The first clause is the fault -/

/-- Where the layout is not wrong, a fault of the value is the fault. -/
theorem recordFault_of_valueFault {bytes rest : List UInt8} {key : Key} {e : DecodeError}
    (hkey : IsKey bytes key) (hlayout : ∀ e', ¬ wrongLayout (bytes ++ rest) e')
    (h : ValueFault key.wireType rest e) : RecordFault Query (bytes ++ rest) e := by
  cases hfield : field? Query key.number with
  | none => exact .unknown hkey hfield h
  | some field =>
    have hsame : key.wireType = field.type.wireType := by
      -- Otherwise the clause about the layout of this field would apply.
      by_contra hne
      rcases type_of_field? hfield with ⟨hone, htype⟩ | ⟨hnumber, htype⟩
      · rw [htype] at hne
        exact hlayout _ ⟨key, rest, ⟨bytes, rfl, hkey⟩, .inl ⟨hone, hne, rfl⟩⟩
      · rw [htype] at hne
        exact hlayout _ ⟨key, rest, ⟨bytes, rfl, hkey⟩, .inr ⟨hnumber, hne, rfl⟩⟩
    exact .known hkey hfield (.field hsame (.value (hsame ▸ h)))

/-- What is wrong with the varint that a value opens with is wrong with
the value. -/
theorem valueFault_of_varintFault {wireType : WireType} {rest : List UInt8} {e : DecodeError}
    (hvarint : OpensWithVarint wireType) (h : VarintFault .w64 rest e) :
    ValueFault wireType rest e := by
  rcases hvarint with rfl | rfl
  · exact .varint h
  · exact .length h

/-- A layout that is not that of the field is a fault of the record. -/
theorem recordFault_of_wireType_ne {bytes : List UInt8} {key : Key} {field : Field Query}
    (rest : List UInt8) (hkey : IsKey bytes key)
    (hfield : field? Query key.number = some field)
    (hne : key.wireType ≠ field.type.wireType) :
    RecordFault Query (bytes ++ rest)
      (.wireTypeMismatch key.number.val field.type.wireType key.wireType) :=
  .known hkey hfield (.layout hne)

/-- A known field in the wrong layout is a fault of its record. -/
theorem recordFault_of_wrongLayout {s : List UInt8} {e : DecodeError} (h : wrongLayout s e) :
    RecordFault Query s e := by
  obtain ⟨key, rest, ⟨bytes, rfl, hkey⟩, ⟨hnumber, hne, rfl⟩ | ⟨hnumber, hne, rfl⟩⟩ := h
  · obtain ⟨field, hfield, htype⟩ := exists_field_of_one hnumber
    have hfault := recordFault_of_wireType_ne rest hkey hfield (by rwa [htype])
    rwa [htype, hnumber] at hfault
  · obtain ⟨field, hfield, htype⟩ := exists_field_of_two_or_three hnumber
    have hfault := recordFault_of_wireType_ne rest hkey hfield (by rwa [htype])
    rwa [htype] at hfault

/-- Bytes that are no text are a fault of the record under the number of
the text. -/
theorem recordFault_of_notText {s : List UInt8} {e : DecodeError} (h : notText s e) :
    RecordFault Query s e := by
  obtain ⟨key, length, payload, rest, hbytes, hnumber, hlayout, hlength, hnone, rfl⟩ := h
  obtain ⟨bytes, rfl, hkey⟩ := hbytes
  obtain ⟨field, hfield, htype⟩ := exists_field_of_one hnumber
  refine .known hkey hfield (.field (by rw [htype]; exact hlayout) ?_)
  rw [htype]
  refine .meaning (.bytes hlength) rfl (Option.eq_none_iff_forall_ne_some.mpr fun text htext => ?_)
  exact hnone text (WireValue.bytes.inj (FieldType.ofValue?_string_eq_some_iff.mp htext))

/-- The first clause that applies is the fault. Some of the clauses say
too much by themselves: a number can be zero where there is no layout
either, and a value be cut off that has the wrong layout. Then an
earlier clause applies. -/
theorem recordFault_of_firstOf {s : List UInt8} {e : DecodeError} (hne : s ≠ [])
    (h : FirstOf Clause.all s e) : RecordFault Query s e := by
  rcases firstOf_cons_iff.mp h with ⟨hlen, hhigh, rfl⟩ | ⟨-, h⟩
  · exact .key (.digits hne (.ended hlen hhigh))
  rcases firstOf_cons_iff.mp h with ⟨front, b, rest, rfl, hlen, hhigh, hlarge, rfl⟩ | ⟨-, h⟩
  · exact .key (.digits hne (.tooLarge hlen hhigh hlarge))
  rcases firstOf_cons_iff.mp h with
    ⟨bits, rest, ⟨key, rfl, hkey⟩, hcode, rfl⟩ | ⟨hlayout, h⟩
  · exact .key (.layout hkey hcode)
  rcases firstOf_cons_iff.mp h with ⟨bits, rest, ⟨key, rfl, hkey⟩, hzero, rfl⟩ | ⟨-, h⟩
  · -- There is a layout, or the clause before this one would have applied.
    have hcode : bits % 8 < 6 := by
      by_contra hlarge
      exact hlayout _ ⟨bits, rest, ⟨key, rfl, hkey⟩, Nat.not_lt.mp hlarge, rfl⟩
    exact .key (.number hkey hcode hzero)
  rcases firstOf_cons_iff.mp h with hwrong | ⟨hright, h⟩
  · exact recordFault_of_wrongLayout hwrong
  rcases firstOf_cons_iff.mp h with
    ⟨key, rest, ⟨bytes, rfl, hkey⟩, hnumber, hgroup, rfl⟩ | ⟨-, h⟩
  · refine .unknown hkey (field?_query_eq_none_iff.mpr hnumber) ?_
    rcases hgroup with hgroup | hgroup
    · rw [hgroup]
      exact .startGroup
    · rw [hgroup]
      exact .endGroup
  rcases firstOf_cons_iff.mp h with
    ⟨key, rest, ⟨bytes, rfl, hkey⟩, hvarint, hlen, hhigh, rfl⟩ | ⟨-, h⟩
  · refine recordFault_of_valueFault hkey hright (valueFault_of_varintFault hvarint ?_)
    exact .ended (Nat.le_of_lt_succ hlen) hhigh
  rcases firstOf_cons_iff.mp h with
    ⟨key, front, b, rest, ⟨bytes, rfl, hkey⟩, hvarint, hlen, hhigh, hlarge, rfl⟩ | ⟨-, h⟩
  · refine recordFault_of_valueFault hkey hright (valueFault_of_varintFault hvarint ?_)
    exact .tooLarge hlen hhigh hlarge
  rcases firstOf_cons_iff.mp h with ⟨key, rest, ⟨bytes, rfl, hkey⟩, hshort, rfl⟩ | ⟨-, h⟩
  · refine recordFault_of_valueFault hkey hright ?_
    rcases hshort with ⟨hwide, hlen⟩ | ⟨hwide, hlen⟩ |
      ⟨hwide, length, payload, n, rfl, hlength, hlen⟩
    · rw [hwide]
      exact .fixed64 hlen
    · rw [hwide]
      exact .fixed32 hlen
    · rw [hwide]
      exact .payload hlength hlen
  rcases firstOf_cons_iff.mp h with htext | ⟨-, h⟩
  · exact recordFault_of_notText htext
  · cases h

/-! ### Every fault is in the list -/

/-- A value that is no group has a clause for each of its faults. -/
theorem exists_clause_of_valueFault {bytes rest : List UInt8} {key : Key} {e : DecodeError}
    (hkey : IsKey bytes key) (h : ValueFault key.wireType rest e)
    (hgroup : key.wireType = .startGroup ∨ key.wireType = .endGroup → key.number.val ∉ [1, 2, 3]) :
    ∃ clause ∈ Clause.all, ∃ e', clause (bytes ++ rest) e' := by
  have hhas : HasKey (bytes ++ rest) key rest := ⟨bytes, rfl, hkey⟩
  -- A value and a length begin with a varint of 64 bits alike.
  have hvarint : VarintFault .w64 rest e → OpensWithVarint key.wireType →
      ∃ clause ∈ Clause.all, ∃ e', clause (bytes ++ rest) e' := by
    intro hfault hopens
    cases hfault with
    | ended hlen hhigh =>
      exact ⟨endsInVarint, by simp [Clause.all], _, key, rest, hhas, hopens,
        Nat.lt_succ_of_le hlen, hhigh, rfl⟩
    | tooLarge hlen hhigh hlarge =>
      exact ⟨varintTooLarge, by simp [Clause.all], _, key, _, _, _, hhas, hopens, hlen, hhigh,
        hlarge, rfl⟩
  have hends : ((key.wireType = .i64 ∧ rest.length < 8) ∨
      (key.wireType = .i32 ∧ rest.length < 4) ∨
      (key.wireType = .len ∧ ∃ length payload n, rest = length ++ payload ∧
        IsVarint .w64 length n ∧ payload.length < n)) →
      ∃ clause ∈ Clause.all, ∃ e', clause (bytes ++ rest) e' :=
    fun hshort => ⟨endsInValue, by simp [Clause.all], _, key, rest, hhas, hshort, rfl⟩
  generalize hlayout : key.wireType = wireType at h
  cases h with
  | varint hfault => exact hvarint hfault (.inl hlayout)
  | length hfault => exact hvarint hfault (.inr hlayout)
  | fixed64 hlen => exact hends (.inl ⟨hlayout, hlen⟩)
  | fixed32 hlen => exact hends (.inr (.inl ⟨hlayout, hlen⟩))
  | payload hlength hlen => exact hends (.inr (.inr ⟨hlayout, _, _, _, rfl, hlength, hlen⟩))
  | startGroup =>
    exact ⟨groupMarker, by simp [Clause.all], _, key, rest, hhas, hgroup (.inl hlayout),
      .inl hlayout, rfl⟩
  | endGroup =>
    exact ⟨groupMarker, by simp [Clause.all], _, key, rest, hhas, hgroup (.inr hlayout),
      .inr hlayout, rfl⟩

/-- Behind the key of a field there is a clause for each fault. -/
theorem exists_clause_of_keyedFault {bytes rest : List UInt8} {key : Key} {field : Field Query}
    {e : DecodeError} (hkey : IsKey bytes key) (hfield : field? Query key.number = some field)
    (h : KeyedFault field.type key rest e) :
    ∃ clause ∈ Clause.all, ∃ e', clause (bytes ++ rest) e' := by
  have htypes := type_of_field? hfield
  have hhas : HasKey (bytes ++ rest) key rest := ⟨bytes, rfl, hkey⟩
  cases h with
  | layout hne =>
    refine ⟨wrongLayout, by simp [Clause.all], ?_⟩
    rcases htypes with ⟨hnumber, htype⟩ | ⟨hnumber, htype⟩
    · exact ⟨_, key, rest, hhas, .inl ⟨hnumber, by rwa [htype] at hne, rfl⟩⟩
    · exact ⟨_, key, rest, hhas, .inr ⟨hnumber, by rwa [htype] at hne, rfl⟩⟩
  | field hsame hfault =>
    cases hfault with
    | value hfault =>
      rw [← hsame] at hfault
      refine exists_clause_of_valueFault hkey hfault fun hgroup => ?_
      -- No field has the layout of a group.
      rcases htypes with ⟨-, htype⟩ | ⟨-, htype⟩ <;>
        simp [hsame, htype, FieldType.wireType] at hgroup
    | @meaning vb more value hvalue hvlayout hnone =>
      rcases htypes with ⟨hnumber, htype⟩ | ⟨hnumber, htype⟩
      · rw [htype] at hsame hvlayout hnone
        cases hvalue with
        | @bytes length payload hlength =>
          refine ⟨notText, by simp [Clause.all], _, key, length, payload, more, hhas, hnumber,
            hsame, hlength, fun text htext => ?_, rfl⟩
          have hsome := FieldType.ofValue?_string_eq_some_iff.mpr
            (congrArg WireValue.bytes htext)
          rw [hnone] at hsome
          cases hsome
        | _ => cases hvlayout
      · -- Every number stands for a value.
        rw [htype] at hvlayout hnone
        cases hvalue with
        | varint => cases hnone
        | _ => cases hvlayout

/-- Every fault comes under a clause. -/
theorem exists_clause_of_recordFault {s : List UInt8} {e : DecodeError} (hne : s ≠ [])
    (h : RecordFault Query s e) : ∃ clause ∈ Clause.all, ∃ e', clause s e' := by
  cases h with
  | key hfault =>
    cases hfault with
    | missing => exact absurd rfl hne
    | digits _ hfault =>
      cases hfault with
      | ended hlen hhigh => exact ⟨endsInKey, by simp [Clause.all], _, hlen, hhigh, rfl⟩
      | tooLarge hlen hhigh hlarge =>
        exact ⟨keyTooLarge, by simp [Clause.all], _, _, _, _, rfl, hlen, hhigh, hlarge, rfl⟩
    | @layout key rest bits hkey hcode =>
      exact ⟨noLayout, by simp [Clause.all], _, bits, rest, ⟨key, rfl, hkey⟩, hcode, rfl⟩
    | @number key rest bits hkey _ hzero =>
      exact ⟨noNumber, by simp [Clause.all], _, bits, rest, ⟨key, rfl, hkey⟩, hzero, rfl⟩
  | known hkey hfield hfault => exact exists_clause_of_keyedFault hkey hfield hfault
  | unknown hkey hfield hfault =>
    exact exists_clause_of_valueFault hkey hfault fun _ => field?_query_eq_none_iff.mp hfield

/-- The fault of bytes is the error of the first clause that applies. -/
theorem recordFault_iff_firstOf {s : List UInt8} {e : DecodeError} (hne : s ≠ []) :
    RecordFault Query s e ↔ FirstOf Clause.all s e := by
  constructor
  · intro h
    -- Some clause applies, so one is the first; it is the fault, and bytes have one fault.
    obtain ⟨e', hfirst⟩ := exists_firstOf (exists_clause_of_recordFault hne h)
    rwa [h.unique (recordFault_of_firstOf hne hfirst)]
  · exact recordFault_of_firstOf hne

/-! ### Where a query breaks off -/

/-- The longest beginning of some bytes that consists of whole records a
query accepts. -/
structure IsLongestAccepted (front bytes : List UInt8) : Prop where
  accepted : ∃ records, AreRecords front records ∧ ∀ record ∈ records, Accepts record
  longest : ∀ front' rest' records, bytes = front' ++ rest' → AreRecords front' records →
    (∀ record ∈ records, Accepts record) → front'.length ≤ front.length

/-- A query breaks off behind the longest part it accepts, at the first
clause. -/
theorem breaks_iff {front rest : List UInt8} {e : DecodeError} :
    Breaks Query front rest e ↔
      IsLongestAccepted front (front ++ rest) ∧ rest ≠ [] ∧ FirstOf Clause.all rest e := by
  have haccepts : ∀ records : List Record,
      (∀ record ∈ records, Fits Query record) ↔ ∀ record ∈ records, Accepts record :=
    fun records => forall₂_congr fun _ _ => accepts_iff_fits.symm
  constructor
  · intro h
    refine ⟨⟨?_, ?_⟩, h.ne_nil, (recordFault_iff_firstOf h.ne_nil).mp h.fault⟩
    · obtain ⟨records, hrecords, hfits⟩ := h.records
      exact ⟨records, hrecords, (haccepts records).mp hfits⟩
    · intro front' rest' records hb hrecords hfits
      exact h.length_le hb hrecords ((haccepts records).mpr hfits)
  · intro h
    obtain ⟨⟨⟨records, hrecords, hfits⟩, -⟩, hne, hfirst⟩ := h
    exact ⟨⟨records, hrecords, (haccepts records).mpr hfits⟩, hne,
      (recordFault_iff_firstOf hne).mpr hfirst⟩

/-- The errors that a clause can name. -/
inductive IsNamed : DecodeError → Prop where
  | unexpectedEnd : IsNamed .unexpectedEnd
  | invalidVarint : IsNamed .invalidVarint
  | invalidWireType {code : Nat} : code = 6 ∨ code = 7 → IsNamed (.invalidWireType code)
  | fieldNumberOutOfRange : IsNamed .fieldNumberOutOfRange
  | wireTypeMismatch {number : Nat} {expected actual : WireType} :
      number ∈ [1, 2, 3] → actual ≠ expected → IsNamed (.wireTypeMismatch number expected actual)
  | groupNotSupported : IsNamed .groupNotSupported
  | invalidUtf8 : IsNamed .invalidUtf8

/-- Whichever clause is the first, its error is one of those that the
clauses name. -/
theorem isNamed_of_firstOf {s : List UInt8} {e : DecodeError} (h : FirstOf Clause.all s e) :
    IsNamed e := by
  obtain ⟨clause, hmem, happlies⟩ := h.exists_mem
  simp only [Clause.all, List.mem_cons, List.not_mem_nil, or_false] at hmem
  rcases hmem with rfl | rfl | rfl | rfl | rfl | rfl | rfl | rfl | rfl | rfl
  · obtain ⟨-, -, rfl⟩ := happlies
    exact .unexpectedEnd
  · obtain ⟨_, _, _, -, -, -, -, rfl⟩ := happlies
    exact .invalidVarint
  · obtain ⟨bits, _, -, hcode, rfl⟩ := happlies
    exact .invalidWireType (by omega)
  · obtain ⟨_, _, -, -, rfl⟩ := happlies
    exact .fieldNumberOutOfRange
  · obtain ⟨key, _, -, ⟨hnumber, hne, rfl⟩ | ⟨hnumber, hne, rfl⟩⟩ := happlies
    · exact .wireTypeMismatch (by simp) hne
    · exact .wireTypeMismatch (by simp [hnumber]) hne
  · obtain ⟨_, _, -, -, -, rfl⟩ := happlies
    exact .groupNotSupported
  · obtain ⟨_, _, -, -, -, -, rfl⟩ := happlies
    exact .unexpectedEnd
  · obtain ⟨_, _, _, _, -, -, -, -, -, rfl⟩ := happlies
    exact .invalidVarint
  · obtain ⟨_, _, -, -, rfl⟩ := happlies
    exact .unexpectedEnd
  · obtain ⟨_, _, _, _, -, -, -, -, -, rfl⟩ := happlies
    exact .invalidUtf8

/-- **Which fault is named.** A query that is not too long is refused
exactly where its bytes go on behind the longest part that whole
accepted records make up, and then for the first clause that applies to
what is left. The other errors do not occur. -/
theorem decode_eq_error_iff_firstOf (options : DecodeOptions) (input : Input) (e : DecodeError)
    (hlimit : input.bytes.length ≤ options.maxMessageLength) :
    ((decode options input : Outcome Query).result = .error e ↔
      ∃ front rest, input.bytes = front ++ rest ∧ IsLongestAccepted front input.bytes ∧
        rest ≠ [] ∧ FirstOf Clause.all rest e) ∧
    ((decode options input : Outcome Query).result = .error e → IsNamed e) := by
  have hiff : (decode options input : Outcome Query).result = .error e ↔
      ∃ front rest, input.bytes = front ++ rest ∧ IsLongestAccepted front input.bytes ∧
        rest ≠ [] ∧ FirstOf Clause.all rest e := by
    rw [decode, readAll_eq_error_iff]
    constructor
    · rintro (⟨hlong, -⟩ | ⟨-, front, rest, hb, hbreaks⟩)
      · exact absurd hlong (Nat.not_lt.mpr hlimit)
      · exact ⟨front, rest, hb, hb ▸ breaks_iff.mp hbreaks⟩
    · rintro ⟨front, rest, hb, h⟩
      exact .inr ⟨hlimit, front, rest, hb, breaks_iff.mpr (hb ▸ h)⟩
  refine ⟨hiff, fun herror => ?_⟩
  obtain ⟨_, _, -, -, -, hfirst⟩ := hiff.mp herror
  exact isNamed_of_firstOf hfirst

/-- Behind a text and a page number come bytes with more than one thing
wrong with them: a key with no layout and no number, one that opens a
group under the number of a field with no value behind it, and a text
that is not well-formed and one byte short. The layout, the field and
the length are named. -/
theorem decode_eq_error_iff_firstOf_of_two_faults :
    let noKey : Input := ⟨[[0x0a, 0x01], [0x61, 0x10], [0x05, 0x07]]⟩
    let group : Input := ⟨[[0x0a, 0x01, 0x61, 0x10, 0x05, 0x1b]]⟩
    let short : Input := ⟨[[0x0a, 0x01, 0x61, 0x10, 0x05, 0x0a], [0x02, 0xff]]⟩
    let skip : DecodeOptions := { unknownFields := .discard }
    ((decode {} noKey : Outcome Query).result = .error (.invalidWireType 7) ∧
      ∃ front rest, noKey.bytes = front ++ rest ∧ IsLongestAccepted front noKey.bytes ∧
        rest ≠ [] ∧ FirstOf Clause.all rest (.invalidWireType 7)) ∧
    ((decode skip group : Outcome Query).result
        = .error (.wireTypeMismatch 3 .varint .startGroup) ∧
      ∃ front rest, group.bytes = front ++ rest ∧ IsLongestAccepted front group.bytes ∧
        rest ≠ [] ∧ FirstOf Clause.all rest (.wireTypeMismatch 3 .varint .startGroup)) ∧
    ((decode {} short : Outcome Query).result = .error .unexpectedEnd ∧
      ∃ front rest, short.bytes = front ++ rest ∧ IsLongestAccepted front short.bytes ∧
        rest ≠ [] ∧ FirstOf Clause.all rest .unexpectedEnd) := by
  intro noKey group short skip
  have hnoKey : (decode {} noKey : Outcome Query).result = .error (.invalidWireType 7) := by
    decide +kernel
  have hgroup : (decode skip group : Outcome Query).result
      = .error (.wireTypeMismatch 3 .varint .startGroup) := by decide +kernel
  have hshort : (decode {} short : Outcome Query).result = .error .unexpectedEnd := by
    decide +kernel
  refine ⟨⟨hnoKey, ?_⟩, ⟨hgroup, ?_⟩, hshort, ?_⟩
  · exact (decode_eq_error_iff_firstOf {} noKey _ (by decide)).1.mp hnoKey
  · exact (decode_eq_error_iff_firstOf skip group _ (by decide)).1.mp hgroup
  · exact (decode_eq_error_iff_firstOf {} short _ (by decide)).1.mp hshort

end ProtoWire.Query
