import Mathlib.Data.List.Nodup
import ProtoWire.Query
import ProtoWire.Scalars

/-!
# `ProtoWire.Proofs.Message.Lawful`: tables of fields that do what they say

`Message` is data: a table of fields with a `get` and a `set` each, and
a place for unknown records. `LawfulMessage` says that the table is in
order. The numbers are distinct, a field holds what was put into it and
is not disturbed by the others nor by the unknown records, the empty
message holds the defaults, and a message is nothing but its fields and
its unknown records. The statements about messages are proved from
these laws, for every type of message at once; `Query` and `Scalars`
obey them.

`Clean message` says that no unknown record has the number of a field.
A message that was read is clean; one that was put together by hand
need not be, since a record can be added under any number. Which
numbers those are is said by `HasNumbers`, for a type and its table.

`Field.total` adds up numbers for the fields of a table. It says what a
table takes in all, and `Field.total_le_add` how that changes when one
field does.
-/

set_option autoImplicit false

namespace ProtoWire

open Message

namespace Field

variable {M : Type} {f g : Field M → Nat} {table : List (Field M)}

/-- What numbers for the fields of a table come to. -/
def total (f : Field M → Nat) (table : List (Field M)) : Nat :=
  table.foldr (fun field rest => f field + rest) 0

/-- The first field of a table counts for itself. -/
theorem total_cons (f : Field M → Nat) (field : Field M) (table : List (Field M)) :
    total f (field :: table) = f field + total f table := rfl

/-- Where every field counts nothing, so does the table. -/
theorem total_eq_zero (h : ∀ field ∈ table, f field = 0) : total f table = 0 := by
  induction table with
  | nil => rfl
  | cons field table ih =>
    obtain ⟨hhere, hrest⟩ := List.forall_mem_cons.mp h
    rw [total_cons, hhere, ih hrest]

/-- Where every field counts no more, neither does the table. -/
theorem total_le_total (h : ∀ field ∈ table, f field ≤ g field) :
    total f table ≤ total g table := by
  induction table with
  | nil => exact Nat.le_refl _
  | cons field table ih =>
    obtain ⟨hhere, hrest⟩ := List.forall_mem_cons.mp h
    exact Nat.add_le_add hhere (ih hrest)

/-- Where `f` is greater only for the fields with one number, and by `n`
at most, so is what it comes to. The numbers being distinct, there is
one such field. -/
theorem total_le_add (hnodup : (table.map number).Nodup) {one : FieldNumber} {n : Nat}
    (h : ∀ field ∈ table, f field ≤ g field + if one = field.number then n else 0) :
    total f table ≤ total g table + if one ∈ table.map number then n else 0 := by
  induction table with
  | nil => exact Nat.zero_le _
  | cons field table ih =>
    obtain ⟨hhere, hrest⟩ := List.forall_mem_cons.mp h
    obtain ⟨hnew, hnodup⟩ := List.nodup_cons.mp hnodup
    have hlater := ih hnodup hrest
    simp only [total_cons, List.map_cons, List.mem_cons]
    by_cases hnumber : one = field.number
    · -- This is the field, and none of the others is.
      rw [if_pos hnumber] at hhere
      rw [if_neg (hnumber ▸ hnew)] at hlater
      rw [if_pos (.inl hnumber)]
      omega
    · rw [if_neg hnumber] at hhere
      simp only [hnumber, false_or]
      omega

end Field

/-- The laws of a table of fields. -/
class LawfulMessage (M : Type) [Message M] : Prop where
  nodup_numbers : ((fields : List (Field M)).map Field.number).Nodup
  get_set_same : ∀ field ∈ (fields : List (Field M)), ∀ v m, field.get (field.set v m) = v
  get_set_of_ne : ∀ field ∈ (fields : List (Field M)), ∀ other ∈ (fields : List (Field M)),
    other.number ≠ field.number → ∀ v m, other.get (field.set v m) = other.get m
  get_setUnknown : ∀ field ∈ (fields : List (Field M)), ∀ records m,
    field.get (setUnknown records m) = field.get m
  get_empty : ∀ field ∈ (fields : List (Field M)), field.get empty = field.type.default
  unknown_set : ∀ field ∈ (fields : List (Field M)), ∀ v m, unknown (field.set v m) = unknown m
  unknown_setUnknown : ∀ records (m : M), unknown (setUnknown records m) = records
  unknown_empty : unknown (empty : M) = []
  /-- A message is nothing but its fields and its unknown records. -/
  ext : ∀ m m' : M, (∀ field ∈ (fields : List (Field M)), field.get m = field.get m') →
    unknown m = unknown m' → m = m'

/-- The table of a query is in order. -/
instance : LawfulMessage Query where
  nodup_numbers := by decide
  get_set_same := by simp [fields, Query.fieldTable]
  get_set_of_ne := by simp [fields, Query.fieldTable]
  get_setUnknown := by simp [fields, Query.fieldTable, setUnknown]
  get_empty := by simp [fields, Query.fieldTable, empty, FieldType.default, ScalarType.default]
  unknown_set := by simp [fields, Query.fieldTable, unknown]
  unknown_setUnknown := fun _ _ => rfl
  unknown_empty := rfl
  ext := by
    rintro ⟨⟩ ⟨⟩ hget hunknown
    simp_all [fields, Query.fieldTable, unknown]

/-- So is that of `Scalars`. -/
instance : LawfulMessage Scalars where
  nodup_numbers := by decide
  get_set_same := by simp [fields, Scalars.fieldTable]
  get_set_of_ne := by simp [fields, Scalars.fieldTable]
  get_setUnknown := by simp [fields, Scalars.fieldTable, setUnknown]
  get_empty := by simp [fields, Scalars.fieldTable, empty, FieldType.default, ScalarType.default]
  unknown_set := by simp [fields, Scalars.fieldTable, unknown]
  unknown_setUnknown := fun _ _ => rfl
  unknown_empty := rfl
  ext := by
    rintro ⟨⟩ ⟨⟩ hget hunknown
    simp_all [fields, Scalars.fieldTable, unknown]

namespace Message

variable {M : Type} [Message M]

/-- No field is found for a number exactly if none has it. -/
theorem field?_eq_none_iff {number : FieldNumber} :
    field? M number = none ↔ ∀ field ∈ (fields : List (Field M)), field.number ≠ number := by
  simp [field?]

/-- No unknown record has the number of a field. -/
def Clean (message : M) : Prop :=
  ∀ record ∈ unknown message, field? M record.number = none

/-- A query knows the numbers 1, 2 and 3. -/
theorem field?_query_eq_none_iff {number : FieldNumber} :
    field? Query number = none ↔ number.val ∉ [1, 2, 3] := by
  rw [field?_eq_none_iff]
  simp [fields, Query.fieldTable, FieldNumber.eq_iff, FieldNumber.one, FieldNumber.two,
    FieldNumber.three, eq_comm]

/-- A number that a query has a field for is that of the text or of one
of the two numbers. -/
theorem field?_query_eq_some_iff {number : FieldNumber} {field : Field Query} :
    field? Query number = some field ↔
      (number.val = 1 ∧ field = Query.fieldTable[0]) ∨
        (number.val = 2 ∧ field = Query.fieldTable[1]) ∨
        (number.val = 3 ∧ field = Query.fieldTable[2]) := by
  constructor
  · intro h
    obtain ⟨hmem, rfl⟩ := field?_eq_some h
    have hcases : field = Query.fieldTable[0] ∨ field = Query.fieldTable[1] ∨
        field = Query.fieldTable[2] := by
      simpa [fields, Query.fieldTable] using hmem
    rcases hcases with rfl | rfl | rfl
    · exact .inl ⟨rfl, rfl⟩
    · exact .inr (.inl ⟨rfl, rfl⟩)
    · exact .inr (.inr ⟨rfl, rfl⟩)
  · rintro (⟨hnumber, rfl⟩ | ⟨hnumber, rfl⟩ | ⟨hnumber, rfl⟩)
    · obtain rfl : number = .one := FieldNumber.eq_iff.mpr hnumber
      rfl
    · obtain rfl : number = .two := FieldNumber.eq_iff.mpr hnumber
      rfl
    · obtain rfl : number = .three := FieldNumber.eq_iff.mpr hnumber
      rfl

/-- Six numbers are those of fields of `Scalars`. -/
theorem field?_scalars_eq_none_iff {number : FieldNumber} :
    field? Scalars number = none ↔ number.val ∉ [1, 2, 3, 15, 16, 536870911] := by
  rw [field?_eq_none_iff]
  simp [fields, Scalars.fieldTable, FieldNumber.eq_iff, FieldNumber.one, FieldNumber.two,
    FieldNumber.three, FieldNumber.last, eq_comm]

/-- The fields of the type have the numbers `numbers`. -/
def HasNumbers (M : Type) [Message M] (numbers : List Nat) : Prop :=
  ∀ number : FieldNumber, field? M number = none ↔ number.val ∉ numbers

/-- A query has the fields 1, 2 and 3. -/
theorem hasNumbers_query : HasNumbers Query [1, 2, 3] :=
  fun _ => field?_query_eq_none_iff

/-- `Scalars` have one field under each of six numbers. -/
theorem hasNumbers_scalars : HasNumbers Scalars [1, 2, 3, 15, 16, 536870911] :=
  fun _ => field?_scalars_eq_none_iff

/-- A message is clean if none of its unknown records has the number of
a field. -/
theorem HasNumbers.clean_iff {numbers : List Nat} (h : HasNumbers M numbers) {message : M} :
    Clean message ↔ ∀ record ∈ unknown message, record.number.val ∉ numbers :=
  forall₂_congr fun record _ => h record.number

/-! ### What follows from the laws -/

variable [LawfulMessage M]

/-- Fields are told apart by their numbers. -/
theorem eq_of_number_eq {field other : Field M} (h : field ∈ (fields : List (Field M)))
    (hother : other ∈ (fields : List (Field M))) (hnumber : other.number = field.number) :
    other = field :=
  List.inj_on_of_nodup_map LawfulMessage.nodup_numbers hother h hnumber

/-- A field of the table is found under its own number. -/
theorem field?_of_mem {field : Field M} (h : field ∈ (fields : List (Field M))) :
    field? M field.number = some field := by
  cases hfound : field? M field.number with
  | none => exact absurd rfl (field?_eq_none_iff.mp hfound field h)
  | some other =>
    -- The field that was found has the number of the one that was asked for.
    obtain ⟨hmem, hnumber⟩ := field?_eq_some hfound
    rw [eq_of_number_eq h hmem hnumber]

/-- The number of a field is one of those of the type. -/
theorem HasNumbers.mem_of_field {numbers : List Nat} (h : HasNumbers M numbers) {field : Field M}
    (hfield : field ∈ (fields : List (Field M))) : field.number.val ∈ numbers := by
  by_contra hnumber
  have hnone := (h field.number).mpr hnumber
  rw [field?_of_mem hfield] at hnone
  cases hnone

/-- A record that is added comes behind the unknown ones. -/
theorem unknown_addUnknown (record : Record) (message : M) :
    unknown (addUnknown record message) = unknown message ++ [record] :=
  LawfulMessage.unknown_setUnknown _ _

/-- Adding an unknown record changes no field. -/
theorem get_addUnknown {field : Field M} (h : field ∈ (fields : List (Field M)))
    (record : Record) (message : M) : field.get (addUnknown record message) = field.get message :=
  LawfulMessage.get_setUnknown field h _ _

/-- Only the last list of unknown records counts. -/
theorem setUnknown_setUnknown (records records' : List Record) (message : M) :
    setUnknown records (setUnknown records' message) = setUnknown records message := by
  apply LawfulMessage.ext
  · intro field h
    simp only [LawfulMessage.get_setUnknown field h]
  · simp only [LawfulMessage.unknown_setUnknown]

/-- Putting the unknown records of a message into it changes nothing. -/
theorem setUnknown_unknown (message : M) : setUnknown (unknown message) message = message := by
  apply LawfulMessage.ext
  · intro field h
    exact LawfulMessage.get_setUnknown field h _ _
  · exact LawfulMessage.unknown_setUnknown _ _

/-- Putting the value of a field back changes nothing. -/
theorem set_get {field : Field M} (h : field ∈ (fields : List (Field M))) (message : M) :
    field.set (field.get message) message = message := by
  apply LawfulMessage.ext
  · intro other hother
    by_cases hsame : other = field
    · rw [hsame]
      exact LawfulMessage.get_set_same field h _ _
    · have hne : other.number ≠ field.number := mt (eq_of_number_eq h hother) hsame
      exact LawfulMessage.get_set_of_ne field h other hother hne _ _
  · exact LawfulMessage.unknown_set field h _ _

/-- Setting a field and replacing the unknown records can be done in
either order. -/
theorem set_setUnknown {field : Field M} (h : field ∈ (fields : List (Field M)))
    (v : field.type.Value) (records : List Record) (message : M) :
    field.set v (setUnknown records message) = setUnknown records (field.set v message) := by
  -- Messages with the same fields and the same unknown records are the same.
  apply LawfulMessage.ext
  · intro other hother
    rw [LawfulMessage.get_setUnknown other hother]
    by_cases hsame : other = field
    · subst hsame
      rw [LawfulMessage.get_set_same other h, LawfulMessage.get_set_same other h]
    · have hne : other.number ≠ field.number := mt (eq_of_number_eq h hother) hsame
      rw [LawfulMessage.get_set_of_ne field h other hother hne,
        LawfulMessage.get_set_of_ne field h other hother hne,
        LawfulMessage.get_setUnknown other hother]
  · rw [LawfulMessage.unknown_set field h, LawfulMessage.unknown_setUnknown,
      LawfulMessage.unknown_setUnknown]

end Message

end ProtoWire
