import ProtoWire.Proofs.FieldType.Growth
import ProtoWire.Proofs.Message.PassThrough
import ProtoWire.Proofs.Record.Shortest

/-!
# `ProtoWire.Proofs.Message.Growth`: the second trip

A message that was read and is written again is the same message, so
reading it once more can only go wrong because there is more of it than
before. This module bounds how much more.

A field grows by what its type grows by, and it does so only once,
however many records were read for it. So the bound is one for the type
of message, the sum over its fields (`growth`), and not one for each
record. The proof counts what a message takes without the growth
(`leanSize`). A record that is placed adds its own size at most
(`leanSize_of_place`): where it replaces a value, what was counted for
the old one is dropped. Over a whole run that is the size of the records
(`leanSize_of_absorb`), which is at most the number of bytes they were
read from, since what is written for them is their shortest spelling.
-/

set_option autoImplicit false

namespace ProtoWire

variable {M : Type}

namespace Field

/-- The bytes of a field, less those its value may have grown by. -/
def leanSize (message : M) (field : Field M) : Nat :=
  field.size message - field.type.growth

/-- What a record is put into a field is not more than the record, apart
from the growth. -/
theorem leanSize_le_of_ofValue? {message : M} {field : Field M} {record : Record}
    (hnumber : record.number = field.number)
    (h : field.type.ofValue? record.value = some (field.get message)) :
    field.leanSize message ≤ record.size := by
  have hvalue := FieldType.size_le_of_ofValue? h
  unfold leanSize size FieldType.fieldSize Record.size
  rw [hnumber]
  split <;> omega

/-- The bytes of the fields of a table, less their growth. -/
def leanSizeAll (table : List (Field M)) (message : M) : Nat :=
  table.foldr (fun field rest => field.leanSize message + rest) 0

/-- The lean size of a table is a sum over its fields. -/
theorem leanSizeAll_eq_total (table : List (Field M)) (message : M) :
    leanSizeAll table message = total (leanSize message) table := rfl

/-- The first field of a table counts for itself. -/
theorem leanSizeAll_cons (field : Field M) (table : List (Field M)) (message : M) :
    leanSizeAll (field :: table) message = field.leanSize message + leanSizeAll table message :=
  rfl

end Field

namespace Message

variable [Message M]

/-- How many bytes longer a message can be written than it was read. -/
def growth (M : Type) [Message M] : Nat :=
  (fields : List (Field M)).foldr (fun field rest => field.type.growth + rest) 0

/-- The bytes of a message, less the growth of its fields. -/
def leanSize (message : M) : Nat :=
  Field.leanSizeAll fields message + Record.sizeAll (unknown message)

/-- What the growth leaves out is no more than the growth of all
fields. -/
theorem size_le_leanSize (message : M) : size message ≤ leanSize message + growth M := by
  unfold size leanSize growth
  induction (fields : List (Field M)) with
  | nil => exact Nat.le_of_eq (Nat.zero_add _).symm
  | cons field table ih =>
    have hfield : field.leanSize message = field.size message - field.type.growth := rfl
    rw [Field.leanSizeAll_cons, List.foldr_cons, List.foldr_cons]
    omega

/-! ### A record adds its size at most -/

variable [LawfulMessage M]

/-- A record that is placed adds its size at most. -/
theorem leanSize_of_place {policy : UnknownFieldPolicy} {message placed : M} {record : Record}
    (h : place policy message record = some placed) :
    leanSize placed ≤ leanSize message + record.size := by
  have htable : Field.leanSizeAll fields placed ≤ Field.leanSizeAll fields message
      + if record.number ∈ (fields : List (Field M)).map Field.number then record.size else 0 := by
    rw [Field.leanSizeAll_eq_total, Field.leanSizeAll_eq_total]
    refine Field.total_le_add LawfulMessage.nodup_numbers fun field hfield => ?_
    have hget := get_of_place h hfield
    by_cases hnumber : record.number = field.number
    · rw [if_pos hnumber] at hget ⊢
      exact Nat.le_add_left_of_le (Field.leanSize_le_of_ofValue? hnumber hget)
    · rw [if_neg hnumber] at hget ⊢
      unfold Field.leanSize Field.size
      rw [hget]
      exact Nat.le_add_right _ _
  unfold leanSize
  rw [unknown_of_place h, Record.sizeAll_append]
  -- The record has gone into the table, or behind it, but not into both.
  rcases kept_singleton (M := M) policy record with hkept | ⟨hkept, hnew⟩
  · rw [hkept, Record.sizeAll_nil]
    split at htable <;> omega
  · rw [if_neg hnew] at htable
    rw [hkept, Record.sizeAll_cons, Record.sizeAll_nil]
    omega

/-- Absorbing records adds no more than their sizes, the growth left
out. -/
theorem leanSize_of_absorb {policy : UnknownFieldPolicy} {message absorbed : M}
    {rs : List Record} (h : absorb policy message rs = some absorbed) :
    leanSize absorbed ≤ leanSize message + Record.sizeAll rs := by
  induction rs generalizing message with
  | nil =>
    cases h
    exact Nat.le_add_right _ _
  | cons record rs ih =>
    obtain ⟨placed, hplace, hrest⟩ := exists_of_absorb_cons h
    have hhere := leanSize_of_place hplace
    have hlater := ih hrest
    rw [Record.sizeAll_cons]
    omega

/-- The empty message takes no bytes. -/
theorem leanSize_empty : leanSize (empty : M) = 0 := by
  have htable : Field.leanSizeAll fields (empty : M) = 0 := by
    refine Field.total_eq_zero fun field hfield => ?_
    rw [Field.leanSize, Field.size, LawfulMessage.get_empty field hfield,
      FieldType.fieldSize_of_default, Nat.zero_sub]
  rw [leanSize, htable, LawfulMessage.unknown_empty, Record.sizeAll_nil]

/-- **A message grows by the growth of its fields at most.** -/
theorem size_le_of_absorb {policy : UnknownFieldPolicy} {message : M} {b : List UInt8}
    {rs : List Record} (hrs : AreRecords b rs) (h : absorb policy empty rs = some message) :
    size message ≤ b.length + growth M := by
  have hsize := size_le_leanSize message
  have hlean := leanSize_of_absorb h
  have hshort := Record.writesShortest_all.length_le hrs
  rw [leanSize_empty] at hlean
  rw [Record.length_encodeAll] at hshort
  omega

/-! ### Reading what was written -/

/-- What was read is read again from its own records. Nothing has to be
said about its unknown records: it has none that a field would take. -/
theorem absorb_records_of_absorb {policy : UnknownFieldPolicy} {message : M} {rs : List Record}
    (h : absorb policy empty rs = some message) :
    absorb policy empty (records message) = some message := by
  have hclean := clean_of_absorb clean_empty h
  obtain ⟨again, hagain⟩ := Option.isSome_iff_exists.mp ((absorb_isSome_iff policy empty).mpr
    fun record hrecord => fits_of_mem_records hclean hrecord)
  rw [hagain]
  refine congrArg some (LawfulMessage.ext _ _ (fun field hfield => ?_) ?_)
  · rw [get_of_absorb_records hclean hagain hfield, LawfulMessage.get_empty field hfield,
      FieldType.default_layOver]
  · rw [unknown_of_absorb_empty hagain]
    cases policy with
    | preserve => exact strangers_records hclean
    | discard => exact (unknown_of_absorb_empty h).symm

/-- What becomes of a message that was read from an input, when it is
written and read once more under the same options. -/
structure TripsAgain (growth : Nat) (options : DecodeOptions) (input : Input) (message : M) :
    Prop where
  /-- It is written in little more than the bytes it was read from. -/
  size_le : size message ≤ input.bytes.length + growth
  /-- It comes back if it is not too long by now, and otherwise that is
  what is wrong. -/
  again : ∀ written : Input, written.bytes = encode message →
    (decode options written).result =
      if size message ≤ options.maxMessageLength then .ok message
      else .error (.messageTooLarge (size message) options.maxMessageLength)
  /-- It can be too long only if the limit was nearly reached before. -/
  limit_lt : ∀ (written : Input) (e : DecodeError), written.bytes = encode message →
    (decode options written : Outcome M).result = .error e →
    options.maxMessageLength < input.bytes.length + growth

/-- Any message that was decoded makes its second trip, grown by no more
than its type can grow. -/
theorem tripsAgain_of_decode {options : DecodeOptions} {input : Input} {message : M}
    (h : (decode options input).result = .ok message) :
    TripsAgain (growth M) options input message := by
  obtain ⟨-, rs, hrs, habsorb⟩ := readAll_eq_ok_iff.mp h
  have hsize := size_le_of_absorb hrs habsorb
  have hagain : ∀ written : Input, written.bytes = encode message →
      (decode options written).result =
        if size message ≤ options.maxMessageLength then .ok message
        else .error (.messageTooLarge (size message) options.maxMessageLength) := by
    intro written hwritten
    have hlen : written.remaining = size message := by
      rw [written.remaining_eq_length, hwritten, length_encode]
    split
    · rename_i hfits
      -- The records that are written mean the message that was decoded.
      refine readAll_eq_ok_iff.mpr ⟨?_, records message, ?_, absorb_records_of_absorb habsorb⟩
      · rwa [← written.remaining_eq_length, hlen]
      · rw [hwritten]
        exact areRecords_encode_of_absorb hrs habsorb
    · rename_i hlong
      rw [← hlen] at hlong ⊢
      exact congrArg Outcome.result (readAll_of_long (Nat.not_le.mp hlong))
  refine ⟨hsize, hagain, fun written e hwritten herror => ?_⟩
  -- A failure can only be that the message is too long now.
  rw [hagain written hwritten] at herror
  split at herror
  · cases herror
  · omega

/-- **The second trip.** A query that was read is written in ten bytes
more at most, there is one that takes all ten, and reading it again
under the same options gives it back unless it is too long now. For
`Scalars`, which has one number that can grow, it is five bytes. -/
theorem tripsAgain :
    ((∀ (options : DecodeOptions) (input : Input) (q : Query),
        (decode options input).result = .ok q → TripsAgain 10 options input q) ∧
      ∃ (options : DecodeOptions) (input : Input) (q : Query),
        (decode options input).result = .ok q ∧ size q = input.bytes.length + 10) ∧
    ((∀ (options : DecodeOptions) (input : Input) (m : Scalars),
        (decode options input).result = .ok m → TripsAgain 5 options input m) ∧
      ∃ (options : DecodeOptions) (input : Input) (m : Scalars),
        (decode options input).result = .ok m ∧ size m = input.bytes.length + 5) := by
  refine ⟨⟨fun _ _ _ h => tripsAgain_of_decode h, ?_⟩, fun _ _ _ h => tripsAgain_of_decode h, ?_⟩
  · -- Both numbers of the query have the sign bit set, and no other.
    refine ⟨{}, ⟨[[0x10, 0x80, 0x80, 0x80, 0x80, 0x08, 0x18, 0x80, 0x80, 0x80, 0x80, 0x08]]⟩,
      { pageNumber := -2147483648, pageSize := -2147483648 }, ?_, ?_⟩ <;> decide +kernel
  · refine ⟨{}, ⟨[[0x18, 0x80, 0x80, 0x80, 0x80, 0x08]]⟩, { c := -2147483648 }, ?_, ?_⟩ <;>
      decide +kernel

/-- Under a limit that it just keeps, the query that grows by ten bytes
does not come back: what is written for it is longer than that. With
room for ten bytes more it does. -/
theorem tripsAgain_of_least_numbers :
    let input : Input := ⟨[[0x10, 0x80, 0x80, 0x80], [], [0x80, 0x08],
      [0x18, 0x80, 0x80, 0x80, 0x80, 0x08]]⟩
    let q : Query := { pageNumber := -2147483648, pageSize := -2147483648 }
    let tight : DecodeOptions := { maxMessageLength := 12 }
    let wide : DecodeOptions := { unknownFields := .discard, maxMessageLength := 22 }
    let written : Input := .ofBytes (encode q)
    ((decode tight input).result = .ok q ∧ TripsAgain 10 tight input q ∧
      (decode tight written : Outcome Query).result = .error (.messageTooLarge 22 12)) ∧
    ((decode wide input).result = .ok q ∧ TripsAgain 10 wide input q ∧
      (decode wide written).result = .ok q) := by
  intro input q tight wide written
  have htight : (decode tight input).result = .ok q := by decide +kernel
  have hwide : (decode wide input).result = .ok q := by decide +kernel
  have hsize : size q = 22 := by decide +kernel
  have htrip := tripsAgain.1.1 tight input q htight
  have htrip' := tripsAgain.1.1 wide input q hwide
  refine ⟨⟨htight, htrip, ?_⟩, hwide, htrip', ?_⟩
  · rw [htrip.again written (Input.bytes_ofBytes _), hsize]
    rfl
  · rw [htrip'.again written (Input.bytes_ofBytes _), hsize]
    rfl

end Message

end ProtoWire
