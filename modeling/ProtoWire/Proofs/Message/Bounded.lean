import ProtoWire.Proofs.Message.RoundTrip
import ProtoWire.Session

/-!
# `ProtoWire.Proofs.Message.Bounded`: all of a message or nothing

A message is put into memory in many small puts: a varint byte by byte,
a number of fixed width at once, and a text at once behind its length
(`puts`). None of them asks whether there is room. A put that would run
over the end of its region has no result (`Region.put?`), and then the
whole run of puts has none.

A run of puts has a result exactly if there is room for all of its bytes
(`Region.putAll?_eq`), and the bytes of a message are as many as its
computed size says. So one look at the size, before the first put, is
enough. `writesAllOrNothing` says what is in the region afterwards: the
message, and around it what was there before, or no byte of the message
at all.
-/

set_option autoImplicit false

namespace ProtoWire

/-! ### Puts into a region -/

namespace Region

/-- Puts bytes over the first ones of the room. All of them have to be
in the region. -/
def put? (bytes : List UInt8) (region : Region) : Option Region :=
  if bytes.length ≤ region.room.length then some (region.write bytes) else none

/-- Makes one put after the other. -/
def putAll? : List (List UInt8) → Region → Option Region
  | [], region => some region
  | bytes :: puts, region => (region.put? bytes).bind (putAll? puts)

/-- No bytes change nothing. -/
theorem write_nil (region : Region) : region.write [] = region := by
  rw [write, List.append_nil, List.length_nil, List.drop_zero]

/-- Writing twice is writing all the bytes at once. -/
theorem write_write (bytes more : List UInt8) (region : Region) :
    (region.write bytes).write more = region.write (bytes ++ more) := by
  simp only [write, List.append_assoc, List.drop_drop, List.length_append]

/-- What was written is gone from the room. -/
theorem length_room_write (bytes : List UInt8) (region : Region) :
    (region.write bytes).room.length = region.room.length - bytes.length :=
  List.length_drop

/-- Two puts, one after the other, are one put of all the bytes. -/
theorem put?_bind_put? (bytes more : List UInt8) (region : Region) :
    (region.put? bytes).bind (put? more) = region.put? (bytes ++ more) := by
  unfold put?
  rw [List.length_append]
  by_cases hbytes : bytes.length ≤ region.room.length
  · have hfits : more.length ≤ (region.write bytes).room.length ↔
        bytes.length + more.length ≤ region.room.length := by
      rw [length_room_write]
      omega
    simp only [hbytes, if_true, Option.bind_some, hfits, write_write]
  · have hboth : ¬ bytes.length + more.length ≤ region.room.length := by omega
    simp only [hbytes, hboth, if_false, Option.bind_none]

/-- So are any number of puts. In particular, where all the bytes have
room none of the puts runs over the end, and otherwise one does. -/
theorem putAll?_eq (puts : List (List UInt8)) (region : Region) :
    putAll? puts region = region.put? puts.flatten := by
  induction puts generalizing region with
  | nil =>
    have hroom : ([] : List UInt8).length ≤ region.room.length := Nat.zero_le _
    rw [putAll?, List.flatten_nil, put?, if_pos hroom, write_nil]
  | cons bytes puts ih =>
    have hrest : putAll? puts = put? puts.flatten := funext ih
    rw [putAll?, hrest, put?_bind_put?, List.flatten_cons]

/-- Bytes were put into a region, and nothing else happened to it. -/
structure Received (bytes : List UInt8) (region after : Region) : Prop where
  written : after.written = region.written ++ bytes
  /-- They are where the room began. -/
  inside : ∀ i, i < bytes.length → after.contents[region.written.length + i]? = bytes[i]?
  /-- Every byte in front of them and behind is what it was. -/
  outside : ∀ i, i < region.written.length ∨ region.written.length + bytes.length ≤ i →
    after.contents[i]? = region.contents[i]?
  /-- The region has grown by nothing. -/
  length_contents : after.contents.length = region.contents.length
  /-- What is left of the room. -/
  length_room : bytes.length + after.room.length = region.room.length

/-- Bytes that have room are received, and nothing around them is
changed. -/
theorem received_write {bytes : List UInt8} {region : Region}
    (h : bytes.length ≤ region.room.length) : Received bytes region (region.write bytes) where
  written := rfl
  inside i hi := by
    -- The bytes stand behind those that were written before, and in front of the room.
    rw [contents, write, List.append_assoc, List.getElem?_append_right (Nat.le_add_right _ _),
      Nat.add_sub_cancel_left, List.getElem?_append_left hi]
  outside i hi := by
    rw [contents, contents, write, List.append_assoc]
    rcases hi with hfront | hbehind
    · rw [List.getElem?_append_left hfront, List.getElem?_append_left hfront]
    · -- Behind the bytes stands what their length has not taken from the room.
      have hwritten : region.written.length ≤ i := by omega
      have hbytes : bytes.length ≤ i - region.written.length := by omega
      rw [List.getElem?_append_right hwritten, List.getElem?_append_right hwritten,
        List.getElem?_append_right hbytes, List.getElem?_drop, Nat.add_sub_cancel' hbytes]
  length_contents := by
    rw [contents, contents, List.length_append, List.length_append, length_room_write, write,
      List.length_append]
    omega
  length_room := by
    rw [length_room_write]
    exact Nat.add_sub_cancel' h

end Region

/-! ### The puts of a message -/

/-- The puts for a varint, which is written digit by digit. -/
def Varint.puts (n : Nat) : List (List UInt8) :=
  if n < 128 then [[UInt8.ofNat n]]
  else [UInt8.ofNat (n % 128 + 128)] :: puts (n / 128)
termination_by n
decreasing_by omega

/-- Digit by digit, the bytes of the varint are put. -/
theorem Varint.flatten_puts (n : Nat) : (puts n).flatten = encode n := by
  fun_induction puts n with
  | case1 n hn => rw [encode_of_lt hn, List.flatten_singleton]
  | case2 n hn ih =>
    rw [encode_of_ge (Nat.not_lt.mp hn), List.flatten_cons, ih, List.singleton_append]

/-- The puts for a key: those for its bits, packed into one number. -/
def Key.puts (wireType : WireType) (number : Nat) : List (List UInt8) :=
  Varint.puts (packed wireType number)

/-- The puts for a key are those of its bits. -/
theorem Key.flatten_puts (wireType : WireType) (number : Nat) :
    (puts wireType number).flatten = encode wireType number :=
  Varint.flatten_puts _

/-- The puts for bytes behind their length. -/
def Payload.puts (bytes : List UInt8) : List (List UInt8) :=
  Varint.puts bytes.length ++ [bytes]

/-- The length is put first, and then all of the payload. -/
theorem Payload.flatten_puts (bytes : List UInt8) : (puts bytes).flatten = encode bytes := by
  rw [puts, List.flatten_append, Varint.flatten_puts, List.flatten_singleton, encode]

namespace WireValue

/-- The puts for a value, as its layout has them. -/
def puts : WireValue → List (List UInt8)
  | varint value => Varint.puts value.toNat
  | fixed64 value => [LittleEndian.ofNat 8 value.toNat]
  | bytes payload => Payload.puts payload
  | fixed32 value => [LittleEndian.ofNat 4 value.toNat]

/-- In every layout, the puts for a value come to its bytes. -/
theorem flatten_puts (value : WireValue) : value.puts.flatten = value.encode := by
  cases value with
  | varint value => exact Varint.flatten_puts _
  | fixed64 value => exact List.flatten_singleton
  | bytes payload => exact Payload.flatten_puts _
  | fixed32 value => exact List.flatten_singleton

end WireValue

namespace Record

/-- The puts for a record: its key, and then its value. -/
def puts (record : Record) : List (List UInt8) :=
  Key.puts record.value.wireType record.number.val ++ record.value.puts

/-- The puts for a record come to its bytes. -/
theorem flatten_puts (record : Record) : record.puts.flatten = record.encode := by
  rw [puts, List.flatten_append, Key.flatten_puts, WireValue.flatten_puts, encode]

end Record

namespace ScalarType

/-- The puts for a scalar: one of one byte for a truth value, and those
of a varint for a number. -/
def puts : (s : ScalarType) → s.Value → List (List UInt8)
  | bool, v => [[v.toUInt8]]
  | s, v => Varint.puts (s.toVarint v)

/-- The puts for a scalar come to its bytes, also the one of a truth
value. -/
theorem flatten_puts (s : ScalarType) (v : s.Value) : (s.puts v).flatten = s.encode v := by
  cases s with
  | bool => rfl
  | _ => exact Varint.flatten_puts _

end ScalarType

namespace FieldType

/-- The puts for a value of a field. -/
def puts : (t : FieldType) → t.Value → List (List UInt8)
  | scalar s, v => s.puts v
  | string, v => Payload.puts v.toUTF8.data.toList

/-- The puts for the value of a field come to what is written for it. -/
theorem flatten_puts (t : FieldType) (v : t.Value) : (t.puts v).flatten = t.encode v := by
  cases t with
  | scalar s => exact s.flatten_puts v
  | string => exact Payload.flatten_puts _

/-- The puts for a value under its field number: none for the default
value. -/
def fieldPuts (t : FieldType) (number : Nat) (v : t.Value) : List (List UInt8) :=
  if t.isDefault v then [] else Key.puts t.wireType number ++ t.puts v

/-- The puts for a value under its number come to the key and the value,
or to nothing for the default value. -/
theorem flatten_fieldPuts (t : FieldType) (number : Nat) (v : t.Value) :
    (t.fieldPuts number v).flatten = t.encodeField number v := by
  unfold fieldPuts encodeField
  split
  · rfl
  · rw [List.flatten_append, Key.flatten_puts, flatten_puts]

end FieldType

namespace Field

variable {M : Type}

/-- The puts for a field of a message. -/
def puts (message : M) (field : Field M) : List (List UInt8) :=
  field.type.fieldPuts field.number.val (field.get message)

/-- In a message, the puts for a field come to the bytes of the
field. -/
theorem flatten_puts (message : M) (field : Field M) :
    (field.puts message).flatten = field.encode message :=
  FieldType.flatten_fieldPuts _ _ _

end Field

/-- Where each of some things is written by its puts, all of them are. -/
theorem flatten_flatMap_puts {α : Type} {puts : α → List (List UInt8)} {encode : α → List UInt8}
    (h : ∀ a, (puts a).flatten = encode a) (xs : List α) :
    (xs.flatMap puts).flatten = xs.flatMap encode := by
  have hid : ∀ a, (puts a).flatMap id = encode a := fun a => by rw [List.flatMap_id, h]
  rw [← List.flatMap_id, List.flatMap_assoc]
  simp only [hid]

namespace Message

variable {M : Type} [Message M]

/-- The puts for a message: for its fields in the order of the table,
and then for its unknown records. -/
def puts (message : M) : List (List UInt8) :=
  fields.flatMap (Field.puts message) ++ (unknown message).flatMap Record.puts

/-- The puts for a message come to its bytes. -/
theorem flatten_puts (message : M) : (puts message).flatten = encode message := by
  rw [puts, List.flatten_append, flatten_flatMap_puts (Field.flatten_puts message),
    flatten_flatMap_puts Record.flatten_puts, encode, Record.encodeAll]

/-- Puts a message into a region, unless its size is more than there is
room for. The region is part of the answer in either case. -/
def tryPut (message : M) (region : Region) : Option (Except EncodeError Unit × Region) :=
  if region.room.length < size message then
    some (.error ⟨size message, region.room.length⟩, region)
  else (region.putAll? (puts message)).map fun after => (.ok (), after)

variable {message : M} {region : Region}

/-- Putting a message piece by piece is putting its bytes at once. -/
theorem putAll?_puts (message : M) (region : Region) :
    region.putAll? (puts message) = region.put? (encode message) := by
  rw [Region.putAll?_eq, flatten_puts]

/-- With room for its size, none of the puts runs over the end. -/
theorem putAll?_puts_of_le (h : size message ≤ region.room.length) :
    region.putAll? (puts message) = some (region.write (encode message)) := by
  rw [putAll?_puts, Region.put?, length_encode, if_pos h]

/-- With less room than its size, one of the puts runs over the end. -/
theorem putAll?_puts_of_lt (h : region.room.length < size message) :
    region.putAll? (puts message) = none := by
  rw [putAll?_puts, Region.put?, length_encode, if_neg (Nat.not_le.mpr h)]

/-- A message that has room for its size is written. -/
theorem tryEncode_of_le (h : size message ≤ region.room.length) :
    tryEncode message region = .ok (region.write (encode message)) :=
  if_neg (Nat.not_lt.mpr h)

/-- A message that has less room is refused, with both numbers in the
error. -/
theorem tryEncode_of_lt (h : region.room.length < size message) :
    tryEncode message region = .error ⟨size message, region.room.length⟩ :=
  if_pos h

/-- Where the size says that there is room, every put has room. -/
theorem tryPut_of_le (h : size message ≤ region.room.length) :
    tryPut message region = some (.ok (), region.write (encode message)) := by
  rw [tryPut, if_neg (Nat.not_lt.mpr h), putAll?_puts_of_le h, Option.map_some]

/-- Where the size says that there is no room, nothing is put. -/
theorem tryPut_of_lt (h : region.room.length < size message) :
    tryPut message region = some (.error ⟨size message, region.room.length⟩, region) :=
  if_pos h

/-- Why a message was not put, if it was not. -/
def refusal? : Except EncodeError Unit → Option EncodeError
  | .ok () => none
  | .error e => some e

/-- A step of a session puts a message into a fresh region and shows the
region and the error. No slot is changed. -/
theorem step_tryEncode [DecidableEq M] [Editable M] (session : Session M) (name : String)
    (capacity : Nat) (filling : UInt8) :
    ∃ result after, tryPut (session.slot name) (.fresh capacity filling) = some (result, after) ∧
      session.step ⟨name, .tryEncode capacity filling⟩
        = ⟨session, .written after (refusal? result), []⟩ := by
  by_cases h : (Region.fresh capacity filling).room.length < size (session.slot name)
  · refine ⟨_, _, tryPut_of_lt h, ?_⟩
    simp only [Session.step, tryEncode_of_lt h, refusal?]
  · have hle := Nat.not_lt.mp h
    refine ⟨_, _, tryPut_of_le hle, ?_⟩
    simp only [Session.step, tryEncode_of_le hle, refusal?]

/-- Writing a message into a region does all of it or nothing. -/
structure WritesAllOrNothing [DecidableEq M] [Editable M] (message : M) (region : Region) :
    Prop where
  /-- With room for its size, all bytes of the message are written. -/
  enough : size message ≤ region.room.length → ∃ after, tryEncode message region = .ok after ∧
    tryPut message region = some (.ok (), after) ∧ Region.Received (encode message) region after
  length_encode : (encode message).length = size message
  /-- With less, the error says how much was asked for and how much there
  is, and the region is what it was. -/
  short : region.room.length < size message →
    tryEncode message region = .error ⟨size message, region.room.length⟩ ∧
    tryPut message region = some (.error ⟨size message, region.room.length⟩, region)
  /-- Nothing is refused that could have been put, and a put would run
  over the end wherever there is a refusal. -/
  isSome_putAll?_iff : (region.putAll? (puts message)).isSome ↔ size message ≤ region.room.length
  /-- This is what a session shows. -/
  step : ∀ (session : Session M) (name : String) (capacity : Nat) (filling : UInt8),
    session.slot name = message → region = .fresh capacity filling →
    ∃ result after, tryPut message region = some (result, after) ∧
      session.step ⟨name, .tryEncode capacity filling⟩
        = ⟨session, .written after (refusal? result), []⟩

/-- A query of four bytes, in a region of five and in one of three. -/
example :
    let q : Query := { query := "hi" }
    tryPut q (.fresh 5 0xaa) = some (.ok (), ⟨[0x0a, 0x02, 0x68, 0x69], [0xaa]⟩) ∧
      tryPut q (.fresh 3 0xaa) = some (.error ⟨4, 3⟩, .fresh 3 0xaa) ∧
      (Region.fresh 3 0xaa).putAll? (puts q) = none := by
  decide +kernel

end Message

end ProtoWire
