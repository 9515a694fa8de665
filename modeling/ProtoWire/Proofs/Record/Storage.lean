import ProtoWire.Proofs.Record.ReadAll
import ProtoWire.Proofs.Record.Shortest

/-!
# `ProtoWire.Proofs.Record.Storage`: records that are kept for later

Records that no field takes are kept, written again and read again,
by themselves and under whatever numbers they have. In one direction
nothing can get lost: records that are written are read back, if their
payloads have lengths that 64 bits can say
(`outcome_readAll_of_encodeAll`).

In the other direction the records stay, but the bytes may change. A
number can have been spelled with more digits than it needs, and is
written with the fewest. So what is written is never longer than what
was read, and the same only where every part of it was as short as it
can be (`encodeAll_eq_iff_of_areRecords`).
-/

set_option autoImplicit false

namespace ProtoWire.Record

/-- Every payload has a length that 64 bits can say. -/
def PayloadsFit (records : List Record) : Prop :=
  ∀ record ∈ records, ∀ payload, record.value = .bytes payload → payload.length < UInt64.size

/-- Records whose payloads have lengths are spelled by what is written
for them. -/
theorem PayloadsFit.areRecords_encodeAll {records : List Record} (h : PayloadsFit records) :
    AreRecords (encodeAll records) records := by
  refine areRecords_encodeAll_of_forall fun record hrecord => ?_
  exact .mk (Key.isKey_encode _ _) (WireValue.isValue_encode_of_payload (h record hrecord))

/-- Records that were written are read back, and nothing else is. -/
theorem outcome_readAll_of_encodeAll {records : List Record} {input : Input}
    (hfit : PayloadsFit records) (hbytes : input.bytes = encodeAll records) :
    readAll.outcome input = .ok (records, []) := by
  rw [outcome_readAll_eq_ok_iff, hbytes]
  exact hfit.areRecords_encodeAll

/-- What is read as a list of records is spelled by the bytes. -/
theorem areRecords_of_readAll {input rest : Input} {records : List Record}
    (h : readAll input = .ok records rest) : AreRecords input.bytes records := by
  obtain ⟨found, rfl, hfound⟩ := areRecords_of_readAllAfter h
  exact hfound

/-- Records are written as they were spelled exactly if every part of
the spelling is terse. -/
theorem encodeAll_eq_iff_of_areRecords {b : List UInt8} {records : List Record}
    (h : AreRecords b records) : encodeAll records = b ↔ AreTerseRecords b records := by
  rw [areTerseRecords_iff, eq_comm]
  exact (and_iff_right h).symm

/-- What becomes of bytes `b` that were read as `records`, when the
records are written again. -/
structure StoredAs (b : List UInt8) (records : List Record) : Prop where
  /-- The numbers are numbers that a field can have. -/
  number_mem_Icc : ∀ record ∈ records,
    1 ≤ record.number.val ∧ record.number.val ≤ 2 ^ 29 - 1
  length_le : (encodeAll records).length ≤ b.length
  /-- The bytes are the same exactly if every key, every varint that is
  a value and every length has as few bytes as it can have. -/
  eq_iff : encodeAll records = b ↔ AreTerseRecords b records
  /-- Otherwise they have become fewer. -/
  length_lt : ¬ AreTerseRecords b records → (encodeAll records).length < b.length

/-- Any spelling of records can be stored in place of it. -/
theorem storedAs_of_areRecords {b : List UInt8} {records : List Record}
    (h : AreRecords b records) : StoredAs b records where
  number_mem_Icc record _ := ⟨record.number.one_le, record.number.le_largest⟩
  length_le := length_encodeAll_le h
  eq_iff := encodeAll_eq_iff_of_areRecords h
  length_lt hterse := by
    refine Nat.lt_of_not_le fun hlen => hterse ?_
    exact (encodeAll_eq_iff_of_areRecords h).mp (writesShortest_all.eq_of_length_le h hlen).symm

/-- **Records and their bytes, there and back.** Records under any
numbers, with payloads whose lengths fit in 64 bits, are written and
read back as they were, in any pieces. And bytes that are read as
records, in any pieces, are written again with no byte more, and as they
were exactly if they are terse. -/
theorem readAll_there_and_back :
    (∀ (records : List Record) (input : Input), PayloadsFit records →
      input.bytes = encodeAll records → readAll.outcome input = .ok (records, [])) ∧
    (∀ (b : List UInt8) (input rest : Input) (records : List Record), input.bytes = b →
      readAll input = .ok records rest → StoredAs b records) := by
  constructor
  · intro records input hfit hbytes
    exact outcome_readAll_of_encodeAll hfit hbytes
  · rintro b input rest records rfl hread
    exact storedAs_of_areRecords (areRecords_of_readAll hread)

/-- Records of every layout, under numbers that messages use themselves
and under the largest, come back from pieces. Two records with a zero
digit too many in a key, a number and a length lose three bytes. -/
theorem readAll_there_and_back_of_every_layout :
    let records : List Record := [⟨.one, .varint 300⟩, ⟨.two, .bytes [0xff]⟩,
      ⟨.last, .fixed32 7⟩, ⟨.three, .fixed64 1⟩]
    let cut : Input := ⟨[[0x08, 0xac], [], [0x02, 0x12, 0x01, 0xff, 0xfd, 0xff],
      [0xff, 0xff, 0x0f, 0x07, 0, 0, 0, 0x19, 1, 0, 0], [0, 0, 0, 0, 0]]⟩
    let long : List UInt8 := [0x88, 0x00, 0x80, 0x00, 0x12, 0x81, 0x00, 0xff]
    let found : List Record := [⟨.one, .varint 0⟩, ⟨.two, .bytes [0xff]⟩]
    (PayloadsFit records ∧ cut.bytes = encodeAll records ∧
        readAll.outcome cut = .ok (records, [])) ∧
      (∃ rest, readAll (.ofBytes long) = .ok found rest) ∧ StoredAs long found ∧
      (encodeAll found).length = 5 := by
  intro records cut long found
  have hfit : PayloadsFit records := by simp [PayloadsFit, records, UInt64.size]
  have hcut : cut.bytes = encodeAll records := by decide +kernel
  have hread : readAll.outcome (.ofBytes long) = .ok (found, []) := by cbv
  obtain ⟨rest, hrun, -⟩ := Decoder.eq_ok_of_outcome hread
  exact ⟨⟨hfit, hcut, readAll_there_and_back.1 records cut hfit hcut⟩, ⟨rest, hrun⟩,
    readAll_there_and_back.2 long _ rest found (Input.bytes_ofBytes long) hrun, by decide +kernel⟩

end ProtoWire.Record
