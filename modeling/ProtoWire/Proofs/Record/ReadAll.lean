import ProtoWire.Proofs.Record.Grammar

/-!
# `ProtoWire.Proofs.Record.ReadAll`: reading records without a schema

`Record.readAll` reads a key and a value until nothing is left. It knows
of no message and keeps every record it finds. This module says which
bytes it reads to the end, and as what: those that are the spelling of
some records, as those records (`outcome_readAll_eq_ok_iff`). The cuts
of the input drop out, and since bytes are the spelling of one list of
records at most, the list of the raw records of some bytes is that list.

The loop carries the records found so far. `areRecords_of_readAllAfter`
follows a run turn by turn, `readAllAfter_of_areRecords` follows the
records.
-/

set_option autoImplicit false

namespace ProtoWire.Record

/-! ### The loop, turn by turn -/

/-- The loop ends where nothing is left. -/
theorem readAllAfter_of_nil {found : List Record} {input : Input} (h : input.bytes = []) :
    readAllAfter found input = .ok found input := by
  rw [readAllAfter, if_pos (Input.isEmpty_iff.mpr h)]

/-- The loop goes on behind a record that was read. -/
theorem readAllAfter_of_ok {found : List Record} {input rest : Input} {record : Record}
    (h : read input = .ok record rest) :
    readAllAfter found input = readAllAfter (found ++ [record]) rest := by
  have hempty := Input.not_isEmpty_of_remaining_lt (remaining_lt_of_read h)
  rw [readAllAfter, if_neg hempty]
  split
  · rename_i heq
    rw [h] at heq
    cases heq
    rfl
  · rename_i heq
    rw [h] at heq
    cases heq

/-! ### What is read to the end -/

/-- What the loop adds to the records found so far are the records of
the input. -/
theorem areRecords_of_readAllAfter {found all : List Record} {input rest : Input}
    (h : readAllAfter found input = .ok all rest) :
    ∃ records, all = found ++ records ∧ AreRecords input.bytes records := by
  fun_induction readAllAfter found input with
  | case1 found input hempty =>
    cases h
    refine ⟨[], (List.append_nil _).symm, ?_⟩
    rw [Input.isEmpty_iff.mp hempty]
    exact .nil
  | case2 found input _ record left hread ih =>
    obtain ⟨records, hall, hrecords⟩ := ih h
    obtain ⟨b, hb, hrecord⟩ := reads_read.sound hread
    refine ⟨record :: records, ?_, ?_⟩
    · rw [hall, List.append_assoc, List.singleton_append]
    · rw [hb]
      exact .cons hrecord hrecords
  | case3 => cases h

/-- Where the input is the spelling of records, the loop takes them all.
The induction is on the records: each is a turn. -/
theorem readAllAfter_of_areRecords {b : List UInt8} {records : List Record}
    (h : AreRecords b records) (found : List Record) {input : Input} (hb : input.bytes = b) :
    ∃ rest, readAllAfter found input = .ok (found ++ records) rest ∧ rest.bytes = [] := by
  induction h generalizing found input with
  | nil =>
    rw [List.append_nil]
    exact ⟨input, readAllAfter_of_nil hb, hb⟩
  | cons hrecord _ ih =>
    obtain ⟨left, hread, hleft⟩ := reads_read.complete hb hrecord
    obtain ⟨rest, hrun, hnil⟩ := ih (found ++ [_]) hleft
    refine ⟨rest, ?_, hnil⟩
    rw [readAllAfter_of_ok hread, hrun, List.append_assoc, List.singleton_append]

/-- **The records of an input.** Reading every record comes to some
records with nothing left exactly if the input is their spelling. -/
theorem outcome_readAll_eq_ok_iff {input : Input} {records : List Record} :
    readAll.outcome input = .ok (records, []) ↔ AreRecords input.bytes records := by
  constructor
  · intro h
    obtain ⟨rest, hrun, -⟩ := Decoder.eq_ok_of_outcome h
    obtain ⟨found, rfl, hfound⟩ := areRecords_of_readAllAfter hrun
    exact hfound
  · intro h
    obtain ⟨rest, hrun, hnil⟩ := readAllAfter_of_areRecords h [] rfl
    have hread : readAll input = .ok records rest := hrun
    rw [Decoder.outcome_of_ok hread, hnil]

end ProtoWire.Record
