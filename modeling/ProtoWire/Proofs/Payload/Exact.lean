import ProtoWire.Proofs.Record.Grammar
import ProtoWire.Proofs.Varint.Gather

/-!
# `ProtoWire.Proofs.Payload.Exact`: a length, and the bytes it announces

A length can say anything up to `2 ^ 64 - 1`, whatever is there. Behind
one that has been checked, bytes are passed over, copied, or looked at
through a window, and none of this asks again whether they are there. So
the check has to be right for every length, in every spelling of it and
at every cut. It compares the length with what is left, and adds it to
no position.

* `Input.copy?_eq_some`: bytes that are there are copied chunk by chunk,
  and no chunk on the way is empty.
* `outcome_readCheckedLength_eq_ok_iff`: a checked length is a varint
  with as many bytes behind it as it says.
* `copy?_eq_read`: what is copied behind a checked length is the
  payload.
* `readCheckedWord_eq`: the check is the same in words of 64 bits.
* `readCheckedLength_ok_iff_and_inside`: all of it, with what is used up
  where it fails.
-/

set_option autoImplicit false

namespace ProtoWire

open Varint (IsVarint NoVarint)

/-! ### Moves that have to stay inside -/

namespace Input

/-- Moves past the next `n` bytes. They have to be there. -/
def advance? (input : Input) (n : Nat) : Option Input :=
  if n ≤ input.remaining then some (input.advance n) else none

/-- Copies the next `n` bytes and moves past them. Each chunk gives as
many as it has, and there has to be one as long as bytes are missing. -/
def copy? (n : Nat) (input : Input) : Option (List UInt8 × Input) :=
  if n = 0 then some ([], input.advance 0)
  else
    match input.chunk with
    | [] => none
    | b :: bs =>
      let count := min n (b :: bs).length
      (copy? (n - count) (input.advance count)).map
        fun copied => ((b :: bs).take count ++ copied.1, copied.2)
termination_by n
decreasing_by
  simp only [List.length_cons]
  omega

variable {input : Input} {n : Nat}

/-- Bytes that are there can be passed over. -/
theorem advance?_eq_some (h : n ≤ input.remaining) : input.advance? n = some (input.advance n) :=
  if_pos h

/-- What was passed over is no longer left. -/
theorem remaining_advance (input : Input) (n : Nat) :
    (input.advance n).remaining = input.remaining - n := by
  rw [remaining_eq_length, remaining_eq_length, bytes_advance, List.length_drop]

/-- A window of bytes that are there has all of them. -/
theorem remaining_window (h : n ≤ input.remaining) : (input.window n).remaining = n := by
  rw [remaining_eq_length] at h
  rw [remaining_eq_length, bytes_window, List.length_take_of_le h]

/-- The bytes of a chunk are the first ones. -/
theorem take_chunk {count : Nat} (h : count ≤ input.chunk.length) :
    input.chunk.take count = input.bytes.take count := by
  obtain ⟨more, hbytes⟩ := input.chunk_isPrefix
  rw [← hbytes, List.take_append_of_le_length h]

/-- Bytes that are there are copied, over as many cuts as there are
between them. -/
theorem copy?_eq_some (h : n ≤ input.remaining) :
    copy? n input = some (input.bytes.take n, input.advance n) := by
  fun_induction copy? n input with
  | case1 => rfl
  | case2 n input hn hchunk =>
    -- Without a chunk nothing is left, but a byte is still missing.
    rw [remaining_eq_length, chunk_eq_nil_iff.mp hchunk] at h
    exact absurd (Nat.le_zero.mp h) hn
  | case3 n input hn b bs hchunk count ih =>
    have hcount : count ≤ n := Nat.min_le_left _ _
    have hfront : (b :: bs).take count = input.bytes.take count := by
      rw [← hchunk, take_chunk (hchunk ▸ Nat.min_le_right _ _)]
    have hrest : n - count ≤ (input.advance count).remaining := by
      rw [remaining_advance]
      omega
    have hsum : count + (n - count) = n := Nat.add_sub_of_le hcount
    rw [ih hrest, Option.map_some, bytes_advance, advance_advance, hfront, hsum]
    rw [← List.take_add, hsum]

end Input

namespace Payload

variable {input rest : Input} {n : Nat} {e : DecodeError}

/-! ### The length -/

/-- Reading a length is reading a varint, whichever way it ends. -/
theorem readLength_eq : readLength = Prod.fst <$> Varint.read .w64 :=
  Varint.readShort_eq_readValue .w64

/-! ### The check -/

/-- A length that is checked has been read. -/
theorem readLength_of_readCheckedLength (h : readCheckedLength input = .ok n rest) :
    readLength input = .ok n rest := by
  cases hlength : readLength input with
  | error e left =>
    rw [readCheckedLength_of_error hlength] at h
    cases h
  | ok m left =>
    simp only [readCheckedLength, hlength] at h
    split at h <;> cases h
    rfl

/-- A checked length is a varint with as many bytes behind it as it
says. -/
theorem outcome_readCheckedLength_eq_ok_iff {z : List UInt8} :
    readCheckedLength.outcome input = .ok (n, z) ↔
      ∃ head, input.bytes = head ++ z ∧ IsVarint .w64 head n ∧ n ≤ z.length := by
  constructor
  · intro h
    obtain ⟨rest, hrun, rfl⟩ := Decoder.eq_ok_of_outcome h
    have henough := le_remaining_of_readCheckedLength hrun
    rw [Input.remaining_eq_length] at henough
    obtain ⟨head, hbytes, hhead⟩ := reads_readLength.sound (readLength_of_readCheckedLength hrun)
    exact ⟨head, hbytes, hhead, henough⟩
  · intro hgrammar
    rcases hgrammar with ⟨head, hbytes, hhead, henough⟩
    obtain ⟨rest, hlength, rfl⟩ := reads_readLength.complete hbytes hhead
    rw [← Input.remaining_eq_length] at henough
    exact Decoder.outcome_of_ok (readCheckedLength_of_le hlength henough)

/-! ### Behind the check -/

/-- Reads a length and copies the bytes it announces. No copy may leave
the input. -/
def copy? (input : Input) : Option (EStateM.Result DecodeError Input (List UInt8)) :=
  match readCheckedLength input with
  | .ok length rest => (Input.copy? length rest).map fun copied => .ok copied.1 copied.2
  | .error e rest => some (.error e rest)

/-- No copy does, so what is copied is the payload. -/
theorem copy?_eq_read (input : Input) : copy? input = some (read input) := by
  cases hchecked : readCheckedLength input with
  | error e rest =>
    rw [read, Decoder.bind_of_error hchecked]
    simp only [copy?, hchecked]
  | ok n rest =>
    have henough := le_remaining_of_readCheckedLength hchecked
    rw [read, Decoder.bind_of_ok hchecked, Decoder.takeBytes, if_neg (Nat.not_lt.mpr henough)]
    simp only [copy?, hchecked, Input.copy?_eq_some henough, Option.map_some]

/-- What can be done where `n` bytes have been announced and checked. -/
structure Inside (rest : Input) (n : Nat) : Prop where
  /-- All of them can be passed over, or a part. -/
  advance : ∀ m, m ≤ n → rest.advance? m = some (rest.advance m)
  remaining_advance : n + (rest.advance n).remaining = rest.remaining
  copy : rest.copy? n = some (rest.bytes.take n, rest.advance n)
  length_copy : (rest.bytes.take n).length = n
  /-- A window of them is filled. -/
  remaining_window : (rest.window n).remaining = n
  bytes_window : (rest.window n).bytes = rest.bytes.take n

/-- Behind a length of no more than is left, every one of the moves
stays inside. -/
theorem inside_of_le (h : n ≤ rest.remaining) : Inside rest n where
  advance _ hm := Input.advance?_eq_some (Nat.le_trans hm h)
  remaining_advance := by
    rw [Input.remaining_advance]
    exact Nat.add_sub_of_le h
  copy := Input.copy?_eq_some h
  length_copy := by
    rw [Input.remaining_eq_length] at h
    exact List.length_take_of_le h
  remaining_window := Input.remaining_window h
  bytes_window := Input.bytes_window rest n

/-! ### In words -/

/-- Reads a length into a word. A byte below 128 in front is taken as it
is. -/
def readLengthWord : Decoder UInt64 := fun input =>
  match input.chunk with
  | b :: _ =>
    if b < 0x80 then .ok b.toUInt64 (input.advance 1)
    else (UInt64.ofNat <$> Varint.readValue .w64) input
  | [] => (UInt64.ofNat <$> Varint.readValue .w64) input

/-- Compares a length with what is left, both in words. -/
def readCheckedWord : Decoder UInt64 := fun input =>
  match readLengthWord input with
  | .ok length rest =>
    if UInt64.ofNat rest.remaining < length then .error .unexpectedEnd rest else .ok length rest
  | .error e rest => .error e rest

/-- The length that is read in a word is the length. -/
theorem readLengthWord_eq : readLengthWord = UInt64.ofNat <$> readLength := by
  funext input
  rw [readLength, Varint.readShort_eq_readValue]
  unfold readLengthWord
  cases hchunk : input.chunk with
  | nil => rfl
  | cons b bs =>
    by_cases hb : b.toNat < 128
    · have hlow : b < 0x80 := UInt8.lt_iff_toNat_lt.mpr hb
      simp only [hlow, if_true]
      rw [Decoder.map_of_ok UInt64.ofNat (Varint.readValue_of_lt hchunk hb),
        UInt64.ofNat_uInt8ToNat]
    · have hhigh : ¬ b < 0x80 := mt UInt8.lt_iff_toNat_lt.mp hb
      simp only [hhigh, if_false]

/-- Of an input that words can count, the check is the same. -/
theorem readCheckedWord_eq (hmem : input.remaining < 2 ^ 64) :
    readCheckedWord input = (UInt64.ofNat <$> readCheckedLength) input := by
  cases hlength : readLength input with
  | error e rest =>
    rw [Decoder.map_of_error _ (readCheckedLength_of_error hlength)]
    simp only [readCheckedWord, readLengthWord_eq, Decoder.map_of_error _ hlength]
  | ok n rest =>
    obtain ⟨head, hbytes, hhead⟩ := reads_readLength.sound hlength
    have hleft : rest.remaining < 2 ^ 64 := by
      have hfront := forward_readLength.remaining_le input
      rw [Decoder.rest_of_ok hlength] at hfront
      omega
    -- Neither number is cut by its word, so words compare as numbers do.
    have hlt : UInt64.ofNat rest.remaining < UInt64.ofNat n ↔ rest.remaining < n := by
      rw [UInt64.lt_iff_toNat_lt, UInt64.toNat_ofNat_of_lt' hleft,
        UInt64.toNat_ofNat_of_lt' hhead.lt]
    by_cases hshort : rest.remaining < n
    · rw [Decoder.map_of_error _ (readCheckedLength_of_lt hlength hshort)]
      simp only [readCheckedWord, readLengthWord_eq, Decoder.map_of_ok _ hlength, hlt, hshort,
        if_true]
    · rw [Decoder.map_of_ok _ (readCheckedLength_of_le hlength (Nat.not_lt.mp hshort))]
      simp only [readCheckedWord, readLengthWord_eq, Decoder.map_of_ok _ hlength, hlt, hshort,
        if_false]

/-! ### All of it -/

/-- Lengths in front of an input, read and checked. -/
structure ChecksExactly (input : Input) : Prop where
  /-- The value or the error are those of a varint, and so is what is
  left. -/
  readLength_eq : readLength input = (Prod.fst <$> Varint.read .w64) input
  /-- A byte that can be taken as it is would have been read as that. -/
  short : ∀ b more, input.chunk = b :: more → b.toNat < 128 →
    readLength input = .ok b.toNat (input.advance 1) ∧
      Varint.read .w64 input = .ok (b.toNat, 1) (input.advance 1)
  ok_iff : ∀ n behind, readCheckedLength.outcome input = .ok (n, behind) ↔
    ∃ head, input.bytes = head ++ behind ∧ IsVarint .w64 head n ∧ n ≤ behind.length
  /-- Where bytes are missing, the length is used up and nothing else. -/
  missing : ∀ head behind n, input.bytes = head ++ behind → IsVarint .w64 head n →
    behind.length < n →
    ∃ rest, readCheckedLength input = .error .unexpectedEnd rest ∧ rest.bytes = behind
  /-- Without a length, the error and what is left are those of reading a
  varint. -/
  noLength : NoVarint .w64 input.bytes →
    ∃ e rest, Varint.decode .w64 input.bytes = .error e ∧
      Varint.read .w64 input = .error e rest ∧ readCheckedLength input = .error e rest
  /-- Any length can pass the check, and if it does its bytes are there. -/
  inside : ∀ n rest, readCheckedLength input = .ok n rest → n < 2 ^ 64 ∧ Inside rest n
  copy_eq : copy? input = some (read input)
  /-- In words nothing wraps around. -/
  word_eq : input.remaining < 2 ^ 64 →
    readCheckedWord input = (UInt64.ofNat <$> readCheckedLength) input

/-- **Lengths are checked exactly**. What is read as a length is a
varint, with or without the short cut for one byte. It passes the check
if as many bytes follow, and then no move over these bytes leaves the
input. -/
theorem readCheckedLength_ok_iff_and_inside (input : Input) : ChecksExactly input where
  readLength_eq := congrFun Payload.readLength_eq input
  short b more hchunk hb := by
    have hread := Varint.read_of_lt (w := .w64) hchunk hb
    exact ⟨(congrFun Payload.readLength_eq input).trans (Decoder.map_of_ok Prod.fst hread), hread⟩
  ok_iff _ _ := outcome_readCheckedLength_eq_ok_iff
  missing head behind n hbytes hhead hlt := by
    obtain ⟨rest, hlength, rfl⟩ := reads_readLength.complete hbytes hhead
    rw [← Input.remaining_eq_length] at hlt
    exact ⟨rest, readCheckedLength_of_lt hlength hlt, rfl⟩
  noLength h := by
    obtain ⟨e, rest, hread, hdec⟩ := Varint.exists_read_of_noVarint h
    have hlength : readLength input = .error e rest :=
      (congrFun Payload.readLength_eq input).trans (Decoder.map_of_error Prod.fst hread)
    exact ⟨e, rest, hdec, hread, readCheckedLength_of_error hlength⟩
  inside n rest h := by
    obtain ⟨_, _, hhead⟩ := reads_readLength.sound (readLength_of_readCheckedLength h)
    exact ⟨hhead.lt, inside_of_le (le_remaining_of_readCheckedLength h)⟩
  copy_eq := copy?_eq_read input
  word_eq := readCheckedWord_eq

/-- The greatest length, over a cut. Its ten bytes are used up, and the
byte behind them is left. A length of one that is spelled in two bytes
has its byte. -/
example :
    let greatest : Input := ⟨[[0xff, 0xff, 0xff, 0xff], [0xff, 0xff, 0xff, 0xff, 0xff, 0x01, 0x61]]⟩
    readLength greatest = .ok (2 ^ 64 - 1) (.ofBytes [0x61]) ∧
      readCheckedLength greatest = .error .unexpectedEnd (.ofBytes [0x61]) ∧
      copy? ⟨[[0x81], [0x00], [0x61, 0x62]]⟩ = some (.ok [0x61] (.ofBytes [0x62])) :=
  ⟨by cbv, by cbv, by cbv⟩

end Payload

end ProtoWire
