import ProtoWire.Proofs.Outcome
import ProtoWire.Varint.Read

/-!
# `ProtoWire.Proofs.Varint.Cuts`: a varint over cuts

`Varint.read` has two ways. Where the chunk in front surely holds the
number it decodes the chunk, and otherwise it gathers digits over the
cut and decodes those. Either way it finds what `Varint.decode` finds
in the uncut bytes:

* `decodeDigits_append`: bytes behind the most a number can have do
  not matter, which settles the first way.
* `decodeDigits_digitRun`: the gathered digits are as good as all
  bytes, which settles the second.
* `outcome_read`, `outcome_readValue`: reading is `decode` on the
  uncut bytes, and a success uses up exactly the bytes of the number.
* `readShort_eq_readValue`: the short cut for one byte changes
  nothing, not even what is left after a failure.
-/

set_option autoImplicit false

namespace ProtoWire.Varint

/-! ### What the decoder looks at -/

/-- A number has at most `free + 1` bytes, so it is decided by that
many. -/
theorem decodeDigits_append {last free : Nat} {bytes : List UInt8} (more : List UInt8)
    (h : free < bytes.length) :
    decodeDigits last free (bytes ++ more) = decodeDigits last free bytes := by
  induction bytes generalizing free with
  | nil => simp at h
  | cons b bs ih =>
    cases free with
    | zero => rfl
    | succ free =>
      have hrest : free < bs.length := by
        rw [List.length_cons] at h
        omega
      simp only [List.cons_append, decodeDigits, ih hrest]

/-- The gathered digits hold everything the decoder looks at. -/
theorem decodeDigits_digitRun (last free : Nat) (bytes : List UInt8) :
    decodeDigits last free (digitRun (free + 1) bytes) = decodeDigits last free bytes := by
  induction bytes generalizing free with
  | nil => rfl
  | cons b bs ih =>
    cases free with
    | zero =>
      -- The one digit that is left is gathered whether it ends the number or not.
      by_cases hb : b.toNat < 128
      · simp only [digitRun, hb, if_true, decodeDigits]
      · simp only [digitRun, hb, if_false, decodeDigits]
    | succ free =>
      by_cases hb : b.toNat < 128
      · simp only [digitRun, hb, if_true, decodeDigits]
      · simp only [digitRun, hb, if_false, decodeDigits, ih free]

/-- Gathered digits that are a number are that number and no more. -/
theorem count_of_decodeDigits_digitRun {last free value count : Nat} {bytes : List UInt8}
    (h : decodeDigits last free (digitRun (free + 1) bytes) = .ok (value, count)) :
    count = (digitRun (free + 1) bytes).length := by
  have hcount := decodeDigits_count h
  suffices hge : (digitRun (free + 1) bytes).length ≤ count by omega
  clear hcount
  induction bytes generalizing free value count with
  | nil => simp [digitRun]
  | cons b bs ih =>
    cases free with
    | zero =>
      -- Only one byte was gathered, and a number has at least one.
      have hone := (decodeDigits_count h).1
      have hlen := length_digitRun_le 1 (b :: bs)
      show (digitRun 1 (b :: bs)).length ≤ count
      omega
    | succ free =>
      by_cases hb : b.toNat < 128
      · have hone := (decodeDigits_count h).1
        simp only [digitRun, hb, if_true, List.length_singleton]
        exact hone
      · have hstep : digitRun (free + 1 + 1) (b :: bs) = b :: digitRun (free + 1) bs := by
          simp only [digitRun, hb, if_false]
        rw [hstep] at h ⊢
        simp only [decodeDigits, hb, if_false] at h
        -- The digit in front counts for one on either side.
        cases hrest : decodeDigits last free (digitRun (free + 1) bs) with
        | error e =>
          rw [hrest] at h
          cases h
        | ok found =>
          obtain ⟨v, c⟩ := found
          rw [hrest] at h
          cases h
          have := ih hrest
          rw [List.length_cons]
          omega

/-- A chunk that is as long as any number, or that nothing follows,
decodes like all bytes. -/
theorem decode_chunk {w : Width} {input : Input}
    (h : w.maxBytes ≤ input.chunk.length ∨ input.chunk.length = input.remaining) :
    decode w input.chunk = decode w input.bytes := by
  obtain ⟨more, hbytes⟩ := input.chunk_isPrefix
  rcases h with hlong | hall
  · rw [← hbytes]
    exact (decodeDigits_append more hlong).symm
  · -- The chunk is all there is.
    have hnil : more = [] := by
      rw [Input.remaining_eq_length, ← hbytes, List.length_append] at hall
      exact List.length_eq_zero_iff.mp (by omega)
    rw [← hbytes, hnil, List.append_nil]

/-! ### Reading is decoding the uncut bytes -/

/-- What is found, and what is left, is said by `decode` on the uncut
bytes. -/
theorem outcome_read (w : Width) (input : Input) :
    (read w).outcome input
      = (decode w input.bytes).map fun found => (found, input.bytes.drop found.2) := by
  by_cases h : w.maxBytes ≤ input.chunk.length ∨ input.chunk.length = input.remaining
  · -- The first piece has all that the varint can have, so it is decoded in place.
    have hdec := decode_chunk h
    cases hrun : decode w input.chunk with
    | error e =>
      have hread : read w input = .error e input := by
        simp only [read, h, if_true, hrun]
      rw [Decoder.outcome_of_error hread, ← hdec, hrun]
      rfl
    | ok found =>
      have hread : read w input = .ok found (input.advance found.2) := by
        simp only [read, h, if_true, hrun]
      rw [Decoder.outcome_of_ok hread, ← hdec, hrun, Input.bytes_advance]
      rfl
  · -- The digits are gathered over the pieces, up to the one that ends the varint.
    have hdec : decode w (digitRun w.maxBytes input.bytes) = decode w input.bytes :=
      decodeDigits_digitRun w.lastDigitMax w.freeDigits input.bytes
    cases hrun : decode w (digitRun w.maxBytes input.bytes) with
    | error e =>
      have hread : read w input
          = .error e (input.advance (digitRun w.maxBytes input.bytes).length) := by
        simp only [read, h, if_false, hrun]
      rw [Decoder.outcome_of_error hread, ← hdec, hrun]
      rfl
    | ok found =>
      have hread : read w input
          = .ok found (input.advance (digitRun w.maxBytes input.bytes).length) := by
        simp only [read, h, if_false, hrun]
      have hcount : found.2 = (digitRun w.maxBytes input.bytes).length :=
        count_of_decodeDigits_digitRun hrun
      rw [Decoder.outcome_of_ok hread, ← hdec, hrun, Input.bytes_advance, ← hcount]
      rfl

/-- The same for the value alone. -/
theorem outcome_readValue (w : Width) (input : Input) :
    (readValue w).outcome input
      = (decode w input.bytes).map fun found => (found.1, input.bytes.drop found.2) := by
  show (Prod.fst <$> read w).outcome input = _
  rw [Decoder.outcome_map, outcome_read]
  cases decode w input.bytes <;> rfl

/-- A varint is found, or refused, whichever pieces its bytes are in. -/
theorem CutFree.read (w : Width) : Decoder.CutFree (read w) := by
  intro i j h
  rw [outcome_read, outcome_read, h]

/-- The value of a varint does not depend on the cuts. -/
theorem CutFree.readValue (w : Width) : Decoder.CutFree (readValue w) :=
  Decoder.CutFree.map Prod.fst (CutFree.read w)

/-! ### The short cut for one byte -/

/-- A byte below 128 in front is the whole number. -/
theorem decode_of_lt {w : Width} {b : UInt8} {bs : List UInt8} (hb : b.toNat < 128) :
    decode w (b :: bs) = .ok (b.toNat, 1) := by
  cases w <;> simp only [decode, Width.freeDigits, decodeDigits, hb, if_true]

/-- Such a byte is read as itself, whether the number is decoded in
place or gathered. -/
theorem read_of_lt {w : Width} {input : Input} {b : UInt8} {bs : List UInt8}
    (hchunk : input.chunk = b :: bs) (hb : b.toNat < 128) :
    read w input = .ok (b.toNat, 1) (input.advance 1) := by
  by_cases h : w.maxBytes ≤ input.chunk.length ∨ input.chunk.length = input.remaining
  · simp only [read, h, if_true]
    rw [hchunk, decode_of_lt hb]
  · -- The byte ends the digits that are gathered.
    obtain ⟨more, hbytes⟩ := input.chunk_isPrefix
    have hrun : digitRun w.maxBytes input.bytes = [b] := by
      rw [← hbytes, hchunk, List.cons_append, Width.maxBytes]
      simp only [digitRun, hb, if_true]
    simp only [read, h, if_false, hrun, decode_of_lt hb, List.length_singleton]

/-- A first byte below 128 is the whole number. -/
theorem readValue_of_lt {w : Width} {input : Input} {b : UInt8} {bs : List UInt8}
    (hchunk : input.chunk = b :: bs) (hb : b.toNat < 128) :
    readValue w input = .ok b.toNat (input.advance 1) :=
  Decoder.map_of_ok Prod.fst (read_of_lt hchunk hb)

/-- The short cut changes nothing. -/
theorem readShort_eq_readValue (w : Width) : readShort w = readValue w := by
  funext input
  unfold readShort
  cases hchunk : input.chunk with
  | nil => rfl
  | cons b bs =>
    by_cases hb : b.toNat < 128
    · simp only [hb, if_true]
      exact (readValue_of_lt hchunk hb).symm
    · simp only [hb, if_false]

/-- The short cut for one byte does not depend on the cuts either. -/
theorem CutFree.readShort (w : Width) : Decoder.CutFree (readShort w) := by
  rw [readShort_eq_readValue]
  exact CutFree.readValue w

end ProtoWire.Varint
