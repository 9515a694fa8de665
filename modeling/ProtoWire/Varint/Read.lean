import ProtoWire.Decoder
import ProtoWire.Varint

/-!
# `ProtoWire.Varint.Read`: a varint from an input in pieces

Where the chunk in front surely holds the whole number, it is decoded
in place and only a success uses up bytes. Where a cut may run through
the number, its digits are first gathered over the cut, and those are
used up even if they turn out to be no number. The statements:

* `length_digitRun_le`: no more digits are gathered than the width
  allows.
* `Forward.read`, `Forward.readShort`: both reads only move forward.
* `remaining_lt_of_read`, `remaining_lt_of_readShort`: a successful
  read uses up at least one byte.
-/

set_option autoImplicit false

namespace ProtoWire.Varint

/-- The digits at the front of `bytes`: at most `most`, and none behind
the first that ends a number. -/
def digitRun : (most : Nat) → (bytes : List UInt8) → List UInt8
  | 0, _ => []
  | _, [] => []
  | most + 1, b :: bs => if b.toNat < 128 then [b] else b :: digitRun most bs

/-- Reads a varint: its value and how many bytes it has. -/
def read (w : Width) : Decoder (Nat × Nat) := fun input =>
  if w.maxBytes ≤ input.chunk.length ∨ input.chunk.length = input.remaining then
    -- Either the chunk is as long as any number, or no byte comes after it.
    match decode w input.chunk with
    | .ok (value, count) => .ok (value, count) (input.advance count)
    | .error e => .error e input
  else
    let digits := digitRun w.maxBytes input.bytes
    match decode w digits with
    | .ok found => .ok found (input.advance digits.length)
    | .error e => .error e (input.advance digits.length)

/-- Reads the value of a varint. -/
def readValue (w : Width) : Decoder Nat :=
  Prod.fst <$> read w

/-- Reads the value of a varint that most often has one byte: such a
byte is its own value, and is taken without further checks. -/
def readShort (w : Width) : Decoder Nat := fun input =>
  match input.chunk with
  | b :: _ => if b.toNat < 128 then .ok b.toNat (input.advance 1) else readValue w input
  | [] => readValue w input

/-! ### The gathered digits -/

/-- No more bytes are gathered than the width allows. -/
theorem length_digitRun_le (most : Nat) (bytes : List UInt8) :
    (digitRun most bytes).length ≤ most := by
  fun_induction digitRun most bytes with
  | case1 => simp
  | case2 => simp
  | case3 => simp
  | case4 most b bs _ ih =>
    rw [List.length_cons]
    omega

/-- The bytes that are gathered are the beginning of what is left. -/
theorem digitRun_isPrefix (most : Nat) (bytes : List UInt8) : digitRun most bytes <+: bytes := by
  fun_induction digitRun most bytes with
  | case1 => exact List.nil_prefix
  | case2 => exact List.prefix_refl _
  | case3 _ b bs _ => exact ⟨bs, rfl⟩
  | case4 most b bs _ ih => exact (List.prefix_cons_inj b).mpr ih

/-! ### Both reads move forward -/

/-- Reading a varint only drops bytes from the front, whether they are
gathered first or decoded in place. -/
theorem Forward.read (w : Width) : Decoder.Forward (read w) := by
  intro input
  unfold Decoder.rest Varint.read
  by_cases h : w.maxBytes ≤ input.chunk.length ∨ input.chunk.length = input.remaining
  · -- In place, nothing is dropped unless there is a number.
    simp only [h, if_true]
    cases decode w input.chunk with
    | ok found => exact input.suffix_advance found.2
    | error e => exact List.suffix_refl _
  · -- The gathered digits are dropped, whether they are a number or not.
    simp only [h, if_false]
    cases decode w (digitRun w.maxBytes input.bytes) with
    | ok found => exact input.suffix_advance _
    | error e => exact input.suffix_advance _

/-- Reading the value of a varint only drops bytes from the front. -/
theorem Forward.readValue (w : Width) : Decoder.Forward (readValue w) :=
  Decoder.Forward.map Prod.fst (Forward.read w)

/-- The short cut for one byte drops that byte. -/
theorem Forward.readShort (w : Width) : Decoder.Forward (readShort w) := by
  intro input
  unfold Decoder.rest Varint.readShort
  have hlong := Forward.readValue w input
  unfold Decoder.rest at hlong
  cases input.chunk with
  | nil => exact hlong
  | cons b bs =>
    by_cases hb : b.toNat < 128
    · simp only [hb, if_true]
      exact input.suffix_advance 1
    · simpa [hb] using hlong

/-- A varint that is there has a byte, so reading it leaves less. -/
theorem remaining_lt_of_read {w : Width} {input rest : Input} {found : Nat × Nat}
    (h : read w input = .ok found rest) : rest.remaining < input.remaining := by
  rw [Input.remaining_eq_length, Input.remaining_eq_length]
  unfold read at h
  split at h
  · -- In place: as many bytes are used up as the number has.
    split at h
    · rename_i value count hdec
      cases h
      have hcount := decode_count hdec
      have hchunk := input.chunk_isPrefix.length_le
      rw [Input.bytes_advance, List.length_drop]
      omega
    · cases h
  · -- Over the cut: all gathered digits are used up, and a number has at least one.
    simp only at h
    split at h
    · rename_i value hdec
      cases h
      have hcount := decode_count hdec
      have hrun := (digitRun_isPrefix w.maxBytes input.bytes).length_le
      rw [Input.bytes_advance, List.length_drop]
      omega
    · cases h

/-- A varint that was read has used up a byte at least. -/
theorem remaining_lt_of_readValue {w : Width} {input rest : Input} {value : Nat}
    (h : readValue w input = .ok value rest) : rest.remaining < input.remaining := by
  cases hread : read w input with
  | ok found left =>
    have hval : readValue w input = .ok found.1 left := Decoder.map_of_ok Prod.fst hread
    rw [hval] at h
    cases h
    exact remaining_lt_of_read hread
  | error e left =>
    have hval : readValue w input = .error e left := Decoder.map_of_error Prod.fst hread
    rw [hval] at h
    cases h

/-- A varint that was read by the short cut has used up a byte at
least. -/
theorem remaining_lt_of_readShort {w : Width} {input rest : Input} {value : Nat}
    (h : readShort w input = .ok value rest) : rest.remaining < input.remaining := by
  unfold readShort at h
  split at h
  · rename_i b bs hchunk
    split at h
    · cases h
      have hpre := input.chunk_isPrefix.length_le
      rw [hchunk, List.length_cons] at hpre
      rw [Input.remaining_eq_length, Input.remaining_eq_length, Input.bytes_advance,
        List.length_drop]
      omega
    · exact remaining_lt_of_readValue h
  · exact remaining_lt_of_readValue h

end ProtoWire.Varint
