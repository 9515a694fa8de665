import ProtoWire.WireValue

/-!
# `ProtoWire.Proofs.WireValue.Skip`: passing over a value is reading it

`WireValue.skip` and `WireValue.read` are written apart from each
other: one checks a length against what is left after it has read it,
the other reads a length that is checked already, and where one drops
bytes the other takes them. They have to agree wherever a value ends
or fails to, because a reader that passes over a value goes on where
one that keeps it would.

* `skip_eq_map_read`: passing over a value is reading it and
  forgetting what it was. The equation is between the two reads, so it
  covers the error and what a failed read has used up as well.
-/

set_option autoImplicit false

namespace ProtoWire

/-- Dropping bytes is taking them and forgetting them. -/
theorem Decoder.skipBytes_eq_map_takeBytes (n : Nat) :
    skipBytes n = (fun _ => ()) <$> takeBytes n := by
  funext input
  by_cases hshort : input.remaining < n
  · have htake : Decoder.takeBytes n input = .error .unexpectedEnd input := if_pos hshort
    rw [show Decoder.skipBytes n input = .error .unexpectedEnd input from if_pos hshort]
    exact (Decoder.map_of_error _ htake).symm
  · have htake : Decoder.takeBytes n input = .ok (input.bytes.take n) (input.advance n) :=
      if_neg hshort
    rw [show Decoder.skipBytes n input = .ok () (input.advance n) from if_neg hshort]
    exact (Decoder.map_of_ok (fun _ => ()) htake).symm

/-- Checking a length when it is read or when it is used comes to the
same: either way the length is used up, and nothing behind it if that
is too short. -/
theorem Payload.read_eq :
    Payload.read = Payload.readLength >>= Decoder.takeBytes := by
  funext input
  cases hlength : Payload.readLength input with
  | error e rest =>
    rw [Decoder.bind_of_error hlength]
    exact Decoder.bind_of_error (readCheckedLength_of_error hlength)
  | ok length rest =>
    rw [Decoder.bind_of_ok hlength]
    by_cases hshort : rest.remaining < length
    · rw [show Decoder.takeBytes length rest = .error .unexpectedEnd rest from if_pos hshort]
      exact Decoder.bind_of_error (readCheckedLength_of_lt hlength hshort)
    · exact Decoder.bind_of_ok (readCheckedLength_of_le hlength (Nat.not_lt.mp hshort))

/-- Passing over a value is reading it and forgetting what it was. -/
theorem WireValue.skip_eq_map_read (wireType : WireType) :
    skip wireType = (fun _ => ()) <$> read wireType := by
  cases wireType with
  | varint => simp only [skip, read, Varint.readValue, Functor.map_map]
  | i64 => simp only [skip, read, Decoder.skipBytes_eq_map_takeBytes, Functor.map_map]
  | len =>
    have hskip : Decoder.skipBytes = fun n => (fun _ => ()) <$> Decoder.takeBytes n :=
      funext Decoder.skipBytes_eq_map_takeBytes
    simp only [skip, read, Payload.read_eq, hskip, Functor.map_map, map_bind]
  | i32 => simp only [skip, read, Decoder.skipBytes_eq_map_takeBytes, Functor.map_map]
  | startGroup => rfl
  | endGroup => rfl

section

variable {wireType : WireType} {input rest : Input}

/-- Where a value is read, passing over it ends at the same place. -/
theorem WireValue.skip_of_read_ok {value : WireValue} (h : read wireType input = .ok value rest) :
    skip wireType input = .ok () rest := by
  rw [skip_eq_map_read]
  exact Decoder.map_of_ok _ h

/-- Where none is read, passing over it fails with the same error and
ends at the same place. -/
theorem WireValue.skip_of_read_error {e : DecodeError} (h : read wireType input = .error e rest) :
    skip wireType input = .error e rest := by
  rw [skip_eq_map_read]
  exact Decoder.map_of_error _ h

end

end ProtoWire
