import ProtoWire.Error
import ProtoWire.Input

/-!
# `ProtoWire.Decoder`: reads that move forward

A `Decoder` reads a value from an input. Whether it succeeds or fails,
it also says what is left to read: a failed read may have used up a
part of the input, and how much is something its caller can see.

* `Decoder.Forward`: a read only ever drops bytes from the front. It is
  kept by sequencing (`Forward.bind`), so it has to be checked for the
  basic reads only.
* `Decoder.bytes_of_takeBytes`: a successful `takeBytes n` hands over
  exactly the next `n` bytes and leaves the others.
-/

set_option autoImplicit false

namespace ProtoWire

/-- A read. Both outcomes carry the input that is left. -/
abbrev Decoder : Type → Type :=
  EStateM DecodeError Input

namespace Decoder

variable {α β : Type}

/-- What is left unread, whichever way the read ends. -/
def rest (d : Decoder α) (input : Input) : Input :=
  match d input with
  | .ok _ rest => rest
  | .error _ rest => rest

/-- Hands over the next `n` bytes. Where fewer are left, none is
used up. -/
def takeBytes (n : Nat) : Decoder (List UInt8) := fun input =>
  if input.remaining < n then .error .unexpectedEnd input
  else .ok (input.bytes.take n) (input.advance n)

/-- Passes over the next `n` bytes. Where fewer are left, none is
used up. -/
def skipBytes (n : Nat) : Decoder Unit := fun input =>
  if input.remaining < n then .error .unexpectedEnd input
  else .ok () (input.advance n)

/-- The bytes that are taken are the next `n`, and what is left follows
them. -/
theorem bytes_of_takeBytes {n : Nat} {input rest : Input} {bs : List UInt8}
    (h : takeBytes n input = .ok bs rest) :
    bs.length = n ∧ bs ++ rest.bytes = input.bytes := by
  unfold takeBytes at h
  split at h
  · cases h
  · rename_i henough
    rw [Input.remaining_eq_length, Nat.not_lt] at henough
    cases h
    exact ⟨List.length_take_of_le henough, by simp⟩

/-- A read that succeeds ends where its result says. -/
theorem rest_of_ok {d : Decoder α} {input left : Input} {a : α} (h : d input = .ok a left) :
    d.rest input = left := by
  rw [rest, h]

/-- A read that fails ends where its error was found. -/
theorem rest_of_error {d : Decoder α} {input left : Input} {e : DecodeError}
    (h : d input = .error e left) : d.rest input = left := by
  rw [rest, h]

/-! ### Sequencing -/

/-- The second read begins where the first one has ended. -/
theorem bind_of_ok {d : Decoder α} {f : α → Decoder β} {input left : Input} {a : α}
    (h : d input = .ok a left) : (d >>= f) input = f a left := by
  simp only [bind, EStateM.bind, h]

/-- Behind an error nothing is read any more. -/
theorem bind_of_error {d : Decoder α} {f : α → Decoder β} {input left : Input} {e : DecodeError}
    (h : d input = .error e left) : (d >>= f) input = .error e left := by
  simp only [bind, EStateM.bind, h]

/-- Mapping a read changes its answer, and what is left is the same. -/
theorem map_of_ok {d : Decoder α} {input left : Input} {a : α} (f : α → β)
    (h : d input = .ok a left) : (f <$> d) input = .ok (f a) left :=
  bind_of_ok h

/-- Mapping a read does not change its error. -/
theorem map_of_error {d : Decoder α} {input left : Input} {e : DecodeError} (f : α → β)
    (h : d input = .error e left) : (f <$> d) input = .error e left :=
  bind_of_error h

/-- A mapped read succeeds only through the read it maps. -/
theorem eq_of_map_ok {d : Decoder α} {f : α → β} {input left : Input} {b : β}
    (h : (f <$> d) input = .ok b left) : ∃ a rest, d input = .ok a rest ∧ f a = b := by
  cases hrun : d input with
  | ok a rest =>
    rw [map_of_ok f hrun] at h
    cases h
    exact ⟨a, _, rfl, rfl⟩
  | error e rest =>
    rw [map_of_error f hrun] at h
    cases h

/-- Two reads end where the second one does. -/
theorem rest_bind_of_ok {d : Decoder α} {f : α → Decoder β} {input left : Input} {a : α}
    (h : d input = .ok a left) : (d >>= f).rest input = (f a).rest left := by
  rw [rest, bind_of_ok h, rest]

/-- Two reads end where the first one does if it fails. -/
theorem rest_bind_of_error {d : Decoder α} {f : α → Decoder β} {input left : Input}
    {e : DecodeError} (h : d input = .error e left) : (d >>= f).rest input = left :=
  rest_of_error (bind_of_error h)

/-! ### Reads only move forward -/

/-- What a read leaves is the end of what it was given. -/
def Forward (d : Decoder α) : Prop :=
  ∀ input, (d.rest input).bytes <:+ input.bytes

namespace Forward

/-- An answer that is known takes nothing. -/
theorem pure (a : α) : Forward (Pure.pure a : Decoder α) := fun _ =>
  List.suffix_refl _

/-- An error that is known takes nothing. -/
theorem throw (e : DecodeError) : Forward (MonadExcept.throw e : Decoder α) := fun _ =>
  List.suffix_refl _

/-- One forward read after another is a forward read: a suffix of a
suffix is a suffix. -/
theorem bind {d : Decoder α} {f : α → Decoder β} (hd : Forward d)
    (hf : ∀ a, Forward (f a)) : Forward (d >>= f) := by
  intro input
  have h := hd input
  cases hstep : d input with
  | ok a rest =>
    -- The second read starts where the first one stopped.
    rw [rest_of_ok hstep] at h
    rw [rest_bind_of_ok hstep]
    exact (hf a rest).trans h
  | error e rest =>
    -- The second read does not take place.
    rw [rest_of_error hstep] at h
    rw [rest_bind_of_error hstep]
    exact h

/-- What is made of the answer does not move the input. -/
theorem map {d : Decoder α} (f : α → β) (hd : Forward d) : Forward (f <$> d) :=
  bind hd fun a => Forward.pure (f a)

/-- Taking bytes drops them from the front, or nothing if they are not
there. -/
theorem takeBytes (n : Nat) : Forward (takeBytes n) := by
  intro input
  unfold rest Decoder.takeBytes
  by_cases h : input.remaining < n
  · simp [h]
  · simp only [h, if_false]
    exact input.suffix_advance n

/-- Passing over bytes drops them from the front, or nothing if they are
not there. -/
theorem skipBytes (n : Nat) : Forward (skipBytes n) := by
  intro input
  unfold rest Decoder.skipBytes
  by_cases h : input.remaining < n
  · simp [h]
  · simp only [h, if_false]
    exact input.suffix_advance n

/-- A forward read never makes the input longer. -/
theorem remaining_le {d : Decoder α} (hd : Forward d) (input : Input) :
    (d.rest input).remaining ≤ input.remaining := by
  rw [Input.remaining_eq_length, Input.remaining_eq_length]
  exact (hd input).length_le

end Forward

end Decoder

end ProtoWire
