import ProtoWire.Decoder

/-!
# `ProtoWire.Proofs.Outcome`: what a read comes to, without the cuts

An input is cut into pieces, and a reader sees the cuts through
`Input.chunk`. What comes of a read should not depend on them. The
part of the result that can be free of the cuts is its `outcome`: on
success the value and the bytes that are left, on failure the error.
How much a *failed* read used up is no part of it, because a varint
that runs over a cut is gathered before it is judged.

`CutFree` says that a read has the same outcome on any two inputs with
the same bytes. The theorems:

* `CutFree.cases`: two runs of a cut-free read on the same bytes go
  the same way, which is how a pair of runs is taken apart.
* `CutFree.bind`: sequencing keeps a read free of the cuts, so it is
  checked for the basic reads only.
-/

set_option autoImplicit false

namespace ProtoWire

variable {α β : Type}

namespace Decoder

/-- What a read comes to on the bytes alone: the value and the bytes
that are left, or the error. -/
def outcome (d : Decoder α) (input : Input) : Except DecodeError (α × List UInt8) :=
  match d input with
  | .ok a rest => .ok (a, rest.bytes)
  | .error e _ => .error e

/-- The outcome of a success is its answer with the bytes that are
left. -/
theorem outcome_of_ok {d : Decoder α} {input rest : Input} {a : α} (h : d input = .ok a rest) :
    d.outcome input = .ok (a, rest.bytes) := by
  rw [outcome, h]

/-- The outcome of a failure is its error, wherever that was found. -/
theorem outcome_of_error {d : Decoder α} {input rest : Input} {e : DecodeError}
    (h : d input = .error e rest) : d.outcome input = .error e := by
  rw [outcome, h]

/-- An outcome that is a success comes from a successful read. -/
theorem eq_ok_of_outcome {d : Decoder α} {input : Input} {a : α} {left : List UInt8}
    (h : d.outcome input = .ok (a, left)) : ∃ rest, d input = .ok a rest ∧ rest.bytes = left := by
  cases hrun : d input with
  | ok b rest =>
    rw [outcome_of_ok hrun] at h
    cases h
    exact ⟨rest, rfl, rfl⟩
  | error e rest =>
    rw [outcome_of_error hrun] at h
    cases h

/-- Mapping the value of a read maps the value of its outcome. -/
theorem outcome_map (f : α → β) (d : Decoder α) (input : Input) :
    (f <$> d).outcome input = (d.outcome input).map fun found => (f found.1, found.2) := by
  cases hrun : d input with
  | ok a rest =>
    rw [outcome_of_ok (map_of_ok f hrun), outcome_of_ok hrun]
    rfl
  | error e rest =>
    rw [outcome_of_error (map_of_error f hrun), outcome_of_error hrun]
    rfl

/-- A verdict on what was read before. Nothing more is read for it. -/
def ofExcept (verdict : Except DecodeError α) : Decoder α := fun input =>
  match verdict with
  | .ok a => .ok a input
  | .error e => .error e input

/-- The outcome depends on the bytes, and not on how they are cut. -/
def CutFree (d : Decoder α) : Prop :=
  ∀ i j : Input, i.bytes = j.bytes → d.outcome i = d.outcome j

namespace CutFree

/-- Two runs on the same bytes go the same way. -/
theorem cases {d : Decoder α} (hd : CutFree d) {i j : Input} (h : i.bytes = j.bytes) :
    (∃ a ri rj, d i = .ok a ri ∧ d j = .ok a rj ∧ ri.bytes = rj.bytes) ∨
      (∃ e ri rj, d i = .error e ri ∧ d j = .error e rj) := by
  have hout := hd i j h
  -- The first run decides; an outcome of the other kind is not equal to its own.
  cases hi : d i with
  | ok a ri =>
    rw [outcome_of_ok hi] at hout
    obtain ⟨rj, hj, hbytes⟩ := eq_ok_of_outcome hout.symm
    exact .inl ⟨a, ri, rj, rfl, hj, hbytes.symm⟩
  | error e ri =>
    rw [outcome_of_error hi] at hout
    cases hj : d j with
    | ok b rj =>
      rw [outcome_of_ok hj] at hout
      cases hout
    | error e' rj =>
      rw [outcome_of_error hj] at hout
      cases hout
      exact .inr ⟨e, ri, rj, rfl, rfl⟩

/-- An answer that is known does not depend on the cuts. -/
theorem pure (a : α) : CutFree (Pure.pure a : Decoder α) := by
  intro i j h
  show Except.ok (a, i.bytes) = Except.ok (a, j.bytes)
  rw [h]

/-- An error that is known does not depend on the cuts. -/
theorem throw (e : DecodeError) : CutFree (MonadExcept.throw e : Decoder α) := by
  intro i j h
  rfl

/-- The second read starts on the same bytes, because the first one
left the same. -/
theorem bind {d : Decoder α} {f : α → Decoder β} (hd : CutFree d) (hf : ∀ a, CutFree (f a)) :
    CutFree (d >>= f) := by
  intro i j h
  rcases hd.cases h with ⟨a, ri, rj, hi, hj, hrest⟩ | ⟨e, ri, rj, hi, hj⟩
  · -- What the first read left differs in its cuts at most.
    have hnext := hf a ri rj hrest
    unfold outcome at hnext ⊢
    rw [bind_of_ok hi, bind_of_ok hj]
    exact hnext
  · rw [outcome_of_error (bind_of_error hi), outcome_of_error (bind_of_error hj)]

/-- What is made of an answer depends on the cuts no more than the
answer. -/
theorem map {d : Decoder α} (f : α → β) (hd : CutFree d) : CutFree (f <$> d) :=
  bind hd fun a => CutFree.pure (f a)

/-- A verdict that has been reached before does not depend on the
cuts. -/
theorem ofExcept (verdict : Except DecodeError α) : CutFree (ofExcept verdict) := by
  cases verdict with
  | ok a => exact CutFree.pure a
  | error e => exact CutFree.throw e

/-- Bytes are taken over any cuts, and all of them have to be there. -/
theorem takeBytes (n : Nat) : CutFree (takeBytes n) := by
  intro i j h
  unfold outcome Decoder.takeBytes
  rw [Input.remaining_congr h]
  by_cases hshort : j.remaining < n
  · simp only [hshort, if_true]
  · simp only [hshort, if_false, Input.bytes_advance, h]

end CutFree

end Decoder

end ProtoWire
