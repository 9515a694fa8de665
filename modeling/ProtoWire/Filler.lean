import ProtoWire.Decoder

/-!
# `ProtoWire.Filler`: reads into a destination

A message is read into a value that is there already: each record
changes one part of it, and a read that fails may have changed a part
before it gave up. A `Filler` is a read whose state is an input
together with the destination, so both are known whichever way it
ends.

* `dest_final_within`: reading into a part changes the whole through
  that part, also if the read fails.
* `Filler.Forward`: such a read only drops bytes from the front of the
  input; sequencing (`Forward.bind`), reading (`Forward.reading`) and
  working on a part of the destination (`Forward.within`) keep that.
-/

set_option autoImplicit false

namespace ProtoWire

/-- An input and the destination it is read into. -/
structure Intake (D : Type) where
  input : Input
  dest : D

/-- A read into a destination of type `D`. Both outcomes carry the
input that is left and the destination as it is then. -/
abbrev Filler (D : Type) : Type → Type :=
  EStateM DecodeError (Intake D)

namespace Filler

variable {D M α β : Type}

/-- The state a read ends in, whichever way it ends. -/
def final (f : Filler D α) (s : Intake D) : Intake D :=
  match f s with
  | .ok _ s' => s'
  | .error _ s' => s'

/-- Reads a value and leaves the destination alone. -/
def reading (d : Decoder α) : Filler D α := fun s =>
  match d s.input with
  | .ok a rest => .ok a ⟨rest, s.dest⟩
  | .error e rest => .error e ⟨rest, s.dest⟩

/-- Changes the destination. -/
def update (change : D → D) : Filler D Unit := fun s =>
  .ok () ⟨s.input, change s.dest⟩

/-- Puts a value in place of the destination. -/
def store (value : D) : Filler D Unit :=
  update fun _ => value

/-- Reads into a part of the destination. The part is put back
whichever way the read ends. -/
def within (part : M → D) (putBack : D → M → M) (f : Filler D α) : Filler M α := fun s =>
  match f ⟨s.input, part s.dest⟩ with
  | .ok a s' => .ok a ⟨s'.input, putBack s'.dest s.dest⟩
  | .error e s' => .error e ⟨s'.input, putBack s'.dest s.dest⟩

/-! ### Step by step -/

/-- The second read goes on with the input and the destination that the
first has left. -/
theorem bind_of_ok {f : Filler D α} {g : α → Filler D β} {s s' : Intake D} {a : α}
    (h : f s = .ok a s') : (f >>= g) s = g a s' := by
  simp only [bind, EStateM.bind, h]

/-- Behind an error neither is touched any more. -/
theorem bind_of_error {f : Filler D α} {g : α → Filler D β} {s s' : Intake D} {e : DecodeError}
    (h : f s = .error e s') : (f >>= g) s = .error e s' := by
  simp only [bind, EStateM.bind, h]

/-- A value that is only read is not yet in the destination. -/
theorem reading_of_ok {d : Decoder α} {s : Intake D} {rest : Input} {a : α}
    (h : d s.input = .ok a rest) : (reading d : Filler D α) s = .ok a ⟨rest, s.dest⟩ := by
  rw [reading, h]

/-- Where no value could be read, the destination is as it was. -/
theorem reading_of_error {d : Decoder α} {s : Intake D} {rest : Input} {e : DecodeError}
    (h : d s.input = .error e rest) : (reading d : Filler D α) s = .error e ⟨rest, s.dest⟩ := by
  rw [reading, h]

/-- The part that was read is put back into the whole. -/
theorem within_of_ok {part : M → D} {putBack : D → M → M} {f : Filler D α} {s : Intake M}
    {s' : Intake D} {a : α} (h : f ⟨s.input, part s.dest⟩ = .ok a s') :
    within part putBack f s = .ok a ⟨s'.input, putBack s'.dest s.dest⟩ := by
  rw [within, h]

/-- What a failed read has left of the part is put back into the whole
as well. -/
theorem within_of_error {part : M → D} {putBack : D → M → M} {f : Filler D α} {s : Intake M}
    {s' : Intake D} {e : DecodeError} (h : f ⟨s.input, part s.dest⟩ = .error e s') :
    within part putBack f s = .error e ⟨s'.input, putBack s'.dest s.dest⟩ := by
  rw [within, h]

/-- Where a read succeeds, its final state is that of the success. -/
theorem final_of_ok {f : Filler D α} {s s' : Intake D} {a : α} (h : f s = .ok a s') :
    f.final s = s' := by
  rw [final, h]

/-- Where a read fails, its final state is that of the error. -/
theorem final_of_error {f : Filler D α} {s s' : Intake D} {e : DecodeError}
    (h : f s = .error e s') : f.final s = s' := by
  rw [final, h]

/-! ### What becomes of the destination -/

/-- Where a read into a part ends, the part is put back. -/
theorem dest_final_within {part : M → D} {putBack : D → M → M} (f : Filler D α) (s : Intake M) :
    ((within part putBack f).final s).dest
      = putBack (f.final ⟨s.input, part s.dest⟩).dest s.dest := by
  cases hrun : f ⟨s.input, part s.dest⟩ with
  | ok a s' => rw [final_of_ok (within_of_ok hrun), final_of_ok hrun]
  | error e s' => rw [final_of_error (within_of_error hrun), final_of_error hrun]

/-- Answering something else does not change where a read ends. -/
theorem final_bind_pure (f : Filler D α) (b : β) (s : Intake D) :
    (f >>= fun _ => pure b : Filler D β).final s = f.final s := by
  cases hrun : f s with
  | ok a s' =>
    rw [final_of_ok hrun, final, bind_of_ok hrun]
    rfl
  | error e s' => rw [final_of_error hrun, final_of_error (bind_of_error hrun)]

/-! ### Fillers only move forward -/

/-- What is left of the input is the end of what was there. -/
def Forward (f : Filler D α) : Prop :=
  ∀ s, (f.final s).input.bytes <:+ s.input.bytes

namespace Forward

/-- An answer that is known takes nothing. -/
theorem pure (a : α) : Forward (Pure.pure a : Filler D α) := fun _ =>
  List.suffix_refl _

/-- An error that is known takes nothing. -/
theorem throw (e : DecodeError) : Forward (MonadExcept.throw e : Filler D α) := fun _ =>
  List.suffix_refl _

/-- Changing the destination does not move the input. -/
theorem update (change : D → D) : Forward (update change) := fun _ =>
  List.suffix_refl _

/-- Storing a value does not move the input. -/
theorem store (value : D) : Forward (store value) :=
  update _

/-- Two reads that move forward do so one after the other. -/
theorem bind {f : Filler D α} {g : α → Filler D β} (hf : Forward f)
    (hg : ∀ a, Forward (g a)) : Forward (f >>= g) := by
  intro s
  have h := hf s
  cases hstep : f s with
  | ok a s' =>
    rw [final_of_ok hstep] at h
    rw [final, bind_of_ok hstep]
    exact (hg a s').trans h
  | error e s' =>
    rw [final_of_error hstep] at h
    rw [final_of_error (bind_of_error hstep)]
    exact h

/-- Reading a value moves the input as the read of the value does. -/
theorem reading {d : Decoder α} (hd : Decoder.Forward d) :
    Forward (reading d : Filler D α) := by
  intro s
  have h := hd s.input
  cases hrun : d s.input with
  | ok a rest =>
    rw [Decoder.rest_of_ok hrun] at h
    rwa [final_of_ok (reading_of_ok hrun)]
  | error e rest =>
    rw [Decoder.rest_of_error hrun] at h
    rwa [final_of_error (reading_of_error hrun)]

/-- Working on a part of the destination moves the input as the work on
the part does. -/
theorem within {part : M → D} {putBack : D → M → M} {f : Filler D α} (hf : Forward f) :
    Forward (within part putBack f) := by
  intro s
  have h := hf ⟨s.input, part s.dest⟩
  cases hrun : f ⟨s.input, part s.dest⟩ with
  | ok a s' =>
    rw [final_of_ok hrun] at h
    rwa [final_of_ok (within_of_ok hrun)]
  | error e s' =>
    rw [final_of_error hrun] at h
    rwa [final_of_error (within_of_error hrun)]

/-- A forward read never makes the input longer. -/
theorem remaining_le {f : Filler D α} (hf : Forward f) (s : Intake D) :
    (f.final s).input.remaining ≤ s.input.remaining := by
  rw [Input.remaining_eq_length, Input.remaining_eq_length]
  exact (hf s).length_le

end Forward

end Filler

end ProtoWire
