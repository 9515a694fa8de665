import ProtoWire.Event
import ProtoWire.Message

/-!
# `ProtoWire.Message.Merge`: reading records into a message

The records of the input are taken one after the other. A record with
a known field replaces the value of that field; any other is reported,
and then kept or passed over as the options say. The first record that
cannot be read ends the whole with its error. The statements:

* `remaining_lt_of_mergeRecord`: each record that is taken uses up
  input, so the loop comes to an end.
* `forward_mergeRecord`: a record only moves forward.
* `mergeRecords_of_nil`, `mergeRecords_of_ok`, `mergeRecords_of_error`:
  the three ways a turn of the loop can go.
-/

set_option autoImplicit false

namespace ProtoWire.Message

variable {M : Type}

/-- A message that is being read, and the reports so far. -/
structure Progress (M : Type) where
  message : M
  events : List Event := []

/-- Reports an event. -/
def report (event : Event) : Filler (Progress M) Unit :=
  Filler.update fun progress => { progress with events := progress.events ++ [event] }

/-- Reads into the message. -/
def intoMessage {α : Type} (f : Filler M α) : Filler (Progress M) α :=
  f.within Progress.message fun message progress => { progress with message := message }

/-- Reading into the message moves the input as the read does. -/
theorem forward_intoMessage {α : Type} {f : Filler M α} (hf : f.Forward) :
    (intoMessage f).Forward :=
  Filler.Forward.within hf

variable [Message M]

/-- Deals with the value behind a key that no field has. -/
def mergeUnknown (policy : UnknownFieldPolicy) (key : Key) : Filler M Unit :=
  match policy with
  | .preserve => do
    let record ← Filler.reading (Record.readValue key)
    Filler.update (addUnknown record)
  | .discard => Filler.reading (WireValue.skip key.wireType)

/-- Takes one record. -/
def mergeRecord (policy : UnknownFieldPolicy) : Filler (Progress M) Unit := do
  let key ← Filler.reading Key.read
  if ← intoMessage (readKnown key) then
    pure ()
  else
    report (.unknownField (fullName M) policy key)
    intoMessage (mergeUnknown policy key)

/-! ### Taking a record uses up input -/

/-- A value that no field has is kept or passed over, and either way
bytes are only dropped from the front. -/
theorem forward_mergeUnknown (policy : UnknownFieldPolicy) (key : Key) :
    (mergeUnknown policy key : Filler M Unit).Forward := by
  cases policy with
  | preserve =>
    exact (Filler.Forward.reading (Record.forward_readValue key)).bind
      fun _ => Filler.Forward.update _
  | discard => exact Filler.Forward.reading (WireValue.forward_skip key.wireType)

/-- What follows the key of a record. -/
theorem forward_mergeValue (policy : UnknownFieldPolicy) (key : Key) :
    (do
      if ← intoMessage (readKnown key) then
        pure ()
      else
        report (.unknownField (fullName M) policy key)
        intoMessage (mergeUnknown policy key) : Filler (Progress M) Unit).Forward := by
  refine (forward_intoMessage (forward_readKnown key)).bind fun known => ?_
  split
  · exact Filler.Forward.pure ()
  · exact (Filler.Forward.update _).bind fun _ =>
      forward_intoMessage (forward_mergeUnknown policy key)

/-- Taking a record only drops bytes from the front, also where it
fails. -/
theorem forward_mergeRecord (policy : UnknownFieldPolicy) :
    (mergeRecord policy : Filler (Progress M) Unit).Forward :=
  (Filler.Forward.reading Key.forward_read).bind fun key => forward_mergeValue policy key

/-- A record starts with a key, and a key has a byte. -/
theorem remaining_lt_of_mergeRecord {policy : UnknownFieldPolicy} {s s' : Intake (Progress M)}
    (h : mergeRecord policy s = .ok () s') : s'.input.remaining < s.input.remaining := by
  unfold mergeRecord at h
  cases hkey : Key.read s.input with
  | error e rest =>
    -- Without a key no record is taken, against the assumption.
    rw [Filler.bind_of_error (Filler.reading_of_error hkey)] at h
    cases h
  | ok key rest =>
    -- What follows the key can only use up more.
    rw [Filler.bind_of_ok (Filler.reading_of_ok hkey)] at h
    have hle := (forward_mergeValue policy key).remaining_le ⟨rest, s.dest⟩
    rw [Filler.final_of_ok h] at hle
    exact Nat.lt_of_le_of_lt hle (Key.remaining_lt_of_read hkey)

/-- Takes records until nothing is left. -/
def mergeRecords (policy : UnknownFieldPolicy) (s : Intake (Progress M)) :
    EStateM.Result DecodeError (Intake (Progress M)) Unit :=
  if s.input.isEmpty then .ok () s
  else
    match _ : mergeRecord policy s with
    | .ok () s' => mergeRecords policy s'
    | .error e s' => .error e s'
termination_by s.input.remaining
decreasing_by exact remaining_lt_of_mergeRecord ‹_›

/-! ### The loop, turn by turn -/

/-- The loop ends where nothing is left. -/
theorem mergeRecords_of_nil {policy : UnknownFieldPolicy} {s : Intake (Progress M)}
    (h : s.input.bytes = []) : mergeRecords policy s = .ok () s := by
  rw [mergeRecords, if_pos (Input.isEmpty_iff.mpr h)]

/-- The loop goes on from where a record was taken. -/
theorem mergeRecords_of_ok {policy : UnknownFieldPolicy} {s s' : Intake (Progress M)}
    (h : mergeRecord policy s = .ok () s') : mergeRecords policy s = mergeRecords policy s' := by
  have hempty := Input.not_isEmpty_of_remaining_lt (remaining_lt_of_mergeRecord h)
  rw [mergeRecords, if_neg hempty]
  split
  · rename_i heq
    rw [h] at heq
    cases heq
    rfl
  · rename_i heq
    rw [h] at heq
    cases heq

/-- The first record that cannot be read ends the loop. -/
theorem mergeRecords_of_error {policy : UnknownFieldPolicy} {s s' : Intake (Progress M)}
    {e : DecodeError} (hne : s.input.bytes ≠ []) (h : mergeRecord policy s = .error e s') :
    mergeRecords policy s = .error e s' := by
  rw [mergeRecords, if_neg fun he => hne (Input.isEmpty_iff.mp he)]
  split
  · rename_i heq
    rw [h] at heq
    cases heq
  · rename_i heq
    rw [h] at heq
    cases heq
    rfl

end ProtoWire.Message
