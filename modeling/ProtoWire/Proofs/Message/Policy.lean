import ProtoWire.Proofs.Message.Absorb
import ProtoWire.Proofs.Message.Alike

/-!
# `ProtoWire.Proofs.Message.Policy`: preserving and discarding

What the policy for unknown records decides is only whether they are
kept. That is not plain from the code: a record that is kept is read,
one that is dropped is skipped, and if the two disagreed on a single
malformed value, or on where a value ends, every record behind it would
be read differently.

The argument runs a message under both policies side by side
(`alike_mergeRecords`). All the time, the one that discards is the one
that preserves with its unknown records put back to those of the start
(`alike_mergeUnknown`, `discard_follows_preserve`); for a value that is
the case because skipping it is reading it and forgetting the result
(`WireValue.skip_eq_map_read`).
-/

set_option autoImplicit false

namespace ProtoWire.Message

open Filler (Alike)

variable {M : Type} [Message M]

/-- The report of a run that discards, for one of a run that
preserves. -/
def discardEvent : Event → Event
  | .unknownField messageType _ key => .unknownField messageType .discard key
  | event => event

/-! ### The two runs -/

section

variable [LawfulMessage M]

/-- An unknown record in both runs. Reading it and skipping it accept
the same bytes, and what is kept is in the list that is put back. -/
theorem alike_mergeUnknown (kept : List Record) (key : Key) :
    Alike (fun p d : M => d = setUnknown kept p) (fun _ _ => True)
      (mergeUnknown .preserve key : Filler M Unit) (mergeUnknown .discard key) := by
  have hread : Alike (fun p d : M => d = setUnknown kept p) (fun _ _ => True)
      (Filler.reading (Record.readValue key) : Filler M Record)
      (Filler.reading (WireValue.skip key.wireType) : Filler M Unit) := by
    rw [WireValue.skip_eq_map_read]
    exact Alike.reading_map (WireValue.cutFree_read key.wireType) fun _ => trivial
  show Alike _ _ (Filler.reading (Record.readValue key) >>= fun record =>
    Filler.update (addUnknown record)) (Filler.reading (WireValue.skip key.wireType))
  -- Where the one run keeps the record, the other does nothing.
  rw [← bind_pure_unit (x := (Filler.reading (WireValue.skip key.wireType) : Filler M Unit))]
  refine hread.bind fun record _ _ => ?_
  intro s t hbytes hdest
  refine .ok trivial hbytes ?_
  show t.dest = setUnknown kept (addUnknown record s.dest)
  rw [hdest, addUnknown, setUnknown_setUnknown]

/-- Known fields are read alike, and setting one commutes with putting
the unknown records back. -/
theorem alike_readKnown_setUnknown (kept : List Record) (key : Key) :
    Alike (fun p d : M => d = setUnknown kept p) Eq (readKnown key : Filler M Bool)
      (readKnown key) := by
  refine alike_readKnown (V := fun _ => Eq) (fun _ _ => rfl) ?_ ?_ key
  · intro field hfield p d hd
    rw [hd, LawfulMessage.get_setUnknown field hfield]
  · intro field hfield p d v v' hd hv
    rw [hd, hv, set_setUnknown hfield]

/-- The two runs end alike. What the one that discards comes to is what
the other comes to with the unknown records put back, and its reports
are those of the other under its own policy. -/
theorem discard_follows_preserve (purpose : Purpose) (limit : Nat) (message : M) (input : Input) :
    (readAll purpose ⟨.discard, limit⟩ message input).result
        = (readAll purpose ⟨.preserve, limit⟩ message input).result.map
            (setUnknown (unknown message)) ∧
      (readAll purpose ⟨.discard, limit⟩ message input).events
        = (readAll purpose ⟨.preserve, limit⟩ message input).events.map discardEvent := by
  by_cases hlong : limit < input.remaining
  · rw [readAll_of_long hlong, readAll_of_long hlong]
    exact ⟨rfl, rfl⟩
  · -- Every turn keeps the two messages equal but for the unknown records, so a run does.
    have hturn := alike_mergeRecord (φ := discardEvent)
      (alike_readKnown_setUnknown (M := M) (unknown message))
      (alike_mergeUnknown (unknown message)) fun _ => rfl
    have hrun := alike_mergeRecords hturn ⟨input, { message := message }⟩
      ⟨input, { message := message }⟩ rfl ⟨(setUnknown_unknown message).symm, rfl⟩
    rcases readAll_of_sameWay purpose purpose ⟨.preserve, limit⟩ ⟨.discard, limit⟩
      hlong hlong hrun with
      ⟨s, t, -, hdest, hp, hd⟩ | ⟨e, s, t, hdest, hp, hd⟩
    · rw [hd, hp, hdest.message]
      exact ⟨rfl, hdest.events⟩
    · rw [hd, hp, List.map_append, ← hdest.events]
      exact ⟨rfl, rfl⟩

/-- Reading under the one policy is reading under the other, and then
putting the unknown records back. -/
theorem discard_eq_map_preserve (purpose : Purpose) (limit : Nat) (message : M) (input : Input) :
    (readAll purpose ⟨.discard, limit⟩ message input).result
      = (readAll purpose ⟨.preserve, limit⟩ message input).result.map
          (setUnknown (unknown message)) :=
  (discard_follows_preserve purpose limit message input).1

end

/-! ### Limits -/

/-- Of two limits that a message keeps, neither shows. -/
theorem readAll_congr_limit (purpose : Purpose) (policy : UnknownFieldPolicy) (message : M)
    (input : Input) {limit limit' : Nat} (h : input.bytes.length ≤ limit)
    (h' : input.bytes.length ≤ limit') :
    readAll purpose ⟨policy, limit⟩ message input
      = readAll purpose ⟨policy, limit'⟩ message input := by
  have hlen := input.remaining_eq_length
  have hshort : ¬ limit < input.remaining := by omega
  have hshort' : ¬ limit' < input.remaining := by omega
  have hrun : mergeFields ⟨policy, limit⟩ (⟨input, { message := message }⟩ : Intake (Progress M))
      = mergeFields ⟨policy, limit'⟩ ⟨input, { message := message }⟩ := by
    rw [mergeFields_of_le hshort, mergeFields_of_le hshort']
  rw [readAll, readAll, reporting, reporting, hrun]

/-! ### What the policy decides -/

/-- Preserving and discarding, on the same input and into the same
message. -/
structure DifferInKept (limit : Nat) (message : M) (input : Input) : Prop where
  /-- Both fail alike, or both succeed and differ in the unknown
  records: the old ones and those that were found, or the old ones. -/
  merge_result :
    (∃ e, (merge ⟨.preserve, limit⟩ message input).result = .error e ∧
      (merge ⟨.discard, limit⟩ message input).result = .error e) ∨
    ∃ preserved discarded records,
      (merge ⟨.preserve, limit⟩ message input).result = .ok preserved ∧
      (merge ⟨.discard, limit⟩ message input).result = .ok discarded ∧
      (∀ field ∈ (fields : List (Field M)), field.get preserved = field.get discarded) ∧
      AreRecords input.bytes records ∧
      unknown preserved = unknown message ++ strangers M records ∧
      unknown discarded = unknown message
  /-- A message that is made under the one policy is the one that is
  made under the other, without its unknown records. -/
  decode_result : (decode ⟨.discard, limit⟩ input : Outcome M).result
    = (decode ⟨.preserve, limit⟩ input : Outcome M).result.map (setUnknown [])
  /-- Limits that the input keeps cannot be told apart. -/
  of_le : ∀ (policy : UnknownFieldPolicy) (limit' : Nat), input.bytes.length ≤ limit →
    input.bytes.length ≤ limit' →
      merge ⟨policy, limit⟩ message input = merge ⟨policy, limit'⟩ message input ∧
      (decode ⟨policy, limit⟩ input : Outcome M) = decode ⟨policy, limit'⟩ input
  /-- Past the limit nothing is read, and the error names the length
  and the limit. -/
  of_lt : ∀ policy : UnknownFieldPolicy, limit < input.bytes.length →
    (merge ⟨policy, limit⟩ message input).result
        = .error (.messageTooLarge input.bytes.length limit) ∧
      (decode ⟨policy, limit⟩ input : Outcome M).result
        = .error (.messageTooLarge input.bytes.length limit)

/-- In any type of message whose table of fields is in order, the
policy decides what is kept, and nothing else. -/
theorem differInKept_of_lawful [LawfulMessage M] (limit : Nat) (message : M) (input : Input) :
    DifferInKept limit message input where
  merge_result := by
    have hboth := discard_eq_map_preserve .merge limit message input
    cases hp : (readAll .merge ⟨.preserve, limit⟩ message input).result with
    | error e =>
      rw [hp] at hboth
      exact .inl ⟨e, hp, hboth⟩
    | ok preserved =>
      rw [hp] at hboth
      -- What the run that preserves has found is known from the grammar.
      obtain ⟨-, records, hrecords, habsorb⟩ := readAll_eq_ok_iff.mp hp
      refine .inr ⟨preserved, _, records, hp, hboth, ?_, hrecords, unknown_of_absorb habsorb, ?_⟩
      · intro field hfield
        rw [LawfulMessage.get_setUnknown field hfield]
      · rw [LawfulMessage.unknown_setUnknown]
  decode_result := by
    have hboth := discard_eq_map_preserve .decode limit (empty : M) input
    rwa [LawfulMessage.unknown_empty] at hboth
  of_le policy limit' h h' :=
    ⟨readAll_congr_limit .merge policy message input h h',
      readAll_congr_limit .decode policy empty input h h'⟩
  of_lt policy h := by
    rw [← input.remaining_eq_length] at h ⊢
    exact ⟨congrArg Outcome.result (readAll_of_long h), congrArg Outcome.result (readAll_of_long h)⟩

/-- **The policy decides what is kept, and nothing else.** On every
input, under every limit and into every query, reading fails under both
policies with the same error or succeeds under both with the same
fields; and so it is for `Scalars`. -/
theorem differInKept :
    (∀ (limit : Nat) (message : Query) (input : Input), DifferInKept limit message input) ∧
    (∀ (limit : Nat) (message : Scalars) (input : Input), DifferInKept limit message input) :=
  ⟨differInKept_of_lawful, differInKept_of_lawful⟩

end ProtoWire.Message
