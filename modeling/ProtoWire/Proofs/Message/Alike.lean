import ProtoWire.Message.Decode
import ProtoWire.Proofs.Alike
import ProtoWire.Proofs.Record.Cuts

/-!
# `ProtoWire.Proofs.Message.Alike`: two messages read side by side

Two runs of `Message.mergeRecords` side by side: on the same bytes, cut
in two ways perhaps, into two messages, and perhaps under two policies
for unknown fields. What has to be checked for such a pair of runs is
little. Reading a known field has to keep the two messages related
(`alike_readKnown`), and so has what the policies do with an unknown
one; then the runs take the same records, and stop at the same error if
they stop (`alike_mergeRecords`, by induction on what remains).

`Counterpart R φ` relates the states of the runs: `R` holds of the
messages, and the reports of the second run are those of the first
under `φ`. `Resumes earlier` does so for two runs into the same
message, of which the second has made reports before; under one policy
such runs go the same way, however the bytes are cut
(`sameWay_of_resumes`).
-/

set_option autoImplicit false

namespace ProtoWire

open Filler (Alike SameWay)

namespace FieldType

/-- What is read replaces the old value, so the old values may differ
in any way that new ones do not. -/
theorem alike_readInto (t : FieldType) {V : t.Value → t.Value → Prop} (hV : ∀ v, V v v) :
    Alike V (fun _ _ => True) t.readInto t.readInto := by
  cases t with
  | scalar s =>
    refine (Alike.reading (Varint.CutFree.readValue .w64)).bind fun n n' hn => ?_
    subst hn
    exact Alike.store (hV _)
  | string =>
    -- The old text is given up on both sides before the new one is judged.
    refine (Alike.reading Payload.cutFree_read).bind fun bytes bytes' hbytes => ?_
    subst hbytes
    refine (Alike.store (hV "")).bind fun _ _ _ => ?_
    cases String.fromUTF8? ⟨bytes.toArray⟩ with
    | some text => exact Alike.store (hV text)
    | none => exact Alike.throw _

/-- From any two values, the same is read behind a key, with the same
error if there is one. -/
theorem alike_readField (t : FieldType) (key : Key) {V : t.Value → t.Value → Prop}
    (hV : ∀ v, V v v) : Alike V (fun _ _ => True) (t.readField key) (t.readField key) := by
  by_cases hlayout : key.wireType = t.wireType
  · rw [readField, if_pos hlayout]
    exact alike_readInto t hV
  · rw [readField, if_neg hlayout]
    exact Alike.throw _

end FieldType

namespace Message

variable {M : Type}

/-- The states of two runs: related messages, and the reports of one
translated into those of the other. -/
structure Counterpart (R : M → M → Prop) (φ : Event → Event) (p q : Progress M) : Prop where
  message : R p.message q.message
  events : q.events = p.events.map φ

/-- Reading into the messages of two runs. -/
theorem alike_intoMessage {α β : Type} {R : M → M → Prop} {φ : Event → Event}
    {Q : α → β → Prop} {f : Filler M α} {g : Filler M β} (h : Alike R Q f g) :
    Alike (Counterpart R φ) Q (intoMessage f) (intoMessage g) :=
  Alike.within h (fun _ _ hpq => hpq.message) fun _ _ _ _ hpq hm => ⟨hm, hpq.events⟩

/-- The second run goes on with the message of the first, and has made
earlier reports. -/
structure Resumes (earlier : List Event) (p q : Progress M) : Prop where
  message : q.message = p.message
  events : q.events = earlier ++ p.events

/-- Reading into a message that two runs have in common. -/
theorem alike_intoMessage_of_resumes {α β : Type} {earlier : List Event} {Q : α → β → Prop}
    {f : Filler M α} {g : Filler M β} (h : Alike Eq Q f g) :
    Alike (Resumes earlier) Q (intoMessage f) (intoMessage g) :=
  Alike.within h (fun _ _ hpq => hpq.message.symm) fun _ _ _ _ hpq hm => ⟨hm.symm, hpq.events⟩

variable [Message M]

/-- A known field is read alike into two messages whose fields are
related, if putting related values into them keeps them related. -/
theorem alike_readKnown {R : M → M → Prop}
    {V : (field : Field M) → field.type.Value → field.type.Value → Prop}
    (hrefl : ∀ field v, V field v v)
    (hget : ∀ field ∈ (fields : List (Field M)), ∀ m m', R m m' →
      V field (field.get m) (field.get m'))
    (hset : ∀ field ∈ (fields : List (Field M)), ∀ m m' v v', R m m' → V field v v' →
      R (field.set v m) (field.set v' m'))
    (key : Key) : Alike R Eq (readKnown key : Filler M Bool) (readKnown key) := by
  unfold readKnown
  cases hfield : field? M key.number with
  | none => exact Alike.pure rfl
  | some field =>
    have hmem := (field?_eq_some hfield).1
    refine (Alike.within (FieldType.alike_readField field.type key (hrefl field))
      (hget field hmem) (hset field hmem)).bind fun _ _ _ => ?_
    exact Alike.pure rfl

/-- Into the same message, a known field is read alike. -/
theorem alike_readKnown_same (key : Key) :
    Alike (Eq : M → M → Prop) Eq (readKnown key : Filler M Bool) (readKnown key) :=
  alike_readKnown (V := fun _ => Eq) (fun _ _ => rfl) (fun _ _ _ _ h => h ▸ rfl)
    (fun _ _ _ _ _ _ h hv => h ▸ hv ▸ rfl) key

/-- An unknown record under one policy, into two messages that stay
related when the same record is added to both. -/
theorem alike_mergeUnknown_same {R : M → M → Prop}
    (hadd : ∀ record m m', R m m' → R (addUnknown record m) (addUnknown record m'))
    (policy : UnknownFieldPolicy) (key : Key) :
    Alike R (fun _ _ => True) (mergeUnknown policy key : Filler M Unit)
      (mergeUnknown policy key) := by
  cases policy with
  | preserve =>
    refine (Alike.reading (Record.cutFree_readValue key)).bind fun record record' h => ?_
    subst h
    exact Alike.update (hadd record)
  | discard =>
    -- Passing over a value leaves the message alone, so nothing can come between the two.
    exact (Alike.reading (WireValue.cutFree_skip key.wireType)).imp fun _ _ _ => trivial

/-- One record in two runs, from its parts. The key is read first and
says the same to both; from there on the field it belongs to decides,
or the policies, behind a report. -/
theorem alike_mergeRecord_of_parts {S : Progress M → Progress M → Prop}
    {policy policy' : UnknownFieldPolicy}
    (hknown : ∀ key, Alike S Eq (intoMessage (readKnown key) : Filler (Progress M) Bool)
      (intoMessage (readKnown key)))
    (hreport : ∀ key, Alike S (fun _ _ => True)
      (report (.unknownField (fullName M) policy key) : Filler (Progress M) Unit)
      (report (.unknownField (fullName M) policy' key)))
    (hunknown : ∀ key, Alike S (fun _ _ => True)
      (intoMessage (mergeUnknown policy key) : Filler (Progress M) Unit)
      (intoMessage (mergeUnknown policy' key))) :
    Alike S (fun _ _ => True) (mergeRecord policy : Filler (Progress M) Unit)
      (mergeRecord policy') := by
  refine (Alike.reading Key.cutFree_read).bind fun key key' hkey => ?_
  subst hkey
  refine (hknown key).bind fun known known' hsame => ?_
  subst hsame
  cases known with
  | true => exact Alike.pure trivial
  | false => exact (hreport key).bind fun _ _ _ => hunknown key

/-- One record in two runs whose reports are translated into each
other. -/
theorem alike_mergeRecord {R : M → M → Prop} {φ : Event → Event}
    {policy policy' : UnknownFieldPolicy}
    (hknown : ∀ key, Alike R Eq (readKnown key : Filler M Bool) (readKnown key))
    (hunknown : ∀ key, Alike R (fun _ _ => True) (mergeUnknown policy key : Filler M Unit)
      (mergeUnknown policy' key))
    (hφ : ∀ key, φ (.unknownField (fullName M) policy key)
      = .unknownField (fullName M) policy' key) :
    Alike (Counterpart R φ) (fun _ _ => True) (mergeRecord policy : Filler (Progress M) Unit)
      (mergeRecord policy') := by
  refine alike_mergeRecord_of_parts (fun key => alike_intoMessage (hknown key)) (fun key => ?_)
    fun key => alike_intoMessage (hunknown key)
  refine Alike.update fun p q hpq => ⟨hpq.message, ?_⟩
  rw [hpq.events, List.map_append, List.map_singleton, hφ]

/-- Two runs whose turns go the same way go the same way. The induction
is on the first run; the second keeps pace, because either both have
bytes left or neither has. -/
theorem alike_mergeRecords {S : Progress M → Progress M → Prop}
    {policy policy' : UnknownFieldPolicy}
    (h : Alike S (fun _ _ => True) (mergeRecord policy : Filler (Progress M) Unit)
      (mergeRecord policy')) :
    Alike S (fun _ _ => True) (mergeRecords policy : Filler (Progress M) Unit)
      (mergeRecords policy') := by
  intro s t hbytes hdest
  fun_induction mergeRecords policy s generalizing t with
  | case1 s hempty =>
    have hnil : t.input.bytes = [] := hbytes ▸ Input.isEmpty_iff.mp hempty
    rw [mergeRecords_of_nil hnil]
    exact .ok trivial hbytes hdest
  | case2 s _ s' hstep ih =>
    -- The first run has taken a record, so the second takes one and has the same bytes left.
    have hturn := h s t hbytes hdest
    rw [hstep] at hturn
    generalize ht : mergeRecord policy' t = r at hturn
    cases hturn with
    | ok _ hbytes' hdest' =>
      rw [mergeRecords_of_ok ht]
      exact ih _ hbytes' hdest'
  | case3 s hempty e s' hstep =>
    -- The first run has failed with bytes left, so the second does not stop here either.
    have hne : t.input.bytes ≠ [] := fun ht => hempty (Input.isEmpty_iff.mpr (hbytes.trans ht))
    have hturn := h s t hbytes hdest
    rw [hstep] at hturn
    generalize ht : mergeRecord policy' t = r at hturn
    cases hturn with
    | error hdest' =>
      rw [mergeRecords_of_error hne ht]
      exact .error hdest'

/-- Two whole reads whose loops go the same way. Both hand over what
they came to, or both fail with the same error and report it. -/
theorem readAll_of_sameWay (purpose purpose' : Purpose) (options options' : DecodeOptions)
    {S : Progress M → Progress M → Prop} {message message' : M} {i j : Input}
    (hi : ¬ options.maxMessageLength < i.remaining)
    (hj : ¬ options'.maxMessageLength < j.remaining)
    (hrun : SameWay S (fun _ _ => True)
      (mergeRecords options.unknownFields ⟨i, { message := message }⟩)
      (mergeRecords options'.unknownFields ⟨j, { message := message' }⟩)) :
    (∃ s t : Intake (Progress M), s.input.bytes = t.input.bytes ∧ S s.dest t.dest ∧
      readAll purpose options message i = ⟨.ok s.dest.message, s.input, s.dest.events⟩ ∧
      readAll purpose' options' message' j = ⟨.ok t.dest.message, t.input, t.dest.events⟩) ∨
    ∃ (e : DecodeError) (s t : Intake (Progress M)), S s.dest t.dest ∧
      readAll purpose options message i
        = ⟨.error e, s.input, s.dest.events ++ [.failure (fullName M) purpose e]⟩ ∧
      readAll purpose' options' message' j
        = ⟨.error e, t.input, t.dest.events ++ [.failure (fullName M) purpose' e]⟩ := by
  generalize hri : mergeRecords options.unknownFields ⟨i, { message := message }⟩ = r at hrun
  generalize hrj : mergeRecords options'.unknownFields ⟨j, { message := message' }⟩ = r' at hrun
  -- Only a pair of results of the same kind is left to look at.
  cases hrun with
  | ok _ hbytes hdest =>
    exact .inl ⟨_, _, hbytes, hdest, readAll_of_ok hi hri, readAll_of_ok hj hrj⟩
  | error hdest =>
    exact .inr ⟨_, _, _, hdest, readAll_of_error hi hri, readAll_of_error hj hrj⟩

/-! ### Into the same message -/

/-- A loop that resumes goes the way of a loop that starts there. -/
theorem sameWay_of_resumes (policy : UnknownFieldPolicy) (earlier : List Event)
    {s t : Intake (Progress M)} (hbytes : s.input.bytes = t.input.bytes)
    (hdest : Resumes earlier s.dest t.dest) :
    SameWay (Resumes earlier) (fun _ _ => True) (mergeRecords policy s)
      (mergeRecords policy t) := by
  refine alike_mergeRecords (alike_mergeRecord_of_parts (fun key => ?_) (fun key => ?_)
    fun key => ?_) s t hbytes hdest
  · exact alike_intoMessage_of_resumes (alike_readKnown_same key)
  · -- Both report the same, and what was reported before stays in front.
    refine Alike.update fun p q hpq => ⟨hpq.message, ?_⟩
    rw [hpq.events, List.append_assoc]
  · exact alike_intoMessage_of_resumes
      (alike_mergeUnknown_same (fun _ _ _ hm => hm ▸ rfl) policy key)

end Message

end ProtoWire
