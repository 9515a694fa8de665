import Mathlib.Data.List.Forall2
import ProtoWire.Proofs.Message.Frame
import ProtoWire.Proofs.Message.Policy

/-!
# `ProtoWire.Proofs.Message.Log`: what the reports tell

A read reports on the way: a trace for every record without a field,
and one last event if it fails. This module says what a reader of the
reports can learn from them.

The trace of a record is made when its key is known, and before its
value is looked at. So the reports are not those of the records that
could be read, there may be one more. After a failure the traces are
those of the records in front of the fault, and behind them one for the
record at the fault, exactly if its key can be read and belongs to no
field (`CutShort`). Which of the three it is, a bad key, a bad value of
a field or a bad value of another record, is decided where the loop
fails (`events_of_mergeRecord_error`); what was reported in the turns
before is known from the records they took
(`events_of_mergeRecords_error`).

`Tells` collects what is learned, and `events_show_keys_and_error` says
it of every read of a query or of `Scalars`, and that the two policies
for unknown records report the same in other words
(`Event.SameButText`).
-/

set_option autoImplicit false

namespace ProtoWire

/-! ### What an event shows -/

namespace Event

/-- The key that a trace is about. -/
def key? : Event → Option Key
  | unknownField _ _ key => some key
  | failure .. => none

/-- The error that an event shows, in words. -/
def errorText? : Event → Option String
  | unknownField .. => none
  | failure _ _ error => some error.message

/-- The events that show a key are the traces. -/
theorem isSome_key?_iff {event : Event} : event.key?.isSome ↔ event.level = .trace := by
  cases event <;> simp [key?, level]

/-- Two events that differ in the text of a trace, if in anything. -/
structure SameButText (a b : Event) : Prop where
  level : b.level = a.level
  messageType : b.messageType = a.messageType
  key? : b.key? = a.key?
  errorText? : b.errorText? = a.errorText?
  text : a.level = .debug → b.text = a.text

end Event

/-- The key that stands in front of a record. -/
def Record.key (record : Record) : Key :=
  ⟨record.value.wireType, record.number⟩

namespace Message

variable {M : Type}

/-- Only the text tells the report of a run that discards from that of
one that preserves. -/
theorem sameButText_discardEvent (event : Event) : event.SameButText (discardEvent event) := by
  cases event with
  | unknownField messageType policy key => exact ⟨rfl, rfl, rfl, rfl, fun h => nomatch h⟩
  | failure messageType purpose e => exact ⟨rfl, rfl, rfl, rfl, fun _ => rfl⟩

variable [Message M]

/-! ### Traces -/

/-- The traces of some keys that no field has. -/
def traces (M : Type) [Message M] (policy : UnknownFieldPolicy) (keys : List Key) : List Event :=
  keys.map (.unknownField (fullName M) policy)

/-- Traces are made key by key. -/
theorem traces_append (policy : UnknownFieldPolicy) (keys more : List Key) :
    traces M policy (keys ++ more) = traces M policy keys ++ traces M policy more :=
  List.map_append

/-- The traces show the keys. -/
theorem filterMap_key?_traces (policy : UnknownFieldPolicy) (keys : List Key) :
    (traces M policy keys).filterMap Event.key? = keys := by
  rw [traces, List.filterMap_map]
  exact List.filterMap_some

/-- A trace is not urgent. -/
theorem level_of_mem_traces {policy : UnknownFieldPolicy} {keys : List Key} {event : Event}
    (h : event ∈ traces M policy keys) : event.level = .trace := by
  obtain ⟨key, -, rfl⟩ := List.mem_map.mp h
  rfl

/-- A trace names the type of message. -/
theorem messageType_of_mem_traces {policy : UnknownFieldPolicy} {keys : List Key} {event : Event}
    (h : event ∈ traces M policy keys) : event.messageType = fullName M := by
  obtain ⟨key, -, rfl⟩ := List.mem_map.mp h
  rfl

/-- Records are reported if no field takes them. -/
theorem filterMap_report? (policy : UnknownFieldPolicy) (records : List Record) :
    records.filterMap (report? M policy)
      = traces M policy ((strangers M records).map Record.key) := by
  induction records with
  | nil => rfl
  | cons record records ih =>
    rw [filterMap_report?_cons, ih]
    cases hfield : field? M record.number with
    -- The record has a field, so it is neither reported nor a stranger.
    | some field =>
      have hskip : strangers M (record :: records) = strangers M records :=
        List.filter_cons_of_neg (by simp [hfield])
      rw [report?_of_field hfield, hskip]
      rfl
    | none =>
      have hkeep : strangers M (record :: records) = record :: strangers M records :=
        List.filter_cons_of_pos (by simp [hfield])
      rw [report?_of_no_field hfield, hkeep]
      rfl

/-! ### The report of a turn that fails -/

/-- Bytes that begin with a key that no field has. -/
def OpensStranger (M : Type) [Message M] (bytes : List UInt8) (key : Key) : Prop :=
  ∃ head rest, bytes = head ++ rest ∧ IsKey head key ∧ field? M key.number = none

/-- Bytes begin with the key that is read from them, and no other. -/
theorem opensStranger_iff_of_ok {input rest : Input} {key other : Key}
    (h : Key.read input = .ok key rest) :
    OpensStranger M input.bytes other ↔ key = other ∧ field? M key.number = none := by
  obtain ⟨head, hbytes, hhead⟩ := Key.reads_read.sound h
  constructor
  · rintro ⟨head', rest', hbytes', hhead', hfield⟩
    obtain ⟨rfl, -⟩ := Key.reads_read.unique hhead hhead' (hbytes.symm.trans hbytes')
    exact ⟨rfl, hfield⟩
  · rintro ⟨rfl, hfield⟩
    exact ⟨head, rest.bytes, hbytes, hhead, hfield⟩

/-- Where no key can be read, bytes begin with none. -/
theorem not_opensStranger_of_error {input rest : Input} {e : DecodeError}
    (h : Key.read input = .error e rest) (key : Key) : ¬ OpensStranger M input.bytes key := by
  rintro ⟨head, behind, hbytes, hhead, -⟩
  obtain ⟨_, hok, -⟩ := Key.reads_read.complete hbytes hhead
  rw [h] at hok
  cases hok

omit [Message M] in
/-- Reading into the message makes no reports, whichever way it ends. -/
theorem events_final_intoMessage {α : Type} (f : Filler M α) (s : Intake (Progress M)) :
    ((intoMessage f).final s).dest.events = s.dest.events := by
  rw [intoMessage, Filler.dest_final_within]

omit [Message M] in
/-- A report is there whatever becomes of the read behind it. -/
theorem events_final_report_intoMessage {α : Type} (event : Event) (f : Filler M α)
    (s : Intake (Progress M)) :
    ((report event >>= fun _ => intoMessage f).final s).dest.events = s.dest.events ++ [event] :=
  events_final_intoMessage f ⟨s.input, { s.dest with events := s.dest.events ++ [event] }⟩

/-- Where there is no field, nothing is read for one. -/
theorem intoMessage_readKnown_of_no_field {key : Key} (h : field? M key.number = none)
    (s : Intake (Progress M)) : intoMessage (readKnown key) s = .ok false s := by
  simp only [intoMessage, Filler.within, readKnown, h]
  rfl

/-- Where there is a field, a success means that it was found. -/
theorem eq_true_of_intoMessage_readKnown {key : Key} {field : Field M}
    (h : field? M key.number = some field) {s s' : Intake (Progress M)} {known : Bool}
    (hrun : intoMessage (readKnown key) s = .ok known s') : known = true := by
  obtain ⟨_, -, _, hknown, -⟩ := (Filler.Reads.within (reads_readKnown key)).sound hrun
  rw [h] at hknown
  exact hknown.1

/-- The error of a turn is reported by no trace, except if the key could
be read and belongs to no field: then the trace was made already. -/
theorem events_of_mergeRecord_error {policy : UnknownFieldPolicy} {s s' : Intake (Progress M)}
    {e : DecodeError} (h : mergeRecord policy s = .error e s') :
    ∃ last : Option Key, (∀ key, last = some key ↔ OpensStranger M s.input.bytes key) ∧
      s'.dest.events = s.dest.events ++ traces M policy last.toList := by
  unfold mergeRecord at h
  cases hkey : Key.read s.input with
  | error e₁ rest =>
    rw [Filler.bind_of_error (Filler.reading_of_error hkey)] at h
    cases h
    refine ⟨none, fun key => ?_, (List.append_nil _).symm⟩
    exact iff_of_false (nomatch ·) (not_opensStranger_of_error hkey key)
  | ok key rest =>
    rw [Filler.bind_of_ok (Filler.reading_of_ok hkey)] at h
    cases hfield : field? M key.number with
    | some field =>
      refine ⟨none, fun other => ?_, ?_⟩
      · rw [opensStranger_iff_of_ok hkey, hfield]
        exact iff_of_false (nomatch ·) fun hother => nomatch hother.2
      · have hevents := events_final_intoMessage (readKnown key : Filler M Bool) ⟨rest, s.dest⟩
        cases hknown : (intoMessage (readKnown key) : Filler (Progress M) Bool) ⟨rest, s.dest⟩ with
        | error e₂ s₂ =>
          rw [Filler.bind_of_error hknown] at h
          cases h
          rw [Filler.final_of_error hknown] at hevents
          exact hevents.trans (List.append_nil _).symm
        | ok known s₂ =>
          -- The field was found, and there is nothing left to fail.
          obtain rfl := eq_true_of_intoMessage_readKnown hfield hknown
          rw [Filler.bind_of_ok hknown] at h
          cases h
    | none =>
      refine ⟨some key, fun other => ?_, ?_⟩
      · rw [opensStranger_iff_of_ok hkey, Option.some.injEq, and_iff_left hfield]
      · rw [Filler.bind_of_ok (intoMessage_readKnown_of_no_field hfield ⟨rest, s.dest⟩),
          if_neg Bool.false_ne_true] at h
        -- The trace is made, and the error is that of the value behind the key.
        have hevents := events_final_report_intoMessage (.unknownField (fullName M) policy key)
          (mergeUnknown policy key : Filler M Unit) ⟨rest, s.dest⟩
        rwa [Filler.final_of_error h] at hevents

/-! ### The reports of a read -/

/-- What is said by the keys of some traces about bytes that break off:
`keys` are those of the records in front of the fault that no field
takes, and behind them the key at the fault, if there is one and no
field has it. -/
def CutShort (M : Type) [Message M] (bytes : List UInt8) (e : DecodeError) (keys : List Key) :
    Prop :=
  ∃ front rest records, ∃ last : Option Key, bytes = front ++ rest ∧
    AreRecords front records ∧ (∀ record ∈ records, Fits M record) ∧
    RecordFault M rest e ∧ (∀ key, last = some key ↔ OpensStranger M rest key) ∧
    keys = (strangers M records).map Record.key ++ last.toList

/-- When the loop fails, it has made the traces of the records it took,
and those of the turn that failed. -/
theorem events_of_mergeRecords_error {policy : UnknownFieldPolicy} {s s' : Intake (Progress M)}
    {e : DecodeError} (h : mergeRecords policy s = .error e s') :
    ∃ keys, CutShort M s.input.bytes e keys ∧
      s'.dest.events = s.dest.events ++ traces M policy keys := by
  obtain ⟨front, rest, hbytes, ⟨records, hrecords, hfits⟩, hne, hfault⟩ :=
    breaks_of_mergeRecords h
  obtain ⟨absorbed, habsorb⟩ :=
    Option.isSome_iff_exists.mp ((absorb_isSome_iff policy s.dest.message).mpr hfits)
  -- The turn that fails is the one behind the records in front of the fault.
  obtain ⟨s₁, hrun, rfl, hdest⟩ := mergeRecords_of_areRecords hrecords hbytes habsorb
  obtain ⟨s₂, hturn⟩ := (rejects_mergeRecord (M := M) policy).complete (s := s₁) hfault
  rw [hrun, mergeRecords_of_error hne hturn] at h
  cases h
  obtain ⟨last, hlast, hevents⟩ := events_of_mergeRecord_error hturn
  refine ⟨_, ⟨front, _, records, last, hbytes, hrecords, hfits, hfault, hlast, rfl⟩, ?_⟩
  rw [hevents, hdest, filterMap_report?, traces_append, List.append_assoc]

/-- The reports of a success are the traces of the records that no field
takes. -/
theorem events_readAll_of_ok {purpose : Purpose} {options : DecodeOptions} {message absorbed : M}
    {input : Input} (h : (readAll purpose options message input).result = .ok absorbed) :
    ∃ records, AreRecords input.bytes records ∧
      absorb options.unknownFields message records = some absorbed ∧
      (readAll purpose options message input).events
        = traces M options.unknownFields ((strangers M records).map Record.key) := by
  obtain ⟨-, s, hrun, rfl, hread⟩ := exists_mergeRecords_of_readAll_ok h
  obtain ⟨records, hrecords, habsorb, hevents, -⟩ := areRecords_of_mergeRecords hrun
  refine ⟨records, hrecords, habsorb, ?_⟩
  rw [hread, hevents, filterMap_report?, List.nil_append]

/-- The reports of a failure are traces and then the failure. There are
no traces if the message is too long. -/
theorem events_readAll_of_error {purpose : Purpose} {options : DecodeOptions} {message : M}
    {input : Input} {e : DecodeError}
    (h : (readAll purpose options message input).result = .error e) :
    ∃ keys, (readAll purpose options message input).events
        = traces M options.unknownFields keys ++ [.failure (fullName M) purpose e] ∧
      (((∃ length limit, e = .messageTooLarge length limit) ∧ keys = []) ∨
        CutShort M input.bytes e keys) := by
  rcases exists_mergeRecords_of_readAll_error h with ⟨hlong, rfl⟩ | ⟨hshort, s, hrun⟩
  · rw [readAll_of_long hlong]
    exact ⟨[], rfl, .inl ⟨⟨_, _, rfl⟩, rfl⟩⟩
  · obtain ⟨keys, hcut, hevents⟩ := events_of_mergeRecords_error hrun
    refine ⟨keys, ?_, .inr hcut⟩
    rw [readAll_of_error hshort hrun, hevents, List.nil_append]

/-! ### What the reports tell -/

/-- What the reports of a read tell about it. `text` is the text of the
last of them if the read fails. The traces are the reports that show a
key (`Event.isSome_key?_iff`). -/
structure Tells (text : String) (options : DecodeOptions) (message : M) (input : Input)
    (outcome : Outcome M) : Prop where
  /-- A success makes traces only. -/
  levels_of_ok : ∀ absorbed, outcome.result = .ok absorbed →
    ∀ event ∈ outcome.events, event.level = .trace
  /-- A failure makes traces, and then one event that shows the error. -/
  levels_of_error : ∀ e, outcome.result = .error e →
    ∃ front last, outcome.events = front ++ [last] ∧ (∀ event ∈ front, event.level = .trace) ∧
      last.level = .debug ∧ last.text = text ∧ last.errorText? = some e.message
  /-- All are about messages of the type. -/
  messageType : ∀ event ∈ outcome.events, event.messageType = fullName M
  /-- The traces of a success show the keys of the records that no field
  takes, in the order of the records. -/
  keys_of_ok : ∀ absorbed, outcome.result = .ok absorbed →
    ∃ records, AreRecords input.bytes records ∧
      outcome.events.filterMap Event.key? = (strangers M records).map Record.key
  /-- If these records are preserved, they are the ones that were added. -/
  keys_of_preserve : options.unknownFields = .preserve →
    ∀ absorbed, outcome.result = .ok absorbed →
      ∃ added, unknown absorbed = unknown message ++ added ∧
        outcome.events.filterMap Event.key? = added.map Record.key
  /-- The traces of a failure show the keys that no field has, as far as
  keys were read. -/
  keys_of_error : ∀ e, outcome.result = .error e →
    (∀ length limit, e ≠ .messageTooLarge length limit) →
      CutShort M input.bytes e (outcome.events.filterMap Event.key?)
  /-- Of a message that is too long, nothing but that is reported. -/
  only_of_tooLarge : ∀ length limit, outcome.result = .error (.messageTooLarge length limit) →
    ∃ event, outcome.events = [event] ∧ event.level = .debug

/-- So it is for any type of message whose table of fields is in
order. -/
theorem tells_readAll [LawfulMessage M] {text : String} {purpose : Purpose}
    (htext : ∀ messageType e, (Event.failure messageType purpose e).text = text)
    (options : DecodeOptions) (message : M) (input : Input) :
    Tells text options message input (readAll purpose options message input) where
  levels_of_ok absorbed h event hevent := by
    obtain ⟨records, -, -, hevents⟩ := events_readAll_of_ok h
    exact level_of_mem_traces (hevents ▸ hevent)
  levels_of_error e h := by
    obtain ⟨keys, hevents, -⟩ := events_readAll_of_error h
    exact ⟨_, _, hevents, fun _ => level_of_mem_traces, rfl, htext _ e, rfl⟩
  messageType event hevent := by
    cases hresult : (readAll purpose options message input).result with
    | ok absorbed =>
      obtain ⟨records, -, -, hevents⟩ := events_readAll_of_ok hresult
      exact messageType_of_mem_traces (hevents ▸ hevent)
    | error e =>
      obtain ⟨keys, hevents, -⟩ := events_readAll_of_error hresult
      rw [hevents] at hevent
      rcases List.mem_append.mp hevent with htrace | hlast
      · exact messageType_of_mem_traces htrace
      · obtain rfl := List.mem_singleton.mp hlast
        rfl
  keys_of_ok absorbed h := by
    obtain ⟨records, hrecords, -, hevents⟩ := events_readAll_of_ok h
    exact ⟨records, hrecords, by rw [hevents, filterMap_key?_traces]⟩
  keys_of_preserve hpolicy absorbed h := by
    obtain ⟨records, -, habsorb, hevents⟩ := events_readAll_of_ok h
    rw [hpolicy] at habsorb
    exact ⟨strangers M records, unknown_of_absorb habsorb, by rw [hevents, filterMap_key?_traces]⟩
  keys_of_error e h hfits := by
    -- The last event is the failure, which has no key.
    obtain ⟨keys, hevents, ⟨⟨length, limit, he⟩, -⟩ | hcut⟩ := events_readAll_of_error h
    · exact absurd he (hfits length limit)
    · have hkeys : (readAll purpose options message input).events.filterMap Event.key? = keys := by
        rw [hevents, List.filterMap_append, filterMap_key?_traces]
        exact List.append_nil keys
      rwa [hkeys]
  only_of_tooLarge length limit h := by
    obtain ⟨keys, hevents, ⟨-, rfl⟩ | ⟨_, _, _, _, _, _, _, hfault, _⟩⟩ :=
      events_readAll_of_error h
    · exact ⟨_, hevents, rfl⟩
    · -- No record is at fault for the length of the whole.
      exact absurd hfault not_recordFault_tooLarge

/-- The two policies make the same reports, in other words. -/
theorem sameButText_readAll [LawfulMessage M] (purpose : Purpose) (limit : Nat) (message : M)
    (input : Input) :
    List.Forall₂ Event.SameButText (readAll purpose ⟨.preserve, limit⟩ message input).events
      (readAll purpose ⟨.discard, limit⟩ message input).events := by
  obtain ⟨-, hevents⟩ := discard_follows_preserve purpose limit message input
  rw [hevents, List.forall₂_map_right_iff, List.forall₂_same]
  exact fun event _ => sameButText_discardEvent event

/-- The reports of the two calls that read a message: the one that makes
a message, and the one that reads into a message that is there. -/
structure LogTells (options : DecodeOptions) (message : M) (input : Input) : Prop where
  decode : Tells "failed to decode message" options empty input
    (decode options input : Outcome M)
  merge : Tells "failed to merge message" options message input (merge options message input)
  sameButText_decode : List.Forall₂ Event.SameButText
    (Message.decode ⟨.preserve, options.maxMessageLength⟩ input : Outcome M).events
    (Message.decode ⟨.discard, options.maxMessageLength⟩ input : Outcome M).events
  sameButText_merge : List.Forall₂ Event.SameButText
    (Message.merge ⟨.preserve, options.maxMessageLength⟩ message input).events
    (Message.merge ⟨.discard, options.maxMessageLength⟩ message input).events

/-- Both calls make such reports, of any type of message whose table of
fields is in order. -/
theorem events_show_keys_and_error_of_lawful [LawfulMessage M] (options : DecodeOptions)
    (message : M) (input : Input) : LogTells options message input where
  decode := tells_readAll (fun _ _ => rfl) options empty input
  merge := tells_readAll (fun _ _ => rfl) options message input
  sameButText_decode := sameButText_readAll .decode options.maxMessageLength empty input
  sameButText_merge := sameButText_readAll .merge options.maxMessageLength message input

/-- **The log tells what the loop did.** Of any bytes in any pieces,
under any options and into any query: the traces show the keys that no
field has, as far as they could be read, the last event shows the error
if there is one, and the policy changes nothing but the words. So it is
for `Scalars`. -/
theorem events_show_keys_and_error :
    (∀ (options : DecodeOptions) (message : Query) (input : Input),
      LogTells options message input) ∧
    (∀ (options : DecodeOptions) (message : Scalars) (input : Input),
      LogTells options message input) :=
  ⟨events_show_keys_and_error_of_lawful, events_show_keys_and_error_of_lawful⟩

/-- A text, a record under 4, and one under 5 of which the value is cut
off: the cut record is reported as well. -/
example :
    let cut : Input := ⟨[[0x0a, 0x01, 0x68, 0x22], [0x01, 0x78, 0x2d, 0x01]]⟩
    (decode {} cut : Outcome Query).events
      = [.unknownField "Person" .preserve ⟨.len, ⟨4, by decide, by decide⟩⟩,
          .unknownField "Person" .preserve ⟨.i32, ⟨5, by decide, by decide⟩⟩,
          .failure "Person" .decode .unexpectedEnd] := by
  decide +kernel

end Message

end ProtoWire
