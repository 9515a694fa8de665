import ProtoWire.Proofs.Message.Frame
import ProtoWire.Proofs.Message.RoundTrip
import ProtoWire.Proofs.Session.Effect
import ProtoWire.Query.Edit
import ProtoWire.Scalars.Edit

/-!
# `ProtoWire.Proofs.Session.WellKept`: the messages of a session

Whatever is done in a session, its messages can be written, and read
back as they were (`WellKept`). The reason is one invariant: no unknown
record has the number of a field, in no slot (`Session.Clean`). The
fresh session has no unknown records. Messages that are read from bytes
are clean if they were before, edits do not make unknown records
(`LawfulEditable`), and a slot that takes over records of another one
takes clean ones. Only records that are added by hand could do harm,
so those have to have other numbers (`Step.AddsNone`).

`Puts` says what a step may put into its slot, and `clean_of_puts`
goes through that. From there it is one step to a step (`clean_step`)
and an induction to a run (`clean_after`).
-/

set_option autoImplicit false

namespace ProtoWire

/-! ### Reading and editing -/

/-- A record that is made of a number has that number. -/
theorem Record.number_of_ofParts? {number : Nat} {value : WireValue} {record : Record}
    (h : Record.ofParts? number value = some record) : number = record.number.val := by
  obtain ⟨fieldNumber, hnumber, rfl⟩ := Option.map_eq_some_iff.mp h
  exact FieldNumber.ofNat?_eq_some_iff.mp hnumber

namespace Message

variable {M : Type} [Message M] [LawfulMessage M]

/-- Reading into a clean message gives a clean one. -/
theorem clean_of_readAll {purpose : Purpose} {options : DecodeOptions} {message absorbed : M}
    {input : Input} (hclean : Clean message)
    (h : (readAll purpose options message input).result = .ok absorbed) : Clean absorbed := by
  obtain ⟨-, records, -, habsorb⟩ := readAll_eq_ok_iff.mp h
  exact clean_of_absorb hclean habsorb

/-- A message that is read behind its length is clean as well. -/
theorem clean_of_decodeDelimited {options : DecodeOptions} {message : M} {input : Input}
    (h : (decodeDelimited options input).result = .ok message) : Clean message := by
  cases hlength : Payload.readCheckedLength input with
  | ok n rest =>
    rw [decodeDelimited_of_ok hlength] at h
    exact clean_of_readAll clean_empty h
  | error e rest =>
    rw [decodeDelimited_of_error hlength] at h
    cases h

end Message

/-- Messages whose edits do not make unknown records: the edited message
has those it had, and those of other slots. -/
class LawfulEditable (M : Type) [Message M] [Editable M] : Prop where
  mem_unknown_of_edit : ∀ (slots : String → M) (edit : Editable.Edit M) (message : M)
    (record : Record), record ∈ Message.unknown (Editable.edit slots edit message).1 →
      record ∈ Message.unknown message ∨ ∃ name, record ∈ Message.unknown (slots name)

/-- Merging another query in adds the unknown records of that one. -/
instance : LawfulEditable Query where
  mem_unknown_of_edit := by
    intro slots edit q record hrecord
    cases edit with
    | mergeFrom source =>
      rcases List.mem_append.mp hrecord with hown | hother
      · exact .inl hown
      · exact .inr ⟨source, hother⟩
    | clear => cases hrecord
    | _ => exact .inl hrecord

/-- No edit of `Scalars` adds any. -/
instance : LawfulEditable Scalars where
  mem_unknown_of_edit := by
    intro slots edit m record hrecord
    cases edit <;> exact .inl hrecord

namespace Session

/-! ### The invariant -/

variable {M : Type} [Message M]

/-- No slot has an unknown record with the number of a field. -/
def Clean (session : Session M) : Prop :=
  ∀ name, Message.Clean (session.slot name)

/-- The step adds no unknown record with one of the `numbers`. -/
def Step.AddsNone {E : Type} (numbers : List Nat) (s : Step E) : Prop :=
  ∀ number value, s.command = .addUnknown number value → number ∉ numbers

/-- Clean messages can be put into a clean session. -/
theorem Clean.put {session : Session M} (hclean : session.Clean) (name : String) {message : M}
    (hmessage : Message.Clean message) : (session.put name message).Clean := by
  intro other
  by_cases hother : other = name
  · subst hother
    rwa [slot_put_same]
  · rw [slot_put_of_ne message hother]
    exact hclean other

section Lawful

variable [LawfulMessage M]

/-- Where nothing has been done, all messages are empty, and so
clean. -/
theorem clean_fresh : (fresh : Session M).Clean :=
  fun _ => Message.clean_empty

variable [Editable M] [LawfulEditable M] {numbers : List Nat}
  (hnumbers : Message.HasNumbers M numbers)
include hnumbers

/-- The messages that a step puts into its slot are clean. -/
theorem clean_of_puts {session : Session M} {s : Step (Editable.Edit M)} {message : M}
    (hadds : s.AddsNone numbers) (hclean : session.Clean)
    (h : Puts session s.slot s.command message) : Message.Clean message := by
  obtain ⟨name, command⟩ := s
  cases h with
  | reset => exact Message.clean_empty
  | copy source => exact hclean source
  | decode hresult => exact Message.clean_of_readAll Message.clean_empty hresult
  | merge hresult => exact Message.clean_of_readAll (hclean name) hresult
  | decodeDelimited hresult => exact Message.clean_of_decodeDelimited hresult
  | recode _ hresult => exact Message.clean_of_readAll (hclean name) hresult
  | @addUnknown number value record hparts =>
    -- The one command that can bring in any number, so the hypothesis on the step is used here.
    have hnumber : number = record.number.val := Record.number_of_ofParts? hparts
    intro other hother
    rw [Message.unknown_addUnknown, List.mem_append, List.mem_singleton] at hother
    rcases hother with hold | rfl
    · exact hclean name other hold
    · exact (hnumbers _).mpr (hnumber ▸ hadds number value rfl)
  | clearUnknown =>
    intro record hrecord
    rw [LawfulMessage.unknown_setUnknown] at hrecord
    cases hrecord
  | extendUnknown source =>
    intro record hrecord
    rw [LawfulMessage.unknown_setUnknown, List.mem_append] at hrecord
    exact hrecord.elim (hclean name record) (hclean source record)
  | edit edit =>
    intro record hrecord
    rcases LawfulEditable.mem_unknown_of_edit _ _ _ _ hrecord with hown | ⟨other, hother⟩
    · exact hclean name record hown
    · exact hclean other record hother

variable [DecidableEq M]

/-- A step keeps a session clean, unless it adds a record with the
number of a field. -/
theorem clean_step {session : Session M} {s : Step (Editable.Edit M)}
    (hadds : s.AddsNone numbers) (hclean : session.Clean) : (session.step s).session.Clean := by
  cases effect_step session s with
  | nothing hsession => rwa [hsession]
  | put hputs hsession _ =>
    rw [hsession]
    exact hclean.put s.slot (clean_of_puts hnumbers hadds hclean hputs)
  | @swap other _ hsession _ =>
    rw [hsession]
    exact (hclean.put s.slot (hclean other)).put other (hclean s.slot)

/-- Any number of steps keep a session clean, unless one adds such a
record. -/
theorem clean_after {session : Session M} {steps : List (Step (Editable.Edit M))}
    (hadds : ∀ s ∈ steps, s.AddsNone numbers) (hclean : session.Clean) :
    (session.after steps).Clean := by
  induction steps generalizing session with
  | nil => exact hclean
  | cons s steps ih =>
    rw [List.forall_mem_cons] at hadds
    exact ih hadds.2 (clean_step hnumbers hadds.1 hclean)

end Lawful

/-! ### What it is good for -/

/-- A message that can be written and read back, of a type whose fields
have the numbers `numbers`. -/
structure WellKept (numbers : List Nat) (message : M) : Prop where
  /-- The numbers of unknown records are numbers that a field can have. -/
  number_mem_Icc : ∀ record ∈ Message.unknown message,
    1 ≤ record.number.val ∧ record.number.val ≤ 2 ^ 29 - 1
  /-- They are not those of the type. -/
  number_notMem : ∀ record ∈ Message.unknown message, record.number.val ∉ numbers
  length_encode : (Message.encode message).length = Message.size message
  length_encodeDelimited :
    (Message.encodeDelimited message).length = Message.delimitedSize message
  /-- The encoding gives the message back, in any pieces and with any
  limit that is not below its length. -/
  decode_encode : ∀ (options : DecodeOptions) (input : Input),
    options.unknownFields = .preserve → options.maxMessageLength < UInt64.size →
    Message.size message ≤ options.maxMessageLength → input.bytes = Message.encode message →
      (Message.decode options input).result = .ok message

/-- A clean message can be measured, written and read back. -/
theorem wellKept_of_clean [LawfulMessage M] {numbers : List Nat} {message : M}
    (hnumbers : Message.HasNumbers M numbers)
    (hclean : Message.Clean message) : WellKept numbers message where
  number_mem_Icc record _ := ⟨record.number.one_le, record.number.le_largest⟩
  number_notMem := hnumbers.clean_iff.mp hclean
  length_encode := Message.length_encode message
  length_encodeDelimited := Message.length_encodeDelimited message
  decode_encode _ _ hpolicy hlimit hsize hbytes :=
    (Message.decode_eq_ok_iff_clean hbytes hpolicy hsize (Nat.lt_of_le_of_lt hsize hlimit)).mpr
      hclean

/-- The sessions of a type whose fields have the numbers `numbers`. -/
structure KeepsSlots (M : Type) [Message M] [Editable M] [DecidableEq M] (numbers : List Nat) :
    Prop where
  /-- In every session that can be reached without adding an unknown
  record with the number of a field, all messages are well kept. -/
  wellKept : ∀ steps : List (Step (Editable.Edit M)), (∀ s ∈ steps, s.AddsNone numbers) →
    ∀ name, WellKept numbers ((fresh.after steps).slot name)
  /-- The steps of a run are made in the sessions that the steps before
  them have reached. -/
  mem_run_iff : ∀ (steps : List (Step (Editable.Edit M))) (result : Result M (Editable.Answer M)),
    result ∈ (fresh : Session M).run steps ↔
      ∃ before s behind, steps = before ++ s :: behind ∧ result = (fresh.after before).step s
  /-- In all sessions, a step that fails changes nothing. -/
  session_eq_of_isError : ∀ (session : Session M) (s : Step (Editable.Edit M)),
    (session.step s).reply.isError = true → (session.step s).session = session
  /-- A step changes its targets at most. -/
  slot_eq_of_notMem : ∀ (session : Session M) (s : Step (Editable.Edit M)), ∀ name ∉ s.targets,
    (session.step s).session.slot name = session.slot name
  /-- A slot that no step of a run has as a target holds the empty
  message. -/
  empty_of_untouched : ∀ (steps : List (Step (Editable.Edit M))) (name : String),
    (∀ s ∈ steps, name ∉ s.targets) → (fresh.after steps).slot name = Message.empty

/-- Sessions of any type of message keep their slots, given the numbers
of its fields. -/
theorem keepsSlots_of_numbers [LawfulMessage M] [Editable M] [LawfulEditable M] [DecidableEq M]
    {numbers : List Nat} (hnumbers : Message.HasNumbers M numbers) : KeepsSlots M numbers where
  wellKept _ hadds name := wellKept_of_clean hnumbers (clean_after hnumbers hadds clean_fresh name)
  mem_run_iff _ _ := Session.mem_run_iff
  session_eq_of_isError _ _ herror := session_step_of_isError herror
  slot_eq_of_notMem _ _ _ hname := slot_step_of_notMem hname
  empty_of_untouched _ _ hnone := slot_after_of_notMem hnone

/-- **Sessions keep their messages.** After any steps on queries, with
any bytes in any pieces and under any options, that add no unknown
record with one of the numbers 1, 2 and 3, every query has the length
that is computed for it and can be read back; steps that fail change
nothing, and others only the slots they are about. For `Scalars` the
numbers are those of its six fields. -/
theorem keepsSlots : KeepsSlots Query [1, 2, 3] ∧ KeepsSlots Scalars [1, 2, 3, 15, 16, 536870911] :=
  ⟨keepsSlots_of_numbers Message.hasNumbers_query, keepsSlots_of_numbers Message.hasNumbers_scalars⟩

/-- A query that was laid over itself has its unknown record twice, and
an exchange has moved it. Merging the beginning of its encoding into it
breaks off in a record, and it is as it was. -/
theorem keepsSlots_of_self_and_cut :
    let four : Record := ⟨⟨4, by decide, by decide⟩, .fixed32 7⟩
    let steps : List (Step Query.Edit) :=
      [⟨"a", .edit (.setQuery "hi")⟩, ⟨"a", .addUnknown 4 (.fixed32 7)⟩,
        ⟨"a", .addUnknown 0 (.varint 1)⟩, ⟨"a", .edit (.mergeFrom "a")⟩, ⟨"b", .swap "a"⟩]
    let session : Session Query := fresh.after steps
    let cut : Step Query.Edit := ⟨"b", .recode "b" (some 6) {}⟩
    (∀ s ∈ steps, s.AddsNone [1, 2, 3]) ∧
      session.slot "b" = { query := "hi", unknown := [four, four] } ∧
      WellKept [1, 2, 3] (session.slot "b") ∧
      (session.step cut).reply.isError = true ∧ (session.step cut).session = session ∧
      "a" ∉ cut.targets ∧ (session.step cut).session.slot "a" = session.slot "a" ∧
      session.slot "c" = Message.empty := by
  intro four steps session cut
  have hadds : ∀ s ∈ steps, s.AddsNone [1, 2, 3] := by
    simp [steps, Step.AddsNone]
  have herror : (session.step cut).reply.isError = true := by decide +kernel
  have ha : "a" ∉ cut.targets := by decide
  exact ⟨hadds, by decide +kernel, keepsSlots.1.wellKept steps hadds "b", herror,
    keepsSlots.1.session_eq_of_isError session cut herror, ha,
    keepsSlots.1.slot_eq_of_notMem session cut "a" ha,
    keepsSlots.1.empty_of_untouched steps "c" (by decide)⟩

end Session

end ProtoWire
