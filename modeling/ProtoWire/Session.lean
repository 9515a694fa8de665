import ProtoWire.Message.Decode
import ProtoWire.Message.Region

/-!
# `ProtoWire.Session`: working on named messages

A session holds messages of one type in slots that have names. Every
name stands for a slot; one that nobody has used holds the empty
message. A step works on one slot. Some steps look at another slot
too, which they see as it was before the step. The statements:

* `slot_put_same`, `slot_put_of_ne`, `put_slot`: putting a message into
  a slot changes that slot and no other, and nothing at all if it is the
  one that is there.
* `mergeAt_of_ok`, `mergeAt_of_error`: after a merge into a slot, the
  slot holds what the merge has made of its message. If it fails, that
  is the session as it was.
-/

set_option autoImplicit false

namespace ProtoWire

/-- What can be done to the messages of a type beyond what all messages
have in common. -/
class Editable (M : Type) where
  Edit : Type
  Answer : Type
  /-- Makes an edit to a message. An edit can look at other messages by
  the names of their slots. -/
  edit : (slots : String → M) → Edit → M → M × Answer

/-- Messages in named slots. -/
structure Session (M : Type) where
  slot : String → M

namespace Session

/-- What is done in one step. -/
inductive Command (E : Type) where
  /-- Back to the empty message. -/
  | reset
  | copy (source : String)
  | swap (other : String)
  | equal (other : String)
  | decode (options : DecodeOptions) (input : Input)
  | merge (options : DecodeOptions) (input : Input)
  | decodeDelimited (options : DecodeOptions) (input : Input)
  /-- Merges the encoding of another message, or the first `cut` bytes
  of it. -/
  | recode (source : String) (cut : Option Nat) (options : DecodeOptions)
  | encode
  | measure
  | encodeDelimited
  /-- Writes into a region whose bytes are all `filling`. -/
  | tryEncode (capacity : Nat) (filling : UInt8)
  | addUnknown (number : Nat) (value : WireValue)
  | clearUnknown
  /-- Appends the unknown records of another message. -/
  | extendUnknown (source : String)
  | listUnknown
  | edit (edit : E)

/-- A command for a slot. -/
structure Step (E : Type) where
  slot : String
  command : Command E

/-- What a step answers. -/
inductive Reply (A : Type) where
  | done
  | named (fullName : String)
  | equal (same : Bool)
  | failed (error : DecodeError)
  /-- How many bytes are left behind a delimited message. -/
  | delimited (remaining : Nat) (error? : Option DecodeError)
  /-- How many bytes were merged. -/
  | recoded (count : Nat)
  | encoded (bytes : List UInt8) (size : Nat)
  | measured (size delimitedSize : Nat)
  | written (region : Region) (error? : Option EncodeError)
  | added (accepted : Bool)
  | records (records : List Record) (bytes : List UInt8) (size : Nat)
  | edited (answer : A)

/-- Everything that comes of a step. -/
structure Result (M : Type) (A : Type) where
  session : Session M
  reply : Reply A
  events : List Event := []

variable {M : Type}

/-- Puts a message into a slot. -/
def put (session : Session M) (name : String) (message : M) : Session M :=
  ⟨fun other => if other = name then message else session.slot other⟩

/-- A slot holds what was put into it last. -/
@[simp]
theorem slot_put_same (session : Session M) (name : String) (message : M) :
    (session.put name message).slot name = message :=
  if_pos rfl

/-- Every other slot holds what it held. -/
theorem slot_put_of_ne {session : Session M} {name other : String} (message : M)
    (h : other ≠ name) : (session.put name message).slot other = session.slot other :=
  if_neg h

/-- Putting back what is there changes nothing. -/
@[simp]
theorem put_slot (session : Session M) (name : String) :
    session.put name (session.slot name) = session := by
  have hslot : (session.put name (session.slot name)).slot = session.slot := by
    funext other
    by_cases h : other = name
    · rw [h, slot_put_same]
    · exact slot_put_of_ne _ h
  exact congrArg Session.mk hslot

variable [Message M]

/-- The session in which nothing has been done. -/
def fresh : Session M :=
  ⟨fun _ => Message.empty⟩

/-- Puts a message that was read into a slot. If reading failed there is
no message to put. -/
def keep {A : Type} (session : Session M) (name : String) (outcome : Message.Outcome M)
    (success : Reply A) (failure : DecodeError → Reply A) : Result M A :=
  match outcome.result with
  | .ok message => ⟨session.put name message, success, outcome.events⟩
  | .error e => ⟨session, failure e, outcome.events⟩

/-- Merges bytes into the message of a slot. The slot holds afterwards
what the merge has left of its message, whether or not it succeeded. -/
def mergeAt {A : Type} (session : Session M) (name : String) (options : DecodeOptions)
    (input : Input) (success : Reply A) : Result M A :=
  let message := session.slot name
  match Message.mergeInto options ⟨input, { message := message, scratch := message }⟩ with
  | .ok () s => ⟨session.put name s.dest.message, success, s.dest.events⟩
  | .error e s => ⟨session.put name s.dest.message, .failed e, s.dest.events⟩

variable [DecidableEq M] [Editable M]

/-- Makes a step. -/
def step (session : Session M) (s : Step (Editable.Edit M)) : Result M (Editable.Answer M) :=
  let message := session.slot s.slot
  match s.command with
  | .reset => ⟨session.put s.slot Message.empty, .named (Message.fullName M), []⟩
  | .copy source => ⟨session.put s.slot (session.slot source), .done, []⟩
  | .swap other =>
    -- Both messages were taken before either slot is changed.
    ⟨(session.put s.slot (session.slot other)).put other message, .done, []⟩
  | .equal other => ⟨session, .equal (decide (message = session.slot other)), []⟩
  | .decode options input => session.keep s.slot (Message.decode options input) .done .failed
  | .merge options input => session.mergeAt s.slot options input .done
  | .decodeDelimited options input =>
    let outcome := Message.decodeDelimited options input
    session.keep s.slot outcome (.delimited outcome.rest.remaining none)
      fun e => .delimited outcome.rest.remaining (some e)
  | .recode source cut options =>
    let bytes := Message.encode (session.slot source)
    let kept := match cut with
      | some count => bytes.take count
      | none => bytes
    session.mergeAt s.slot options (Input.ofBytes kept) (.recoded kept.length)
  | .encode => ⟨session, .encoded (Message.encode message) (Message.size message), []⟩
  | .measure => ⟨session, .measured (Message.size message) (Message.delimitedSize message), []⟩
  | .encodeDelimited =>
    ⟨session, .encoded (Message.encodeDelimited message) (Message.delimitedSize message), []⟩
  | .tryEncode capacity filling =>
    let region := Region.fresh capacity filling
    match Message.tryEncode message region with
    | .ok region => ⟨session, .written region none, []⟩
    | .error e => ⟨session, .written region (some e), []⟩
  | .addUnknown number value =>
    match Record.ofParts? number value with
    | some record => ⟨session.put s.slot (Message.addUnknown record message), .added true, []⟩
    | none => ⟨session, .added false, []⟩
  | .clearUnknown => ⟨session.put s.slot (Message.setUnknown [] message), .done, []⟩
  | .extendUnknown source =>
    let records := Message.unknown message ++ Message.unknown (session.slot source)
    ⟨session.put s.slot (Message.setUnknown records message), .done, []⟩
  | .listUnknown =>
    let records := Message.unknown message
    ⟨session, .records records (Record.encodeAll records) (Record.sizeAll records), []⟩
  | .edit edit =>
    let (edited, answer) := Editable.edit session.slot edit message
    ⟨session.put s.slot edited, .edited answer, []⟩

/-- Makes one step after the other, and says what came of each. -/
def run : Session M → List (Step (Editable.Edit M)) → List (Result M (Editable.Answer M))
  | _, [] => []
  | session, first :: rest =>
    let result := session.step first
    result :: run result.session rest

/-- The session after some steps. -/
def after (session : Session M) (steps : List (Step (Editable.Edit M))) : Session M :=
  steps.foldl (fun session s => (session.step s).session) session

/-! ### Merging into a slot -/

section Merging

variable {A : Type} {session : Session M} {name : String} {options : DecodeOptions} {input : Input}

omit [DecidableEq M] [Editable M]

/-- A merge that succeeds puts what it comes to into the slot. -/
theorem mergeAt_of_ok {absorbed : M} (success : Reply A)
    (h : (Message.merge options (session.slot name) input).result = .ok absorbed) :
    session.mergeAt name options input success
      = ⟨session.put name absorbed, success,
          (Message.merge options (session.slot name) input).events⟩ := by
  obtain ⟨s, hrun, rfl, -, hevents⟩ := Message.mergeInto_of_ok (session.slot name) h
  simp only [mergeAt, hrun, hevents]

/-- A merge that fails leaves the session as it was: the message is put
back that it was given. -/
theorem mergeAt_of_error {e : DecodeError} (success : Reply A)
    (h : (Message.merge options (session.slot name) input).result = .error e) :
    session.mergeAt name options input success
      = ⟨session, .failed e, (Message.merge options (session.slot name) input).events⟩ := by
  obtain ⟨s, hrun, hmessage, -, hevents⟩ := Message.mergeInto_of_error (session.slot name) h
  simp only [mergeAt, hrun, hmessage, put_slot, hevents]

end Merging

end Session

end ProtoWire
