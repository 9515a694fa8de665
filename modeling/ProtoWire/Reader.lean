import ProtoWire.Message.Decode
import ProtoWire.Query
import ProtoWire.Scalars

/-!
# `ProtoWire.Reader`: taking an input apart by hand

A reader walks through one input by single steps: a varint, a key, a
value, a record, a whole message. It remembers the last key it read,
the records it collected, and one query that it fills field by field.
A step that fails leaves the reader where the failed read stopped, and
the next step goes on from there.
-/

set_option autoImplicit false

namespace ProtoWire

/-- The types of message a reader can read whole. -/
inductive MessageKind where
  | query
  | scalars
  deriving DecidableEq, Repr

/-- A message of one of those types. -/
inductive AnyMessage where
  | query (message : Query)
  | scalars (message : Scalars)
  deriving DecidableEq

/-- An input that is being taken apart. -/
structure Reader where
  input : Input
  lastKey : Option Key := none
  records : List Record := []
  query : Query := {}

namespace Reader

/-- Which key a step is to go by. -/
inductive KeyChoice where
  /-- The last one that was read. -/
  | last
  /-- One made from the code of a layout and a number. -/
  | parts (code number : Nat)
  deriving DecidableEq, Repr

/-- One step through the input. -/
inductive Step where
  | varint (width : Varint.Width)
  | key
  | length
  | checkedLength
  /-- Passes over a value, in the layout with the given code or in that
  of the last key. -/
  | skip (code : Option Nat)
  /-- Reads a value over an initial one. -/
  | value (type : FieldType) (initial : type.Value)
  /-- Reads a value behind a key over an initial one. -/
  | field (type : FieldType) (initial : type.Value) (key : KeyChoice)
  /-- Collects a record. -/
  | collect (key : KeyChoice)
  /-- Reads a field of the query. -/
  | fillQuery (key : KeyChoice)
  /-- Reads all that is left as a message. -/
  | message (kind : MessageKind) (options : DecodeOptions)
  /-- Reads a message behind its length. -/
  | delimited (kind : MessageKind) (options : DecodeOptions)

/-- What a step answers. -/
inductive Reply where
  | varint (width : Varint.Width) (value count : Nat)
  | key (key : Key)
  | length (length : Nat)
  | skipped
  /-- The value afterwards, and the error if there was one. -/
  | value (type : FieldType) (dest : type.Value) (error? : Option DecodeError)
  | field (type : FieldType) (dest : type.Value) (error? : Option DecodeError)
  /-- How many records there are afterwards, and the new one. -/
  | collected (count : Nat) (result : Except DecodeError Record)
  /-- The query afterwards, and whether it has the field. -/
  | filled (query : Query) (result : Except DecodeError Bool)
  | message (message : AnyMessage)
  | failed (error : DecodeError)
  /-- The step needs a key, and none has been read. -/
  | noKey

/-- Reads a value that the reader does not keep. -/
def reading {α : Type} (r : Reader) (d : Decoder α) (reply : α → Reply) : Reader × Reply :=
  match d r.input with
  | .ok a rest => ({ r with input := rest }, reply a)
  | .error e rest => ({ r with input := rest }, .failed e)

/-- Reads over a value that the reader does not keep. -/
def filling {D : Type} (r : Reader) (dest : D) (f : Filler D Unit)
    (reply : D → Option DecodeError → Reply) : Reader × Reply :=
  match f ⟨r.input, dest⟩ with
  | .ok _ s => ({ r with input := s.input }, reply s.dest none)
  | .error e s => ({ r with input := s.input }, reply s.dest (some e))

/-- Goes on with the key that was chosen. -/
def withKey (r : Reader) (choice : KeyChoice) (next : Key → Reader × Reply) : Reader × Reply :=
  match choice with
  | .last =>
    match r.lastKey with
    | some key => next key
    | none => (r, .noKey)
  | .parts code number =>
    match Key.ofCode code number with
    | .ok key => next key
    | .error e => (r, .failed e)

/-- Goes on with a layout: the one with a given code, or that of the
last key. -/
def withWireType (r : Reader) (code : Option Nat) (next : WireType → Reader × Reply) :
    Reader × Reply :=
  match code with
  | some code =>
    match WireType.ofCode code with
    | .ok wireType => next wireType
    | .error e => (r, .failed e)
  | none => r.withKey .last fun key => next key.wireType

/-- Hands over a message that was read from the input. -/
def handOver {M : Type} (r : Reader) (wrap : M → AnyMessage) (outcome : Message.Outcome M) :
    Reader × Reply :=
  ({ r with input := outcome.rest },
    match outcome.result with
    | .ok message => .message (wrap message)
    | .error e => .failed e)

/-- Makes a step. -/
def step (r : Reader) : Step → Reader × Reply
  | .varint width =>
    r.reading (Varint.read width) fun found => .varint width found.1 found.2
  | .key =>
    match Key.read r.input with
    | .ok key rest => ({ r with input := rest, lastKey := some key }, .key key)
    | .error e rest => ({ r with input := rest }, .failed e)
  | .length => r.reading Payload.readLength .length
  | .checkedLength => r.reading Payload.readCheckedLength .length
  | .skip code =>
    r.withWireType code fun wireType => r.reading (WireValue.skip wireType) fun _ => .skipped
  | .value type initial => r.filling initial type.readInto (.value type)
  | .field type initial choice =>
    r.withKey choice fun key => r.filling initial (type.readField key) (.field type)
  | .collect choice =>
    r.withKey choice fun key =>
      match Record.readValue key r.input with
      | .ok record rest =>
        let records := r.records ++ [record]
        ({ r with input := rest, records := records }, .collected records.length (.ok record))
      | .error e rest => ({ r with input := rest }, .collected r.records.length (.error e))
  | .fillQuery choice =>
    r.withKey choice fun key =>
      match Message.readKnown key ⟨r.input, r.query⟩ with
      | .ok known s => ({ r with input := s.input, query := s.dest }, .filled s.dest (.ok known))
      | .error e s => ({ r with input := s.input, query := s.dest }, .filled s.dest (.error e))
  | .message .query options => r.handOver .query (Message.decode options r.input)
  | .message .scalars options => r.handOver .scalars (Message.decode options r.input)
  | .delimited .query options => r.handOver .query (Message.decodeDelimited options r.input)
  | .delimited .scalars options => r.handOver .scalars (Message.decodeDelimited options r.input)

/-- Makes one step after the other. Each answer comes with the reader
as it is then; the last reader is where the walk ends. -/
def run : Reader → List Step → List (Reader × Reply)
  | _, [] => []
  | r, first :: rest =>
    let answer := r.step first
    answer :: run answer.1 rest

/-- The reader after some steps. -/
def after (r : Reader) (steps : List Step) : Reader :=
  steps.foldl (fun r step => (r.step step).1) r

end Reader

end ProtoWire
