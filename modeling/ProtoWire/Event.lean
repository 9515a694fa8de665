import ProtoWire.Key
import ProtoWire.Options

/-!
# `ProtoWire.Event`: what reading a message reports on the way

Before a record without a field is dealt with, and after a read that
failed, an event is reported. An event says what happened; its level
and its text follow from that.
-/

set_option autoImplicit false

namespace ProtoWire

/-- What the bytes are read for. -/
inductive Purpose where
  /-- To make a new message. -/
  | decode
  /-- To add to a message that is there. -/
  | merge
  deriving DecidableEq, Repr

/-- A report on the way. Each names the type of message it is about. -/
inductive Event where
  /-- A record without a field is about to be kept or passed over. -/
  | unknownField (messageType : String) (policy : UnknownFieldPolicy) (key : Key)
  /-- The read came to an end with an error. -/
  | failure (messageType : String) (purpose : Purpose) (error : DecodeError)
  deriving DecidableEq, Repr

namespace Event

/-- How urgent a report is. -/
inductive Level where
  | trace
  | debug
  deriving DecidableEq, Repr

/-- The name of a level as it is shown. -/
def Level.name : Level → String
  | trace => "TRACE"
  | debug => "DEBUG"

/-- The level of an event. -/
def level : Event → Level
  | unknownField .. => .trace
  | failure .. => .debug

/-- The type of message an event is about. -/
def messageType : Event → String
  | unknownField messageType _ _ => messageType
  | failure messageType _ _ => messageType

/-- The text of an event. -/
def text : Event → String
  | unknownField _ .preserve _ => "preserving unknown field"
  | unknownField _ .discard _ => "discarding unknown field"
  | failure _ .decode _ => "failed to decode message"
  | failure _ .merge _ => "failed to merge message"

end Event

end ProtoWire
