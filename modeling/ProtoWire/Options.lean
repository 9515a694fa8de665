/-!
# `ProtoWire.Options`: how a message is to be read

Two things are up to the caller: what becomes of records the message
has no field for, and how long a message may be. `OptionChange` is one
adjustment, `DecodeOptions.apply` makes it.
-/

set_option autoImplicit false

namespace ProtoWire

/-- What becomes of a record that the message has no field for. -/
inductive UnknownFieldPolicy where
  /-- It is kept, and written again with the message. -/
  | preserve
  /-- It is passed over. -/
  | discard
  deriving DecidableEq, Repr

/-- How a message is to be read. -/
structure DecodeOptions where
  unknownFields : UnknownFieldPolicy := .preserve
  /-- A longer message is refused before anything of it is read. The
  limit is 2 GiB less a byte unless it is set otherwise. -/
  maxMessageLength : Nat := 0x7fffffff
  deriving DecidableEq, Repr

/-- One adjustment to the options. -/
inductive OptionChange where
  | setUnknownFields (policy : UnknownFieldPolicy)
  | discardUnknownFields
  | setMaxMessageLength (length : Nat)
  /-- Back to the options nobody has touched. -/
  | reset
  deriving DecidableEq, Repr

/-- Makes an adjustment; the other option stays as it is. -/
def DecodeOptions.apply (options : DecodeOptions) : OptionChange → DecodeOptions
  | .setUnknownFields policy => { options with unknownFields := policy }
  | .discardUnknownFields => { options with unknownFields := .discard }
  | .setMaxMessageLength length => { options with maxMessageLength := length }
  | .reset => {}

/-- The options before the first change and after each. -/
def DecodeOptions.history : DecodeOptions → List OptionChange → List DecodeOptions
  | options, [] => [options]
  | options, change :: changes => options :: history (options.apply change) changes

end ProtoWire
