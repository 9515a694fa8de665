import ProtoWire.Message

/-!
# `ProtoWire.Message.Region`: writing into bounded memory

A region of memory is written from its front. Writing does not check
for room, so whoever writes has to know beforehand how much it will
be: `tryEncode` compares the computed size with the room, and writes
all of a message or nothing.
-/

set_option autoImplicit false

namespace ProtoWire

/-- A region of memory. The bytes in `written` were put there; those in
`room` are still what they were before. -/
structure Region where
  written : List UInt8 := []
  room : List UInt8
  deriving DecidableEq, Repr

namespace Region

/-- Everything that is in the region. -/
def contents (region : Region) : List UInt8 :=
  region.written ++ region.room

/-- Puts bytes over the first ones of the room. -/
def write (bytes : List UInt8) (region : Region) : Region :=
  ⟨region.written ++ bytes, region.room.drop bytes.length⟩

/-- An untouched region, every byte of which is `filling`. -/
def fresh (capacity : Nat) (filling : UInt8) : Region :=
  { room := List.replicate capacity filling }

end Region

/-- Writes a message if there is room for it. -/
def Message.tryEncode {M : Type} [Message M] (message : M) (region : Region) :
    Except EncodeError Region :=
  if region.room.length < size message then .error ⟨size message, region.room.length⟩
  else .ok (region.write (encode message))

end ProtoWire
