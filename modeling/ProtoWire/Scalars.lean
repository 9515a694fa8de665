import ProtoWire.Message

/-!
# `ProtoWire.Scalars`: a message with a field of every type

One field for each type there is, under numbers whose keys have every
length that matters: a single byte, two bytes just past that, and the
largest number of all.
-/

set_option autoImplicit false

namespace ProtoWire

/-- A message with a field of every type. -/
structure Scalars where
  a : UInt32 := 0
  b : UInt64 := 0
  c : Int32 := 0
  d : Int64 := 0
  e : Bool := false
  s : String := ""
  unknown : List Record := []
  deriving DecidableEq

namespace Scalars

/-- The fields, in the order they are written. -/
def fieldTable : List (Field Scalars) :=
  [ { number := .one
      type := .scalar .uint32
      get := Scalars.a
      set := fun v m => { m with a := v } },
    { number := .two
      type := .scalar .uint64
      get := Scalars.b
      set := fun v m => { m with b := v } },
    { number := .three
      type := .scalar .int32
      get := Scalars.c
      set := fun v m => { m with c := v } },
    { number := { val := 15 }
      type := .scalar .int64
      get := Scalars.d
      set := fun v m => { m with d := v } },
    { number := { val := 16 }
      type := .scalar .bool
      get := Scalars.e
      set := fun v m => { m with e := v } },
    { number := .last
      type := .string
      get := Scalars.s
      set := fun v m => { m with s := v } } ]

instance : Message Scalars where
  fullName := "test.Scalars"
  empty := {}
  fields := fieldTable
  unknown := Scalars.unknown
  setUnknown := fun records m => { m with unknown := records }

end Scalars

end ProtoWire
