import ProtoWire.Scalars
import ProtoWire.Session

/-!
# `ProtoWire.Scalars.Edit`: setting fields in a session
-/

set_option autoImplicit false

namespace ProtoWire.Scalars

/-- The setting of a field. -/
inductive Edit where
  | a (value : UInt32)
  | b (value : UInt64)
  | c (value : Int32)
  | d (value : Int64)
  | e (value : Bool)
  | s (value : String)
  deriving DecidableEq, Repr

/-- Sets a field. -/
def edit : Edit → Scalars → Scalars
  | .a value, m => { m with a := value }
  | .b value, m => { m with b := value }
  | .c value, m => { m with c := value }
  | .d value, m => { m with d := value }
  | .e value, m => { m with e := value }
  | .s value, m => { m with s := value }

instance : Editable Scalars where
  Edit := Edit
  Answer := Unit
  edit _ e m := (edit e m, ())

end ProtoWire.Scalars
