import ProtoWire.Proofs.Message.Lawful

/-!
# `ProtoWire.Proofs.Message.Overlay`: one message laid over another

A message that is laid over another replaces its fields, those at their
default excepted, and its unknown records come behind. Nothing of this
is about bytes. `FieldType.layOver` does it for a value, and
`IsOverlay lower upper result` says it of whole messages, field by field,
for any type of message.

The values of a type with `layOver` are a monoid, the default value its
unit (`default_layOver`, `layOver_default`, `layOver_assoc`), and so are
lists. Since a message is nothing but its fields and its unknown
records, overlays obey the same laws: `IsOverlay.unique`,
`IsOverlay.of_empty_lower`, `IsOverlay.of_empty_upper`,
`IsOverlay.assoc`.
-/

set_option autoImplicit false

namespace ProtoWire

namespace FieldType

/-- A value laid over another: it takes its place, unless it is the
default. -/
def layOver (t : FieldType) (lower upper : t.Value) : t.Value :=
  if t.isDefault upper then lower else upper

variable (t : FieldType)

/-- The default value covers nothing. -/
theorem layOver_default (v : t.Value) : t.layOver v t.default = v :=
  if_pos (isDefault_iff.mpr rfl)

/-- Over the default value, any value is what is seen. -/
theorem default_layOver (v : t.Value) : t.layOver t.default v = v := by
  unfold layOver
  split
  · exact (isDefault_iff.mp ‹_›).symm
  · rfl

/-- Of three values, it does not matter which two are laid together
first. -/
theorem layOver_assoc (u v w : t.Value) :
    t.layOver (t.layOver u v) w = t.layOver u (t.layOver v w) := by
  unfold layOver
  by_cases hw : t.isDefault w = true
  · simp only [hw, if_true]
  · simp only [hw, Bool.false_eq_true, if_false]

/-- What is laid over a value comes out of it, unless it is the default
and the value is not. -/
theorem layOver_eq_upper_iff {lower upper : t.Value} :
    t.layOver lower upper = upper ↔ ¬ (upper = t.default ∧ lower ≠ t.default) := by
  unfold layOver
  split
  · rename_i hdefault
    rw [isDefault_iff.mp hdefault]
    simp
  · rename_i hother
    have hne : upper ≠ t.default := fun h => hother (isDefault_iff.mpr h)
    simp [hne]

end FieldType

namespace Message

variable {M : Type} [Message M]

/-- `result` is `upper` laid over `lower`. -/
structure IsOverlay (lower upper result : M) : Prop where
  get_eq : ∀ field ∈ (fields : List (Field M)),
    field.get result = field.type.layOver (field.get lower) (field.get upper)
  unknown_eq : unknown result = unknown lower ++ unknown upper

namespace IsOverlay

/-- Of three messages, the upper two may be laid over each other
first. -/
theorem assoc {a b c ab bc result : M} (hab : IsOverlay a b ab) (habc : IsOverlay ab c result)
    (hbc : IsOverlay b c bc) : IsOverlay a bc result where
  get_eq field hfield := by
    rw [habc.get_eq field hfield, hab.get_eq field hfield, hbc.get_eq field hfield,
      FieldType.layOver_assoc]
  unknown_eq := by
    rw [habc.unknown_eq, hab.unknown_eq, hbc.unknown_eq, List.append_assoc]

variable [LawfulMessage M]

/-- There is one way to lay a message over another. -/
theorem unique {lower upper result result' : M} (h : IsOverlay lower upper result)
    (h' : IsOverlay lower upper result') : result = result' := by
  apply LawfulMessage.ext
  · intro field hfield
    rw [h.get_eq field hfield, h'.get_eq field hfield]
  · rw [h.unknown_eq, h'.unknown_eq]

/-- A message laid over the empty one is itself. -/
theorem of_empty_lower (message : M) : IsOverlay empty message message where
  get_eq field hfield := by
    rw [LawfulMessage.get_empty field hfield, FieldType.default_layOver]
  unknown_eq := by rw [LawfulMessage.unknown_empty, List.nil_append]

/-- The empty message laid over another leaves that one. -/
theorem of_empty_upper (message : M) : IsOverlay message empty message where
  get_eq field hfield := by
    rw [LawfulMessage.get_empty field hfield, FieldType.layOver_default]
  unknown_eq := by rw [LawfulMessage.unknown_empty, List.append_nil]

end IsOverlay

end Message

end ProtoWire
