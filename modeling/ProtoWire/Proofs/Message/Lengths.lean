import ProtoWire.Proofs.Message.RoundTrip

/-!
# `ProtoWire.Proofs.Message.Lengths`: lengths without writing

A length is needed before anything is written: it stands in front of a
text and of a delimited message, and says whether a message has room.
It is computed by functions of its own, one beside each writer, and this
module says that they agree with the writers. For varints, keys, values
and whole messages that is known. What is left are the types of fields,
which write through their wire values (`FieldType.length_encode`), and
the default of a type, for which nothing is written and no length is
counted (`FieldType.fieldSize_eq_zero_iff`).
-/

set_option autoImplicit false

namespace ProtoWire

namespace FieldType

/-- A value of any type is written in as many bytes as are counted for
it, a truth value in one. -/
theorem length_encode (t : FieldType) (v : t.Value) : (t.encode v).length = t.size v := by
  rw [← encode_toValue, WireValue.length_encode, size_toValue]

/-- Under the number of a field, a value takes as many bytes as are
counted, and the default value none. -/
theorem length_encodeField (t : FieldType) (number : FieldNumber) (v : t.Value) :
    (t.encodeField number.val v).length = t.fieldSize number.val v := by
  unfold encodeField fieldSize
  split
  · rfl
  · rw [List.length_append, Key.length_encode, length_encode]

/-- Nothing but the default takes no bytes: any other value has a key. -/
theorem fieldSize_eq_zero_iff {t : FieldType} {number : Nat} {v : t.Value} :
    t.fieldSize number v = 0 ↔ v = t.default := by
  rw [← isDefault_iff, fieldSize]
  split
  · rename_i hdefault
    exact iff_of_true rfl hdefault
  · rename_i hdefault
    have hkey : 0 < Key.size number := Nat.succ_pos _
    exact iff_of_false (Nat.ne_of_gt (Nat.add_pos_left hkey _)) hdefault

end FieldType

namespace Message

end Message

end ProtoWire
