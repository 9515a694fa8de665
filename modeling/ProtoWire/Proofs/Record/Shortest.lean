import ProtoWire.Proofs.Record.Grammar

/-!
# `ProtoWire.Proofs.Record.Shortest`: shortest spellings

A value has many spellings, since varints may have trailing zero digits.
Here is what is special about the one that is written: it is the only
one of its length, and every other is longer. `WritesShortest` says so
of a grammar and a writer. It holds of varints by what is known of their
digits (`Varint.writesShortest`), and goes on from there to keys, values
and records, because the lengths of the parts add up
(`eq_of_length_append_le`).

`AreTerseRecords` is the grammar of records once more, but with the
shortest spelling asked for wherever there is a choice: of every key,
of every varint that is a value, and of every length. This is a matter
of each part by itself. `areTerseRecords_iff` says that it comes to the
same as being the bytes that are written for the records.
-/

set_option autoImplicit false

namespace ProtoWire

open Varint (IsVarint)

section

variable {α : Type} {Spells : List UInt8 → α → Prop} {encode : α → List UInt8}

/-- No spelling of the value has fewer bytes. -/
structure IsShortest (Spells : List UInt8 → α → Prop) (bytes : List UInt8) (a : α) : Prop where
  spells : Spells bytes a
  length_le : ∀ bytes', Spells bytes' a → bytes.length ≤ bytes'.length

/-- What is written for a value that has a spelling is one, and no other
is as short. -/
structure WritesShortest (Spells : List UInt8 → α → Prop) (encode : α → List UInt8) : Prop where
  spells : ∀ {bytes : List UInt8} {a : α}, Spells bytes a → Spells (encode a) a
  length_le : ∀ {bytes : List UInt8} {a : α}, Spells bytes a → (encode a).length ≤ bytes.length
  eq_of_length_le : ∀ {bytes : List UInt8} {a : α}, Spells bytes a →
    bytes.length ≤ (encode a).length → bytes = encode a

/-- The shortest spelling is the one that is written. -/
theorem WritesShortest.isShortest_iff (h : WritesShortest Spells encode) {bytes : List UInt8}
    {a : α} : IsShortest Spells bytes a ↔ Spells bytes a ∧ bytes = encode a := by
  constructor
  · intro hshort
    have hle := hshort.length_le _ (h.spells hshort.spells)
    exact ⟨hshort.spells, h.eq_of_length_le hshort.spells hle⟩
  · rintro ⟨hspells, rfl⟩
    exact ⟨hspells, fun _ hother => h.length_le hother⟩

/-- If each of two parts is at least as long as it could be, and the two
together are not longer, then neither part is. -/
theorem eq_of_length_append_le {x y x' y' : List UInt8} (hx : x'.length ≤ x.length)
    (hy : y'.length ≤ y.length) (hlen : (x ++ y).length ≤ (x' ++ y').length)
    (hx' : x.length ≤ x'.length → x = x') (hy' : y.length ≤ y'.length → y = y') :
    x ++ y = x' ++ y' := by
  rw [List.length_append, List.length_append] at hlen
  rw [hx' (by omega), hy' (by omega)]

end

/-! ### What is written is shortest -/

/-- A number is written with the fewest digits that spell it. -/
theorem Varint.writesShortest (w : Varint.Width) : WritesShortest (IsVarint w) Varint.encode where
  spells h := Varint.isVarint_encode h.lt
  length_le h := h.digits.length_encode_le
  eq_of_length_le h hlen := h.digits.eq_encode_of_length_le hlen

/-- Bytes of a fixed width have one spelling. -/
theorem LittleEndian.eq_ofNat {bytes : List UInt8} {width n : Nat} (hwidth : bytes.length = width)
    (hn : toNat bytes = n) : bytes = ofNat width n := by
  rw [← hn, ← hwidth, ofNat_toNat]

/-- Two spellings of a key are varints of the same bits. -/
theorem IsKey.isVarint {bytes : List UInt8} {key : Key} (h : IsKey bytes key) :
    IsVarint .w32 bytes (Key.packed key.wireType key.number.val) := by
  obtain ⟨bits, hbits, hcode, hnumber⟩ := h
  have hpacked : Key.packed key.wireType key.number.val = bits := by
    rw [Key.packed_of_number]
    omega
  rwa [hpacked]

/-- A key is written with the fewest bytes that spell it. -/
theorem Key.writesShortest :
    WritesShortest IsKey fun key => Key.encode key.wireType key.number.val where
  spells {_ key} _ := Key.isKey_encode key.wireType key.number
  length_le h := (Varint.writesShortest .w32).length_le h.isVarint
  eq_of_length_le h hlen := (Varint.writesShortest .w32).eq_of_length_le h.isVarint hlen

/-- A value is written with the fewest bytes: its varint or its length
is, and its other bytes are fixed. -/
theorem WireValue.writesShortest : WritesShortest IsValue WireValue.encode where
  spells h := WireValue.isValue_encode_of_isValue h
  length_le h := by
    cases h with
    | varint hn => exact hn.digits.length_encode_le
    | fixed64 hwidth => rw [WireValue.length_encode, hwidth, WireValue.size]
    | bytes hlength =>
      rw [WireValue.encode, Payload.encode, List.length_append, List.length_append]
      exact Nat.add_le_add_right hlength.digits.length_encode_le _
    | fixed32 hwidth => rw [WireValue.length_encode, hwidth, WireValue.size]
  eq_of_length_le h hlen := by
    cases h with
    | varint hn => exact hn.digits.eq_encode_of_length_le hlen
    | fixed64 hwidth hn => exact LittleEndian.eq_ofNat hwidth hn
    | bytes hlength =>
      exact eq_of_length_append_le hlength.digits.length_encode_le (Nat.le_refl _) hlen
        hlength.digits.eq_encode_of_length_le fun _ => rfl
    | fixed32 hwidth hn => exact LittleEndian.eq_ofNat hwidth hn

namespace Record

/-- A record is written with the fewest bytes, being a key and a
value. -/
theorem writesShortest : WritesShortest IsRecord encode where
  spells := by
    rintro _ record ⟨-, hvalue⟩
    exact isRecord_encode_of_isValue hvalue
  length_le := by
    rintro _ record ⟨hkey, hvalue⟩
    rw [encode, List.length_append, List.length_append]
    exact Nat.add_le_add (Key.writesShortest.length_le hkey)
      (WireValue.writesShortest.length_le hvalue)
  eq_of_length_le := by
    rintro _ record ⟨hkey, hvalue⟩ hlen
    exact eq_of_length_append_le (Key.writesShortest.length_le hkey)
      (WireValue.writesShortest.length_le hvalue) hlen (Key.writesShortest.eq_of_length_le hkey)
      (WireValue.writesShortest.eq_of_length_le hvalue)

/-- Records that were spelled in some bytes are written in no more of
them. -/
theorem length_encodeAll_le {b : List UInt8} {records : List Record} (h : AreRecords b records) :
    (encodeAll records).length ≤ b.length := by
  induction h with
  | nil => exact Nat.le_refl _
  | cons hrecord _ ih =>
    rw [encodeAll_cons, List.length_append, List.length_append]
    exact Nat.add_le_add (writesShortest.length_le hrecord) ih

/-- A list of records is written in the fewest bytes that spell it. -/
theorem writesShortest_all : WritesShortest AreRecords encodeAll where
  spells h := by
    refine areRecords_encodeAll_of_forall fun record hrecord => ?_
    obtain ⟨b, hvalue⟩ := h.isValue_of_mem hrecord
    exact isRecord_encode_of_isValue hvalue
  length_le := length_encodeAll_le
  eq_of_length_le h hlen := by
    induction h with
    | nil => rfl
    | cons hrecord hrest ih =>
      rw [encodeAll_cons] at hlen ⊢
      exact eq_of_length_append_le (writesShortest.length_le hrecord) (length_encodeAll_le hrest)
        hlen (writesShortest.eq_of_length_le hrecord) ih

end Record

/-! ### Terse records -/

/-- A value in its shortest spelling: the varint, or the length, has as
few bytes as it can have. -/
inductive IsTerseValue : List UInt8 → WireValue → Prop where
  | varint {bytes : List UInt8} {n : UInt64} : IsShortest (IsVarint .w64) bytes n.toNat →
      IsTerseValue bytes (.varint n)
  | fixed64 {bytes : List UInt8} {n : UInt64} : bytes.length = 8 →
      LittleEndian.toNat bytes = n.toNat → IsTerseValue bytes (.fixed64 n)
  | bytes {length payload : List UInt8} : IsShortest (IsVarint .w64) length payload.length →
      IsTerseValue (length ++ payload) (.bytes payload)
  | fixed32 {bytes : List UInt8} {n : UInt32} : bytes.length = 4 →
      LittleEndian.toNat bytes = n.toNat → IsTerseValue bytes (.fixed32 n)

/-- Records one after the other, each with a key and a value that have
as few bytes as they can have. -/
inductive AreTerseRecords : List UInt8 → List Record → Prop where
  | nil : AreTerseRecords [] []
  | cons {key value rest : List UInt8} {record : Record} {records : List Record} :
      IsShortest IsKey key ⟨record.value.wireType, record.number⟩ →
      IsTerseValue value record.value → AreTerseRecords rest records →
      AreTerseRecords (key ++ value ++ rest) (record :: records)

/-- A value is terse exactly if it is spelled as it is written. -/
theorem isTerseValue_iff {b : List UInt8} {value : WireValue} :
    IsTerseValue b value ↔ IsValue b value ∧ b = value.encode := by
  have hvarint := @(Varint.writesShortest .w64).isShortest_iff
  constructor
  · intro h
    cases h with
    | varint hn =>
      obtain ⟨hn, rfl⟩ := hvarint.mp hn
      exact ⟨.varint hn, rfl⟩
    | fixed64 hwidth hn => exact ⟨.fixed64 hwidth hn, LittleEndian.eq_ofNat hwidth hn⟩
    | bytes hlength =>
      obtain ⟨hlength, rfl⟩ := hvarint.mp hlength
      exact ⟨.bytes hlength, rfl⟩
    | fixed32 hwidth hn => exact ⟨.fixed32 hwidth hn, LittleEndian.eq_ofNat hwidth hn⟩
  · rintro ⟨h, hencode⟩
    cases h with
    | varint hn => exact .varint (hvarint.mpr ⟨hn, hencode⟩)
    | fixed64 hwidth hn => exact .fixed64 hwidth hn
    | bytes hlength => exact .bytes (hvarint.mpr ⟨hlength, List.append_cancel_right hencode⟩)
    | fixed32 hwidth hn => exact .fixed32 hwidth hn

/-- What is written for records that have a spelling is terse. -/
theorem areTerseRecords_encodeAll {b : List UInt8} {records : List Record}
    (h : AreRecords b records) : AreTerseRecords (Record.encodeAll records) records := by
  induction h with
  | nil => exact .nil
  | cons hrecord _ ih =>
    obtain ⟨hkey, hvalue⟩ := hrecord
    rw [Record.encodeAll_cons, Record.encode]
    refine .cons (Key.writesShortest.isShortest_iff.mpr ?_) (isTerseValue_iff.mpr ?_) ih
    · exact ⟨Key.writesShortest.spells hkey, rfl⟩
    · exact ⟨WireValue.writesShortest.spells hvalue, rfl⟩

/-- Terse records are the bytes that are written for them. -/
theorem areTerseRecords_iff {b : List UInt8} {records : List Record} :
    AreTerseRecords b records ↔ AreRecords b records ∧ b = Record.encodeAll records := by
  constructor
  · intro h
    induction h with
    | nil => exact ⟨.nil, rfl⟩
    | cons hkey hvalue _ ih =>
      obtain ⟨hkey, rfl⟩ := Key.writesShortest.isShortest_iff.mp hkey
      obtain ⟨hvalue, rfl⟩ := isTerseValue_iff.mp hvalue
      obtain ⟨hrest, rfl⟩ := ih
      exact ⟨.cons (.mk hkey hvalue) hrest, (Record.encodeAll_cons _ _).symm⟩
  · rintro ⟨h, rfl⟩
    exact areTerseRecords_encodeAll h

end ProtoWire
