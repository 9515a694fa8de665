import ProtoWire.LittleEndian.Bounds
import ProtoWire.Proofs.Reads
import ProtoWire.Proofs.Record.Cuts
import ProtoWire.Proofs.Varint.Digits

/-!
# `ProtoWire.Proofs.Record.Grammar`: the grammar of records

What a record is, said as a grammar of bytes and apart from any
reader:

* `IsKey`: a 32-bit varint with the code of a layout in the low three
  bits and a field number in the others.
* `IsValue`: a 64-bit varint; eight or four bytes, lowest first; or a
  length and that many bytes. There is no value for a group.
* `IsRecord`: a key, and a value in the layout the key names.
* `AreRecords`: records one after the other.

The spellings are not unique: varints may have trailing zero digits.
But they can be told apart from the front, and the reads of the
project accept exactly these grammars: `Key.reads_read`,
`WireValue.reads_read`, `Record.reads_read`. `Record.isRecord_encode`
and `Record.areRecords_encodeAll` say that what is written is among
the spellings, as long as every payload has a length that 64 bits can
say. For a value that was read that is no question, since it has a
spelling already (`WireValue.isValue_encode_of_isValue`).
-/

set_option autoImplicit false

namespace ProtoWire

open Varint (IsVarint)

/-! ### The grammar -/

/-- The bytes of a key. -/
def IsKey (bytes : List UInt8) (key : Key) : Prop :=
  ∃ bits, IsVarint .w32 bytes bits ∧ bits % 8 = key.wireType.code ∧ bits / 8 = key.number.val

/-- The bytes of a value. -/
inductive IsValue : List UInt8 → WireValue → Prop where
  | varint {bytes : List UInt8} {n : UInt64} : IsVarint .w64 bytes n.toNat →
      IsValue bytes (.varint n)
  | fixed64 {bytes : List UInt8} {n : UInt64} : bytes.length = 8 →
      LittleEndian.toNat bytes = n.toNat → IsValue bytes (.fixed64 n)
  | bytes {length payload : List UInt8} : IsVarint .w64 length payload.length →
      IsValue (length ++ payload) (.bytes payload)
  | fixed32 {bytes : List UInt8} {n : UInt32} : bytes.length = 4 →
      LittleEndian.toNat bytes = n.toNat → IsValue bytes (.fixed32 n)

/-- The bytes of a record. -/
inductive IsRecord : List UInt8 → Record → Prop where
  | mk {key value : List UInt8} {record : Record} :
      IsKey key ⟨record.value.wireType, record.number⟩ → IsValue value record.value →
      IsRecord (key ++ value) record

/-- The bytes of some records, one after the other. -/
inductive AreRecords : List UInt8 → List Record → Prop where
  | nil : AreRecords [] []
  | cons {bytes rest : List UInt8} {record : Record} {records : List Record} :
      IsRecord bytes record → AreRecords rest records →
      AreRecords (bytes ++ rest) (record :: records)

/-- A record has bytes. -/
theorem IsRecord.ne_nil {b : List UInt8} {record : Record}
    (h : IsRecord b record) : b ≠ [] := by
  obtain ⟨⟨bits, hvarint, -⟩, -⟩ := h
  exact List.append_ne_nil_of_left_ne_nil
    (List.ne_nil_of_length_pos hvarint.digits.length_pos) _

/-! ### The reads accept it -/

/-- A varint is read as its number. -/
theorem Varint.reads_readValue (w : Width) : (readValue w).Reads (IsVarint w) where
  sound {input rest n} hrun := by
    have hout := outcome_readValue w input
    rw [Decoder.outcome_of_ok hrun] at hout
    cases hdec : decode w input.bytes with
    | error e =>
      rw [hdec] at hout
      cases hout
    | ok found =>
      obtain ⟨value, count⟩ := found
      rw [hdec] at hout
      injection hout with hout
      injection hout with hn hrest
      simp only at hn hrest
      subst hn
      refine ⟨input.bytes.take count, ?_, (isVarint_of_decode hdec).2⟩
      rw [hrest, List.take_append_drop]
  complete {input b z n} hb h := by
    have hout := outcome_readValue w input
    rw [hb, decode_append h z] at hout
    obtain ⟨rest, hrun, hrest⟩ := Decoder.eq_ok_of_outcome hout
    refine ⟨rest, hrun, ?_⟩
    rw [hrest, List.drop_left]

/-- What stands in front of a length that is read is a varint. -/
theorem Payload.reads_readLength : readLength.Reads (IsVarint .w64) := by
  rw [readLength, Varint.readShort_eq_readValue]
  exact Varint.reads_readValue .w64

/-- A payload is read as the bytes that its length counts. -/
theorem Payload.reads_read :
    read.Reads fun b payload =>
      ∃ length, b = length ++ payload ∧ IsVarint .w64 length payload.length := by
  rw [read_eq]
  refine (reads_readLength.bind Decoder.Reads.takeBytes).congr fun b payload => ?_
  constructor
  · intro hsteps
    rcases hsteps with ⟨length, _, n, rfl, hlength, rfl, rfl⟩
    exact ⟨length, rfl, hlength⟩
  · intro hgrammar
    rcases hgrammar with ⟨length, rfl, hlength⟩
    exact ⟨length, payload, payload.length, rfl, hlength, rfl, rfl⟩

namespace Key

/-- The bits of a key say its layout and its number, and every pair
that can be said is a key. -/
theorem ofPacked_eq_ok_iff {bits : Nat} {key : Key} :
    ofPacked bits = .ok key ↔ bits % 8 = key.wireType.code ∧ bits / 8 = key.number.val := by
  constructor
  · intro h
    cases hlayout : WireType.ofCode? (bits % 8) with
    | none => simp [ofPacked, ofCode, WireType.ofCode, hlayout] at h
    | some wireType =>
      cases hnumber : FieldNumber.ofNat? (bits / 8) with
      | none => simp [ofPacked, ofCode, WireType.ofCode, ofParts, hlayout, hnumber] at h
      | some number =>
        simp only [ofPacked, ofCode, WireType.ofCode, ofParts, hlayout, hnumber] at h
        cases h
        exact ⟨WireType.ofCode?_eq_some_iff.mp hlayout, FieldNumber.ofNat?_eq_some_iff.mp hnumber⟩
  · intro hgrammar
    rcases hgrammar with ⟨hlayout, hnumber⟩
    simp [ofPacked, ofCode, WireType.ofCode, ofParts, hlayout, hnumber]

/-- What is read as a key is one, and every key is read. -/
theorem reads_read : read.Reads IsKey := by
  have hbits : (Varint.readValue .w32 >>= fun bits => Decoder.ofExcept (ofPacked bits)).Reads
      IsKey := by
    refine ((Varint.reads_readValue .w32).bind_of_nil (H := fun bits key =>
      ofPacked bits = .ok key) fun bits => ?_).congr fun b key => ?_
    · cases hkey : ofPacked bits with
      | ok key =>
        refine (Decoder.Reads.pure key).congr fun b key' => and_congr_right fun _ => ?_
        simp [eq_comm]
      | error e => exact (Decoder.Reads.throw e).congr fun b key' => by simp
    · simp only [ofPacked_eq_ok_iff, IsKey]
  constructor
  · intro input rest key hrun
    by_cases hempty : input.bytes = []
    · rw [read_of_nil hempty] at hrun
      cases hrun
    · rw [read_of_ne_nil hempty] at hrun
      exact hbits.sound hrun
  · intro input b z key hb hkey
    -- A key has a byte, so the input is not empty where one stands.
    have hne : input.bytes ≠ [] := by
      obtain ⟨bits, hvarint, -⟩ := hkey
      have hpos := hvarint.digits.length_pos
      rw [hb]
      exact List.append_ne_nil_of_left_ne_nil (List.ne_nil_of_length_pos hpos) z
    rw [read_of_ne_nil hne]
    exact hbits.complete hb hkey

end Key

namespace WireValue

/-- A value is read in its layout: each layout has its own production
of the grammar, and the group markers have none. -/
theorem reads_read (wireType : WireType) :
    (read wireType).Reads fun b value => IsValue b value ∧ value.wireType = wireType := by
  cases wireType with
  | varint =>
    refine ((Varint.reads_readValue .w64).map _).congr fun b value => ?_
    constructor
    · intro hsteps
      rcases hsteps with ⟨n, hn, rfl⟩
      refine ⟨.varint ?_, rfl⟩
      rwa [UInt64.toNat_ofNat_of_lt' hn.lt]
    · intro hgrammar
      rcases hgrammar with ⟨hvalue, hlayout⟩
      cases hvalue with
      | @varint _ n hn => exact ⟨n.toNat, hn, by rw [UInt64.ofNat_toNat]⟩
      | _ => cases hlayout
  | i64 =>
    refine ((Decoder.Reads.takeBytes 8).map _).congr fun b value => ?_
    constructor
    · intro hsteps
      rcases hsteps with ⟨bs, ⟨rfl, hlen⟩, rfl⟩
      -- Eight bytes are below 2 ^ 64, so nothing of the number is lost.
      have hlt := LittleEndian.toNat_lt b
      rw [hlen] at hlt
      exact ⟨.fixed64 hlen (UInt64.toNat_ofNat_of_lt' hlt).symm, rfl⟩
    · intro hgrammar
      rcases hgrammar with ⟨hvalue, hlayout⟩
      cases hvalue with
      | @fixed64 _ n hlen hn => exact ⟨b, ⟨rfl, hlen⟩, by rw [hn, UInt64.ofNat_toNat]⟩
      | _ => cases hlayout
  | len =>
    refine (Payload.reads_read.map _).congr fun b value => ?_
    constructor
    · intro hsteps
      rcases hsteps with ⟨payload, ⟨length, rfl, hlength⟩, rfl⟩
      exact ⟨.bytes hlength, rfl⟩
    · intro hgrammar
      rcases hgrammar with ⟨hvalue, hlayout⟩
      cases hvalue with
      | @bytes length payload hlength => exact ⟨payload, ⟨length, rfl, hlength⟩, rfl⟩
      | _ => cases hlayout
  | i32 =>
    refine ((Decoder.Reads.takeBytes 4).map _).congr fun b value => ?_
    constructor
    · intro hsteps
      rcases hsteps with ⟨bs, ⟨rfl, hlen⟩, rfl⟩
      have hlt := LittleEndian.toNat_lt b
      rw [hlen] at hlt
      exact ⟨.fixed32 hlen (UInt32.toNat_ofNat_of_lt' hlt).symm, rfl⟩
    · intro hgrammar
      rcases hgrammar with ⟨hvalue, hlayout⟩
      cases hvalue with
      | @fixed32 _ n hlen hn => exact ⟨b, ⟨rfl, hlen⟩, by rw [hn, UInt32.ofNat_toNat]⟩
      | _ => cases hlayout
  | startGroup =>
    refine (Decoder.Reads.throw _).congr fun b value => ⟨False.elim, fun h => ?_⟩
    cases value <;> cases h.2
  | endGroup =>
    refine (Decoder.Reads.throw _).congr fun b value => ⟨False.elim, fun h => ?_⟩
    cases value <;> cases h.2

/-- What is written is a spelling of the value, unless it is a payload
whose length 64 bits cannot say. -/
theorem isValue_encode_of_payload {value : WireValue}
    (h : ∀ payload, value = .bytes payload → payload.length < UInt64.size) :
    IsValue value.encode value := by
  cases value with
  | varint n => exact .varint (Varint.isVarint_encode n.toNat_lt)
  | fixed64 n =>
    exact .fixed64 (LittleEndian.length_ofNat 8 _) (LittleEndian.toNat_ofNat 8 _ n.toNat_lt)
  | bytes payload => exact .bytes (Varint.isVarint_encode (h payload rfl))
  | fixed32 n =>
    exact .fixed32 (LittleEndian.length_ofNat 4 _) (LittleEndian.toNat_ofNat 4 _ n.toNat_lt)

/-- The bytes of a value spell it, if 64 bits can say how many they
are. -/
theorem isValue_encode (value : WireValue) (h : value.size < UInt64.size) :
    IsValue value.encode value := by
  refine isValue_encode_of_payload ?_
  rintro payload rfl
  -- The length is written in front of that many bytes, so it is less than the size.
  have hle : payload.length ≤ Payload.size payload.length := Nat.le_add_left _ _
  exact Nat.lt_of_le_of_lt hle h

/-- A value that has any spelling has the one that is written. -/
theorem isValue_encode_of_isValue {b : List UInt8} {value : WireValue} (h : IsValue b value) :
    IsValue value.encode value := by
  refine isValue_encode_of_payload ?_
  rintro payload rfl
  cases h with
  | bytes hlength => exact hlength.lt

/-- As many bytes are written for a value as are counted. -/
theorem length_encode (value : WireValue) : value.encode.length = value.size := by
  cases value with
  | varint n => exact Varint.length_encode _
  | fixed64 n => exact LittleEndian.length_ofNat 8 _
  | bytes payload =>
    show (Varint.encode payload.length ++ payload).length = Payload.size payload.length
    rw [List.length_append, Varint.length_encode, Payload.size]
  | fixed32 n => exact LittleEndian.length_ofNat 4 _

end WireValue

namespace Key

/-- What is written for a layout and a field number is the key of
both. -/
theorem isKey_encode (wireType : WireType) (number : FieldNumber) :
    IsKey (encode wireType number.val) ⟨wireType, number⟩ := by
  have hcode := wireType.code_lt
  have hlargest := number.le_largest
  have hbits := packed_of_number wireType number
  refine ⟨packed wireType number.val, Varint.isVarint_encode ?_, ?_, ?_⟩
  · show packed wireType number.val < 4294967296
    omega
  · show packed wireType number.val % 8 = wireType.code
    omega
  · show packed wireType number.val / 8 = number.val
    omega

/-- The code of the layout fills the low three bits, which never costs
a byte. -/
theorem length_encode (wireType : WireType) (number : FieldNumber) :
    (encode wireType number.val).length = size number.val := by
  have hcode := wireType.code_lt
  have hlargest := number.le_largest
  have hmod : 8 * number.val % UInt32.size = 8 * number.val :=
    Nat.mod_eq_of_lt (show 8 * number.val < 4294967296 by omega)
  rw [encode, Varint.length_encode, packed_of_number, size, hmod, Varint.size, Varint.size]
  have hlog : (8 * number.val + wireType.code).log2 = (8 * number.val).log2 := by
    have hne : number.val ≠ 0 := Nat.one_le_iff_ne_zero.mp number.one_le
    obtain ⟨hlow, hhigh⟩ := (Nat.log2_eq_iff hne).mp rfl
    -- Eight times a number has its highest bit three places up, with or without a code.
    have hshift : (8 * number.val).log2 = number.val.log2 + 3 := by
      rw [Nat.log2_eq_iff (by omega), Nat.add_right_comm, Nat.pow_add, Nat.pow_add]
      omega
    rw [hshift, Nat.log2_eq_iff (by omega), Nat.add_right_comm, Nat.pow_add, Nat.pow_add]
    omega
  rw [hlog]

end Key

namespace Record

/-- Behind a key, a value of its layout is read as the record under its
number. -/
theorem reads_readValue (key : Key) :
    (readValue key).Reads fun b record =>
      IsValue b record.value ∧ key = ⟨record.value.wireType, record.number⟩ := by
  refine ((WireValue.reads_read key.wireType).map _).congr fun b record => ?_
  constructor
  · intro hsteps
    rcases hsteps with ⟨value, ⟨hvalue, hlayout⟩, rfl⟩
    exact ⟨hvalue, by rw [hlayout]⟩
  · intro hgrammar
    rcases hgrammar with ⟨hvalue, rfl⟩
    exact ⟨record.value, ⟨hvalue, rfl⟩, rfl⟩

/-- What is read as a record is one, and every record is read. -/
theorem reads_read : read.Reads IsRecord := by
  refine (Key.reads_read.bind reads_readValue).congr fun b record => ?_
  constructor
  · intro hsteps
    rcases hsteps with ⟨kb, vb, key, rfl, hkey, hvalue, rfl⟩
    exact .mk hkey hvalue
  · intro hgrammar
    rcases hgrammar with ⟨hkey, hvalue⟩
    exact ⟨_, _, _, rfl, hkey, hvalue, rfl⟩

/-- The bytes of a record spell it, if 64 bits can say how many they
are. -/
theorem isRecord_encode (record : Record) (h : record.size < UInt64.size) :
    IsRecord record.encode record := by
  refine .mk (Key.isKey_encode _ _) (WireValue.isValue_encode _ ?_)
  exact Nat.lt_of_le_of_lt (Nat.le_add_left _ _) h

/-- A record is written as a record, whatever else spells its value. -/
theorem isRecord_encode_of_isValue {b : List UInt8} {record : Record}
    (h : IsValue b record.value) : IsRecord record.encode record :=
  .mk (Key.isKey_encode _ _) (WireValue.isValue_encode_of_isValue h)

/-- As many bytes are written for a record as are counted. -/
theorem length_encode (record : Record) : record.encode.length = record.size := by
  show (Key.encode record.value.wireType record.number.val ++ record.value.encode).length
    = Key.size record.number.val + record.value.size
  rw [List.length_append, Key.length_encode, WireValue.length_encode]

/-- As many bytes are written for some records as are counted. -/
theorem length_encodeAll (records : List Record) :
    (encodeAll records).length = sizeAll records := by
  induction records with
  | nil => rfl
  | cons record records ih =>
    rw [encodeAll_cons, sizeAll_cons, List.length_append, length_encode, ih]

/-- Records whose bytes spell them spell the list of them. -/
theorem areRecords_encodeAll_of_forall {records : List Record}
    (h : ∀ record ∈ records, IsRecord record.encode record) :
    AreRecords (encodeAll records) records := by
  induction records with
  | nil => exact .nil
  | cons record records ih =>
    obtain ⟨hrecord, hrest⟩ := List.forall_mem_cons.mp h
    rw [encodeAll_cons]
    exact .cons hrecord (ih hrest)

/-- The bytes of a list of records spell it, if 64 bits can say how many
they are. -/
theorem areRecords_encodeAll (records : List Record) (h : sizeAll records < UInt64.size) :
    AreRecords (encodeAll records) records := by
  refine areRecords_encodeAll_of_forall fun record hrecord => isRecord_encode record ?_
  exact Nat.lt_of_le_of_lt (size_le_sizeAll hrecord) h

end Record

/-! ### Records one after the other -/

namespace AreRecords

/-- Records behind records are records. -/
theorem append {b c : List UInt8} {rs ss : List Record} (hb : AreRecords b rs)
    (hc : AreRecords c ss) : AreRecords (b ++ c) (rs ++ ss) := by
  induction hb with
  | nil => exact hc
  | cons hr _ ih =>
    rw [List.append_assoc]
    exact .cons hr ih

/-- Among the bytes of some records, the value of each is spelled. -/
theorem isValue_of_mem {b : List UInt8} {records : List Record} (h : AreRecords b records)
    {record : Record} (hrecord : record ∈ records) : ∃ b', IsValue b' record.value := by
  induction h with
  | nil => cases hrecord
  | cons hr _ ih =>
    rcases List.mem_cons.mp hrecord with rfl | hrest
    · obtain ⟨-, hvalue⟩ := hr
      exact ⟨_, hvalue⟩
    · exact ih hrest

/-- Where records stand in front of other bytes, whatever records all of
these are begin with them. -/
theorem of_append {b z : List UInt8} {rs ss : List Record} (h : AreRecords b rs)
    (h' : AreRecords (b ++ z) ss) : ∃ ts, ss = rs ++ ts ∧ AreRecords z ts := by
  induction h generalizing ss with
  | nil => exact ⟨ss, rfl, h'⟩
  | @cons b rest r rs hr _ ih =>
    generalize hb : b ++ rest ++ z = c at h'
    rw [List.append_assoc] at hb
    cases h' with
    | nil => exact absurd (List.append_eq_nil_iff.mp hb).1 hr.ne_nil
    | cons hr' hrs' =>
      -- Two records in front of the same bytes are the one that would be read there.
      obtain ⟨hrecord, -, hrest⟩ := Record.reads_read.unique hr hr' hb
      subst hrecord
      subst hrest
      obtain ⟨ts, rfl, hts⟩ := ih hrs'
      exact ⟨ts, rfl, hts⟩

/-- No bytes are no records. -/
theorem eq_nil_of_nil {rs : List Record} (h : AreRecords [] rs) : rs = [] := by
  generalize hb : ([] : List UInt8) = b at h
  cases h with
  | nil => rfl
  | cons hr _ => exact absurd (List.append_eq_nil_iff.mp hb.symm).1 hr.ne_nil

/-- No records have no bytes. -/
theorem bytes_eq_nil {b : List UInt8} (h : AreRecords b []) : b = [] := by
  cases h
  rfl

/-- Bytes are the spelling of at most one list of records. -/
theorem unique {b : List UInt8} {rs ss : List Record} (h : AreRecords b rs)
    (h' : AreRecords b ss) : rs = ss := by
  rw [← List.append_nil b] at h'
  obtain ⟨ts, rfl, hts⟩ := h.of_append h'
  rw [hts.eq_nil_of_nil, List.append_nil]

end AreRecords

end ProtoWire
