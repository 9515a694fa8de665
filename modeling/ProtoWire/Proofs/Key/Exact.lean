import ProtoWire.Proofs.Key.Words
import ProtoWire.Proofs.Record.Faults
import ProtoWire.Proofs.Varint.Gather

/-!
# `ProtoWire.Proofs.Key.Exact`: what is read as a key, and what is written

`IsKey` and `KeyFault` say which bytes are a key and what is wrong with
the others. Here the answers of reading a key are told by the varint in
front: by its number alone, and with the bytes that are used up, also
where there is no key.

* `read_cases`: without a byte the key is missing, and in no other
  case. A varint is used up even if its number is no key. Of such a
  number the layout is blamed before the field number.
* `read_encode_append`: the key of a field number is read back, with
  the bytes that are counted without a look at the layout. Other numbers
  are written as they are cut off by the shift.
* `read_encode_append_and_read_cases`: both, and no key begins with
  another.
-/

set_option autoImplicit false

namespace ProtoWire.Key

/-! ### Reading -/

variable {input rest : Input} {n count : Nat}

/-- A varint is read first, and its number is judged then. -/
theorem read_of_varint_ok (h : Varint.read .w32 input = .ok (n, count) rest) :
    read input = Decoder.ofExcept (ofPacked n) rest :=
  read_of_readValue_ok (Decoder.map_of_ok Prod.fst h)

/-- Behind a varint, its number is all that counts, and nothing more is
read. -/
theorem read_of_ofPacked_ok {key : Key} (h : Varint.read .w32 input = .ok (n, count) rest)
    (hkey : ofPacked n = .ok key) : read input = .ok key rest := by
  rw [read_of_varint_ok h, hkey]
  rfl

/-- What is wrong with the number is found behind the varint. -/
theorem read_of_ofPacked_error {e : DecodeError}
    (h : Varint.read .w32 input = .ok (n, count) rest) (hkey : ofPacked n = .error e) :
    read input = .error e rest := by
  rw [read_of_varint_ok h, hkey]
  rfl

/-- The number of a key fits in 32 bits. -/
theorem lt_of_varint_ok (h : Varint.read .w32 input = .ok (n, count) rest) :
    n < UInt32.size :=
  Varint.decode_lt (Varint.decode_of_read_ok h)

/-- Only a key that should begin where nothing is left is missing. -/
theorem eq_nil_of_missing {bytes : List UInt8} (h : KeyFault bytes .missingKey) : bytes = [] := by
  cases h with
  | missing => rfl
  | digits _ hfault => cases hfault

/-- A key is missing exactly where no byte is left, and nothing is used
up then. -/
theorem read_eq_missingKey_iff :
    read input = .error .missingKey rest ↔ input.bytes = [] ∧ rest = input := by
  constructor
  · intro h
    have hnil := eq_nil_of_missing (rejects_read.sound h)
    rw [read_of_nil hnil] at h
    cases h
    exact ⟨hnil, rfl⟩
  · rintro ⟨hnil, rfl⟩
    exact read_of_nil hnil

/-- A number that says a layout and is at least eight is a key. -/
theorem exists_ofPacked_eq_ok (hlt : n < UInt32.size) (hcode : n % 8 < 6) (hnumber : 8 ≤ n) :
    ∃ key, ofPacked n = .ok key := by
  cases hkey : ofPacked n with
  | ok key => exact ⟨key, rfl⟩
  | error e =>
    rcases (ofPacked_eq_error_iff hlt).mp hkey with ⟨hsix, -⟩ | ⟨-, hzero, -⟩
    · omega
    · omega

/-- The answers of reading a key, told by the varint in front. -/
structure ReadsExactly (input : Input) : Prop where
  missing_iff : ∀ rest,
    read input = .error .missingKey rest ↔ input.bytes = [] ∧ rest = input
  /-- Where there is no varint, this is what is wrong. -/
  digits : input.bytes ≠ [] → ∀ e rest, Varint.read .w32 input = .error e rest →
    read input = .error e rest
  /-- A varint is used up, and nothing behind it, in all three cases that
  follow. -/
  used : ∀ n count rest, Varint.read .w32 input = .ok (n, count) rest →
    read.rest input = rest ∧ rest.bytes = input.bytes.drop count
  layout : ∀ n count rest, Varint.read .w32 input = .ok (n, count) rest → 6 ≤ n % 8 →
    read input = .error (.invalidWireType (n % 8)) rest
  number : ∀ n count rest, Varint.read .w32 input = .ok (n, count) rest → n % 8 < 6 → n < 8 →
    read input = .error .fieldNumberOutOfRange rest
  found : ∀ n count rest, Varint.read .w32 input = .ok (n, count) rest → n % 8 < 6 → 8 ≤ n →
    ∃ key, read input = .ok key rest ∧ key.wireType.code = n % 8 ∧ key.number.val = n / 8
  /-- A byte that can be taken as it is would have been read as that. -/
  short : ∀ b more, input.chunk = b :: more → b.toNat < 128 →
    Varint.readValue .w32 input = .ok b.toNat (input.advance 1)
  short_eq : Varint.readShort .w32 input = Varint.readValue .w32 input
  /-- In a word, the same is read. -/
  word_eq : readWord input = (word <$> read) input

/-- Whatever stands in front, one of the answers is given, and the
varint decides which. -/
theorem read_cases (input : Input) : ReadsExactly input where
  missing_iff _ := read_eq_missingKey_iff
  digits hne e rest h := read_of_readValue_error hne (Decoder.map_of_error Prod.fst h)
  used n count rest h := by
    refine ⟨?_, (Varint.used_of_read_ok h).2⟩
    cases hkey : ofPacked n with
    | ok key => exact Decoder.rest_of_ok (read_of_ofPacked_ok h hkey)
    | error e => exact Decoder.rest_of_error (read_of_ofPacked_error h hkey)
  layout n count rest h hcode := by
    have hkey := (ofPacked_eq_error_iff (lt_of_varint_ok h)).mpr (.inl ⟨hcode, rfl⟩)
    exact read_of_ofPacked_error h hkey
  number n count rest h hcode hnumber := by
    -- A number below eight has nothing above the code.
    have hzero : n / 8 = 0 := Nat.div_eq_of_lt hnumber
    have hkey := (ofPacked_eq_error_iff (lt_of_varint_ok h)).mpr (.inr ⟨hcode, hzero, rfl⟩)
    exact read_of_ofPacked_error h hkey
  found n count rest h hcode hnumber := by
    obtain ⟨key, hkey⟩ := exists_ofPacked_eq_ok (lt_of_varint_ok h) hcode hnumber
    obtain ⟨hlayout, hval⟩ := ofPacked_eq_ok_iff.mp hkey
    exact ⟨key, read_of_ofPacked_ok h hkey, hlayout.symm, hval.symm⟩
  short _ _ hchunk hb := Varint.readValue_of_lt hchunk hb
  short_eq := congrFun (Varint.readShort_eq_readValue .w32) input
  word_eq := congrFun readWord_eq input

/-! ### Writing -/

/-- The bits are or-ed together in a word, and the size is that of the
number alone. -/
theorem encode_toNat (wireType : WireType) (number : UInt32) :
    encode wireType number.toNat = Varint.encode (packWord wireType number).toNat ∧
      size number.toNat = Varint.size (number <<< 3).toNat := by
  rw [toNat_packWord, toNat_shiftLeft_three]
  exact ⟨rfl, rfl⟩

/-- What is written for a layout and the number of a field. -/
structure WritesExactly (wireType : WireType) (number : Nat) (key : Key) : Prop where
  ofParts_eq : ofParts wireType number = .ok key
  layout_eq : key.wireType = wireType
  number_eq : key.number.val = number
  /-- The layout is not asked for. -/
  length : (encode wireType number).length = size number
  /-- The key is read back wherever the bytes are cut, and it is all that
  is used up. -/
  read_eq : ∀ (input : Input) (tail : List UInt8), input.bytes = encode wireType number ++ tail →
    ∃ rest, read input = .ok key rest ∧ rest.bytes = tail ∧
      input.remaining = size number + rest.remaining

/-- The key of a layout and a field number is read back, in front of any
bytes. -/
theorem read_encode_append (wireType : WireType) (number : FieldNumber) :
    WritesExactly wireType number.val ⟨wireType, number⟩ where
  ofParts_eq := by simp [ofParts]
  layout_eq := rfl
  number_eq := rfl
  length := length_encode wireType number
  read_eq input tail hbytes := by
    obtain ⟨rest, hrun, htail⟩ := reads_read.complete hbytes (isKey_encode wireType number)
    refine ⟨rest, hrun, htail, ?_⟩
    rw [Input.remaining_eq_length, Input.remaining_eq_length, hbytes, htail, List.length_append,
      length_encode]

/-! ### There and back -/

/-- Reading and writing keys. -/
structure CodedExactly : Prop where
  reads : ∀ input, ReadsExactly input
  writes : ∀ wireType number, 1 ≤ number → number ≤ 2 ^ 29 - 1 →
    ∃ key, WritesExactly wireType number key
  /-- Different layouts and numbers have different bytes, and none begin
  with those of others. -/
  unique : ∀ (wireType wireType' : WireType) (number number' : FieldNumber)
    (tail tail' : List UInt8),
    encode wireType number.val ++ tail = encode wireType' number'.val ++ tail' →
      wireType = wireType' ∧ number = number' ∧ tail = tail'
  /-- Writing by way of a word, also of what is no field number. -/
  encode_eq : ∀ wireType (number : UInt32),
    encode wireType number.toNat = Varint.encode (packWord wireType number).toNat ∧
      size number.toNat = Varint.size (number <<< 3).toNat
  wordOfParts_eq : ∀ wireType (number : UInt32),
    wordOfParts wireType number = (ofParts wireType number.toNat).map word
  /-- Every word that is accepted is that of its key. -/
  word_iff : ∀ (bits : UInt32) (key : Key), ofPacked bits.toNat = .ok key ↔ bits = key.word
  /-- The parts of a key are those that are got out of its word. -/
  parts : ∀ key : Key, layoutOfWord key.word = key.wireType ∧
    (numberOfWord key.word).toNat = key.number.val

/-- **Keys are read and written exactly**. A key stands for one layout
and one field number and is read back as these, whatever follows and
however it is cut. What is read otherwise is told by the number in
front: the key of its bits, or what is wrong with them. -/
theorem read_encode_append_and_read_cases : CodedExactly where
  reads := read_cases
  writes wireType number hone hlargest :=
    ⟨_, read_encode_append wireType ⟨number, hone, hlargest⟩⟩
  unique wireType wireType' number number' tail tail' h := by
    obtain ⟨hkey, -, htail⟩ := reads_read.unique (isKey_encode wireType number)
      (isKey_encode wireType' number') h
    injection hkey with hlayout hnumber
    exact ⟨hlayout, hnumber, htail⟩
  encode_eq := encode_toNat
  wordOfParts_eq := wordOfParts_eq
  word_iff _ _ := ofPacked_eq_ok_iff_word
  parts key := ⟨layoutOfWord_word key, toNat_numberOfWord_word key⟩

/-- The greatest key takes five bytes. A varint of two digits that is no
key is used up, and what is behind it is left. -/
example :
    encode .i32 536870911 = [0xfd, 0xff, 0xff, 0xff, 0x0f] ∧
      read (.ofBytes [0x86, 0x00, 0x08]) = .error (.invalidWireType 6) (.ofBytes [0x08]) ∧
      read (.ofBytes [0x85, 0x00, 0x08]) = .error .fieldNumberOutOfRange (.ofBytes [0x08]) :=
  ⟨by simp [encode, packed, UInt32.size, WireType.code, Varint.encode], rfl, rfl⟩

end ProtoWire.Key
