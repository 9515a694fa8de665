import ProtoWire.Proofs.Record.Grammar

/-!
# `ProtoWire.Proofs.Key.Words`: keys in 32-bit words

A `Key` is a layout and a field number. In memory it is one word of 32
bits, the number shifted over the code of the layout, and the two are
got out of the word again by shifting and masking. A word has room for
numbers that are no field number and for codes that no layout has. So a
word is checked when it is made into a key, and never again.

* `toNat_packWord`: the code is or-ed into bits that the shift has left
  empty, which adds it. Of a number that is too large the same bits are
  lost in the word as in `Key.packed`.
* `checkWord_eq`: a word is accepted exactly if its bits are a key, and
  the error of its bits is the error of the word.
* `ofPacked_eq_ok_iff_word`: what is accepted is the word of its key.
* `layoutOfWord_word`, `toNat_numberOfWord_word`: the parts of that word
  are those of the key. The layout is found by telling five codes apart
  and taking what is left for the sixth, and this is where the check is
  needed.
* `readWord_eq`: reading a word and checking it is reading a key.
-/

set_option autoImplicit false

namespace ProtoWire.Key

/-- The word of a layout and a number. -/
def packWord (wireType : WireType) (number : UInt32) : UInt32 :=
  number <<< 3 ||| UInt32.ofNat wireType.code

/-- The number in a word. -/
def numberOfWord (bits : UInt32) : UInt32 :=
  bits >>> 3

/-- The layout in a word. What is none of the first five codes is taken
for the sixth. -/
def layoutOfWord (bits : UInt32) : WireType :=
  match (bits &&& 7).toNat with
  | 0 => .varint
  | 1 => .i64
  | 2 => .len
  | 3 => .startGroup
  | 4 => .endGroup
  | _ => .i32

/-- The word of a layout and a number, if the number can be one and the
word is not zero. -/
def wordOfParts (wireType : WireType) (number : UInt32) : Except DecodeError UInt32 :=
  if number < 1 ∨ 536870911 < number then .error .fieldNumberOutOfRange
  else if packWord wireType number = 0 then .error .fieldNumberOutOfRange
  else .ok (packWord wireType number)

/-- Makes a word into a key. Its low byte has the code of the layout. -/
def checkWord (bits : UInt32) : Except DecodeError UInt32 :=
  match WireType.ofCode (bits.toUInt8 &&& 7).toNat with
  | .ok wireType => wordOfParts wireType (numberOfWord bits)
  | .error e => .error e

/-- Reads a key as a word. A byte of its own is taken without further
checks. -/
def readWord : Decoder UInt32 := fun input =>
  if input.isEmpty then .error .missingKey input
  else
    match Varint.readShort .w32 input with
    | .ok bits rest => Decoder.ofExcept (checkWord (UInt32.ofNat bits)) rest
    | .error e rest => .error e rest

/-- The word of a key. -/
def word (key : Key) : UInt32 :=
  packWord key.wireType (UInt32.ofNat key.number.val)

variable {bits : UInt32} {wireType : WireType} {key : Key}

/-! ### Shifting and masking -/

/-- Three bits are shifted out at the top. -/
theorem toNat_shiftLeft_three (number : UInt32) :
    (number <<< 3).toNat = 8 * number.toNat % UInt32.size := by
  rw [UInt32.toNat_shiftLeft]
  show number.toNat <<< 3 % 2 ^ 32 = 8 * number.toNat % 2 ^ 32
  rw [Nat.shiftLeft_eq, Nat.mul_comm]

/-- Shifting the code out leaves the number. -/
theorem toNat_numberOfWord (bits : UInt32) : (numberOfWord bits).toNat = bits.toNat / 8 := by
  show (bits >>> 3).toNat = bits.toNat / 8
  rw [UInt32.toNat_shiftRight]
  exact Nat.shiftRight_eq_div_pow bits.toNat 3

/-- The three low bits are the code. -/
theorem toNat_and_seven (bits : UInt32) : (bits &&& 7).toNat = bits.toNat % 8 := by
  rw [UInt32.toNat_and]
  exact Nat.and_two_pow_sub_one_eq_mod bits.toNat 3

/-- The low byte has the same low bits. -/
theorem toNat_toUInt8_and_seven (bits : UInt32) :
    (bits.toUInt8 &&& 7).toNat = bits.toNat % 8 := by
  have hlow : (bits.toUInt8 &&& 7).toNat = bits.toNat % 256 % 8 := by
    rw [UInt8.toNat_and, UInt32.toNat_toUInt8]
    exact Nat.and_two_pow_sub_one_eq_mod (bits.toNat % 256) 3
  omega

/-- The shift leaves the low three bits empty, so the code has them to
itself. -/
theorem toNat_packWord (wireType : WireType) (number : UInt32) :
    (packWord wireType number).toNat = packed wireType number.toNat := by
  have hcode := wireType.code_lt
  have hsmall : (UInt32.ofNat wireType.code).toNat = wireType.code :=
    UInt32.toNat_ofNat_of_lt' (show wireType.code < 4294967296 by omega)
  have hshift : 8 * number.toNat % UInt32.size = 2 ^ 3 * (number.toNat % 2 ^ 29) := by
    show 8 * number.toNat % 4294967296 = _
    omega
  have hlow : wireType.code < 2 ^ 3 := by omega
  rw [packWord, UInt32.toNat_or, toNat_shiftLeft_three, hsmall, packed, hshift,
    Nat.two_pow_add_eq_or_of_lt hlow]

/-! ### The word of a key -/

/-- The word of a key is its number and, in the three low bits, its
code. -/
theorem toNat_word (key : Key) : key.word.toNat = 8 * key.number.val + key.wireType.code := by
  have hlargest := key.number.le_largest
  have hnumber : (UInt32.ofNat key.number.val).toNat = key.number.val :=
    UInt32.toNat_ofNat_of_lt' (show key.number.val < 4294967296 by omega)
  rw [word, toNat_packWord, hnumber, packed_of_number]

/-- A word that is a key is the word of that key. -/
theorem ofPacked_eq_ok_iff_word : ofPacked bits.toNat = .ok key ↔ bits = key.word := by
  have hcode := key.wireType.code_lt
  rw [ofPacked_eq_ok_iff, ← UInt32.toNat_inj, toNat_word]
  omega

/-- The number of a key is got out of its word again. -/
theorem toNat_numberOfWord_word (key : Key) : (numberOfWord key.word).toNat = key.number.val := by
  have hcode := key.wireType.code_lt
  rw [toNat_numberOfWord, toNat_word]
  omega

/-- The layout of a key is got out of its word again. -/
theorem layoutOfWord_word (key : Key) : layoutOfWord key.word = key.wireType := by
  have hlow : (key.word &&& 7).toNat = key.wireType.code := by
    have hcode := key.wireType.code_lt
    rw [toNat_and_seven, toNat_word]
    omega
  rw [layoutOfWord, hlow]
  cases key.wireType <;> rfl

/-! ### Checking a word -/

/-- Of a layout and a number a key is made if the number is in the
range. -/
theorem ofParts_eq (wireType : WireType) (n : Nat) :
    ofParts wireType n
      = if h : 1 ≤ n ∧ n ≤ 536870911 then .ok ⟨wireType, n, h.1, h.2⟩
        else .error .fieldNumberOutOfRange := by
  by_cases h : 1 ≤ n ∧ n ≤ 536870911
  · have hnumber : FieldNumber.ofNat? n = some ⟨n, h.1, h.2⟩ := dif_pos h
    simp [ofParts, hnumber, h]
  · have hnumber : FieldNumber.ofNat? n = none := dif_neg h
    simp [ofParts, hnumber, h]

/-- The word of a number that is large enough is not zero, so the second
test never fails. -/
theorem wordOfParts_eq (wireType : WireType) (number : UInt32) :
    wordOfParts wireType number = (ofParts wireType number.toNat).map word := by
  have hrange : number < 1 ∨ 536870911 < number
      ↔ ¬ (1 ≤ number.toNat ∧ number.toNat ≤ 536870911) := by
    rw [UInt32.lt_iff_toNat_lt, UInt32.lt_iff_toNat_lt]
    show number.toNat < 1 ∨ 536870911 < number.toNat ↔ _
    omega
  rw [wordOfParts, ofParts_eq]
  by_cases h : 1 ≤ number.toNat ∧ number.toNat ≤ 536870911
  · have hword : packWord wireType number = word ⟨wireType, number.toNat, h.1, h.2⟩ := by
      rw [word, UInt32.ofNat_toNat]
    -- The number is at least one and stands above the code.
    have hne : packWord wireType number ≠ 0 := by
      rw [Ne, ← UInt32.toNat_inj, hword, toNat_word]
      show 8 * number.toNat + wireType.code ≠ 0
      omega
    rw [if_neg (mt hrange.mp (not_not.mpr h)), if_neg hne, dif_pos h, hword]
    rfl
  · rw [if_pos (hrange.mpr h), dif_neg h]
    rfl

/-- Checking a word is taking its bits apart. -/
theorem checkWord_eq (bits : UInt32) : checkWord bits = (ofPacked bits.toNat).map word := by
  rw [checkWord, toNat_toUInt8_and_seven, ofPacked, ofCode]
  cases WireType.ofCode (bits.toNat % 8) with
  | ok wireType =>
    rw [← toNat_numberOfWord]
    exact wordOfParts_eq wireType (numberOfWord bits)
  | error e => rfl

/-! ### Reading a word -/

variable {input rest : Input}

/-- The verdict on the bits reads nothing more. -/
theorem read_of_readValue_ok {n : Nat} (h : Varint.readValue .w32 input = .ok n rest) :
    read input = Decoder.ofExcept (ofPacked n) rest := by
  have hlt := Varint.remaining_lt_of_readValue h
  have hne : input.bytes ≠ [] :=
    mt Input.isEmpty_iff.mpr (Input.not_isEmpty_of_remaining_lt hlt)
  rw [read_of_ne_nil hne, Decoder.bind_of_ok h]

/-- Where there is no varint, this is what is wrong with the key. -/
theorem read_of_readValue_error {e : DecodeError} (hne : input.bytes ≠ [])
    (h : Varint.readValue .w32 input = .error e rest) : read input = .error e rest := by
  rw [read_of_ne_nil hne, Decoder.bind_of_error h]

/-- The bits that are read fit in a word, so none is lost in it. -/
theorem readWord_eq : readWord = word <$> read := by
  funext input
  by_cases hempty : input.isEmpty = true
  · have hrun : read input = .error .missingKey input := if_pos hempty
    rw [Decoder.map_of_error word hrun]
    exact if_pos hempty
  · cases hbits : Varint.readValue .w32 input with
    | error e rest =>
      have hrun := read_of_readValue_error (mt Input.isEmpty_iff.mpr hempty) hbits
      rw [Decoder.map_of_error word hrun]
      simp [readWord, hempty, Varint.readShort_eq_readValue, hbits]
    | ok n rest =>
      obtain ⟨digits, -, hvarint⟩ := (Varint.reads_readValue .w32).sound hbits
      have hfit : (UInt32.ofNat n).toNat = n := UInt32.toNat_ofNat_of_lt' hvarint.lt
      have hrun := read_of_readValue_ok hbits
      have hword : readWord input = Decoder.ofExcept ((ofPacked n).map word) rest := by
        simp [readWord, hempty, Varint.readShort_eq_readValue, hbits, checkWord_eq, hfit]
      rw [hword]
      -- From here on both take the same bits apart.
      cases hkey : ofPacked n with
      | ok key =>
        rw [hkey] at hrun
        exact (Decoder.map_of_ok word hrun).symm
      | error e =>
        rw [hkey] at hrun
        exact (Decoder.map_of_error word hrun).symm

end ProtoWire.Key
