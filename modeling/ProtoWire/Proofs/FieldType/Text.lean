import ProtoWire.Proofs.FieldType.WellFormed
import ProtoWire.Proofs.Varint.Gather

/-!
# `ProtoWire.Proofs.FieldType.Text`: what reading a text leaves behind

A text is read in three steps: the length, the bytes it announces, and
the judgement whether these are a text. The old text is kept until the
second step is done and is given up then, so a read that fails can leave
the old text or none at all.

* `Payload.read_of_varint_error`, `Payload.read_of_varint_ok`: behind
  the length, only the number of bytes that are left matters.
* `readInto_of_payload_error`, `readInto_of_text`,
  `readInto_of_notText`: the three states a text can be left in.
* `readInto_string_stores_keeps_or_clears`: which of them it is, told by
  the bytes. What is written is read back as long as its length can be
  said.
-/

set_option autoImplicit false

namespace ProtoWire

open Varint (IsVarint NoVarint)

variable {input rest : Input} {n count : Nat} {e : DecodeError}

namespace Payload

/-- Without a length, nothing is read behind it. -/
theorem read_of_varint_error (h : Varint.read .w64 input = .error e rest) :
    read input = .error e rest := by
  have hlength : Varint.readValue .w64 input = .error e rest := Decoder.map_of_error Prod.fst h
  rw [read_eq, readLength, Varint.readShort_eq_readValue, Decoder.bind_of_error hlength]

/-- Behind the length, as many bytes are taken as it says. -/
theorem read_of_varint_ok (h : Varint.read .w64 input = .ok (n, count) rest) :
    read input = Decoder.takeBytes n rest := by
  have hlength : Varint.readValue .w64 input = .ok n rest := Decoder.map_of_ok Prod.fst h
  rw [read_eq, readLength, Varint.readShort_eq_readValue, Decoder.bind_of_ok hlength]

end Payload

namespace FieldType

/-! ### The three states -/

variable {old text : String} {payload : List UInt8}

/-- As long as the bytes are not there, the old text is kept. -/
theorem readInto_of_payload_error (h : Payload.read input = .error e rest) :
    string.readInto ⟨input, old⟩ = .error e ⟨rest, old⟩ := by
  show readTextInto ⟨input, old⟩ = _
  rw [readTextInto, Filler.bind_of_error (Filler.reading_of_error h)]

/-- What is read takes the place of the old text. -/
theorem readInto_of_text (h : Payload.read input = .ok payload rest)
    (htext : String.fromUTF8? ⟨payload.toArray⟩ = some text) :
    string.readInto ⟨input, old⟩ = .ok () ⟨rest, text⟩ := by
  show readTextInto ⟨input, old⟩ = _
  rw [readTextInto, Filler.bind_of_ok (Filler.reading_of_ok h)]
  simp only [htext]
  rfl

/-- What is no text leaves none. -/
theorem readInto_of_notText (h : Payload.read input = .ok payload rest)
    (htext : String.fromUTF8? ⟨payload.toArray⟩ = none) :
    string.readInto ⟨input, old⟩ = .error .invalidUtf8 ⟨rest, ""⟩ := by
  show readTextInto ⟨input, old⟩ = _
  rw [readTextInto, Filler.bind_of_ok (Filler.reading_of_ok h)]
  simp only [htext]
  rfl

/-! ### Which of them it is -/

/-- The payload of a text is as long as the text. -/
theorem length_lt_of_toValue {text : String} (h : text.utf8ByteSize < UInt64.size)
    {payload : List UInt8} (hpayload : string.toValue text = .bytes payload) :
    payload.length < UInt64.size := by
  obtain rfl := WireValue.bytes.inj hpayload
  exact h

/-- Reading and writing texts. -/
structure TextsExactly : Prop where
  /-- Without a length, the error and what is left are those of reading a
  varint. -/
  noLength : ∀ (old : String) (input : Input), NoVarint .w64 input.bytes →
    ∃ e rest, Varint.decode .w64 input.bytes = .error e ∧
      Varint.read .w64 input = .error e rest ∧
      string.readInto ⟨input, old⟩ = .error e ⟨rest, old⟩
  /-- The length is used up if the bytes are not there, and nothing
  else. -/
  short : ∀ (old : String) (input : Input) (length behind : List UInt8) (n : Nat),
    IsVarint .w64 length n → input.bytes = length ++ behind → behind.length < n →
    ∃ rest, string.readInto ⟨input, old⟩ = .error .unexpectedEnd ⟨rest, old⟩ ∧
      rest.bytes = behind
  text : ∀ length payload : List UInt8, IsVarint .w64 length payload.length →
    Utf8.WellFormed payload → ∃ text : String, string.Stores (length ++ payload) text ∧
      Utf8.Spells payload (Utf8.codes text) ∧ text.toUTF8.data.toList = payload
  /-- The bytes are used up all the same, and the old text is gone. -/
  notText : ∀ (old : String) (input : Input) (length payload tail : List UInt8),
    IsVarint .w64 length payload.length → input.bytes = length ++ payload ++ tail →
    ¬ Utf8.WellFormed payload →
    ∃ rest, string.readInto ⟨input, old⟩ = .error .invalidUtf8 ⟨rest, ""⟩ ∧ rest.bytes = tail
  written : ∀ text : String, text.utf8ByteSize < 2 ^ 64 → string.Stores (string.encode text) text

/-- **Texts are read and written exactly**. A text is kept, replaced or
given up, depending on where reading another in its place comes to an
end. What is read are the bytes that the length announces, and they are
a text exactly if they are well-formed. -/
theorem readInto_string_stores_keeps_or_clears : TextsExactly where
  noLength old input h := by
    obtain ⟨e, rest, hread, hdec⟩ := Varint.exists_read_of_noVarint h
    have hpayload := Payload.read_of_varint_error hread
    exact ⟨e, rest, hdec, hread, readInto_of_payload_error hpayload⟩
  short old input length behind n hlength hbytes hshort := by
    obtain ⟨rest, hread, hrest⟩ := Varint.exists_read_of_isVarint hlength hbytes
    -- The payload is asked for as a whole, and fails before any byte of it is used up.
    have hleft : rest.remaining < n := by
      rwa [Input.remaining_eq_length, hrest]
    have hpayload : Payload.read input = .error .unexpectedEnd rest := by
      rw [Payload.read_of_varint_ok hread]
      exact if_pos hleft
    exact ⟨rest, readInto_of_payload_error hpayload, hrest⟩
  text length payload hlength hwell := by
    obtain ⟨ns, hspells⟩ := hwell
    obtain ⟨text, rfl, -⟩ := Utf8.spells_iff.mp hspells
    have htext := Utf8.fromUTF8?_eq_some_iff_spells.mpr hspells
    have hstores : string.Stores (length ++ payload) text :=
      stores_of_isValue (.bytes hlength) htext
    exact ⟨text, hstores, hspells, fromUTF8?_eq_some_iff.mp htext⟩
  notText old input length payload tail hlength hbytes hill := by
    obtain ⟨rest, hpayload, hrest⟩ :=
      Payload.reads_read.complete hbytes ⟨length, rfl, hlength⟩
    -- The payload is there, so it is used up before it is judged.
    have htext := Utf8.fromUTF8?_eq_none_iff.mpr hill
    exact ⟨rest, readInto_of_notText hpayload htext, hrest⟩
  written text h := stores_encode fun _ hpayload => length_lt_of_toValue h hpayload

/-- A text that is cut off keeps the old one, and one with an overlong
form leaves none. -/
example :
    string.readInto ⟨.ofBytes [0x02, 0x61], "old"⟩
        = .error .unexpectedEnd ⟨.ofBytes [0x61], "old"⟩ ∧
      string.readInto ⟨.ofBytes [0x02, 0xc0, 0x80, 0x61], "old"⟩
        = .error .invalidUtf8 ⟨.ofBytes [0x61], ""⟩ ∧
      string.readInto ⟨.ofBytes [0x02, 0xc2, 0x80, 0x61], "old"⟩
        = .ok () ⟨.ofBytes [0x61], "\u0080"⟩ :=
  ⟨rfl, by cbv, by cbv⟩

end FieldType

end ProtoWire
