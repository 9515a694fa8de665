import ProtoWire.Proofs.Message.Frame
import ProtoWire.Proofs.Message.RoundTrip

/-!
# `ProtoWire.Proofs.Message.Stream`: delimited messages one behind the other

Messages that are written with their lengths in front need nothing
between them. A reader that asks for one message after the other gets
each as it was, and the bytes behind the last are left (`ReadsOff`).

One message is enough to see why (`decodeDelimited_of_encodeDelimited`):
its length is the length of its encoding, so the frame is the encoding
and the round trip of the message by itself applies. What is left
begins with the next message, and the rest is an induction over the
messages. The limit is held against a frame and never against the
stream, so a stream is read off exactly if each of its messages keeps
the limit.
-/

set_option autoImplicit false

namespace ProtoWire.Message

variable {M : Type} [Message M]

/-- Messages are read off an input, one call for each, and the bytes
`behind` are left. Each call uses up as many bytes as its message has
in delimited form. -/
inductive ReadsOff (options : DecodeOptions) : List M → Input → List UInt8 → Prop
  | nil (input : Input) : ReadsOff options [] input input.bytes
  | cons {message : M} {messages : List M} {input : Input} {behind : List UInt8}
    (result : (decodeDelimited options input).result = .ok message)
    (used : input.remaining
      = delimitedSize message + (decodeDelimited options input : Outcome M).rest.remaining)
    (rest : ReadsOff options messages (decodeDelimited options input : Outcome M).rest behind) :
    ReadsOff options (message :: messages) input behind

/-! ### One message -/

/-- The length in front of a message can be read, and the frame it
promises is the encoding. -/
theorem readCheckedLength_of_encodeDelimited {message : M} {input : Input} {behind : List UInt8}
    (hbytes : input.bytes = encodeDelimited message ++ behind)
    (hsize : size message < UInt64.size) :
    ∃ rest, Payload.readCheckedLength input = .ok (size message) rest ∧
      rest.bytes = encode message ++ behind := by
  rw [encodeDelimited, List.append_assoc] at hbytes
  have henough : size message ≤ (encode message ++ behind).length := by
    rw [List.length_append, length_encode]
    exact Nat.le_add_right _ _
  exact Decoder.eq_ok_of_outcome (Payload.outcome_readCheckedLength_eq_ok_iff.mpr
    ⟨_, hbytes, Varint.isVarint_encode hsize, henough⟩)

/-- A clean message within the limit is read from the front of whatever
comes, and what comes behind it is left. -/
theorem decodeDelimited_of_encodeDelimited [LawfulMessage M] {options : DecodeOptions} {message : M}
    {input : Input} {behind : List UInt8}
    (hbytes : input.bytes = encodeDelimited message ++ behind) (hclean : Clean message)
    (hpolicy : options.unknownFields = .preserve)
    (hlimit : size message ≤ options.maxMessageLength) (hsize : size message < UInt64.size) :
    (decodeDelimited options input).result = .ok message ∧
      (decodeDelimited options input : Outcome M).rest.bytes = behind := by
  obtain ⟨rest, hlength, hrest⟩ := readCheckedLength_of_encodeDelimited hbytes hsize
  have hwindow : (rest.window (size message)).bytes = encode message := by
    rw [Input.bytes_window, hrest, ← length_encode, List.take_left]
  have hresult : (decodeDelimited options input).result = .ok message := by
    rw [decodeDelimited_of_ok hlength]
    exact (decode_eq_ok_iff_clean hwindow hpolicy hlimit hsize).mpr hclean
  refine ⟨hresult, ?_⟩
  rw [bytes_rest_decodeDelimited_of_ok hlength hresult, hrest, ← length_encode, List.drop_left]

/-- A message that was read off keeps the limit. -/
theorem size_le_of_decodeDelimited {options : DecodeOptions} {message read : M} {input : Input}
    {behind : List UInt8} (hbytes : input.bytes = encodeDelimited message ++ behind)
    (hsize : size message < UInt64.size)
    (h : (decodeDelimited options input).result = .ok read) :
    size message ≤ options.maxMessageLength := by
  obtain ⟨rest, hlength, hrest⟩ := readCheckedLength_of_encodeDelimited hbytes hsize
  rw [decodeDelimited_of_ok hlength] at h
  obtain ⟨hlimit, -⟩ := readAll_eq_ok_iff.mp h
  rwa [Input.bytes_window, hrest, ← length_encode, List.take_left, length_encode] at hlimit

/-! ### All messages -/

/-- A stream of clean messages is read off exactly if each of them keeps
the limit. -/
theorem readsOff_iff [LawfulMessage M] {options : DecodeOptions} {messages : List M} {input : Input}
    {behind : List UInt8} (hbytes : input.bytes = messages.flatMap encodeDelimited ++ behind)
    (hpolicy : options.unknownFields = .preserve)
    (hsize : ∀ message ∈ messages, size message < UInt64.size)
    (hclean : ∀ message ∈ messages, Clean message) :
    ReadsOff options messages input behind ↔
      ∀ message ∈ messages, size message ≤ options.maxMessageLength := by
  induction messages generalizing input with
  | nil =>
    obtain rfl : input.bytes = behind := hbytes
    exact ⟨fun _ _ hmem => absurd hmem List.not_mem_nil, fun _ => .nil input⟩
  | cons message messages ih =>
    rw [List.forall_mem_cons] at hsize hclean ⊢
    rw [List.flatMap_cons, List.append_assoc] at hbytes
    -- Either way the message in front keeps the limit, so what is left is the stream behind it.
    have hfront := fun hlimit =>
      decodeDelimited_of_encodeDelimited hbytes hclean.1 hpolicy hlimit hsize.1
    constructor
    · intro hreads
      cases hreads with
      | cons hresult hused hrest =>
        have hlimit := size_le_of_decodeDelimited hbytes hsize.1 hresult
        exact ⟨hlimit, (ih (hfront hlimit).2 hsize.2 hclean.2).mp hrest⟩
    · intro hlimit
      obtain ⟨hresult, hleft⟩ := hfront hlimit.1
      refine .cons hresult ?_ ((ih hleft hsize.2 hclean.2).mpr hlimit.2)
      rw [Input.remaining_eq_length, Input.remaining_eq_length, hleft, hbytes, List.length_append,
        length_encodeDelimited]

/-- **A stream reads back.** Queries without an unknown record of one of
the numbers 1, 2 and 3, written in delimited form one behind the other
and followed by any bytes, are read off in their order however the
stream is cut, and the bytes behind are left, exactly if no query is
longer than the limit. Their lengths together do not matter. For
`Scalars` the numbers are those of its six fields. Unknown records are
to be preserved, and lengths to fit in 64 bits, as they do for every
query that keeps a limit of 64 bits. -/
theorem readsOff_flatMap_encodeDelimited_iff (options : DecodeOptions)
    (hpolicy : options.unknownFields = .preserve) :
    (∀ (qs : List Query) (input : Input) (behind : List UInt8),
      input.bytes = qs.flatMap encodeDelimited ++ behind →
      (∀ q ∈ qs, size q < UInt64.size) →
      (∀ q ∈ qs, ∀ record ∈ q.unknown, record.number.val ∉ [1, 2, 3]) →
      (ReadsOff options qs input behind ↔ ∀ q ∈ qs, size q ≤ options.maxMessageLength)) ∧
    (∀ (ms : List Scalars) (input : Input) (behind : List UInt8),
      input.bytes = ms.flatMap encodeDelimited ++ behind →
      (∀ m ∈ ms, size m < UInt64.size) →
      (∀ m ∈ ms, ∀ record ∈ m.unknown, record.number.val ∉ [1, 2, 3, 15, 16, 536870911]) →
      (ReadsOff options ms input behind ↔ ∀ m ∈ ms, size m ≤ options.maxMessageLength)) := by
  constructor
  · intro qs input behind hbytes hsize hnumbers
    exact readsOff_iff hbytes hpolicy hsize fun q hq =>
      hasNumbers_query.clean_iff.mpr (hnumbers q hq)
  · intro ms input behind hbytes hsize hnumbers
    exact readsOff_iff hbytes hpolicy hsize fun m hm =>
      hasNumbers_scalars.clean_iff.mpr (hnumbers m hm)

/-- An empty query, which is written as a lone zero byte, and two with
128 bytes in an unknown record, whose lengths take two bytes: together
they are longer than the limit of 140 bytes and each is shorter. The
cuts fall into a length and into a frame, and two bytes are left. A
length that is cut off is left behind two messages of the other type. -/
theorem readsOff_flatMap_encodeDelimited_iff_of_empty_and_long :
    let long : Record := ⟨⟨4, by decide, by decide⟩, .bytes (List.replicate 128 0x07)⟩
    let qs : List Query := [{ unknown := [long] }, {}, { pageSize := 3, unknown := [long] }]
    let behind : List UInt8 := [0x05, 0x0a]
    let stream := qs.flatMap encodeDelimited ++ behind
    let cut : Input := ⟨[stream.take 1, (stream.drop 1).take 135, [], stream.drop 136]⟩
    let options : DecodeOptions := { maxMessageLength := 140 }
    let ms : List Scalars := [{ d := -1, unknown := [long] }, { s := "ab" }]
    let row : Input := ⟨[ms.flatMap encodeDelimited, [0x80]]⟩
    cut.bytes = stream ∧ stream.length = 271 ∧ ReadsOff options qs cut behind ∧
      ¬ ReadsOff { maxMessageLength := 132 } qs cut behind ∧
      ReadsOff { maxMessageLength := 150 } ms row [0x80] := by
  intro long qs behind stream cut options ms row
  have hbytes : cut.bytes = stream := by decide +kernel
  have hsize : ∀ q ∈ qs, size q < UInt64.size := by decide +kernel
  have hnumbers : ∀ q ∈ qs, ∀ record ∈ q.unknown, record.number.val ∉ [1, 2, 3] := by decide
  have hwithin : ∀ q ∈ qs, size q ≤ 140 := by decide +kernel
  have hover : ¬ ∀ q ∈ qs, size q ≤ 132 := by decide +kernel
  have hrow : row.bytes = ms.flatMap encodeDelimited ++ [0x80] := by decide +kernel
  refine ⟨hbytes, by decide +kernel, ?_, ?_, ?_⟩
  · exact ((readsOff_flatMap_encodeDelimited_iff options rfl).1
      qs cut behind hbytes hsize hnumbers).mpr hwithin
  · intro hreads
    exact hover (((readsOff_flatMap_encodeDelimited_iff { maxMessageLength := 132 } rfl).1
      qs cut behind hbytes hsize hnumbers).mp hreads)
  · exact ((readsOff_flatMap_encodeDelimited_iff { maxMessageLength := 150 } rfl).2
      ms row [0x80] hrow (by decide +kernel) (by decide)).mpr (by decide +kernel)

end ProtoWire.Message
