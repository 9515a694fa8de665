import ProtoWire.Proofs.Message.Alike
import ProtoWire.Query
import ProtoWire.Scalars

/-!
# `ProtoWire.Proofs.Message.Cuts`: a message over cuts

The bytes of a message may arrive in any pieces, empty ones included,
and a cut can fall inside any record. What is read is the same: the
message or the error, the reports on the way, and, behind a delimited
message, the bytes that are left.

The two ways to cut the bytes make two runs, which go the same way by
`sameWay_of_resumes`: every read of a record is free of the cuts. A
delimited message is read through a window, and the windows of two
inputs with the same bytes have the same bytes.

After a *failed* read the bytes that are left do depend on the cuts: a
varint that runs over one is used up before it is judged. So nothing is
said about them.
-/

set_option autoImplicit false

namespace ProtoWire

namespace Message

variable {M : Type} [Message M]

/-! ### Whole messages -/

/-- Two ways to cut the same bytes are alike to a reader of messages:
results, reports and, behind a delimited message, the bytes that are
left are the same. -/
structure ReadAlike (options : DecodeOptions) (message : M) (i j : Input) : Prop where
  decode_result : (decode options i : Outcome M).result = (decode options j : Outcome M).result
  decode_events : (decode options i : Outcome M).events = (decode options j : Outcome M).events
  merge_result : (merge options message i).result = (merge options message j).result
  merge_events : (merge options message i).events = (merge options message j).events
  delimited_result :
    (decodeDelimited options i : Outcome M).result = (decodeDelimited options j : Outcome M).result
  delimited_events :
    (decodeDelimited options i : Outcome M).events = (decodeDelimited options j : Outcome M).events
  delimited_rest : ∀ m : M, (decodeDelimited options i : Outcome M).result = .ok m →
    (decodeDelimited options i : Outcome M).rest.bytes
      = (decodeDelimited options j : Outcome M).rest.bytes

/-- Reading all there is goes by the bytes: the length that is checked
against the limit, and the records. -/
theorem readAll_congr (purpose : Purpose) (options : DecodeOptions) (message : M) {i j : Input}
    (h : i.bytes = j.bytes) :
    (readAll purpose options message i).result = (readAll purpose options message j).result ∧
      (readAll purpose options message i).events = (readAll purpose options message j).events ∧
      (∀ m : M, (readAll purpose options message i).result = .ok m →
        (readAll purpose options message i).rest.bytes
          = (readAll purpose options message j).rest.bytes) := by
  have hlen := Input.remaining_congr h
  by_cases hlong : options.maxMessageLength < j.remaining
  · -- The refusal names the length, and that is counted over all pieces.
    rw [readAll_of_long (hlen ▸ hlong), readAll_of_long hlong, hlen]
    exact ⟨rfl, rfl, fun _ hm => nomatch hm⟩
  · have hrun := sameWay_of_resumes options.unknownFields []
      (s := ⟨i, { message := message }⟩) (t := ⟨j, { message := message }⟩) h ⟨rfl, rfl⟩
    have hlong' : ¬ options.maxMessageLength < i.remaining := hlen ▸ hlong
    rcases readAll_of_sameWay purpose purpose options options hlong' hlong hrun with
      ⟨s, t, hbytes, hdest, hi, hj⟩ | ⟨e, s, t, hdest, hi, hj⟩
    · rw [hi, hj]
      exact ⟨congrArg Except.ok hdest.message.symm, hdest.events.symm, fun _ _ => hbytes⟩
    · rw [hi, hj, hdest.events]
      exact ⟨rfl, rfl, fun _ hm => nomatch hm⟩

/-- A delimited message: the lengths agree, the windows have the same
bytes, and a success leaves as much of either window. -/
theorem decodeDelimited_congr (options : DecodeOptions) {i j : Input} (h : i.bytes = j.bytes) :
    (decodeDelimited options i : Outcome M).result
        = (decodeDelimited options j : Outcome M).result ∧
      (decodeDelimited options i : Outcome M).events
        = (decodeDelimited options j : Outcome M).events ∧
      (∀ m : M, (decodeDelimited options i : Outcome M).result = .ok m →
        (decodeDelimited options i : Outcome M).rest.bytes
          = (decodeDelimited options j : Outcome M).rest.bytes) := by
  rcases Payload.cutFree_readCheckedLength.cases h with
    ⟨length, ri, rj, hi, hj, hrest⟩ | ⟨e, ri, rj, hi, hj⟩
  · have hwindow : (ri.window length).bytes = (rj.window length).bytes := by
      rw [Input.bytes_window, Input.bytes_window, hrest]
    obtain ⟨hresult, hevents, hleft⟩ :=
      readAll_congr .decode options (Message.empty : M) hwindow
    refine ⟨?_, ?_, ?_⟩
    · simpa only [decodeDelimited, hi, hj, decode] using hresult
    · simpa only [decodeDelimited, hi, hj, decode] using hevents
    · -- As many bytes are gone from either input as are gone from its window.
      intro m hm
      simp only [decodeDelimited, hi, decode] at hm
      have hsame := hleft m hm
      simp only [decodeDelimited, hi, hj, decode, Input.bytes_advance,
        Input.remaining_eq_length, hsame, hrest]
  · simp [decodeDelimited, hi, hj]

/-- **Decoding does not depend on the cuts.** However the same bytes
are cut, decoding them, merging them into any message and decoding a
delimited message from them gives the same result, the same reports
and, where a delimited message was read, the same bytes behind it. The
type of message is arbitrary: nothing is asked of its table of
fields. -/
theorem readAlike_of_same_bytes (bytes : List UInt8) (i j : Input) (hi : i.bytes = bytes)
    (hj : j.bytes = bytes) (options : DecodeOptions) (message : M) :
    ReadAlike options message i j := by
  have h : i.bytes = j.bytes := hi.trans hj.symm
  obtain ⟨hdecode, hdecode', -⟩ := readAll_congr .decode options (Message.empty : M) h
  obtain ⟨hmerge, hmerge', -⟩ := readAll_congr .merge options message h
  obtain ⟨hdelimited, hdelimited', hrest⟩ := decodeDelimited_congr (M := M) options h
  exact ⟨hdecode, hdecode', hmerge, hmerge', hdelimited, hdelimited', hrest⟩

/-- Three inputs, each in pieces with an empty one among them.

The first has a text behind a length of two bytes and a field that
neither type of message has. It is cut through the length, the text and
the unknown key, and a query takes it as it does in one piece. `Scalars`
have a number where the text is, and refuse both alike.

The second is a message behind its length, with a number, an unknown
text and another number, and a byte behind it. The cuts go through the
length, the first number and the text. Both types read the message and
leave that byte. The third is the same message by itself; under the
policy that is not to keep the text, its numbers are read into what is
there. -/
theorem readAlike_of_cut_length_and_key :
    let cut : Input := ⟨[[0x0a, 0x82], [], [0x00, 0x61], [0x62, 0xa0], [0x86, 0x03, 0x05]]⟩
    let bytes : List UInt8 := [0x0a, 0x82, 0x00, 0x61, 0x62, 0xa0, 0x86, 0x03, 0x05]
    let frame : Input :=
      ⟨[[0x89], [0x00, 0x10, 0xac], [], [0x02, 0x22, 0x02, 0x68], [0x69, 0x18], [0x05, 0x07]]⟩
    let body : Input := ⟨[[0x10, 0xac], [0x02, 0x22], [], [0x02, 0x68], [0x69, 0x18, 0x05]]⟩
    let kept : List Record := [⟨⟨4, by decide, by decide⟩, .bytes [0x68, 0x69]⟩]
    (cut.bytes = bytes ∧ (Input.ofBytes bytes).bytes = bytes ∧
      ReadAlike {} ({ query := "x" } : Query) cut (.ofBytes bytes) ∧
      ReadAlike { unknownFields := .discard } ({ d := -1 } : Scalars) cut (.ofBytes bytes)) ∧
    (ReadAlike {} ({} : Query) frame (.ofBytes frame.bytes) ∧
      (decodeDelimited {} frame : Outcome Query).result
        = .ok { pageNumber := 300, pageSize := 5, unknown := kept } ∧
      (decodeDelimited {} frame : Outcome Query).rest.bytes = [0x07] ∧
      ReadAlike {} ({} : Scalars) frame (.ofBytes frame.bytes) ∧
      (decodeDelimited {} frame : Outcome Scalars).result
        = .ok { b := 300, c := 5, unknown := kept } ∧
      (decodeDelimited {} frame : Outcome Scalars).rest.bytes = [0x07]) ∧
    (ReadAlike { unknownFields := .discard } ({ d := -1 } : Scalars) body (.ofBytes body.bytes) ∧
      (decode {} body : Outcome Scalars).result = .ok { b := 300, c := 5, unknown := kept } ∧
      (merge { unknownFields := .discard } ({ d := -1 } : Scalars) body).result
        = .ok { b := 300, c := 5, d := -1 }) := by
  intro cut bytes frame body kept
  have hcut : cut.bytes = bytes := by decide
  have hone : (Input.ofBytes bytes).bytes = bytes := by decide
  have hframe : (Input.ofBytes frame.bytes).bytes = frame.bytes := Input.bytes_ofBytes _
  have hbody : (Input.ofBytes body.bytes).bytes = body.bytes := Input.bytes_ofBytes _
  refine ⟨⟨hcut, hone, ?query, ?scalars⟩,
    ⟨?queryFrame, by cbv, by cbv, ?scalarsFrame, by cbv, by cbv⟩,
    ?scalarsBody, by cbv, by cbv⟩
  case query => exact readAlike_of_same_bytes bytes cut (.ofBytes bytes) hcut hone _ _
  case scalars => exact readAlike_of_same_bytes bytes cut (.ofBytes bytes) hcut hone _ _
  case queryFrame => exact readAlike_of_same_bytes frame.bytes frame _ rfl hframe _ _
  case scalarsFrame => exact readAlike_of_same_bytes frame.bytes frame _ rfl hframe _ _
  case scalarsBody => exact readAlike_of_same_bytes body.bytes body _ rfl hbody _ _

end Message

end ProtoWire
