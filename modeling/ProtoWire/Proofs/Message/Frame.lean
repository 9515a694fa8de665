import ProtoWire.Proofs.Message.Cuts
import ProtoWire.Proofs.Message.Faults
import ProtoWire.Proofs.Payload.Exact

/-!
# `ProtoWire.Proofs.Message.Frame`: a delimited message and what is around it

A delimited message stands behind its length, and other bytes may stand
behind it. The bytes that the length counts are its frame. All reads of
the message go through a window of the frame, and this module says that
they stay there. The result and the reports are those of the frame by
itself. What is left of the input is what the window still holds, and
behind that everything that was behind the frame
(`bytes_rest_decodeDelimited`). So a message that promises more than
its frame holds is refused for that, and the frame behind it is left
whole.

How much the window still holds depends on how the read ends. After a
success that is nothing (`bytes_rest_decodeDelimited_of_ok`), for a
frame that is too long it is all of it
(`bytes_rest_decodeDelimited_of_tooLarge`), and in between the read has
stopped at a fault, somewhere.
-/

set_option autoImplicit false

namespace ProtoWire

open Varint (IsVarint)

/-! ### What a read leaves -/

/-- No value is refused because the message is too long. -/
theorem not_valueFault_tooLarge {wireType : WireType} {b : List UInt8} {length limit : Nat} :
    ¬ ValueFault wireType b (.messageTooLarge length limit) := by
  intro h
  cases h with
  | varint hfault => cases hfault
  | length hfault => cases hfault

/-- No key is refused because the message is too long. -/
theorem not_keyFault_tooLarge {b : List UInt8} {length limit : Nat} :
    ¬ KeyFault b (.messageTooLarge length limit) := by
  intro h
  cases h with
  | digits _ hfault => cases hfault

namespace Message

variable {M : Type} [Message M]

/-- The loop only drops bytes from the front, wherever it stops. -/
theorem forward_mergeRecords (policy : UnknownFieldPolicy) :
    Filler.Forward (mergeRecords policy : Filler (Progress M) Unit) := by
  intro s
  unfold Filler.final
  fun_induction mergeRecords policy s with
  | case1 s _ => exact List.suffix_refl _
  | case2 s _ s' hturn ih =>
    have hleft := forward_mergeRecord policy s
    rw [Filler.final_of_ok hturn] at hleft
    exact ih.trans hleft
  | case3 s _ e s' hturn =>
    have hleft := forward_mergeRecord policy s
    rwa [Filler.final_of_error hturn] at hleft

/-- What a read leaves is the end of what there was. -/
theorem suffix_readAll (purpose : Purpose) (options : DecodeOptions) (message : M)
    (input : Input) : (readAll purpose options message input).rest.bytes <:+ input.bytes := by
  by_cases hlong : options.maxMessageLength < input.remaining
  · simp only [readAll_of_long hlong, List.suffix_refl]
  · have hleft := forward_mergeRecords options.unknownFields ⟨input, { message := message }⟩
    cases hrun : mergeRecords options.unknownFields ⟨input, { message := message }⟩ with
    | ok _ s =>
      rw [Filler.final_of_ok hrun] at hleft
      rwa [readAll_of_ok hlong hrun]
    | error e s =>
      rw [Filler.final_of_error hrun] at hleft
      rwa [readAll_of_error hlong hrun]

/-- A read that succeeds leaves nothing. -/
theorem bytes_rest_of_ok {purpose : Purpose} {options : DecodeOptions} {message absorbed : M}
    {input : Input} (h : (readAll purpose options message input).result = .ok absorbed) :
    (readAll purpose options message input).rest.bytes = [] := by
  obtain ⟨-, s, hrun, -, hread⟩ := exists_mergeRecords_of_readAll_ok h
  obtain ⟨-, -, -, -, hnil⟩ := areRecords_of_mergeRecords hrun
  rw [hread]
  exact hnil

/-- That a message is too long is no fault of a record. -/
theorem not_recordFault_tooLarge {b : List UInt8} {length limit : Nat} :
    ¬ RecordFault M b (.messageTooLarge length limit) := by
  intro h
  cases h with
  | key hfault => exact not_keyFault_tooLarge hfault
  | known _ _ hfault =>
    cases hfault with
    | field _ hfault =>
      cases hfault with
      | value hfault => exact not_valueFault_tooLarge hfault
  | unknown _ _ hfault => exact not_valueFault_tooLarge hfault

/-- What is refused for its length is left as it was. -/
theorem rest_of_tooLarge {purpose : Purpose} {options : DecodeOptions} {message : M}
    {input : Input} {length limit : Nat}
    (h : (readAll purpose options message input).result = .error (.messageTooLarge length limit)) :
    (readAll purpose options message input).rest = input := by
  rcases readAll_eq_error_iff.mp h with ⟨hlong, -⟩ | ⟨-, front, rest, -, hbreaks⟩
  · rw [← Input.remaining_eq_length] at hlong
    rw [readAll_of_long hlong]
  · exact absurd hbreaks.fault not_recordFault_tooLarge

/-! ### The frame -/

/-- Behind a length, the message is read through the window. -/
theorem decodeDelimited_of_ok {options : DecodeOptions} {input rest : Input} {n : Nat}
    (h : Payload.readCheckedLength input = .ok n rest) :
    (decodeDelimited options input : Outcome M) =
      { decode options (rest.window n) with
        rest := rest.advance
          (n - (decode options (rest.window n) : Outcome M).rest.remaining) } := by
  simp only [decodeDelimited, h]

/-- Without a length that has its bytes, no message is read, and nothing
is reported. -/
theorem decodeDelimited_of_error {options : DecodeOptions} {input rest : Input} {e : DecodeError}
    (h : Payload.readCheckedLength input = .error e rest) :
    (decodeDelimited options input : Outcome M) = ⟨.error e, rest, []⟩ := by
  simp only [decodeDelimited, h]

/-- The read uses up the beginning of the frame, and what the window
holds still is the end of it. -/
theorem bytes_rest_decodeDelimited (options : DecodeOptions) {input rest : Input} {n : Nat}
    (h : Payload.readCheckedLength input = .ok n rest) :
    ∃ used, rest.bytes.take n = used ++ (decode options (rest.window n) : Outcome M).rest.bytes ∧
      (decodeDelimited options input : Outcome M).rest.bytes = rest.bytes.drop used.length := by
  have henough := Payload.le_remaining_of_readCheckedLength h
  rw [Input.remaining_eq_length] at henough
  have hsuffix : (decode options (rest.window n) : Outcome M).rest.bytes
      <:+ (rest.window n).bytes :=
    suffix_readAll .decode options empty (rest.window n)
  obtain ⟨used, hframe⟩ := hsuffix
  rw [Input.bytes_window] at hframe
  refine ⟨used, hframe.symm, ?_⟩
  have hlength := congrArg List.length hframe
  rw [List.length_append, List.length_take_of_le henough] at hlength
  rw [decodeDelimited_of_ok h, Input.bytes_advance, Input.remaining_eq_length,
    ← Nat.eq_sub_of_add_eq hlength]

/-- What is left is the end of what there was, whether or not the length
could be read. -/
theorem suffix_decodeDelimited (options : DecodeOptions) (input : Input) :
    (decodeDelimited options input : Outcome M).rest.bytes <:+ input.bytes := by
  have hlength := Payload.forward_readCheckedLength input
  cases hrun : Payload.readCheckedLength input with
  | ok n rest =>
    rw [Decoder.rest_of_ok hrun] at hlength
    obtain ⟨used, -, hleft⟩ := bytes_rest_decodeDelimited (M := M) options hrun
    rw [hleft]
    exact (List.drop_suffix _ _).trans hlength
  | error e rest =>
    rw [Decoder.rest_of_error hrun] at hlength
    rwa [decodeDelimited_of_error hrun]

/-- A success uses up the frame. -/
theorem bytes_rest_decodeDelimited_of_ok {options : DecodeOptions} {input rest : Input} {n : Nat}
    {message : M} (h : Payload.readCheckedLength input = .ok n rest)
    (hok : (decodeDelimited options input).result = .ok message) :
    (decodeDelimited options input : Outcome M).rest.bytes = rest.bytes.drop n := by
  have henough := Payload.le_remaining_of_readCheckedLength h
  rw [Input.remaining_eq_length] at henough
  rw [decodeDelimited_of_ok h] at hok
  have hnil : (decode options (rest.window n) : Outcome M).rest.bytes = [] := bytes_rest_of_ok hok
  obtain ⟨used, hused, hleft⟩ := bytes_rest_decodeDelimited (M := M) options h
  rw [hnil, List.append_nil] at hused
  rw [hleft, ← hused, List.length_take_of_le henough]

/-- Of a frame that is too long, nothing is used up. -/
theorem bytes_rest_decodeDelimited_of_tooLarge {options : DecodeOptions} {input rest : Input}
    {n length limit : Nat} (h : Payload.readCheckedLength input = .ok n rest)
    (htooLarge : (decodeDelimited options input : Outcome M).result
      = .error (.messageTooLarge length limit)) :
    (decodeDelimited options input : Outcome M).rest.bytes = rest.bytes := by
  rw [decodeDelimited_of_ok h] at htooLarge
  have hrest : (decode options (rest.window n) : Outcome M).rest = rest.window n :=
    rest_of_tooLarge htooLarge
  obtain ⟨used, hused, hleft⟩ := bytes_rest_decodeDelimited (M := M) options h
  rw [hrest, Input.bytes_window, List.self_eq_append_left] at hused
  rw [hleft, hused, List.length_nil, List.drop_zero]

/-- Behind the spelling of its length, a message is read from its frame. -/
theorem decodeDelimited_of_bytes (options : DecodeOptions) {input alone : Input}
    {head frame behind : List UInt8} (hbytes : input.bytes = head ++ (frame ++ behind))
    (hhead : IsVarint .w64 head frame.length) (halone : alone.bytes = frame) :
    (decodeDelimited options input : Outcome M).result
        = (decode options alone : Outcome M).result ∧
      (decodeDelimited options input : Outcome M).events
        = (decode options alone : Outcome M).events := by
  have henough : frame.length ≤ (frame ++ behind).length := by
    rw [List.length_append]
    exact Nat.le_add_right _ _
  obtain ⟨rest, hrun, hrest⟩ := Decoder.eq_ok_of_outcome
    (Payload.outcome_readCheckedLength_eq_ok_iff.mpr ⟨head, hbytes, hhead, henough⟩)
  have hwindow : (rest.window frame.length).bytes = alone.bytes := by
    rw [Input.bytes_window, hrest, List.take_left, halone]
  obtain ⟨hresult, hevents, -⟩ := readAll_congr .decode options (empty : M) hwindow
  rw [decodeDelimited_of_ok hrun]
  exact ⟨hresult, hevents⟩

/-- A delimited message whose length is `n` and stands in the first `p`
of the bytes `s`, and which is therefore in the `n` bytes behind. -/
structure InFrame (M : Type) [Message M] (options : DecodeOptions) (s : List UInt8) (input : Input)
    (p n : Nat) : Prop where
  /-- The frame is there. -/
  le_length : p + n ≤ s.length
  /-- It is read as it would be without the length in front and the
  bytes behind. -/
  alone : ∀ frame : Input, frame.bytes = (s.drop p).take n →
    (decodeDelimited options input : Outcome M).result
        = (decode options frame : Outcome M).result ∧
      (decodeDelimited options input : Outcome M).events
        = (decode options frame : Outcome M).events
  /-- It is read the same whatever comes behind. -/
  followed : ∀ other : Input, other.bytes.take (p + n) = s.take (p + n) →
    (decodeDelimited options other : Outcome M).result
        = (decodeDelimited options input : Outcome M).result ∧
      (decodeDelimited options other : Outcome M).events
        = (decodeDelimited options input : Outcome M).events
  /-- A success uses up the length and the frame. -/
  rest_of_ok : ∀ m : M, (decodeDelimited options input).result = .ok m →
    (decodeDelimited options input : Outcome M).rest.bytes = s.drop (p + n)
  /-- A failure uses up the length, and a part of the frame at most. -/
  rest_of_error : ∀ e : DecodeError, (decodeDelimited options input : Outcome M).result = .error e →
    ∃ k, p ≤ k ∧ k ≤ p + n ∧ (decodeDelimited options input : Outcome M).rest.bytes = s.drop k
  /-- Of a frame that is too long, nothing is used up. -/
  rest_of_messageTooLarge : ∀ length limit : Nat,
    (decodeDelimited options input : Outcome M).result = .error (.messageTooLarge length limit) →
    (decodeDelimited options input : Outcome M).rest.bytes = s.drop p

/-- **A delimited message is read in its frame.** Of any bytes, in any
pieces and under any options: where a length can be read and as many
bytes follow, those are all that the message depends on, and all that
can be used up for it. Where that is not so, the error is that of the
length, and nothing is reported. The type of message is arbitrary. -/
theorem decodeDelimited_inFrame (M : Type) [Message M] (options : DecodeOptions)
    (s : List UInt8) (input : Input) (h : input.bytes = s) :
    (∀ (n : Nat) (rest : Input), Payload.readCheckedLength input = .ok n rest →
      ∃ p, s.length = p + rest.remaining ∧ InFrame M options s input p n) ∧
    ∀ (e : DecodeError) (rest : Input), Payload.readCheckedLength input = .error e rest →
      (decodeDelimited options input : Outcome M) = ⟨.error e, rest, []⟩ := by
  subst h
  refine ⟨fun n rest hrun => ?_, fun e rest hrun => decodeDelimited_of_error hrun⟩
  obtain ⟨head, hbytes, hhead, henough⟩ :=
    Payload.outcome_readCheckedLength_eq_ok_iff.mp (Decoder.outcome_of_ok hrun)
  -- The bytes are those of the length, then those of the frame, then what follows it.
  have hp : input.bytes.length = head.length + rest.remaining := by
    rw [Input.remaining_eq_length, hbytes, List.length_append]
  have hdrop : ∀ k, input.bytes.drop (head.length + k) = rest.bytes.drop k := by
    intro k
    rw [hbytes, List.drop_append, List.drop_eq_nil_of_le (Nat.le_add_right _ _),
      List.nil_append, Nat.add_sub_cancel_left]
  have hdrop₀ : input.bytes.drop head.length = rest.bytes := hdrop 0
  have htake : input.bytes.take (head.length + n) = head ++ rest.bytes.take n := by
    rw [hbytes, List.take_length_add_append]
  have hframe : (rest.bytes.take n).length = n := List.length_take_of_le henough
  have hspelling : IsVarint .w64 head (rest.bytes.take n).length := by rwa [hframe]
  have hwhole : input.bytes = head ++ (rest.bytes.take n ++ rest.bytes.drop n) := by
    rw [hbytes, List.take_append_drop]
  refine ⟨head.length, hp, ?length, ?alone, ?followed, ?ok, ?error, ?tooLarge⟩
  case length =>
    rw [hbytes, List.length_append]
    exact Nat.add_le_add_left henough _
  case alone =>
    intro frame hframe
    rw [hdrop₀] at hframe
    exact decodeDelimited_of_bytes options hwhole hspelling hframe
  case followed =>
    intro other hother
    rw [htake] at hother
    have hwhole' : other.bytes
        = head ++ (rest.bytes.take n ++ other.bytes.drop (head.length + n)) := by
      rw [← List.append_assoc, ← hother, List.take_append_drop]
    -- Both inputs show the message the same window.
    have hwindow := Input.bytes_window rest n
    obtain ⟨hresult, hevents⟩ := decodeDelimited_of_bytes (M := M) options hwhole hspelling hwindow
    obtain ⟨hresult', hevents'⟩ :=
      decodeDelimited_of_bytes (M := M) options hwhole' hspelling hwindow
    exact ⟨hresult'.trans hresult.symm, hevents'.trans hevents.symm⟩
  case ok =>
    intro m hm
    rw [bytes_rest_decodeDelimited_of_ok hrun hm, hdrop]
  case error =>
    intro e _
    obtain ⟨used, hused, hleft⟩ := bytes_rest_decodeDelimited (M := M) options hrun
    -- What the failed read has used up lies inside the frame.
    have hlength := congrArg List.length hused
    rw [hframe, List.length_append] at hlength
    refine ⟨head.length + used.length, Nat.le_add_right _ _, by omega, ?_⟩
    rw [hleft, hdrop]
  case tooLarge =>
    intro length limit htooLarge
    rw [bytes_rest_decodeDelimited_of_tooLarge hrun htooLarge, hdrop₀]

/-- A text that promises five bytes of a frame of three, and behind it
another frame: the text is refused for being cut off, and the other
frame is left whole. With a limit of two bytes the frame is too long,
and both are left. Where the frame is cut off itself, the error is that
of the length. -/
theorem decodeDelimited_inFrame_of_long_text :
    let s : List UInt8 := [0x03, 0x0a, 0x05, 0x61, 0x02, 0x10, 0x07]
    let cut : Input := ⟨[[0x03, 0x0a], [0x05], [0x61, 0x02, 0x10], [0x07]]⟩
    let behind : Input := ⟨[[0x0a], [0x05], [0x61, 0x02, 0x10], [0x07]]⟩
    let tight : DecodeOptions := { maxMessageLength := 2 }
    let short : Input := ⟨[[0x03], [0x0a, 0x05]]⟩
    (cut.bytes = s ∧ Payload.readCheckedLength cut = .ok 3 behind ∧
      InFrame Query {} s cut 1 3 ∧
      (decodeDelimited {} cut : Outcome Query).result = .error .unexpectedEnd ∧
      (decodeDelimited {} cut : Outcome Query).rest.bytes = s.drop 3) ∧
    (InFrame Scalars tight s cut 1 3 ∧
      (decodeDelimited tight cut : Outcome Scalars).result = .error (.messageTooLarge 3 2) ∧
      (decodeDelimited tight cut : Outcome Scalars).rest.bytes = s.drop 1) ∧
    (decodeDelimited {} short : Outcome Query) = ⟨.error .unexpectedEnd, ⟨[[0x0a, 0x05]]⟩, []⟩ := by
  intro s cut behind tight short
  have hcut : cut.bytes = s := by decide
  have hrun : Payload.readCheckedLength cut = .ok 3 behind := rfl
  have hshort : short.bytes = [0x03, 0x0a, 0x05] := by decide
  have hfail : Payload.readCheckedLength short = .error .unexpectedEnd ⟨[[0x0a, 0x05]]⟩ :=
    rfl
  obtain ⟨p, hp, hquery⟩ := (decodeDelimited_inFrame Query {} s cut hcut).1 3 behind hrun
  obtain ⟨p', hp', hscalars⟩ := (decodeDelimited_inFrame Scalars tight s cut hcut).1 3 behind hrun
  obtain rfl : 1 = p := Nat.add_right_cancel (show 1 + 6 = p + 6 from hp)
  obtain rfl : 1 = p' := Nat.add_right_cancel (show 1 + 6 = p' + 6 from hp')
  have htooLarge : (decodeDelimited tight cut : Outcome Scalars).result
      = .error (.messageTooLarge 3 2) := by decide +kernel
  refine ⟨⟨hcut, hrun, hquery, by decide +kernel, by decide +kernel⟩,
    ⟨hscalars, htooLarge, ?_⟩, ?_⟩
  · exact hscalars.rest_of_messageTooLarge 3 2 htooLarge
  · exact (decodeDelimited_inFrame Query {} _ short hshort).2 _ _ hfail

end Message

end ProtoWire
