import ProtoWire.Proofs.Message.Absorb
import ProtoWire.Proofs.Message.Alike

/-!
# `ProtoWire.Proofs.Message.Sequence`: one message behind another

Two encoded messages, one behind the other, are an encoded message, and
merging that is merging the first and then the second. Neither has to
be as a writer would write it: fields may come twice or with their
default, varints may be longer than they need to be.

The loop has to stop exactly where the first message ends, although all
its reads see the bytes behind it. It does, by what is known of the
grammar (`mergeRecords_of_areRecords`). From there on it is where a loop
over the second message starts, but for two things. The input is cut in
another way, and there are reports already. Neither difference ever
shows in the message (`sameWay_of_resumes`).

* `readAll_append`: results and reports of the whole, from those of the
  parts.
* `merge_append`: the statement for a merge.
-/

set_option autoImplicit false

namespace ProtoWire.Message

variable {M : Type} [Message M]

/-- Reading one message behind another. The result is that of the
second, read into what the first came to; and first the first is
reported on, then the second. -/
theorem readAll_append {purpose : Purpose} {options : DecodeOptions} {message absorbed : M}
    {i j k : Input} (hbytes : k.bytes = i.bytes ++ j.bytes)
    (hlimit : i.bytes.length + j.bytes.length ≤ options.maxMessageLength)
    (h : (readAll purpose options message i).result = .ok absorbed) :
    (readAll purpose options message k).result = (readAll purpose options absorbed j).result ∧
      (readAll purpose options message k).events
        = (readAll purpose options message i).events
          ++ (readAll purpose options absorbed j).events := by
  have hj : ¬ options.maxMessageLength < j.remaining := by
    rw [Input.remaining_eq_length]
    omega
  have hk : ¬ options.maxMessageLength < k.remaining := by
    rw [Input.remaining_eq_length, hbytes, List.length_append]
    omega
  obtain ⟨-, s, hfirst, rfl, hread⟩ := exists_mergeRecords_of_readAll_ok h
  rw [hread]
  obtain ⟨records, hrecords, habsorb, hevents, -⟩ := areRecords_of_mergeRecords hfirst
  -- The loop over the whole comes by the end of the first message, and resumes there.
  obtain ⟨t, hrun, hleft, hdest⟩ := mergeRecords_of_areRecords hrecords
    (s := ⟨k, { message := message }⟩) hbytes habsorb
  have hresumes : Resumes s.dest.events { message := s.dest.message } t.dest := by
    rw [hdest]
    exact ⟨rfl, by rw [hevents, List.append_nil]⟩
  have hsame := sameWay_of_resumes options.unknownFields s.dest.events
    (s := ⟨j, { message := s.dest.message }⟩) hleft.symm hresumes
  rw [← hrun] at hsame
  rcases readAll_of_sameWay purpose purpose options options hj hk hsame with
    ⟨s₂, u, -, hafter, hsecond, hwhole⟩ | ⟨e, s₂, u, hafter, hsecond, hwhole⟩
  · rw [hsecond, hwhole]
    exact ⟨congrArg Except.ok hafter.message, hafter.events⟩
  · rw [hsecond, hwhole, hafter.events, List.append_assoc]
    exact ⟨rfl, rfl⟩

/-- **Merging a concatenation is merging in sequence.** Where `x` can be
merged into a message and gives `absorbed`, merging `x ++ y` comes to
merging `y` into `absorbed`: both succeed with the same message, or both
fail with the same error. The three inputs may be cut in any way, and
nothing is asked of the type of message nor of the policy. -/
theorem merge_append (options : DecodeOptions) (message absorbed : M) (x y : List UInt8)
    (i j k : Input) (hi : i.bytes = x) (hj : j.bytes = y) (hk : k.bytes = x ++ y)
    (hlimit : x.length + y.length ≤ options.maxMessageLength)
    (h : (merge options message i).result = .ok absorbed) :
    (merge options message k).result = (merge options absorbed j).result := by
  subst hi
  subst hj
  exact (readAll_append hk hlimit h).1

/-- A text, an explicit zero of two bytes and a record that is not
known, merged into a query: a number behind them is taken, and one that
is cut off is refused, as they are behind nothing in the query that has
the text and the zero. In `Scalars`, a zero is followed by a truth. -/
theorem merge_append_of_text_zero_and_unknown :
    let x : List UInt8 := [0x0a, 0x01, 0x61, 0x10, 0x80, 0x00, 0x72, 0x01, 0xff]
    let q : Query := { query := "old", pageNumber := 7, pageSize := 9 }
    let q' : Query :=
      { query := "a", pageSize := 9, unknown := [⟨⟨14, by decide, by decide⟩, .bytes [0xff]⟩] }
    let y : List UInt8 := [0x18, 0x85, 0x00]
    let z : List UInt8 := [0x18, 0x85]
    let v : List UInt8 := [0x78, 0x00]
    let w : List UInt8 := [0x80, 0x01, 0x02]
    ((merge {} q (.ofBytes x)).result = .ok q' ∧
      (merge {} q (.ofBytes (x ++ y))).result = (merge {} q' (.ofBytes y)).result ∧
      (merge {} q' (.ofBytes y)).result = .ok { q' with pageSize := 5 }) ∧
    ((merge {} q (.ofBytes (x ++ z))).result = (merge {} q' (.ofBytes z)).result ∧
      (merge {} q' (.ofBytes z)).result = .error .unexpectedEnd) ∧
    ((merge {} ({ d := -1 } : Scalars) (.ofBytes v)).result = .ok {} ∧
      (merge {} ({ d := -1 } : Scalars) (.ofBytes (v ++ w))).result
        = (merge {} ({} : Scalars) (.ofBytes w)).result ∧
      (merge {} ({} : Scalars) (.ofBytes w)).result = .ok { e := true }) := by
  intro x q q' y z v w
  have hx : (merge {} q (.ofBytes x)).result = .ok q' := by decide +kernel
  have hv : (merge {} ({ d := -1 } : Scalars) (.ofBytes v)).result = .ok {} := by decide +kernel
  refine ⟨⟨hx, ?_, by decide +kernel⟩, ⟨?_, by decide +kernel⟩, hv, ?_, by decide +kernel⟩
  · exact merge_append {} q q' x y _ _ _ (Input.bytes_ofBytes x) (Input.bytes_ofBytes y)
      (Input.bytes_ofBytes (x ++ y)) (by decide) hx
  · exact merge_append {} q q' x z _ _ _ (Input.bytes_ofBytes x) (Input.bytes_ofBytes z)
      (Input.bytes_ofBytes (x ++ z)) (by decide) hx
  · exact merge_append {} ({ d := -1 } : Scalars) {} v w _ _ _ (Input.bytes_ofBytes v)
      (Input.bytes_ofBytes w) (Input.bytes_ofBytes (v ++ w)) (by decide) hv

end ProtoWire.Message
