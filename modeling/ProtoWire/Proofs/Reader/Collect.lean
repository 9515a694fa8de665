import ProtoWire.Proofs.Reader.Effect
import ProtoWire.Proofs.WireValue.Skip

/-!
# `ProtoWire.Proofs.Reader.Collect`: a value passed over and a value kept

A reader that does not know a field passes over its value, or it keeps
the value as a record behind those it has (`Record.collect`). Both have
to stop at the same place. If they did not, the bytes behind the value
would be another message to the one than to the other. This includes
the place where a failure stops, since a caller may go on from there.

* `moveAlike`: the two succeed together and fail together. The record
  is what the key announces, and a failure leaves none.
* `Message.mergeUnknown_preserve_eq`, `step_collect`: messages and
  readers collect in this way.
* `skipsLikeCollect`: all of it, with the place where an encoded value
  ends.
-/

set_option autoImplicit false

namespace ProtoWire

namespace Record

/-- Reads the value that a key announces, and puts it as a record behind
the others. -/
def collect (key : Key) : Filler (List Record) Unit := do
  let record ← Filler.reading (readValue key)
  Filler.update (· ++ [record])

variable {key : Key} {records : List Record} {record : Record} {input rest : Input}

/-- A record that can be read comes behind the others. -/
theorem collect_of_ok (h : readValue key input = .ok record rest) :
    collect key ⟨input, records⟩ = .ok () ⟨rest, records ++ [record]⟩ :=
  Filler.bind_of_ok (Filler.reading_of_ok h)

/-- Where none can be read, the others are left alone. -/
theorem collect_of_error {e : DecodeError} (h : readValue key input = .error e rest) :
    collect key ⟨input, records⟩ = .error e ⟨rest, records⟩ :=
  Filler.bind_of_error (Filler.reading_of_error h)

end Record

/-- A message that keeps what it does not know collects it behind its
unknown records. -/
theorem Message.mergeUnknown_preserve_eq {M : Type} [Message M] [LawfulMessage M] (key : Key) :
    (mergeUnknown .preserve key : Filler M Unit)
      = Filler.within unknown setUnknown (Record.collect key) := by
  funext s
  cases hread : Record.readValue key s.input with
  | ok record rest =>
    rw [Filler.within_of_ok (Record.collect_of_ok hread)]
    exact Filler.bind_of_ok (Filler.reading_of_ok hread)
  | error e rest =>
    -- The same records are put back.
    rw [Filler.within_of_error (Record.collect_of_error hread), setUnknown_unknown]
    exact Filler.bind_of_error (Filler.reading_of_error hread)

/-! ### The two ways past a value -/

variable {key : Key} {input : Input} {records : List Record}

/-- Passing over the value behind a key, beside collecting it. -/
inductive MoveAlike (key : Key) (input : Input) (records : List Record) : Prop where
  | ok {record : Record} {rest : Input} (skip : WireValue.skip key.wireType input = .ok () rest)
      (collect : Record.collect key ⟨input, records⟩ = .ok () ⟨rest, records ++ [record]⟩)
      (number : record.number = key.number) (wireType : record.value.wireType = key.wireType)
  | error {e : DecodeError} {rest : Input}
      (skip : WireValue.skip key.wireType input = .error e rest)
      (collect : Record.collect key ⟨input, records⟩ = .error e ⟨rest, records⟩)

/-- What is collected is the value that is read, under the number of the
key. -/
theorem collect_of_read_ok {value : WireValue} {rest : Input}
    (h : WireValue.read key.wireType input = .ok value rest) :
    Record.collect key ⟨input, records⟩ = .ok () ⟨rest, records ++ [⟨key.number, value⟩]⟩ :=
  Record.collect_of_ok (Decoder.map_of_ok _ h)

/-- Both ways past a value are the same way, whether it is there or
not. -/
theorem moveAlike (key : Key) (input : Input) (records : List Record) :
    MoveAlike key input records := by
  cases hread : WireValue.read key.wireType input with
  | ok value rest =>
    exact .ok (WireValue.skip_of_read_ok hread) (collect_of_read_ok hread) rfl
      (WireValue.wireType_of_read hread)
  | error e rest =>
    exact .error (WireValue.skip_of_read_error hread)
      (Record.collect_of_error (Decoder.map_of_error _ hread))

/-- Where an encoded value stands in front, both stop behind it. -/
theorem exists_rest_of_encode {value : WireValue} {tail : List UInt8}
    (hlayout : value.wireType = key.wireType)
    (hfit : ∀ payload, value = .bytes payload → payload.length < UInt64.size)
    (hbytes : input.bytes = value.encode ++ tail) :
    ∃ rest, rest.bytes = tail ∧ WireValue.skip key.wireType input = .ok () rest ∧
      Record.collect key ⟨input, records⟩ = .ok () ⟨rest, records ++ [⟨key.number, value⟩]⟩ := by
  have hvalue := WireValue.isValue_encode_of_payload hfit
  obtain ⟨rest, hread, hrest⟩ :=
    (WireValue.reads_read key.wireType).complete hbytes ⟨hvalue, hlayout⟩
  exact ⟨rest, hrest, WireValue.skip_of_read_ok hread, collect_of_read_ok hread⟩

/-! ### The two steps of a reader -/

namespace Reader

variable {r : Reader} {choice : KeyChoice}

/-- A step goes on with the key that was chosen. -/
theorem withKey_of_key? {next : Key → Reader × Reply} (h : choice.key? r = some key) :
    r.withKey choice next = next key := by
  unfold withKey
  cases choice with
  | last =>
    have hlast : r.lastKey = some key := h
    rw [hlast]
  | parts code number =>
    dsimp only
    cases hparts : Key.ofCode code number with
    | ok found =>
      rw [KeyChoice.key?, hparts] at h
      cases h
      rfl
    | error e =>
      rw [KeyChoice.key?, hparts] at h
      cases h

/-- A step that collects leaves the input and the records as collecting
does. -/
theorem step_collect (h : choice.key? r = some key) :
    (r.step (.collect choice)).1
      = { r with
          input := ((Record.collect key).final ⟨r.input, r.records⟩).input
          records := ((Record.collect key).final ⟨r.input, r.records⟩).dest } := by
  rw [step, withKey_of_key? h]
  cases hread : Record.readValue key r.input with
  | ok record rest => rw [Filler.final_of_ok (Record.collect_of_ok hread)]
  | error e rest => rw [Filler.final_of_error (Record.collect_of_error hread)]

/-- A step that passes over a value leaves the input as that does, and
nothing else changes. -/
theorem step_skip (r : Reader) (wireType : WireType) :
    (r.step (.skip (some wireType.code))).1
      = { r with input := (WireValue.skip wireType).rest r.input } := by
  have hcode : WireType.ofCode wireType.code = .ok wireType := by
    rw [WireType.ofCode, WireType.ofCode?_code]
  simp only [step, withWireType, hcode, reading]
  cases hrun : WireValue.skip wireType r.input with
  | ok a rest => rw [Decoder.rest_of_ok hrun]
  | error e rest => rw [Decoder.rest_of_error hrun]

end Reader

/-! ### Both ways together -/

/-- Whichever way it ends, the same is left. -/
theorem rest_skip_eq (key : Key) (input : Input) (records : List Record) :
    (WireValue.skip key.wireType).rest input
      = ((Record.collect key).final ⟨input, records⟩).input := by
  cases moveAlike key input records with
  | ok hskip hcollect => rw [Decoder.rest_of_ok hskip, Filler.final_of_ok hcollect]
  | error hskip hcollect => rw [Decoder.rest_of_error hskip, Filler.final_of_error hcollect]

/-- What there is to say about the two ways past the value behind a
key. -/
structure SkipsLikeCollect (key : Key) (input : Input) (records : List Record) : Prop where
  alike : MoveAlike key input records
  /-- Whichever way it ends, the same is left. -/
  rest_eq : (WireValue.skip key.wireType).rest input
    = ((Record.collect key).final ⟨input, records⟩).input
  /-- Both stop exactly behind an encoded value. A payload has no more
  bytes than its length can say. -/
  behind : ∀ value tail, value.wireType = key.wireType →
    (∀ payload, value = .bytes payload → payload.length < UInt64.size) →
    input.bytes = value.encode ++ tail →
    ∃ rest, rest.bytes = tail ∧ WireValue.skip key.wireType input = .ok () rest ∧
      Record.collect key ⟨input, records⟩ = .ok () ⟨rest, records ++ [⟨key.number, value⟩]⟩
  /-- A reader that makes the one step or the other goes on in the same
  input, with the records that were collected or those it had. -/
  steps : ∀ (r : Reader) choice, r.input = input → r.records = records →
    choice.key? r = some key →
    (r.step (.skip (some key.wireType.code))).1
        = { (r.step (.collect choice)).1 with records := records } ∧
      (r.step (.collect choice)).1.records
        = ((Record.collect key).final ⟨input, records⟩).dest

/-- **Passing over a value is reading it**, wherever it stands and
whatever stands there in its place. -/
theorem skipsLikeCollect (key : Key) (input : Input) (records : List Record) :
    SkipsLikeCollect key input records where
  alike := moveAlike key input records
  rest_eq := rest_skip_eq key input records
  behind _ _ hlayout hfit hbytes := exists_rest_of_encode hlayout hfit hbytes
  steps := by
    rintro r choice rfl rfl hchosen
    rw [Reader.step_collect hchosen, Reader.step_skip, rest_skip_eq key r.input r.records]
    exact ⟨rfl, rfl⟩

/-- A payload of three bytes of which one is there. Its length is used
up, over a cut, and the byte is left. -/
example :
    let key : Key := ⟨.len, .one⟩
    let input : Input := ⟨[[0x83], [0x00, 0x61]]⟩
    WireValue.skip key.wireType input = .error .unexpectedEnd ⟨[[0x61]]⟩ ∧
      Record.collect key ⟨input, []⟩ = .error .unexpectedEnd ⟨⟨[[0x61]]⟩, []⟩ :=
  ⟨by cbv, by cbv⟩

end ProtoWire
