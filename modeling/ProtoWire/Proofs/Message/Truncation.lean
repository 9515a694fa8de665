import ProtoWire.Proofs.Message.Faults
import ProtoWire.Query
import ProtoWire.Scalars

/-!
# `ProtoWire.Proofs.Message.Truncation`: the front of a message

Bytes `b`, and the same bytes with more of them, `b ++ z`, read as a
message. A reader that is handed `b` while `z` is still on its way wants
to know what the first read says about the second.

If `b` is refused, more bytes can only help where the error says that
they end too early (`Breaks.append`). If `b ++ z` is accepted, it is a
list of records, and `b` ends between two of them or inside one
(`AreRecords.boundary_or_endsInside`). Between two of them, `b` is the
message that the records in front of the cut make. Inside one, `b` is
refused: a record cannot begin with another one, because records can be
told apart from the front (`EndsInside.not_areRecords`), and by the
first law there is only one error it can be refused with.
-/

set_option autoImplicit false

namespace ProtoWire

/-! ### Where a cut falls -/

/-- Between `b` and `z` runs a cut through a record: some bytes of it
are in front of the cut, and some behind. -/
inductive EndsInside : List UInt8 → List UInt8 → Prop where
  | mk {front head tail back : List UInt8} {before after : List Record} {record : Record} :
      AreRecords front before → head ≠ [] → tail ≠ [] → IsRecord (head ++ tail) record →
      AreRecords back after → EndsInside (front ++ head) (tail ++ back)

/-- A record in front leaves the cut inside the record it was in. -/
theorem EndsInside.cons {b z bytes : List UInt8} {record : Record} (hrecord : IsRecord bytes record)
    (h : EndsInside b z) : EndsInside (bytes ++ b) z := by
  obtain ⟨hfront, hhead, htail, hcut, hback⟩ := h
  rw [← List.append_assoc]
  exact .mk (.cons hrecord hfront) hhead htail hcut hback

/-- A cut through records falls between two of them or inside one. -/
theorem AreRecords.boundary_or_endsInside {b z : List UInt8} {records : List Record}
    (h : AreRecords (b ++ z) records) :
    (∃ before after, AreRecords b before ∧ AreRecords z after) ∨ EndsInside b z := by
  generalize hw : b ++ z = w at h
  induction h generalizing b with
  | nil =>
    obtain ⟨rfl, rfl⟩ := List.append_eq_nil_iff.mp hw
    exact .inl ⟨[], [], .nil, .nil⟩
  | @cons bytes rest record records hrecord hrest ih =>
    rcases List.append_eq_append_iff.mp hw with ⟨tail, hbytes, hz⟩ | ⟨b', hb, hrest'⟩
    · -- The cut falls no later than at the end of the first record.
      subst hbytes
      subst hz
      by_cases hhead : b = []
      · subst hhead
        exact .inl ⟨[], record :: records, .nil, .cons hrecord hrest⟩
      · by_cases htail : tail = []
        · subst htail
          rw [List.append_nil] at hrecord
          refine .inl ⟨[record], records, ?_, hrest⟩
          rw [← List.append_nil b]
          exact .cons hrecord .nil
        · exact .inr (EndsInside.mk .nil hhead htail hrecord hrest)
    · subst hb
      rcases ih hrest'.symm with ⟨before, after, hbefore, hafter⟩ | hinside
      · exact .inl ⟨record :: before, after, .cons hrecord hbefore, hafter⟩
      · exact .inr (hinside.cons hrecord)

/-- Bytes that end inside a record are not records: the beginning of a
record is none. -/
theorem EndsInside.not_areRecords {b z : List UInt8} (h : EndsInside b z) (records : List Record) :
    ¬ AreRecords b records := by
  intro hb
  cases h with
  | @mk front head tail back _ _ _ hfront hhead htail hcut _ =>
    obtain ⟨more, -, hmore⟩ := hfront.of_append hb
    cases hmore with
    | nil => exact hhead rfl
    | @cons bytes rest _ _ hrecord _ =>
      -- The record that would stand there begins as the one that was cut, so it is that one.
      have hbytes : bytes ++ (rest ++ tail) = (bytes ++ rest ++ tail) ++ [] := by
        rw [List.append_nil, List.append_assoc]
      obtain ⟨-, -, hnil⟩ := Record.reads_read.unique hrecord hcut hbytes
      exact htail (List.append_eq_nil_iff.mp hnil).2

namespace Message

/-- Reading bytes `b` from `i`, and the same bytes with `z` behind them
from `k`. -/
structure FrontOf (M : Type) [Message M] (options : DecodeOptions) (b z : List UInt8)
    (i k : Input) : Prop where
  /-- Only for the one error more bytes are of any use. -/
  error_of_ne : ∀ e : DecodeError, e ≠ .unexpectedEnd →
    (decode options i : Outcome M).result = .error e →
    (decode options k : Outcome M).result = .error e
  /-- The cut falls between two records, or inside one. -/
  boundary_or_inside : ∀ m : M, (decode options k).result = .ok m →
    (∃ before after, AreRecords b before ∧ AreRecords z after) ∨ EndsInside b z
  /-- Between two records, the front is read as the records in front of
  the cut. -/
  of_boundary : ∀ m : M, (decode options k).result = .ok m →
    ∀ before after, AreRecords b before → AreRecords z after →
      ∃ m' : M, absorb options.unknownFields empty before = some m' ∧
        (decode options i).result = .ok m'
  /-- Inside a record, the front is refused because it ends there. -/
  of_inside : ∀ m : M, (decode options k).result = .ok m → EndsInside b z →
    (decode options i : Outcome M).result = .error .unexpectedEnd

variable {M : Type} [Message M]

/-- A fault of the front that is not that it ends is a fault of the
whole. -/
theorem decode_error_of_front {options : DecodeOptions} {b z : List UInt8} {i k : Input}
    (hi : i.bytes = b) (hk : k.bytes = b ++ z)
    (hlimit : b.length + z.length ≤ options.maxMessageLength) {e : DecodeError}
    (he : e ≠ .unexpectedEnd) (h : (decode options i : Outcome M).result = .error e) :
    (decode options k : Outcome M).result = .error e := by
  rcases readAll_eq_error_iff.mp h with ⟨hlong, -⟩ | ⟨-, front, rest, hb, hbreaks⟩
  · rw [hi] at hlong
    omega
  · refine readAll_eq_error_iff.mpr (.inr ⟨?_, front, rest ++ z, ?_, hbreaks.append he z⟩)
    · rw [hk, List.length_append]
      exact hlimit
    · rw [hk, ← hi, hb, List.append_assoc]

/-- **Truncation is always noticed, and only truncation can be mended.**
For every cut of bytes under a limit that all of them keep: what is
refused in front of the cut for another reason than that it ends is
refused with the same error as a whole; and of what is accepted as a
whole, the front is accepted at the boundaries of records and refused as
ending inside of them. The type of message is arbitrary, and the bytes
may be cut into pieces in any way. -/
theorem decode_front_eq_unexpectedEnd_or_boundary (options : DecodeOptions) (b z : List UInt8)
    (i k : Input) (hi : i.bytes = b) (hk : k.bytes = b ++ z)
    (hlimit : b.length + z.length ≤ options.maxMessageLength) : FrontOf M options b z i k where
  error_of_ne e he h := decode_error_of_front hi hk hlimit he h
  boundary_or_inside m h := by
    obtain ⟨-, records, hrecords, -⟩ := readAll_eq_ok_iff.mp h
    rw [hk] at hrecords
    exact hrecords.boundary_or_endsInside
  of_boundary m h before after hbefore hafter := by
    obtain ⟨-, records, hrecords, habsorb⟩ := readAll_eq_ok_iff.mp h
    rw [hk] at hrecords
    obtain rfl := hrecords.unique (hbefore.append hafter)
    -- All records are taken, so those in front of the cut are.
    have hfits := (absorb_isSome_iff _ _).mp (Option.isSome_of_eq_some habsorb)
    have hsome := (absorb_isSome_iff options.unknownFields (empty : M)).mpr
      fun record hrecord => hfits record (List.mem_append_left _ hrecord)
    obtain ⟨m', hm'⟩ := Option.isSome_iff_exists.mp hsome
    refine ⟨m', hm', readAll_eq_ok_iff.mpr ⟨?_, before, hi ▸ hbefore, hm'⟩⟩
    rw [hi]
    omega
  of_inside m h hinside := by
    cases hresult : (decode options i : Outcome M).result with
    | ok m' =>
      obtain ⟨-, records, hrecords, -⟩ := readAll_eq_ok_iff.mp hresult
      exact absurd (hi ▸ hrecords) (hinside.not_areRecords records)
    | error e =>
      -- Another error would be that of the whole, which is accepted.
      by_cases he : e = .unexpectedEnd
      · rw [he]
      · have hwhole := decode_error_of_front hi hk hlimit he hresult
        rw [h] at hwhole
        cases hwhole

/-- A text and a number of two bytes, cut inside the number in one piece
and at the end of the text in two: the front is refused as ending there,
and is the text alone. The opening marker of a group under a known
number is refused whatever follows. In `Scalars`, where the first key
has two bytes, the cut falls inside it. -/
theorem decode_front_eq_unexpectedEnd_of_cut_number_and_key :
    let text : List UInt8 := [0x0a, 0x02, 0x61, 0x62]
    let page : List UInt8 := [0x10, 0x80, 0x01]
    let whole : Input := ⟨[[0x0a, 0x02, 0x61], [], [0x62, 0x10], [0x80, 0x01]]⟩
    let group : List UInt8 := [0x13]
    let key : List UInt8 := [0x80]
    let truth : List UInt8 := [0x01, 0x01]
    (whole.bytes = text ++ page ∧
      (decode {} whole : Outcome Query).result = .ok { query := "ab", pageNumber := 128 } ∧
      FrontOf Query {} text page ⟨[[0x0a], [0x02, 0x61, 0x62]]⟩ whole ∧
      FrontOf Query {} (text ++ [0x10, 0x80]) [0x01] (.ofBytes (text ++ [0x10, 0x80])) whole ∧
      (decode {} (.ofBytes (text ++ [0x10, 0x80])) : Outcome Query).result
        = .error .unexpectedEnd) ∧
    (FrontOf Query {} group page (.ofBytes group) (.ofBytes (group ++ page)) ∧
      (decode {} (.ofBytes group) : Outcome Query).result
        = .error (.wireTypeMismatch 2 .varint .startGroup)) ∧
    (FrontOf Scalars {} key truth (.ofBytes key) (.ofBytes (key ++ truth)) ∧
      (decode {} (.ofBytes (key ++ truth)) : Outcome Scalars).result = .ok { e := true }) := by
  intro text page whole group key truth
  have hwhole : whole.bytes = text ++ page := by decide
  have hwhole' : whole.bytes = (text ++ [0x10, 0x80]) ++ [0x01] := by decide
  refine ⟨⟨hwhole, by decide +kernel, ?_, ?_, by decide +kernel⟩, ⟨?_, by decide +kernel⟩,
    ?_, by decide +kernel⟩
  · exact decode_front_eq_unexpectedEnd_or_boundary {} text page _ _ (by decide) hwhole (by decide)
  · exact decode_front_eq_unexpectedEnd_or_boundary {} _ _ _ _ (Input.bytes_ofBytes _) hwhole'
      (by decide)
  · exact decode_front_eq_unexpectedEnd_or_boundary {} group page _ _ (Input.bytes_ofBytes group)
      (Input.bytes_ofBytes _) (by decide)
  · exact decode_front_eq_unexpectedEnd_or_boundary {} key truth _ _ (Input.bytes_ofBytes key)
      (Input.bytes_ofBytes _) (by decide)

end Message

end ProtoWire
