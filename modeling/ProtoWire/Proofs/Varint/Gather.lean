import ProtoWire.Proofs.Varint.Cuts
import ProtoWire.Proofs.Varint.Digits

/-!
# `ProtoWire.Proofs.Varint.Gather`: what a read uses up

Over a cut, the digits of a varint are moved one at a time into room
for ten of them, until one ends the number, there are as many as the
width allows, or nothing is left. `Varint.read` says at once what this
comes to (`digitRun`); `gather?` is the loop itself. A turn of it takes
the byte in front, which has to be there, and writes it behind the
others, where there has to be room. Otherwise the loop has no result.

* `gather?_eq_some`: the loop has a result. It writes the digits and
  uses up as many bytes.
* `length_digitRun_of_error`: digits that are no number are gathered to
  the end, that of the width or that of the input.
* `read_refinesDecode`: a read of pieces finds what is decoded from all
  bytes at once. What it uses up without success depends on the cuts.
-/

set_option autoImplicit false

namespace ProtoWire.Varint

/-! ### The loop -/

/-- Digits that are being gathered: the room for them, how many of them
have been written, and the input that is left. -/
structure Gathering where
  room : Vector UInt8 10
  count : Nat
  input : Input

namespace Gathering

/-- Nothing has been gathered. -/
def start (input : Input) : Gathering :=
  ⟨Vector.replicate 10 0, 0, input⟩

/-- The digits that have been written. -/
def written (g : Gathering) : List UInt8 :=
  g.room.toList.take g.count

/-- Writes a byte behind the others, and moves past it. -/
def put (g : Gathering) (b : UInt8) (h : g.count < 10) : Gathering :=
  ⟨g.room.set g.count b, g.count + 1, g.input.advance 1⟩

/-- Takes the byte in front. There has to be one, and room for it. -/
def next? (g : Gathering) : Option (UInt8 × Gathering) :=
  match g.input.chunk with
  | [] => none
  | b :: _ => if h : g.count < 10 then some (b, g.put b h) else none

end Gathering

/-- Gathers digits, at most `left` more. -/
def gather? : (left : Nat) → Gathering → Option Gathering
  | 0, g => some g
  | left + 1, g =>
    if g.input.isEmpty then some g
    else
      match g.next? with
      | none => none
      | some (b, g) => if b.toNat < 128 then some g else gather? left g

/-! ### The loop does not go wrong -/

variable {g : Gathering} {b : UInt8} {bs : List UInt8}

@[simp]
theorem Gathering.count_put (h : g.count < 10) : (g.put b h).count = g.count + 1 := rfl

@[simp]
theorem Gathering.input_put (h : g.count < 10) : (g.put b h).input = g.input.advance 1 := rfl

/-- A byte that is put comes behind those that were written. -/
theorem Gathering.written_put (h : g.count < 10) : (g.put b h).written = g.written ++ [b] := by
  have hlen : g.count < g.room.toList.length := by rwa [Vector.length_toList]
  rw [written, written, put, Vector.toList_set, List.take_add_one,
    List.take_set_of_le (Nat.le_refl _), List.getElem?_set_self hlen, Option.toList_some]

/-- A byte that is there is taken, if there is room for it. -/
theorem Gathering.next?_eq_some (hbytes : g.input.bytes = b :: bs) (h : g.count < 10) :
    g.next? = some (b, g.put b h) := by
  obtain ⟨more, hmore⟩ := g.input.chunk_isPrefix
  unfold next?
  cases hchunk : g.input.chunk with
  | nil =>
    rw [Input.chunk_eq_nil_iff.mp hchunk] at hbytes
    cases hbytes
  | cons b' bs' =>
    rw [hchunk, hbytes, List.cons_append] at hmore
    cases hmore
    exact dif_pos h

/-- What has been gathered on the way from `g` to `g'`. -/
structure Gathers (g g' : Gathering) (run : List UInt8) : Prop where
  written : g'.written = g.written ++ run
  count : g'.count = g.count + run.length
  input : g'.input = g.input.advance run.length

/-- Putting one byte gathers that byte. -/
theorem Gathers.put (h : g.count < 10) : Gathers g (g.put b h) [b] :=
  ⟨g.written_put h, rfl, rfl⟩

/-- One turn, and what is gathered behind it. -/
theorem Gathers.cons {g' : Gathering} {run : List UInt8} (h : g.count < 10)
    (hrun : Gathers (g.put b h) g' run) : Gathers g g' (b :: run) where
  written := by rw [hrun.written, g.written_put h, List.append_assoc, List.singleton_append]
  count := by
    rw [hrun.count, g.count_put h, List.length_cons]
    omega
  input := by rw [hrun.input, g.input_put h, Input.advance_advance, List.length_cons, Nat.add_comm]

/-- The loop ends where nothing is left. -/
theorem gather?_of_nil (left : Nat) (hbytes : g.input.bytes = []) : gather? left g = some g := by
  cases left with
  | zero => rfl
  | succ left => exact if_pos (Input.isEmpty_iff.mpr hbytes)

/-- One turn of the loop. -/
theorem gather?_of_cons (left : Nat) (hbytes : g.input.bytes = b :: bs) (h : g.count < 10) :
    gather? (left + 1) g
      = if b.toNat < 128 then some (g.put b h) else gather? left (g.put b h) := by
  have hempty : ¬ g.input.isEmpty = true := by
    rw [Input.isEmpty_iff, hbytes]
    exact List.cons_ne_nil b bs
  rw [gather?, if_neg hempty, Gathering.next?_eq_some hbytes h]

/-- The loop gathers the digits at the front. There is room for them, as
long as there is for those that may still come. -/
theorem gather?_eq_some {left : Nat} (hbytes : g.input.bytes = b :: bs)
    (hroom : g.count + (left + 1) ≤ 10) :
    ∃ g', gather? (left + 1) g = some g' ∧ Gathers g g' (digitRun (left + 1) (b :: bs)) := by
  induction left generalizing g b bs with
  | zero =>
    have h : g.count < 10 := by omega
    refine ⟨g.put b h, ?_, ?_⟩
    · rw [gather?_of_cons 0 hbytes h, gather?, ite_self]
    · rw [digitRun, digitRun, ite_self]
      exact .put h
  | succ left ih =>
    have h : g.count < 10 := by omega
    rw [gather?_of_cons (left + 1) hbytes h, digitRun]
    by_cases hb : b.toNat < 128
    · rw [if_pos hb, if_pos hb]
      exact ⟨g.put b h, rfl, .put h⟩
    · rw [if_neg hb, if_neg hb]
      -- More digits are due, and they are those behind the one that was put.
      have hrest : (g.put b h).input.bytes = bs := by
        rw [g.input_put h, Input.bytes_advance, hbytes, List.drop_one, List.tail_cons]
      cases bs with
      | nil => exact ⟨g.put b h, gather?_of_nil _ hrest, .put h⟩
      | cons b' bs =>
        obtain ⟨g', hgather, hrun⟩ := ih hrest (by rw [g.count_put h]; omega)
        exact ⟨g', hgather, .cons h hrun⟩

/-! ### Failures -/

/-- Where there is no number, no digit ends the gathering. -/
theorem length_digitRun_of_error {last free : Nat} {bytes : List UInt8} {e : DecodeError}
    (h : decodeDigits last free bytes = .error e) :
    (digitRun (free + 1) bytes).length = min (free + 1) bytes.length := by
  fun_induction decodeDigits last free bytes generalizing e with
  | case1 => simp [digitRun]
  | case2 => cases h
  | case3 b bs hb =>
    -- Only this digit may come, so it is the last of the run even if it is too large.
    rw [digitRun, digitRun, ite_self, List.length_singleton, List.length_cons]
    omega
  | case4 => cases h
  | case5 => cases h
  | case6 free b bs hb e' heq ih =>
    rw [digitRun, if_neg hb, List.length_cons, List.length_cons, ih heq]
    omega

/-- The chunk in front surely holds the number: it is as long as any
number of the width, or nothing comes behind it. -/
def InPlace (w : Width) (input : Input) : Prop :=
  w.maxBytes ≤ input.chunk.length ∨ input.chunk = input.bytes

variable {w : Width} {input rest : Input}

/-- This is how a read decides which way to go. -/
theorem inPlace_iff :
    InPlace w input ↔
      w.maxBytes ≤ input.chunk.length ∨ input.chunk.length = input.remaining := by
  rw [InPlace, Input.remaining_eq_length]
  refine or_congr_right ⟨congrArg List.length, ?_⟩
  exact input.chunk_isPrefix.eq_of_length

/-- In place, a failure uses up nothing. -/
theorem rest_of_inPlace {e : DecodeError} (h : InPlace w input)
    (hread : read w input = .error e rest) : rest = input := by
  simp only [read, inPlace_iff.mp h, if_true] at hread
  cases hdec : decode w input.chunk with
  | ok found =>
    rw [hdec] at hread
    cases hread
  | error e' =>
    rw [hdec] at hread
    cases hread
    rfl

/-- Over a cut, the gathered digits are used up, whatever they are. -/
theorem rest_read_of_not_inPlace (h : ¬ InPlace w input) :
    (read w).rest input = input.advance (digitRun w.maxBytes input.bytes).length := by
  rw [inPlace_iff] at h
  cases hdec : decode w (digitRun w.maxBytes input.bytes) with
  | ok found =>
    refine Decoder.rest_of_ok (a := found) ?_
    simp only [read, h, if_false, hdec]
  | error e =>
    refine Decoder.rest_of_error (e := e) ?_
    simp only [read, h, if_false, hdec]

/-! ### The read of pieces and the decoding of all bytes -/

/-- What is found over any pieces is what decoding finds in the
bytes. -/
theorem found_eq_decode (w : Width) (input : Input) :
    ((read w).outcome input).map Prod.fst = decode w input.bytes := by
  rw [outcome_read]
  cases decode w input.bytes <;> rfl

/-- A number that is read is decoded from the bytes, with as many of
them. -/
theorem decode_of_read_ok {found : Nat × Nat} (hread : read w input = .ok found rest) :
    decode w input.bytes = .ok found := by
  rw [← found_eq_decode, Decoder.outcome_of_ok hread]
  rfl

/-- An error of the read is the one of decoding. -/
theorem decode_of_read_error {e : DecodeError} (hread : read w input = .error e rest) :
    decode w input.bytes = .error e := by
  rw [← found_eq_decode, Decoder.outcome_of_error hread]
  rfl

/-- A number that is read uses up its own bytes. -/
theorem used_of_read_ok {value count : Nat} (hread : read w input = .ok (value, count) rest) :
    count ≤ input.bytes.length ∧ rest.bytes = input.bytes.drop count := by
  have hdec := decode_of_read_ok hread
  have hout := outcome_read w input
  rw [Decoder.outcome_of_ok hread, hdec] at hout
  injection hout with hout
  injection hout with hfound hrest
  exact ⟨(decode_count hdec).2.2, hrest⟩

/-- Where a number is spelled in front, it is read, and nothing behind it
is used up. -/
theorem exists_read_of_isVarint {n : Nat} {digits tail : List UInt8} (h : IsVarint w digits n)
    (hbytes : input.bytes = digits ++ tail) :
    ∃ rest, read w input = .ok (n, digits.length) rest ∧ rest.bytes = tail := by
  have hout := outcome_read w input
  rw [hbytes, decode_append h tail] at hout
  obtain ⟨rest, hread, hrest⟩ := Decoder.eq_ok_of_outcome hout
  refine ⟨rest, hread, ?_⟩
  rw [hrest, List.drop_left]

/-- No number of the width is spelled at the front. -/
def NoVarint (w : Width) (bytes : List UInt8) : Prop :=
  ¬ ∃ digits n tail, bytes = digits ++ tail ∧ IsVarint w digits n

/-- Where none is spelled, the read fails as the decoding does. -/
theorem exists_read_of_noVarint (h : NoVarint w input.bytes) :
    ∃ e rest, read w input = .error e rest ∧ decode w input.bytes = .error e := by
  cases hread : read w input with
  | error e rest => exact ⟨e, rest, rfl, decode_of_read_error hread⟩
  | ok found rest =>
    -- What is read is spelled by the bytes that it takes off the front.
    obtain ⟨-, hvarint⟩ := isVarint_of_decode (decode_of_read_ok hread)
    exact absurd ⟨_, _, _, (List.take_append_drop found.2 input.bytes).symm, hvarint⟩ h

/-- Where the chunk in front is too short to decode in place, a failure
uses up what was gathered. -/
theorem used_of_read_error {e : DecodeError} (hread : read w input = .error e rest)
    (hcut : ¬ InPlace w input) :
    rest.bytes = input.bytes.drop (min w.maxBytes input.bytes.length) := by
  have hdec := decode_of_read_error hread
  have hlen : (digitRun w.maxBytes input.bytes).length = min w.maxBytes input.bytes.length :=
    length_digitRun_of_error hdec
  rw [← Decoder.rest_of_error hread, rest_read_of_not_inPlace hcut, Input.bytes_advance, hlen]

/-- Over a cut there is a byte. -/
theorem exists_bytes_eq_cons_of_not_inPlace (hcut : ¬ InPlace w input) :
    ∃ b bs, input.bytes = b :: bs := by
  refine List.exists_cons_of_ne_nil fun hnil => hcut (.inr ?_)
  rw [hnil, Input.chunk_eq_nil_iff.mpr hnil]

/-- Started on nothing, the loop gathers the digits at the front. -/
theorem exists_gather?_start (hcut : ¬ InPlace w input) :
    ∃ g, gather? w.maxBytes (.start input) = some g ∧
      g.written = digitRun w.maxBytes input.bytes ∧
      g.count = (digitRun w.maxBytes input.bytes).length ∧
      g.input = input.advance (digitRun w.maxBytes input.bytes).length := by
  obtain ⟨b, bs, hbytes⟩ := exists_bytes_eq_cons_of_not_inPlace hcut
  have hroom : 0 + (w.freeDigits + 1) ≤ 10 := by cases w <;> decide
  obtain ⟨g, hgather, hrun⟩ := gather?_eq_some (g := .start input) hbytes hroom
  rw [← hbytes] at hrun
  exact ⟨g, hgather, hrun.written, hrun.count.trans (Nat.zero_add _), hrun.input⟩

/-- A read of pieces, beside the decoding of their bytes. -/
structure RefinesDecode (w : Width) (input : Input) : Prop where
  /-- The value and the number of its bytes are the same, or the error
  is. -/
  found_eq : ((read w).outcome input).map Prod.fst = decode w input.bytes
  /-- As many bytes are used up as are counted. -/
  used_of_ok : ∀ value count rest, read w input = .ok (value, count) rest →
    count ≤ input.bytes.length ∧ rest.bytes = input.bytes.drop count
  /-- In place, a failure uses up nothing. -/
  rest_of_error : ∀ e rest, read w input = .error e rest → InPlace w input → rest = input
  /-- Over a cut, a failure uses up all that could have been a digit. -/
  used_of_error : ∀ e rest, read w input = .error e rest → ¬ InPlace w input →
    rest.bytes = input.bytes.drop (min w.maxBytes input.bytes.length)
  /-- Over a cut, the loop finds a byte and room for it in every turn.
  What it has written is decoded, and what it leaves is left. -/
  gathered : ¬ InPlace w input → ∃ g, gather? w.maxBytes (.start input) = some g ∧
    g.count ≤ w.maxBytes ∧ ((read w).outcome input).map Prod.fst = decode w g.written ∧
    (read w).rest input = g.input

/-- **Pieces are read as their bytes are decoded**, with the same value
and count or the same error. What is used up is exact for successes and
for failures, and no digit is gathered without room for it. -/
theorem read_refinesDecode (w : Width) (input : Input) : RefinesDecode w input where
  found_eq := found_eq_decode w input
  used_of_ok _ _ _ hread := used_of_read_ok hread
  rest_of_error _ _ hread hplace := rest_of_inPlace hplace hread
  used_of_error _ _ hread hcut := used_of_read_error hread hcut
  gathered hcut := by
    obtain ⟨g, hgather, hwritten, hcount, hinput⟩ := exists_gather?_start hcut
    refine ⟨g, hgather, ?_, ?_, ?_⟩
    · rw [hcount]
      exact length_digitRun_le _ _
    · -- The gathered digits are as good as all bytes.
      rw [found_eq_decode, hwritten]
      exact (decodeDigits_digitRun _ _ _).symm
    · rw [rest_read_of_not_inPlace hcut, hinput]

/-- Two digits that another should follow. In one piece they are left
where they are, and over a cut they are used up; the end is missing
either way. -/
example :
    let whole : Input := .ofBytes [0x80, 0x80]
    let cut : Input := ⟨[[], [0x80], [0x80]]⟩
    read .w64 whole = .error .unexpectedEnd whole ∧
      ((read .w64).rest cut).remaining = 0 ∧
      (read .w64).outcome cut = .error .unexpectedEnd :=
  ⟨rfl, rfl, rfl⟩

end ProtoWire.Varint
