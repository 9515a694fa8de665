import Mathlib.Data.List.Flatten
import ProtoWire.Proofs.Message.Absorb

/-!
# `ProtoWire.Proofs.Message.Order`: which order of records matters

Of all records with the number of a field only the last one counts, and
of the unknown ones all do, in their order. Nothing else about the order
of the records of a message has a say in what the message becomes, and
whether they can be read is asked of each record by itself. So records
can stand for others if they are among them, have the same last ones
and the same unknown ones, and are not longer (`StandFor`).

Two ways to get such records are followed up. One is to move records
past each other, except those that have the same number and those that
are both unknown (`Rearranges`). The other is to drop what is
overwritten later (`dropOverwritten`). The records are taken together
with their bytes, which need not be those that a writer would choose.
-/

set_option autoImplicit false

namespace ProtoWire

/-- A record and bytes that spell it. -/
structure SpelledRecord where
  bytes : List UInt8
  record : Record
  isRecord : IsRecord bytes record
  deriving DecidableEq

namespace SpelledRecord

/-- The bytes of records, one behind the other. -/
def concat (spelled : List SpelledRecord) : List UInt8 :=
  spelled.flatMap bytes

/-- The bytes of spelled records spell the records. -/
theorem areRecords_concat (spelled : List SpelledRecord) :
    AreRecords (concat spelled) (spelled.map record) := by
  induction spelled with
  | nil => exact .nil
  | cons first rest ih => exact .cons first.isRecord ih

/-- `ys` are the records `xs` in another order, in which the records
with the same known number follow each other as before, and so do the
unknown ones. The known numbers are `numbers`. -/
structure Rearranges (numbers : List Nat) (xs ys : List SpelledRecord) : Prop where
  perm : xs.Perm ys
  filter_known : ∀ n ∈ numbers, (ys.filter fun y => y.record.number.val = n)
    = xs.filter fun x => x.record.number.val = n
  filter_unknown : (ys.filter fun y => y.record.number.val ∉ numbers)
    = xs.filter fun x => x.record.number.val ∉ numbers

/-- Drops every record with one of the `numbers` behind which another
one with the same number comes. -/
def dropOverwritten (numbers : List Nat) : List SpelledRecord → List SpelledRecord
  | [] => []
  | first :: rest =>
    if first.record.number.val ∈ numbers ∧ ∃ later ∈ rest, later.record.number = first.record.number
    then
      dropOverwritten numbers rest
    else
      first :: dropOverwritten numbers rest

/-- Nothing is moved or added. -/
theorem sublist_dropOverwritten (numbers : List Nat) (spelled : List SpelledRecord) :
    (dropOverwritten numbers spelled).Sublist spelled := by
  induction spelled with
  | nil => exact .slnil
  | cons first rest ih =>
    unfold dropOverwritten
    split
    · exact ih.cons first
    · exact ih.cons_cons first

/-- Records with other numbers stay. -/
theorem filter_dropOverwritten {numbers : List Nat} {p : SpelledRecord → Bool}
    (hp : ∀ x, p x = true → x.record.number.val ∉ numbers) (spelled : List SpelledRecord) :
    (dropOverwritten numbers spelled).filter p = spelled.filter p := by
  induction spelled with
  | nil => rfl
  | cons first rest ih =>
    unfold dropOverwritten
    split
    case isTrue hdrop =>
      have hother : ¬ p first = true := fun hfirst => hp first hfirst hdrop.1
      rw [ih, List.filter_cons_of_neg hother]
    case isFalse => rw [List.filter_cons, List.filter_cons, ih]

end SpelledRecord

namespace Message

open SpelledRecord (concat areRecords_concat Rearranges dropOverwritten)

variable {M : Type} [Message M]

/-! ### Last records -/

/-- There is a last record with the number of any of them. -/
theorem isSome_last?_of_mem {records : List Record} {record : Record} (h : record ∈ records) :
    (last? record.number records).isSome := by
  rw [Option.isSome_iff_ne_none]
  exact fun hnone => ne_of_last?_eq_none hnone record h rfl

/-- The last record with a number is the last of those with the number. -/
theorem last?_eq_getLast?_filter (number : FieldNumber) (spelled : List SpelledRecord) :
    last? number (spelled.map (·.record))
      = ((spelled.filter fun x => x.record.number.val = number.val).map (·.record)).getLast? := by
  unfold last?
  rw [← List.head?_filter, List.filter_reverse, List.head?_reverse, List.filter_map]
  simp only [Function.comp_def, FieldNumber.eq_iff]

/-- What is dropped is not the last. -/
theorem last?_dropOverwritten (numbers : List Nat) (number : FieldNumber)
    (spelled : List SpelledRecord) :
    last? number ((dropOverwritten numbers spelled).map (·.record))
      = last? number (spelled.map (·.record)) := by
  induction spelled with
  | nil => rfl
  | cons first rest ih =>
    unfold dropOverwritten
    split
    case isTrue hdrop =>
      rw [ih, List.map_cons, last?_cons]
      by_cases hnumber : first.record.number = number
      · -- A later record has the number, so the first one is not asked for.
        obtain ⟨later, hlater, hsame⟩ := hdrop.2
        have hsome := isSome_last?_of_mem (List.mem_map_of_mem (f := (·.record)) hlater)
        rw [hsame, hnumber] at hsome
        rw [Option.or_of_isSome hsome]
      · rw [if_neg hnumber, Option.or_none]
    case isFalse => rw [List.map_cons, List.map_cons, last?_cons, last?_cons, ih]

/-! ### Records that stand for others -/

/-- The records `ys` are among `xs`, their last ones and the unknown
ones are the same, and they are not longer. -/
structure StandFor (M : Type) [Message M] (xs ys : List SpelledRecord) : Prop where
  subset : ys ⊆ xs
  last : ∀ field ∈ (fields : List (Field M)),
    last? field.number (ys.map (·.record)) = last? field.number (xs.map (·.record))
  strangers : strangers M (ys.map (·.record)) = strangers M (xs.map (·.record))
  length_le : (concat ys).length ≤ (concat xs).length

/-- What a message becomes is up to the last records and the unknown
ones. -/
theorem absorb_of_standFor [LawfulMessage M] {policy : UnknownFieldPolicy} {message absorbed : M}
    {xs ys : List SpelledRecord} (hstand : StandFor M xs ys)
    (h : absorb policy message (xs.map (·.record)) = some absorbed) :
    absorb policy message (ys.map (·.record)) = some absorbed := by
  have hfits := (absorb_isSome_iff policy message).mp (Option.isSome_of_eq_some h)
  have hsome : (absorb policy message (ys.map (·.record))).isSome :=
    (absorb_isSome_iff policy message).mpr fun record hrecord =>
      hfits record (List.map_subset _ hstand.subset hrecord)
  obtain ⟨absorbed', h'⟩ := Option.isSome_iff_exists.mp hsome
  rw [h', Option.some.injEq]
  -- Both messages come from the same one, so a field without a record is alike in them as well.
  refine LawfulMessage.ext _ _ (fun field hfield => ?_) ?_
  · have hlast := hstand.last field hfield
    cases hx : last? field.number (xs.map (·.record)) with
    | some record =>
      have hget := ofValue?_of_last h' hfield (hlast.trans hx)
      rw [ofValue?_of_last h hfield hx] at hget
      exact (Option.some.inj hget).symm
    | none => rw [get_of_no_last h' hfield (hlast.trans hx), get_of_no_last h hfield hx]
  · rw [unknown_of_absorb h', unknown_of_absorb h]
    cases policy with
    | preserve => exact congrArg (unknown message ++ ·) hstand.strangers
    | discard => rfl

/-- Where records are read into a message, records that stand for them
are read into it with the same result. They are not longer, so they keep
the same limit. -/
theorem readAll_of_standFor [LawfulMessage M] {purpose : Purpose} {options : DecodeOptions}
    {message absorbed : M} {xs ys : List SpelledRecord} {input other : Input}
    (hstand : StandFor M xs ys) (hinput : input.bytes = concat xs)
    (hother : other.bytes = concat ys)
    (h : (readAll purpose options message input).result = .ok absorbed) :
    (readAll purpose options message other).result = .ok absorbed := by
  obtain ⟨hlimit, records, hrecords, habsorb⟩ := readAll_eq_ok_iff.mp h
  rw [hinput] at hlimit hrecords
  obtain rfl := hrecords.unique (areRecords_concat xs)
  refine readAll_eq_ok_iff.mpr
    ⟨?_, _, hother ▸ areRecords_concat ys, absorb_of_standFor hstand habsorb⟩
  rw [hother]
  exact hstand.length_le.trans hlimit

/-! ### Moving and dropping records -/

section Numbers

variable {numbers : List Nat} (hnumbers : HasNumbers M numbers)
include hnumbers

/-- The records without a field are those with other numbers. -/
theorem strangers_map_record (spelled : List SpelledRecord) :
    strangers M (spelled.map (·.record))
      = (spelled.filter fun x => x.record.number.val ∉ numbers).map (·.record) := by
  unfold strangers
  rw [List.filter_map]
  refine congrArg (List.map _) (List.filter_congr fun x _ => ?_)
  rw [Bool.eq_iff_iff, decide_eq_true_iff, ← hnumbers x.record.number]
  exact Option.isNone_iff_eq_none

/-- Rearranged records stand for those they were: no last record with a
known number is another, and the unknown ones are in their order. -/
theorem standFor_of_rearranges [LawfulMessage M] {xs ys : List SpelledRecord}
    (h : Rearranges numbers xs ys) : StandFor M xs ys where
  subset := h.perm.symm.subset
  last field hfield := by
    have hknown := h.filter_known _ (hnumbers.mem_of_field hfield)
    rw [last?_eq_getLast?_filter, last?_eq_getLast?_filter, hknown]
  strangers := by
    rw [strangers_map_record hnumbers, strangers_map_record hnumbers, h.filter_unknown]
  length_le := (h.perm.flatMap_right _).length_eq.ge

/-- The records that are left when overwritten ones are dropped stand
for all of them. -/
theorem standFor_dropOverwritten {dropped : List Nat} (hdropped : dropped ⊆ numbers)
    (xs : List SpelledRecord) : StandFor M xs (dropOverwritten dropped xs) where
  subset := (SpelledRecord.sublist_dropOverwritten dropped xs).subset
  last field _ := last?_dropOverwritten dropped field.number xs
  strangers := by
    rw [strangers_map_record hnumbers, strangers_map_record hnumbers]
    refine congrArg (List.map _) (SpelledRecord.filter_dropOverwritten (fun x hx => ?_) xs)
    exact fun hmem => of_decide_eq_true hx (hdropped hmem)
  length_le := ((SpelledRecord.sublist_dropOverwritten dropped xs).flatMap _).length_le

end Numbers

/-- Whatever query `input` is read as, `other` is read as it too, and
likewise if they are merged into a query. -/
structure ReadsNoLess (options : DecodeOptions) (input other : Input) : Prop where
  decode : ∀ q : Query, (decode options input).result = .ok q →
    (decode options other).result = .ok q
  merge : ∀ q merged : Query, (merge options q input).result = .ok merged →
    (merge options q other).result = .ok merged

/-- For queries, records that stand for others are read no less in every
call. -/
theorem readsNoLess_of_standFor {options : DecodeOptions} {xs ys : List SpelledRecord}
    {input other : Input} (hinput : input.bytes = concat xs) (hother : other.bytes = concat ys)
    (hstand : StandFor Query xs ys) : ReadsNoLess options input other where
  decode _ h := readAll_of_standFor hstand hinput hother h
  merge _ _ h := readAll_of_standFor hstand hinput hother h

/-- **Which order of records matters.** A query that is read from
records is read from the same records in any other order, provided that
the order of those with the number 1 is kept, that of those with the
number 2, that of those with the number 3, and that of all others. It is
also read if, for some of these three numbers, all records but the last
are left out. Both are so for merging, and for every spelling of the
records, in any pieces and under any options. -/
theorem readsNoLess_of_rearranges_or_dropOverwritten (options : DecodeOptions)
    (xs : List SpelledRecord) (input : Input) (h : input.bytes = concat xs) :
    (∀ (ys : List SpelledRecord) (other : Input), Rearranges [1, 2, 3] xs ys →
      other.bytes = concat ys → ReadsNoLess options input other) ∧
    (∀ (numbers : List Nat) (other : Input), numbers ⊆ [1, 2, 3] →
      other.bytes = concat (dropOverwritten numbers xs) → ReadsNoLess options input other) := by
  constructor
  · intro ys other hys hother
    exact readsNoLess_of_standFor h hother (standFor_of_rearranges hasNumbers_query hys)
  · intro numbers other hknown hother
    exact readsNoLess_of_standFor h hother (standFor_dropOverwritten hasNumbers_query hknown xs)

/-- Two texts, two page numbers of which the first is spelled with a
byte too many, and two unknown records. Moved past each other, and with
the first text and the first number left out, they give the same
query. -/
theorem readsNoLess_of_moved_and_overwritten :
    let written (record : Record) (h : record.size < UInt64.size) : SpelledRecord :=
      ⟨record.encode, record, Record.isRecord_encode record h⟩
    let a := written ⟨.one, .bytes [0x61]⟩ (by decide)
    let b := written ⟨.one, .bytes [0x62]⟩ (by decide)
    let wide : IsValue [0x83, 0x00] (.varint 3) :=
      .varint ⟨.more (by decide) (.last (by decide)), by decide, by decide⟩
    let three : SpelledRecord := ⟨_, ⟨.two, .varint 3⟩, .mk (Key.isKey_encode .varint .two) wide⟩
    let four := written ⟨.two, .varint 4⟩ (by decide)
    let old := written ⟨⟨4, by decide, by decide⟩, .varint 7⟩ (by decide)
    let new := written ⟨⟨5, by decide, by decide⟩, .varint 1⟩ (by decide)
    let xs := [a, old, three, b, new, four]
    let ys := [old, three, a, four, b, new]
    let input : Input := ⟨[[0x0a, 0x01, 0x61, 0x20], [0x07, 0x10, 0x83], [0x00, 0x0a, 0x01, 0x62],
      [0x28, 0x01, 0x10], [0x04]]⟩
    let moved : Input := .ofBytes (concat ys)
    let pruned : Input := .ofBytes [0x20, 0x07, 0x0a, 0x01, 0x62, 0x28, 0x01, 0x10, 0x04]
    let q : Query := { query := "b", pageNumber := 4, unknown := [old.record, new.record] }
    input.bytes = concat xs ∧ Rearranges [1, 2, 3] xs ys ∧
      pruned.bytes = concat (dropOverwritten [1, 2] xs) ∧
      (decode {} input).result = .ok q ∧ (decode {} moved).result = .ok q ∧
      (decode {} pruned).result = .ok q ∧
      (merge {} { pageSize := 9 } moved).result = .ok { q with pageSize := 9 } := by
  intro written a b wide three four old new xs ys input moved pruned q
  have hinput : input.bytes = concat xs := by decide +kernel
  have hys : Rearranges [1, 2, 3] xs ys :=
    ⟨by decide +kernel, by decide +kernel, by decide +kernel⟩
  have hmoved : moved.bytes = concat ys := Input.bytes_ofBytes _
  have hpruned : pruned.bytes = concat (dropOverwritten [1, 2] xs) := by decide +kernel
  have hdecode : (decode {} input).result = .ok q := by decide +kernel
  have hmerge : (merge {} { pageSize := 9 } input).result = .ok { q with pageSize := 9 } := by
    decide +kernel
  have hboth := readsNoLess_of_rearranges_or_dropOverwritten {} xs input hinput
  have hsame := hboth.1 ys moved hys hmoved
  have hfewer := hboth.2 [1, 2] pruned (by decide) hpruned
  exact ⟨hinput, hys, hpruned, hdecode, hsame.decode q hdecode, hfewer.decode q hdecode,
    hsame.merge _ _ hmerge⟩

end Message

end ProtoWire
