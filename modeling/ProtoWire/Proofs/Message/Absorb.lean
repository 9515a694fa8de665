import ProtoWire.Message.Decode
import ProtoWire.Proofs.FieldType.Value
import ProtoWire.Proofs.Message.Lawful

/-!
# `ProtoWire.Proofs.Message.Absorb`: what a message makes of its records

Reading a message, said without bytes. `absorb policy message records`
takes the records one after the other: a record with the number of a
field replaces its value, if it stands for a value of the field's type,
and any other is kept or dropped as the policy says. It fails if a
record fits its field in no way.

* `reads_mergeRecord`: a turn of the loop accepts a record of the
  grammar, and places it.
* `mergeRecords_of_areRecords`, `areRecords_of_mergeRecords`: so the
  loop accepts the records of the grammar that can be placed, and ends
  with the message that absorbs them. The first of the two lets other
  bytes follow.
* `readAll_eq_ok_iff`: what a whole read comes to when it succeeds.
* `absorb_isSome_iff`, `get_of_absorb`, `unknown_of_absorb`: which
  records can be absorbed, and what becomes of each part of the
  message. A field has the value of the last record with its number,
  and the records that are kept are those that no field took, in the
  order they came.
-/

set_option autoImplicit false

namespace ProtoWire.Message

variable {M : Type} [Message M]

/-! ### Placing records -/

/-- What the policy does with a record that no field takes. -/
def keep (policy : UnknownFieldPolicy) (record : Record) (message : M) : M :=
  match policy with
  | .preserve => addUnknown record message
  | .discard => message

/-- Puts a record into a message, if it fits the field it is for. -/
def place (policy : UnknownFieldPolicy) (message : M) (record : Record) : Option M :=
  match field? M record.number with
  | some field => (field.type.ofValue? record.value).map fun v => field.set v message
  | none => some (keep policy record message)

/-- Puts records into a message one after the other. -/
def absorb (policy : UnknownFieldPolicy) (message : M) (records : List Record) : Option M :=
  records.foldlM (place policy) message

/-- The report on a record, if it gives cause for one. -/
def report? (M : Type) [Message M] (policy : UnknownFieldPolicy) (record : Record) :
    Option Event :=
  match field? M record.number with
  | some _ => none
  | none => some (.unknownField (fullName M) policy ⟨record.value.wireType, record.number⟩)

/-- A record of a field replaces its value with what it stands for
there, and fits only if it stands for something. -/
theorem place_of_field {record : Record} {field : Field M}
    (h : field? M record.number = some field) (policy : UnknownFieldPolicy) (message : M) :
    place policy message record
      = (field.type.ofValue? record.value).map fun v => field.set v message := by
  simp only [place, h]

/-- Any other record fits, and the policy says what becomes of it. -/
theorem place_of_no_field {record : Record} (h : field? M record.number = none)
    (policy : UnknownFieldPolicy) (message : M) :
    place policy message record = some (keep policy record message) := by
  simp only [place, h]

/-- A record of a field is not worth a report. -/
theorem report?_of_field {record : Record} {field : Field M}
    (h : field? M record.number = some field) (policy : UnknownFieldPolicy) :
    report? M policy record = none := by
  simp only [report?, h]

/-- Any other record is reported with its key, whatever the policy. -/
theorem report?_of_no_field {record : Record} (h : field? M record.number = none)
    (policy : UnknownFieldPolicy) :
    report? M policy record
      = some (.unknownField (fullName M) policy ⟨record.value.wireType, record.number⟩) := by
  simp only [report?, h]

/-- The reports on records, one by one. -/
theorem filterMap_report?_cons (policy : UnknownFieldPolicy) (record : Record)
    (records : List Record) :
    (record :: records).filterMap (report? M policy)
      = (report? M policy record).toList ++ records.filterMap (report? M policy) := by
  rw [List.filterMap_cons]
  cases report? M policy record <;> rfl

/-- Without records a message is what it was. -/
theorem absorb_nil (policy : UnknownFieldPolicy) (message : M) :
    absorb policy message [] = some message := rfl

/-- Where the first record has been placed, the others are absorbed by
what it has made of the message. -/
theorem absorb_cons {policy : UnknownFieldPolicy} {message placed : M} {record : Record}
    (records : List Record) (h : place policy message record = some placed) :
    absorb policy message (record :: records) = absorb policy placed records := by
  show (place policy message record >>= fun m => absorb policy m records) = _
  rw [h]
  rfl

/-- Records behind others are absorbed by what the others have made of
the message. -/
theorem absorb_append {policy : UnknownFieldPolicy} {message absorbed : M} {records : List Record}
    (more : List Record) (h : absorb policy message records = some absorbed) :
    absorb policy message (records ++ more) = absorb policy absorbed more := by
  show (records ++ more).foldlM (place policy) message = _
  rw [List.foldlM_append]
  show (absorb policy message records >>= fun m => absorb policy m more) = _
  rw [h]
  rfl

/-- Records are absorbed one by one or not at all. -/
theorem exists_of_absorb_cons {policy : UnknownFieldPolicy} {message absorbed : M}
    {record : Record} {records : List Record}
    (h : absorb policy message (record :: records) = some absorbed) :
    ∃ placed, place policy message record = some placed ∧
      absorb policy placed records = some absorbed :=
  Option.bind_eq_some_iff.mp h

/-! ### A turn of the loop -/

/-- Behind a key, the value of its field is spelled and replaces what
the field held. Without such a field nothing is read. -/
theorem reads_readKnown (key : Key) :
    (readKnown key : Filler M Bool).Reads fun b message known message' =>
      match field? M key.number with
      | some field => known = true ∧ ∃ value v, IsValue b value ∧ value.wireType = key.wireType ∧
          field.type.ofValue? value = some v ∧ message' = field.set v message
      | none => known = false ∧ b = [] ∧ message' = message := by
  unfold readKnown
  cases field? M key.number with
  | none =>
    -- Nothing is read, so the bytes are none and the message is the same.
    refine (Filler.Reads.pure false).congr fun b message known message' => ?_
    exact and_left_comm
  | some field =>
    refine ((Filler.Reads.within (FieldType.reads_readField field.type key)).bind_of_nil
      fun _ => Filler.Reads.pure true).congr fun b message known message' => ?_
    constructor
    · intro hsteps
      rcases hsteps with ⟨_, _, ⟨v, ⟨value, hvalue, hlayout, hv⟩, rfl⟩, rfl, rfl⟩
      exact ⟨rfl, value, v, hvalue, hlayout, hv, rfl⟩
    · intro hgrammar
      rcases hgrammar with ⟨rfl, value, v, hvalue, hlayout, hv, rfl⟩
      exact ⟨(), _, ⟨v, ⟨value, hvalue, hlayout, hv⟩, rfl⟩, rfl, rfl⟩

/-- The value of an unknown record is spelled, and the record is kept as
the policy says. -/
theorem reads_mergeUnknown (policy : UnknownFieldPolicy) (key : Key) :
    (mergeUnknown policy key : Filler M Unit).Reads fun b message _ message' =>
      ∃ record, IsValue b record.value ∧ key = ⟨record.value.wireType, record.number⟩ ∧
        message' = keep policy record message := by
  cases policy with
  | preserve =>
    refine ((Filler.Reads.reading (Record.reads_readValue key)).bind_of_nil
      fun record => Filler.Reads.update (addUnknown record)).congr fun b message _ message' => ?_
    constructor
    · intro hsteps
      rcases hsteps with ⟨record, _, ⟨⟨hvalue, hkey⟩, rfl⟩, rfl⟩
      exact ⟨record, hvalue, hkey, rfl⟩
    · intro hgrammar
      rcases hgrammar with ⟨record, hvalue, hkey, rfl⟩
      exact ⟨record, message, ⟨⟨hvalue, hkey⟩, rfl⟩, rfl⟩
  | discard =>
    -- Passing over a value accepts the values that reading accepts.
    have hskip : (WireValue.skip key.wireType).Reads
        fun b _ => ∃ value, IsValue b value ∧ value.wireType = key.wireType := by
      rw [WireValue.skip_eq_map_read]
      refine ((WireValue.reads_read key.wireType).map fun _ => ()).congr fun b _ => ?_
      exact ⟨fun ⟨value, h, _⟩ => ⟨value, h⟩, fun ⟨value, h⟩ => ⟨value, h, rfl⟩⟩
    refine (Filler.Reads.reading hskip).congr fun b message _ message' => ?_
    constructor
    · intro hsteps
      rcases hsteps with ⟨⟨value, hvalue, hlayout⟩, rfl⟩
      exact ⟨⟨key.number, value⟩, hvalue, by rw [hlayout], rfl⟩
    · intro hgrammar
      rcases hgrammar with ⟨record, hvalue, rfl, rfl⟩
      exact ⟨⟨record.value, hvalue, rfl⟩, rfl⟩

/-- What a turn does behind the field that was looked for: nothing if
it was found, and otherwise it reports the record and keeps it. -/
theorem reads_unlessKnown (policy : UnknownFieldPolicy) (key : Key) (known : Bool) :
    Filler.Reads
      (if known then pure ()
        else do
          Message.report (.unknownField (fullName M) policy key)
          intoMessage (mergeUnknown policy key) : Filler (Progress M) Unit)
      fun b p _ p' =>
        if known then b = [] ∧ p' = p
        else ∃ record, IsValue b record.value ∧
          key = ⟨record.value.wireType, record.number⟩ ∧
          p'.message = keep policy record p.message ∧
          p'.events = p.events ++ [.unknownField (fullName M) policy key] := by
  cases known with
  | true =>
    refine (Filler.Reads.pure ()).congr fun b p _ p' => ?_
    simp
  | false =>
    refine ((Filler.Reads.update _).bind fun _ =>
      Filler.Reads.within (reads_mergeUnknown policy key)).congr fun b p _ p' => ?_
    constructor
    · intro hsteps
      rcases hsteps with ⟨_, b, _, _, rfl, ⟨rfl, rfl⟩, _, ⟨record, hvalue, hkey, rfl⟩, rfl⟩
      exact ⟨record, hvalue, hkey, rfl, rfl⟩
    · intro hgrammar
      rcases hgrammar with ⟨record, hvalue, hkey, hmessage, hevents⟩
      refine ⟨[], b, (), _, rfl, ⟨rfl, rfl⟩, _, ⟨record, hvalue, hkey, rfl⟩, ?_⟩
      cases p'
      simp only at hmessage hevents
      rw [hmessage, hevents]

/-- A turn of the loop accepts a record that can be placed. It places
the record, and reports it if there is cause. -/
theorem reads_mergeRecord (policy : UnknownFieldPolicy) :
    (mergeRecord policy : Filler (Progress M) Unit).Reads fun b p _ p' =>
      ∃ record, IsRecord b record ∧ place policy p.message record = some p'.message ∧
        p'.events = p.events ++ (report? M policy record).toList := by
  refine ((Filler.Reads.reading Key.reads_read).bind fun key =>
    (Filler.Reads.within (reads_readKnown key)).bind fun known =>
      reads_unlessKnown policy key known).congr fun b p _ p' => ?_
  constructor
  · intro hsteps
    rcases hsteps with
      ⟨kb, _, key, _, rfl, ⟨hkey, rfl⟩, vb, rb, known, _, rfl, ⟨m, hknown, rfl⟩, hrest⟩
    cases hfield : field? M key.number with
    | some field =>
      -- The field took the value, and nothing is left to do.
      rw [hfield] at hknown
      obtain ⟨rfl, value, v, hvb, hlayout, hv, rfl⟩ := hknown
      obtain ⟨rfl, rfl⟩ := hrest
      have hfound : field? M (⟨key.number, value⟩ : Record).number = some field := hfield
      refine ⟨⟨key.number, value⟩, ?_, ?_, ?_⟩
      · rw [List.append_nil]
        exact .mk (by rwa [hlayout]) hvb
      · rw [place_of_field hfound, hv]
        rfl
      · rw [report?_of_field hfound]
        exact (List.append_nil _).symm
    | none =>
      -- Nothing was read yet behind the key, and all of the value is left to the policy.
      rw [hfield] at hknown
      obtain ⟨rfl, rfl, rfl⟩ := hknown
      obtain ⟨record, hrb, rfl, hmessage, hevents⟩ := hrest
      refine ⟨record, .mk hkey hrb, ?_, ?_⟩
      · rw [place_of_no_field hfield, hmessage]
      · rw [report?_of_no_field hfield]
        exact hevents
  · intro hgrammar
    rcases hgrammar with ⟨record, ⟨hkey, hvb⟩, hplace, hevents⟩
    -- The key is read for certain. Who gets the bytes of the value depends on its number.
    refine ⟨_, _, _, p, rfl, ⟨hkey, rfl⟩, ?_⟩
    cases hfield : field? M record.number with
    | some field =>
      rw [place_of_field hfield, Option.map_eq_some_iff] at hplace
      obtain ⟨v, hv, hmessage⟩ := hplace
      rw [report?_of_field hfield, Option.toList_none, List.append_nil] at hevents
      refine ⟨_, [], true, p', (List.append_nil _).symm, ⟨p'.message, ?_, ?_⟩, ⟨rfl, rfl⟩⟩
      · exact ⟨rfl, record.value, v, hvb, rfl, hv, hmessage.symm⟩
      · rw [← hevents]
    | none =>
      rw [place_of_no_field hfield, Option.some.injEq] at hplace
      rw [report?_of_no_field hfield, Option.toList_some] at hevents
      refine ⟨[], _, false, p, rfl, ⟨p.message, ⟨rfl, rfl, rfl⟩, rfl⟩, ?_⟩
      exact ⟨record, hvb, rfl, hplace.symm, hevents⟩

/-! ### The loop -/

/-- The loop takes records that can be absorbed, and goes on behind
them. The induction is on the records: each is a turn. -/
theorem mergeRecords_of_areRecords {policy : UnknownFieldPolicy} {b z : List UInt8}
    {records : List Record} (h : AreRecords b records) {s : Intake (Progress M)} {absorbed : M}
    (hb : s.input.bytes = b ++ z) (habsorb : absorb policy s.dest.message records = some absorbed) :
    ∃ s', mergeRecords policy s = mergeRecords policy s' ∧ s'.input.bytes = z ∧
      s'.dest = ⟨absorbed, s.dest.events ++ records.filterMap (report? M policy)⟩ := by
  induction h generalizing s with
  | nil =>
    cases habsorb
    exact ⟨s, rfl, hb, by rw [List.filterMap_nil, List.append_nil]⟩
  | @cons bytes rest record records hrecord _ ih =>
    obtain ⟨placed, hplace, hrest⟩ := exists_of_absorb_cons habsorb
    rw [List.append_assoc] at hb
    let after : Progress M := ⟨placed, s.dest.events ++ (report? M policy record).toList⟩
    have hgrammar : ∃ r, IsRecord bytes r ∧ place policy s.dest.message r = some after.message ∧
        after.events = s.dest.events ++ (report? M policy r).toList :=
      ⟨record, hrecord, hplace, rfl⟩
    -- One turn takes this record, and the others are left for the induction.
    obtain ⟨s₁, hturn, hleft, hdest⟩ := (reads_mergeRecord policy).complete hb hgrammar
    obtain ⟨s', hrun, hz, hdest'⟩ := ih hleft (by rw [hdest]; exact hrest)
    refine ⟨s', (mergeRecords_of_ok hturn).trans hrun, hz, ?_⟩
    rw [hdest', hdest, filterMap_report?_cons, ← List.append_assoc]

/-- When the loop succeeds it has taken records to the end, and has
absorbed them. -/
theorem areRecords_of_mergeRecords {policy : UnknownFieldPolicy} {s s' : Intake (Progress M)}
    (h : mergeRecords policy s = .ok () s') :
    ∃ records, AreRecords s.input.bytes records ∧
      absorb policy s.dest.message records = some s'.dest.message ∧
      s'.dest.events = s.dest.events ++ records.filterMap (report? M policy) ∧
      s'.input.bytes = [] := by
  fun_induction mergeRecords policy s with
  | case1 s hempty =>
    cases h
    have hnil := Input.isEmpty_iff.mp hempty
    refine ⟨[], ?_, rfl, (List.append_nil _).symm, hnil⟩
    rw [hnil]
    exact .nil
  | case2 s _ s₁ hturn ih =>
    -- What was taken in this turn goes in front of what the rest of the run took.
    obtain ⟨records, hrecords, habsorb, hevents, hnil⟩ := ih h
    obtain ⟨b, hb, record, hrecord, hplace, hevent⟩ := (reads_mergeRecord policy).sound hturn
    refine ⟨record :: records, ?_, (absorb_cons records hplace).trans habsorb, ?_, hnil⟩
    · rw [hb]
      exact .cons hrecord hrecords
    · rw [hevents, hevent, filterMap_report?_cons, List.append_assoc]
  | case3 => cases h

/-- **Reading a message is absorbing its records.** A read succeeds
exactly on bytes that are not too many and are the records of a
message, and gives what absorbs them. -/
theorem readAll_eq_ok_iff {purpose : Purpose} {options : DecodeOptions} {message absorbed : M}
    {input : Input} :
    (readAll purpose options message input).result = .ok absorbed ↔
      input.bytes.length ≤ options.maxMessageLength ∧
        ∃ records, AreRecords input.bytes records ∧
          absorb options.unknownFields message records = some absorbed := by
  have hlen := input.remaining_eq_length
  constructor
  · intro h
    -- What came out went through the loop, and the loop takes records to the end.
    obtain ⟨hshort, s, hrun, rfl, -⟩ := exists_mergeRecords_of_readAll_ok h
    obtain ⟨records, hrecords, habsorb, -, -⟩ := areRecords_of_mergeRecords hrun
    exact ⟨by omega, records, hrecords, habsorb⟩
  · intro hgrammar
    rcases hgrammar with ⟨hle, records, hrecords, habsorb⟩
    have hshort : ¬ options.maxMessageLength < input.remaining := by omega
    -- The loop takes all of the records, and stops because nothing is left.
    obtain ⟨s', hrun, hnil, hdest⟩ := mergeRecords_of_areRecords hrecords
      (s := ⟨input, { message := message }⟩) (List.append_nil _).symm habsorb
    rw [readAll_of_ok hshort (hrun.trans (mergeRecords_of_nil hnil)), hdest]

/-! ### Which records are absorbed -/

/-- A record means something to the field with its number, if there is
one. -/
def Fits (M : Type) [Message M] (record : Record) : Prop :=
  ∀ field, field? M record.number = some field → (field.type.ofValue? record.value).isSome

/-- Whether a record can be placed does not depend on the message, nor
on the policy. -/
theorem place_isSome_iff (policy : UnknownFieldPolicy) (message : M) {record : Record} :
    (place policy message record).isSome ↔ Fits M record := by
  unfold Fits
  cases hfield : field? M record.number with
  | some field => simp [place_of_field hfield]
  | none => simp [place_of_no_field hfield]

/-- What is absorbed does not depend on the message nor on the policy. -/
theorem absorb_isSome_iff (policy : UnknownFieldPolicy) (message : M) {records : List Record} :
    (absorb policy message records).isSome ↔ ∀ record ∈ records, Fits M record := by
  induction records generalizing message with
  | nil => simp [absorb_nil]
  | cons record records ih =>
    rw [List.forall_mem_cons, ← place_isSome_iff policy message]
    cases hplace : place policy message record with
    | none =>
      -- A record that does not fit ends it, whatever comes behind.
      have hnone : absorb policy message (record :: records) = none := by
        show (place policy message record >>= fun m => absorb policy m records) = none
        rw [hplace]
        rfl
      simp [hnone]
    | some placed =>
      rw [absorb_cons records hplace, ih placed]
      simp

/-! ### What becomes of the message -/

/-- The last record with a number. -/
def last? (number : FieldNumber) (records : List Record) : Option Record :=
  records.reverse.find? fun record => record.number = number

/-- The last record with a number is the first one only if there is none
behind. -/
theorem last?_cons (number : FieldNumber) (record : Record) (records : List Record) :
    last? number (record :: records)
      = (last? number records).or (if record.number = number then some record else none) := by
  unfold last?
  rw [List.reverse_cons, List.find?_append, List.find?_singleton]
  simp only [decide_eq_true_eq]

/-- The last record with a number is among the records, and has the
number. -/
theorem mem_of_last? {number : FieldNumber} {records : List Record} {record : Record}
    (h : last? number records = some record) : record ∈ records ∧ record.number = number := by
  have hnumber := List.find?_some h
  exact ⟨List.mem_reverse.mp (List.mem_of_find?_eq_some h), of_decide_eq_true hnumber⟩

/-- Where there is no last record with a number, none has it. -/
theorem ne_of_last?_eq_none {number : FieldNumber} {records : List Record}
    (h : last? number records = none) : ∀ record ∈ records, record.number ≠ number := by
  intro record hrecord hnumber
  have hne := List.find?_eq_none.mp h record (List.mem_reverse.mpr hrecord)
  exact hne (decide_eq_true hnumber)

/-- The records that no field takes. -/
def strangers (M : Type) [Message M] (records : List Record) : List Record :=
  records.filter fun record => (field? M record.number).isNone

/-- The records that are kept. -/
def kept (M : Type) [Message M] (policy : UnknownFieldPolicy) (records : List Record) :
    List Record :=
  match policy with
  | .preserve => strangers M records
  | .discard => []

/-- Each record is kept, or not, for itself. -/
theorem kept_cons (policy : UnknownFieldPolicy) (record : Record) (records : List Record) :
    kept M policy (record :: records) = kept M policy [record] ++ kept M policy records := by
  cases policy with
  | preserve =>
    show strangers M ([record] ++ records) = strangers M [record] ++ strangers M records
    exact List.filter_append _ _
  | discard => rfl

/-- A record is kept only if no field takes it. -/
theorem kept_singleton (policy : UnknownFieldPolicy) (record : Record) :
    kept M policy [record] = [] ∨ kept M policy [record] = [record] ∧
      record.number ∉ (fields : List (Field M)).map Field.number := by
  cases policy with
  | preserve =>
    cases hfound : field? M record.number with
    | some field => exact .inl (by simp [kept, strangers, hfound])
    | none =>
      refine .inr ⟨by simp [kept, strangers, hfound], fun hmem => ?_⟩
      obtain ⟨field, hfield, hnumber⟩ := List.mem_map.mp hmem
      exact field?_eq_none_iff.mp hfound field hfield hnumber
  | discard => exact .inl rfl

variable [LawfulMessage M]

/-- Whether a record fits can be asked of each field of the table. -/
theorem fits_iff_forall_mem {record : Record} :
    Fits M record ↔ ∀ field ∈ (fields : List (Field M)), record.number = field.number →
      (field.type.ofValue? record.value).isSome := by
  constructor
  · intro h field hfield hnumber
    exact h field (hnumber ▸ field?_of_mem hfield)
  · intro h field hfound
    obtain ⟨hfield, hnumber⟩ := field?_eq_some hfound
    exact h field hfield hnumber.symm

/-- A record changes the field with its number, and no other. -/
theorem get_of_place {policy : UnknownFieldPolicy} {message placed : M} {record : Record}
    (h : place policy message record = some placed) {field : Field M}
    (hfield : field ∈ (fields : List (Field M))) :
    if record.number = field.number then
      field.type.ofValue? record.value = some (field.get placed)
    else field.get placed = field.get message := by
  by_cases hnumber : record.number = field.number
  · rw [if_pos hnumber]
    have hfound : field? M record.number = some field := hnumber ▸ field?_of_mem hfield
    rw [place_of_field hfound] at h
    obtain ⟨v, hv, rfl⟩ := Option.map_eq_some_iff.mp h
    rw [hv, LawfulMessage.get_set_same field hfield]
  · rw [if_neg hnumber]
    cases hother : field? M record.number with
    | some other =>
      -- Another field is set, and that does not disturb this one.
      obtain ⟨hmem, hsame⟩ := field?_eq_some hother
      have hne : field.number ≠ other.number := fun h => hnumber (hsame.symm.trans h.symm)
      rw [place_of_field hother] at h
      obtain ⟨v, -, rfl⟩ := Option.map_eq_some_iff.mp h
      exact LawfulMessage.get_set_of_ne other hmem field hfield hne v message
    | none =>
      rw [place_of_no_field hother] at h
      obtain rfl := Option.some.inj h
      cases policy with
      | preserve => exact get_addUnknown hfield record message
      | discard => rfl

/-- **The last record wins.** A field has the value of the last record
with its number, and its old value if there is none. -/
theorem get_of_absorb {policy : UnknownFieldPolicy} {message absorbed : M}
    {records : List Record} (h : absorb policy message records = some absorbed) {field : Field M}
    (hfield : field ∈ (fields : List (Field M))) :
    match last? field.number records with
    | some record => field.type.ofValue? record.value = some (field.get absorbed)
    | none => field.get absorbed = field.get message := by
  induction records generalizing message with
  | nil =>
    cases h
    rfl
  | cons record records ih =>
    obtain ⟨placed, hplace, hrest⟩ := exists_of_absorb_cons h
    have hlater := ih hrest
    rw [last?_cons]
    cases hlast : last? field.number records with
    | some later =>
      -- A later record decides, whatever this one did.
      rw [hlast] at hlater
      exact hlater
    | none =>
      rw [hlast] at hlater
      have hhere := get_of_place hplace hfield
      by_cases hnumber : record.number = field.number
      · rw [if_pos hnumber] at hhere ⊢
        show field.type.ofValue? record.value = some (field.get absorbed)
        rw [hhere, hlater]
      · rw [if_neg hnumber] at hhere ⊢
        show field.get absorbed = field.get message
        rw [hlater, hhere]

/-- What the last record with its number says, a field has. -/
theorem ofValue?_of_last {policy : UnknownFieldPolicy} {message absorbed : M}
    {records : List Record} (h : absorb policy message records = some absorbed) {field : Field M}
    (hfield : field ∈ (fields : List (Field M))) {last : Record}
    (hlast : last? field.number records = some last) :
    field.type.ofValue? last.value = some (field.get absorbed) := by
  have hget := get_of_absorb h hfield
  rwa [hlast] at hget

/-- A field that no record is for is left alone. -/
theorem get_of_no_last {policy : UnknownFieldPolicy} {message absorbed : M}
    {records : List Record} (h : absorb policy message records = some absorbed) {field : Field M}
    (hfield : field ∈ (fields : List (Field M))) (hlast : last? field.number records = none) :
    field.get absorbed = field.get message := by
  have hget := get_of_absorb h hfield
  rwa [hlast] at hget

/-- Placing a record appends it to the unknown ones if it is kept, and
leaves them alone if it is not. -/
theorem unknown_of_place {policy : UnknownFieldPolicy} {message placed : M} {record : Record}
    (h : place policy message record = some placed) :
    unknown placed = unknown message ++ kept M policy [record] := by
  cases hfield : field? M record.number with
  | some field =>
    -- A field took the record, and no policy applies to it.
    rw [place_of_field hfield] at h
    obtain ⟨v, -, rfl⟩ := Option.map_eq_some_iff.mp h
    rw [LawfulMessage.unknown_set field (field?_eq_some hfield).1]
    cases policy <;> simp [kept, strangers, hfield]
  | none =>
    rw [place_of_no_field hfield] at h
    obtain rfl := Option.some.inj h
    cases policy <;> simp [keep, kept, strangers, hfield, unknown_addUnknown]

/-- The records that are kept come behind those that were there, in
the order they came. -/
theorem unknown_of_absorb {policy : UnknownFieldPolicy} {message absorbed : M}
    {records : List Record} (h : absorb policy message records = some absorbed) :
    unknown absorbed = unknown message ++ kept M policy records := by
  induction records generalizing message with
  | nil =>
    cases h
    cases policy <;> exact (List.append_nil _).symm
  | cons record records ih =>
    obtain ⟨placed, hplace, hrest⟩ := exists_of_absorb_cons h
    rw [ih hrest, unknown_of_place hplace, kept_cons policy record records, List.append_assoc]

/-- A message that was empty has just the records that are kept. -/
theorem unknown_of_absorb_empty {policy : UnknownFieldPolicy} {absorbed : M}
    {records : List Record} (h : absorb policy empty records = some absorbed) :
    unknown absorbed = kept M policy records := by
  rw [unknown_of_absorb h, LawfulMessage.unknown_empty, List.nil_append]

end ProtoWire.Message
