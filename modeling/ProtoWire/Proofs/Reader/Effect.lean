import ProtoWire.Proofs.Message.Frame
import ProtoWire.Reader

/-!
# `ProtoWire.Proofs.Reader.Effect`: what a step does to a reader

A step does one of four things to a reader (`Effect`). Most steps move
on in the input, and so do most that fail. A key that was read becomes
the last key. A record that was collected comes behind the others. And
a step that fills the query may change it, even if it fails on the way;
but the unknown records of the query it leaves alone
(`Message.unknown_final_readKnown`). A step that is to read a key or to
collect a record (`Step.retains`) only moves on if its answer is a
failure.

`effect_step` goes through the steps once. For a step that reads a
value and does not keep it, all there is to say is that the read moves
forward (`effect_reading`, `effect_filling`); one that needs a key does
nothing if there is none (`effect_withKey`).
-/

set_option autoImplicit false

namespace ProtoWire

/-- Reading a known field leaves the unknown records alone, whichever
way it ends. -/
theorem Message.unknown_final_readKnown {M : Type} [Message M] [LawfulMessage M] (key : Key)
    (s : Intake M) : unknown ((readKnown key).final s).dest = unknown s.dest := by
  unfold readKnown
  cases hfield : field? M key.number with
  | none => rfl
  | some field =>
    show unknown ((field.readInto key >>= fun _ => pure true : Filler M Bool).final s).dest = _
    rw [Filler.final_bind_pure, Field.readInto, Filler.dest_final_within,
      LawfulMessage.unknown_set field (field?_eq_some hfield).1]

namespace Reader

/-! ### What an answer shows -/

namespace Reply

/-- The key that was read. -/
def key? : Reply → Option Key
  | .key found => some found
  | _ => none

/-- The record that was collected. -/
def record? : Reply → Option Record
  | .collected _ (.ok record) => some record
  | _ => none

/-- How many records are said to be there. -/
def count? : Reply → Option Nat
  | .collected count _ => some count
  | _ => none

/-- Whether an answer is that of a step that failed, or that had no key
to begin with. -/
def isFailure : Reply → Bool
  | .value _ _ error? => error?.isSome
  | .field _ _ error? => error?.isSome
  | .collected _ (.error _) => true
  | .filled _ (.error _) => true
  | .failed _ => true
  | .noKey => true
  | _ => false

/-- An answer that shows a record is that of a step that succeeded. -/
theorem isFailure_of_record? {reply : Reply} {record : Record}
    (h : reply.record? = some record) : reply.isFailure = false := by
  unfold record? at h
  split at h
  · rfl
  · cases h

/-- An answer that shows nothing new where there are `count` records. -/
structure Silent (count : Nat) (reply : Reply) : Prop where
  key? : reply.key? = none
  record? : reply.record? = none
  count? : ∀ n, reply.count? = some n → n = count

end Reply

/-- Whether a step is to collect a record. -/
def Step.collects : Step → Bool
  | .collect _ => true
  | _ => false

/-- Whether what a step reads is to stay with the reader, as its last key
or as a record. -/
def Step.retains : Step → Bool
  | .key => true
  | s => s.collects

/-- What is collected stays with the reader. -/
theorem Step.retains_of_collects {s : Step} (h : s.collects = true) : s.retains = true := by
  cases s <;> first | exact h | rfl

/-- The key that was chosen, if there is one. -/
def KeyChoice.key? (r : Reader) : KeyChoice → Option Key
  | .last => r.lastKey
  | .parts code number => (Key.ofCode code number).toOption

/-! ### The effect of a step -/

/-- What a step can do to a reader, and what it answers then. -/
inductive Effect (r : Reader) (s : Step) (answer : Reader × Reply) : Prop
  | moves {rest : Input} (suffix : rest.bytes <:+ r.input.bytes)
      (reader_eq : answer.1 = { r with input := rest })
      (silent : answer.2.Silent r.records.length)
      (failure : s.retains = true → answer.2.isFailure = true)
  | key {rest : Input} {key : Key} (step_eq : s = .key) (suffix : rest.bytes <:+ r.input.bytes)
      (reader_eq : answer.1 = { r with input := rest, lastKey := some key })
      (reply_eq : answer.2 = .key key)
  | collects {choice : KeyChoice} {key : Key} {rest : Input} {record : Record}
      (step_eq : s = .collect choice) (chosen : choice.key? r = some key)
      (suffix : rest.bytes <:+ r.input.bytes) (number : record.number = key.number)
      (wireType : record.value.wireType = key.wireType)
      (reader_eq : answer.1 = { r with input := rest, records := r.records ++ [record] })
      (reply_eq : answer.2 = .collected (r.records ++ [record]).length (.ok record))
  | fills {choice : KeyChoice} {rest : Input} {query : Query} (step_eq : s = .fillQuery choice)
      (suffix : rest.bytes <:+ r.input.bytes) (unknown : query.unknown = r.query.unknown)
      (reader_eq : answer.1 = { r with input := rest, query := query })
      (silent : answer.2.Silent r.records.length)

variable {r : Reader} {s : Step}

/-- A step that does nothing but fail. -/
theorem effect_stays {reply : Reply} (h : reply.Silent r.records.length)
    (hfailure : reply.isFailure = true) : Effect r s (r, reply) :=
  .moves (List.suffix_refl _) rfl h fun _ => hfailure

/-- A step that reads a value and only shows it. -/
theorem effect_reading {α : Type} {d : Decoder α} {reply : α → Reply} (hd : d.Forward)
    (hs : s.retains = false) (hreply : ∀ a, (reply a).Silent r.records.length) :
    Effect r s (r.reading d reply) := by
  have hleft := hd r.input
  unfold reading
  cases hrun : d r.input with
  | ok a rest =>
    rw [Decoder.rest_of_ok hrun] at hleft
    exact .moves hleft rfl (hreply a) fun h => nomatch hs.symm.trans h
  | error e rest =>
    rw [Decoder.rest_of_error hrun] at hleft
    exact .moves hleft rfl ⟨rfl, rfl, nofun⟩ fun _ => rfl

/-- A step that reads over a value of its own. -/
theorem effect_filling {D : Type} {dest : D} {f : Filler D Unit}
    {reply : D → Option DecodeError → Reply} (hf : f.Forward) (hs : s.retains = false)
    (hreply : ∀ d e?, (reply d e?).Silent r.records.length) :
    Effect r s (r.filling dest f reply) := by
  have hleft := hf ⟨r.input, dest⟩
  unfold filling
  cases hrun : f ⟨r.input, dest⟩ with
  | ok a s' =>
    rw [Filler.final_of_ok hrun] at hleft
    exact .moves hleft rfl (hreply _ _) fun h => nomatch hs.symm.trans h
  | error e s' =>
    rw [Filler.final_of_error hrun] at hleft
    exact .moves hleft rfl (hreply _ _) fun h => nomatch hs.symm.trans h

/-- Without a key, a step that needs one does nothing. -/
theorem effect_withKey {choice : KeyChoice} {next : Key → Reader × Reply}
    (h : ∀ key, choice.key? r = some key → Effect r s (next key)) :
    Effect r s (r.withKey choice next) := by
  unfold withKey
  cases choice with
  | last =>
    cases hlast : r.lastKey with
    | some key => exact h key hlast
    | none => exact effect_stays ⟨rfl, rfl, nofun⟩ rfl
  | parts code number =>
    dsimp only
    cases hparts : Key.ofCode code number with
    | ok key => exact h key (congrArg Except.toOption hparts)
    | error e => exact effect_stays ⟨rfl, rfl, nofun⟩ rfl

/-- Without a layout, a step that needs one does nothing. -/
theorem effect_withWireType {code : Option Nat} {next : WireType → Reader × Reply}
    (h : ∀ wireType, Effect r s (next wireType)) : Effect r s (r.withWireType code next) := by
  unfold withWireType
  cases code with
  | none => exact effect_withKey fun key _ => h key.wireType
  | some code =>
    dsimp only
    cases WireType.ofCode code with
    | ok wireType => exact h wireType
    | error e => exact effect_stays ⟨rfl, rfl, nofun⟩ rfl

/-- A step that reads a whole message keeps nothing of it. -/
theorem effect_handOver {M : Type} {wrap : M → AnyMessage} {outcome : Message.Outcome M}
    (h : outcome.rest.bytes <:+ r.input.bytes) (hs : s.retains = false) :
    Effect r s (r.handOver wrap outcome) := by
  refine .moves h rfl ?_ fun hretains => nomatch hs.symm.trans hretains
  unfold handOver
  cases outcome.result <;> exact ⟨rfl, rfl, nofun⟩

/-- What a step can do to a reader. -/
theorem effect_step (r : Reader) (s : Step) : Effect r s (r.step s) := by
  cases s with
  | varint width => exact effect_reading (Varint.Forward.read width) rfl fun _ => ⟨rfl, rfl, nofun⟩
  | key =>
    have hleft := Key.forward_read r.input
    unfold step
    dsimp only
    cases hrun : Key.read r.input with
    | ok key rest =>
      rw [Decoder.rest_of_ok hrun] at hleft
      exact .key rfl hleft rfl rfl
    | error e rest =>
      rw [Decoder.rest_of_error hrun] at hleft
      exact .moves hleft rfl ⟨rfl, rfl, nofun⟩ fun _ => rfl
  | length => exact effect_reading Payload.forward_readLength rfl fun _ => ⟨rfl, rfl, nofun⟩
  | checkedLength =>
    exact effect_reading Payload.forward_readCheckedLength rfl fun _ => ⟨rfl, rfl, nofun⟩
  | skip code =>
    exact effect_withWireType fun wireType =>
      effect_reading (WireValue.forward_skip wireType) rfl fun _ => ⟨rfl, rfl, nofun⟩
  | value type initial =>
    exact effect_filling (FieldType.forward_readInto type) rfl fun _ _ => ⟨rfl, rfl, nofun⟩
  | field type initial choice =>
    exact effect_withKey fun key _ =>
      effect_filling (FieldType.forward_readField type key) rfl fun _ _ => ⟨rfl, rfl, nofun⟩
  | collect choice =>
    refine effect_withKey fun key hchosen => ?_
    have hleft := Record.forward_readValue key r.input
    cases hrun : Record.readValue key r.input with
    | ok record rest =>
      rw [Decoder.rest_of_ok hrun] at hleft
      obtain ⟨value, _, hvalue, rfl⟩ := Decoder.eq_of_map_ok hrun
      exact .collects rfl hchosen hleft rfl (WireValue.wireType_of_read hvalue) rfl rfl
    | error e rest =>
      rw [Decoder.rest_of_error hrun] at hleft
      exact .moves hleft rfl ⟨rfl, rfl, fun n hn => (Option.some.inj hn).symm⟩ fun _ => rfl
  | fillQuery choice =>
    refine effect_withKey fun key _ => ?_
    have hleft := Message.forward_readKnown key (⟨r.input, r.query⟩ : Intake Query)
    have hunknown := Message.unknown_final_readKnown key (⟨r.input, r.query⟩ : Intake Query)
    cases hrun : Message.readKnown key (⟨r.input, r.query⟩ : Intake Query) with
    | ok known s =>
      rw [Filler.final_of_ok hrun] at hleft hunknown
      exact .fills rfl hleft hunknown rfl ⟨rfl, rfl, nofun⟩
    | error e s =>
      rw [Filler.final_of_error hrun] at hleft hunknown
      exact .fills rfl hleft hunknown rfl ⟨rfl, rfl, nofun⟩
  | message kind options =>
    cases kind with
    | query =>
      exact effect_handOver (Message.suffix_readAll .decode options Message.empty r.input) rfl
    | scalars =>
      exact effect_handOver (Message.suffix_readAll .decode options Message.empty r.input) rfl
  | delimited kind options =>
    cases kind with
    | query => exact effect_handOver (Message.suffix_decodeDelimited options r.input) rfl
    | scalars => exact effect_handOver (Message.suffix_decodeDelimited options r.input) rfl

end Reader

end ProtoWire
