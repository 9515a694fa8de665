import ProtoWire.Proofs.Reader.Effect

/-!
# `ProtoWire.Proofs.Reader.Walk`: readers along their way

A step that fails leaves the reader where the read stopped, and the next
one goes on from there. So what is said of the steps of a walk has to
hold of a step from any reader. `StepKeeps` is that: a step uses up the
front of what is left and nothing else, the last key changes by reading
a key, the records by collecting one and the query by filling it, and a
key or a record that is new stands in the answer. The other way round, a
step that is to read a key or to collect a record shows one, unless its
answer is a failure. All of it is read off the effect of the step
(`stepKeeps`).

`WalkKeeps` says what follows for a walk from its start. The inductions
are on the steps, with the reader left open: the records are those that
the answers show (`records_after`), whatever else was tried in between,
one for each step that was to collect one and did not fail
(`countP_record?_run`), and what is left is an end of the input
(`suffix_after`).
-/

set_option autoImplicit false

namespace ProtoWire.Reader

/-! ### One step -/

/-- What a step keeps, and what its answer says of what it changes. -/
structure StepKeeps (r : Reader) (s : Step) (answer : Reader × Reply) : Prop where
  /-- What is left is the end of what was left. -/
  suffix : answer.1.input.bytes <:+ r.input.bytes
  /-- The last key is the one that was read, if one was. -/
  lastKey : answer.1.lastKey = answer.2.key?.or r.lastKey
  /-- Only one step reads a key. -/
  step_of_key : ∀ key, answer.2.key? = some key → s = .key
  /-- It shows one, unless it fails. -/
  key_of_step : s = .key → answer.2.isFailure = false → ∃ key, answer.2.key? = some key
  /-- The record that was collected, if one was, comes behind the
  others. -/
  records : answer.1.records = r.records ++ answer.2.record?.toList
  /-- Only one step collects a record, with the number and the layout of
  the key that was chosen. -/
  step_of_record : ∀ record, answer.2.record? = some record →
    ∃ choice key, s = .collect choice ∧ choice.key? r = some key ∧
      record.number = key.number ∧ record.value.wireType = key.wireType
  /-- It shows one, unless it fails. -/
  record_of_step : s.collects = true → answer.2.isFailure = false →
    ∃ record, answer.2.record? = some record
  /-- An answer that counts the records counts all of them. -/
  count : ∀ n, answer.2.count? = some n → n = answer.1.records.length
  /-- Only one step changes the query. -/
  query : (∀ choice, s ≠ .fillQuery choice) → answer.1.query = r.query
  /-- That one does not change its unknown records either. -/
  unknown_query : answer.1.query.unknown = r.query.unknown

variable {r : Reader} {s : Step}

/-- A step without a new key or record. -/
theorem stepKeeps_of_silent {rest : Input} {query : Query} {reply : Reply}
    (hsuffix : rest.bytes <:+ r.input.bytes) (hsilent : reply.Silent r.records.length)
    (hfailure : s.retains = true → reply.isFailure = true)
    (hquery : (∀ choice, s ≠ .fillQuery choice) → query = r.query)
    (hunknown : query.unknown = r.query.unknown) :
    StepKeeps r s ({ r with input := rest, query := query }, reply) where
  suffix := hsuffix
  lastKey := by rw [hsilent.key?, Option.none_or]
  step_of_key key hkey := by
    rw [hsilent.key?] at hkey
    cases hkey
  key_of_step hstep hsuccess := by
    rw [hfailure (by rw [hstep]; rfl)] at hsuccess
    cases hsuccess
  records := by rw [hsilent.record?, Option.toList_none, List.append_nil]
  step_of_record record hrecord := by
    rw [hsilent.record?] at hrecord
    cases hrecord
  record_of_step hstep hsuccess := by
    rw [hfailure (s.retains_of_collects hstep)] at hsuccess
    cases hsuccess
  count := hsilent.count?
  query := hquery
  unknown_query := hunknown

/-- Every step keeps what a step has to keep. -/
theorem stepKeeps (r : Reader) (s : Step) : StepKeeps r s (r.step s) := by
  have heffect := effect_step r s
  generalize r.step s = answer at heffect ⊢
  obtain ⟨r', reply⟩ := answer
  cases heffect with
  | moves hsuffix hreader hsilent hfailure =>
    obtain rfl := hreader
    exact stepKeeps_of_silent hsuffix hsilent hfailure (fun _ => rfl) rfl
  | fills hstep hsuffix hunknown hreader hsilent =>
    obtain rfl := hreader
    obtain rfl := hstep
    exact stepKeeps_of_silent hsuffix hsilent nofun (fun hother => absurd rfl (hother _)) hunknown
  | key hstep hsuffix hreader hreply =>
    obtain rfl := hreader
    obtain rfl := hreply
    obtain rfl := hstep
    refine ⟨hsuffix, rfl, fun _ _ => rfl, fun _ _ => ⟨_, rfl⟩, ?_, nofun, nofun, nofun,
      fun _ => rfl, rfl⟩
    exact (List.append_nil _).symm
  | collects hstep hchosen hsuffix hnumber hwireType hreader hreply =>
    obtain rfl := hreader
    obtain rfl := hreply
    obtain rfl := hstep
    refine ⟨hsuffix, rfl, nofun, nofun, rfl, fun record hrecord => ?_, fun _ _ => ⟨_, rfl⟩,
      fun n hn => ?_, fun _ => rfl, rfl⟩
    · obtain rfl := Option.some.inj hrecord
      exact ⟨_, _, rfl, hchosen, hnumber, hwireType⟩
    · exact (Option.some.inj hn).symm

/-- A record is shown by the steps that are to collect one and do not
fail, and by no others. -/
theorem isSome_record?_step (r : Reader) (s : Step) :
    (r.step s).2.record?.isSome = (s.collects && !(r.step s).2.isFailure) := by
  have hkeeps := stepKeeps r s
  rw [Bool.eq_iff_iff, Option.isSome_iff_exists, Bool.and_eq_true, Bool.not_eq_true']
  constructor
  · rintro ⟨record, hrecord⟩
    obtain ⟨choice, _, rfl, -⟩ := hkeeps.step_of_record record hrecord
    exact ⟨rfl, Reply.isFailure_of_record? hrecord⟩
  · rintro ⟨hcollects, hsuccess⟩
    exact hkeeps.record_of_step hcollects hsuccess

/-! ### A walk -/

/-- A reader at the beginning of an input. -/
def fresh (input : Input) : Reader :=
  { input := input }

/-- The answer to the last step is given where the steps before it have
led. -/
theorem run_concat (r : Reader) (steps : List Step) (s : Step) :
    r.run (steps ++ [s]) = r.run steps ++ [(r.after steps).step s] := by
  induction steps generalizing r with
  | nil => rfl
  | cons first steps ih => exact congrArg (r.step first :: ·) (ih (r.step first).1)

/-- What a walk leaves is the end of what there was. -/
theorem suffix_after (r : Reader) (steps : List Step) :
    (r.after steps).input.bytes <:+ r.input.bytes := by
  induction steps generalizing r with
  | nil => exact List.suffix_refl _
  | cons s steps ih => exact (ih (r.step s).1).trans (stepKeeps r s).suffix

/-- The records of a walk are those that its answers show. -/
theorem records_after (r : Reader) (steps : List Step) :
    (r.after steps).records
      = r.records ++ (r.run steps).filterMap fun answer => answer.2.record? := by
  induction steps generalizing r with
  | nil => exact (List.append_nil _).symm
  | cons s steps ih =>
    calc ((r.step s).1.after steps).records
        = (r.step s).1.records
            ++ ((r.step s).1.run steps).filterMap fun answer => answer.2.record? := ih _
      _ = r.records ++ ((r.step s).2.record?.toList
            ++ ((r.step s).1.run steps).filterMap fun answer => answer.2.record?) := by
        rw [(stepKeeps r s).records, List.append_assoc]
      _ = r.records ++ (r.run (s :: steps)).filterMap fun answer => answer.2.record? := by
        rw [run, List.filterMap_cons]
        cases (r.step s).2.record? <;> rfl

/-- Step by step, a record is shown where a step was to collect one and
did not fail. -/
theorem countP_record?_run (r : Reader) (steps : List Step) :
    ((r.run steps).countP fun answer => answer.2.record?.isSome)
      = (steps.zip (r.run steps)).countP fun made => made.1.collects && !made.2.2.isFailure := by
  induction steps generalizing r with
  | nil => rfl
  | cons s steps ih =>
    rw [run, List.zip_cons_cons, List.countP_cons, List.countP_cons, ih, isSome_record?_step]

/-- The unknown records of the query are not touched on the way. -/
theorem unknown_query_after (r : Reader) (steps : List Step) :
    (r.after steps).query.unknown = r.query.unknown := by
  induction steps generalizing r with
  | nil => rfl
  | cons s steps ih => exact (ih (r.step s).1).trans (stepKeeps r s).unknown_query

/-- From the beginning of an input, there are as many records as answers
that show one. -/
theorem length_records_after (input : Input) (steps : List Step) :
    ((fresh input).after steps).records.length
      = ((fresh input).run steps).countP fun answer => answer.2.record?.isSome := by
  rw [records_after, List.length_append, List.length_filterMap_eq_countP]
  exact Nat.zero_add _

/-- A walk through an input, from its beginning. -/
structure WalkKeeps (input : Input) (steps : List Step) : Prop where
  /-- Whatever step comes next keeps what a step has to keep, and gives
  the answer that the run shows. -/
  step : ∀ s, StepKeeps ((fresh input).after steps) s (((fresh input).after steps).step s)
  run_concat : ∀ s, (fresh input).run (steps ++ [s])
    = (fresh input).run steps ++ [((fresh input).after steps).step s]
  /-- The bytes that are left are the end of the input, and the next step
  leaves no more of them. -/
  suffix : ((fresh input).after steps).input.bytes <:+ input.bytes
  remaining_le : ∀ s, (((fresh input).after steps).step s).1.input.remaining
    ≤ ((fresh input).after steps).input.remaining
  /-- The records are those that were collected, one for each step that
  succeeded in it. -/
  records : ((fresh input).after steps).records
    = ((fresh input).run steps).filterMap fun answer => answer.2.record?
  length_records : ((fresh input).after steps).records.length
    = ((fresh input).run steps).countP fun answer => answer.2.record?.isSome
  /-- No step that was to collect one did so without a record, unless it
  failed. -/
  length_records_eq_collected : ((fresh input).after steps).records.length
    = (steps.zip ((fresh input).run steps)).countP
        fun made => made.1.collects && !made.2.2.isFailure
  number_mem_Icc : ∀ record ∈ ((fresh input).after steps).records,
    1 ≤ record.number.val ∧ record.number.val ≤ 2 ^ 29 - 1
  /-- The query has no unknown records. -/
  unknown_query : ((fresh input).after steps).query.unknown = []

/-- **Readers only move forward, and keep what they have.** Of any input
in any pieces and after any steps, with any types, keys and options,
whether or not they succeeded. -/
theorem walkKeeps (input : Input) (steps : List Step) : WalkKeeps input steps where
  step s := stepKeeps _ s
  run_concat s := Reader.run_concat _ steps s
  suffix := suffix_after (fresh input) steps
  remaining_le s := by
    rw [Input.remaining_eq_length, Input.remaining_eq_length]
    exact (stepKeeps _ s).suffix.length_le
  records := records_after (fresh input) steps
  length_records := length_records_after input steps
  length_records_eq_collected :=
    (length_records_after input steps).trans (countP_record?_run (fresh input) steps)
  number_mem_Icc record _ := ⟨record.number.one_le, record.number.le_largest⟩
  unknown_query := unknown_query_after (fresh input) steps

/-- The second record is cut off. Where its value should be, a length
can be read still, and its key is the last one all the same. -/
example :
    let r := (fresh ⟨[[0x22, 0x01], [0x78, 0x2d, 0x01]]⟩).after
      [.key, .collect .last, .key, .collect .last, .length]
    r.records = [⟨⟨4, by decide, by decide⟩, .bytes [0x78]⟩] ∧ r.input.remaining = 0 ∧
      r.lastKey = some ⟨.i32, ⟨5, by decide, by decide⟩⟩ := by
  decide +kernel

end ProtoWire.Reader
