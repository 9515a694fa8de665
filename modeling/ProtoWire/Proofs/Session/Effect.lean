import ProtoWire.Session

/-!
# `ProtoWire.Proofs.Session.Effect`: what a step does to the slots

A step does one of three things to a session (`Effect`): nothing at
all, putting a message into its own slot, or exchanging two messages.
Which message it puts is read off the command (`Puts`), and a reader
puts one only if it succeeded. `effect_step` goes through the commands
once, and everything else about the slots follows from it:

* `session_step_of_isError`: a step that answers an error has done
  nothing.
* `slot_step_of_notMem`, `slot_after_of_notMem`: a slot that is not
  among the targets of a step is as it was, and so it is after a run in
  which it never is.
* `mem_run_iff`: what comes of a run is what comes of its steps, each
  in the session before it.
-/

set_option autoImplicit false

namespace ProtoWire.Session

/-- Whether an answer is that of a step that failed. -/
def Reply.isError {A : Type} : Reply A → Bool
  | .failed _ => true
  | .delimited _ error? => error?.isSome
  | .written _ error? => error?.isSome
  | _ => false

/-- The slots that a step can change: its own, and the other one of an
exchange. -/
def Step.targets {E : Type} (s : Step E) : List String :=
  match s.command with
  | .swap other => [s.slot, other]
  | _ => [s.slot]

/-- A step can always change its own slot. -/
theorem Step.slot_mem_targets {E : Type} (s : Step E) : s.slot ∈ s.targets := by
  unfold Step.targets
  split <;> exact List.mem_cons_self

variable {M : Type} [Message M] [Editable M]

/-- A message that a command puts into the slot `name`. -/
inductive Puts (session : Session M) (name : String) : Command (Editable.Edit M) → M → Prop
  | reset : Puts session name .reset Message.empty
  | copy (source : String) : Puts session name (.copy source) (session.slot source)
  | decode {options : DecodeOptions} {input : Input} {message : M}
    (result : (Message.decode options input).result = .ok message) :
    Puts session name (.decode options input) message
  | merge {options : DecodeOptions} {input : Input} {message : M}
    (result : (Message.merge options (session.slot name) input).result = .ok message) :
    Puts session name (.merge options input) message
  | decodeDelimited {options : DecodeOptions} {input : Input} {message : M}
    (result : (Message.decodeDelimited options input).result = .ok message) :
    Puts session name (.decodeDelimited options input) message
  | recode {source : String} {cut : Option Nat} {options : DecodeOptions} {bytes : List UInt8}
    {message : M}
    (bytes_eq : bytes = match cut with
      | some count => (Message.encode (session.slot source)).take count
      | none => Message.encode (session.slot source))
    (result : (Message.merge options (session.slot name) (.ofBytes bytes)).result = .ok message) :
    Puts session name (.recode source cut options) message
  | addUnknown {number : Nat} {value : WireValue} {record : Record}
    (parts : Record.ofParts? number value = some record) :
    Puts session name (.addUnknown number value) (Message.addUnknown record (session.slot name))
  | clearUnknown : Puts session name .clearUnknown (Message.setUnknown [] (session.slot name))
  | extendUnknown (source : String) :
    Puts session name (.extendUnknown source)
      (Message.setUnknown
        (Message.unknown (session.slot name) ++ Message.unknown (session.slot source))
        (session.slot name))
  | edit (edit : Editable.Edit M) :
    Puts session name (.edit edit) (Editable.edit session.slot edit (session.slot name)).1

/-- What the result of a step can be, as far as slots and errors go. -/
inductive Effect (session : Session M) (s : Step (Editable.Edit M))
    (result : Result M (Editable.Answer M)) : Prop
  | nothing (session_eq : result.session = session)
  | put {message : M} (puts : Puts session s.slot s.command message)
    (session_eq : result.session = session.put s.slot message)
    (noError : result.reply.isError = false)
  | swap {other : String} (command_eq : s.command = .swap other)
    (session_eq : result.session
      = (session.put s.slot (session.slot other)).put other (session.slot s.slot))
    (noError : result.reply.isError = false)

/-- A message that was read is put if there is one. -/
theorem effect_keep {session : Session M} {s : Step (Editable.Edit M)}
    {outcome : Message.Outcome M} {success : Reply (Editable.Answer M)}
    {failure : DecodeError → Reply (Editable.Answer M)} (hsuccess : success.isError = false)
    (hputs : ∀ message, outcome.result = .ok message → Puts session s.slot s.command message) :
    Effect session s (session.keep s.slot outcome success failure) := by
  unfold keep
  split
  case h_1 message hresult => exact .put (hputs message hresult) rfl hsuccess
  case h_2 => exact .nothing rfl

/-- A merge puts what it comes to, and has put back what was there if it
fails. -/
theorem effect_mergeAt {session : Session M} {s : Step (Editable.Edit M)} {options : DecodeOptions}
    {input : Input} {success : Reply (Editable.Answer M)} (hsuccess : success.isError = false)
    (hputs : ∀ message, (Message.merge options (session.slot s.slot) input).result = .ok message →
      Puts session s.slot s.command message) :
    Effect session s (session.mergeAt s.slot options input success) := by
  cases hresult : (Message.merge options (session.slot s.slot) input).result with
  | ok message =>
    rw [mergeAt_of_ok success hresult]
    exact .put (hputs message hresult) rfl hsuccess
  | error e =>
    rw [mergeAt_of_error success hresult]
    exact .nothing rfl

variable [DecidableEq M]

/-- What a step can do to the slots. -/
theorem effect_step (session : Session M) (s : Step (Editable.Edit M)) :
    Effect session s (session.step s) := by
  obtain ⟨name, command⟩ := s
  cases command with
  | reset => exact .put .reset rfl rfl
  | copy source => exact .put (.copy source) rfl rfl
  | swap other => exact .swap rfl rfl rfl
  | equal other => exact .nothing rfl
  | decode options input => exact effect_keep rfl fun _ hresult => .decode hresult
  | merge options input => exact effect_mergeAt rfl fun _ hresult => .merge hresult
  | decodeDelimited options input => exact effect_keep rfl fun _ hresult => .decodeDelimited hresult
  | recode source cut options => exact effect_mergeAt rfl fun _ hresult => .recode rfl hresult
  | encode => exact .nothing rfl
  | measure => exact .nothing rfl
  | encodeDelimited => exact .nothing rfl
  | tryEncode capacity filling =>
    unfold step
    dsimp only
    split <;> exact .nothing rfl
  | addUnknown number value =>
    unfold step
    dsimp only
    split
    case h_1 record hparts => exact .put (.addUnknown hparts) rfl rfl
    case h_2 => exact .nothing rfl
  | clearUnknown => exact .put .clearUnknown rfl rfl
  | extendUnknown source => exact .put (.extendUnknown source) rfl rfl
  | listUnknown => exact .nothing rfl
  | edit edit => exact .put (.edit edit) rfl rfl

/-- A step that answers an error has changed no slot. -/
theorem session_step_of_isError {session : Session M} {s : Step (Editable.Edit M)}
    (h : (session.step s).reply.isError = true) : (session.step s).session = session := by
  cases effect_step session s with
  | nothing hsession => exact hsession
  | put _ _ hreply => exact absurd h (by rw [hreply]; decide)
  | swap _ _ hreply => exact absurd h (by rw [hreply]; decide)

/-- A step leaves the slots alone that are not among its targets. -/
theorem slot_step_of_notMem {session : Session M} {s : Step (Editable.Edit M)} {name : String}
    (h : name ∉ s.targets) : (session.step s).session.slot name = session.slot name := by
  have hown : name ≠ s.slot := fun heq => h (heq ▸ s.slot_mem_targets)
  cases effect_step session s with
  | nothing hsession => rw [hsession]
  | put _ hsession _ => rw [hsession, slot_put_of_ne _ hown]
  | @swap other hcommand hsession _ =>
    have hother : name ≠ other := by
      rintro rfl
      exact h (by simp [Step.targets, hcommand])
    rw [hsession, slot_put_of_ne _ hother, slot_put_of_ne _ hown]

/-! ### Runs -/

/-- The steps of a run are made in the sessions that the steps before
them have reached. -/
theorem mem_run_iff {session : Session M} {steps : List (Step (Editable.Edit M))}
    {result : Result M (Editable.Answer M)} :
    result ∈ session.run steps ↔
      ∃ before s behind, steps = before ++ s :: behind ∧
        result = (session.after before).step s := by
  induction steps generalizing session with
  | nil => simp [run]
  | cons first steps ih =>
    show result ∈ session.step first :: (session.step first).session.run steps ↔ _
    rw [List.mem_cons, ih]
    constructor
    · rintro (rfl | ⟨before, s, behind, rfl, rfl⟩)
      · exact ⟨[], first, steps, rfl, rfl⟩
      · exact ⟨first :: before, s, behind, rfl, rfl⟩
    · rintro ⟨before, s, behind, hsteps, rfl⟩
      -- The step is the first one, or the first one is made before it.
      rcases List.cons_eq_append_iff.mp hsteps with ⟨rfl, hfirst⟩ | ⟨before, rfl, rfl⟩
      · cases hfirst
        exact .inl rfl
      · exact .inr ⟨before, s, behind, rfl, rfl⟩

/-- A run leaves the slots alone that are not among the targets of a
step of it. -/
theorem slot_after_of_notMem {session : Session M} {steps : List (Step (Editable.Edit M))}
    {name : String} (h : ∀ s ∈ steps, name ∉ s.targets) :
    (session.after steps).slot name = session.slot name := by
  induction steps generalizing session with
  | nil => rfl
  | cons s steps ih =>
    rw [List.forall_mem_cons] at h
    calc (session.after (s :: steps)).slot name
        = ((session.step s).session.after steps).slot name := rfl
      _ = (session.step s).session.slot name := ih h.2
      _ = session.slot name := slot_step_of_notMem h.1

end ProtoWire.Session
