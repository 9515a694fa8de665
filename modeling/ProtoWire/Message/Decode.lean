import ProtoWire.Message.Merge

/-!
# `ProtoWire.Message.Decode`: whole messages

Reading a message means reading records into the empty one; merging
means reading them into one that is there. Either way the message is
only handed over if everything could be read. A delimited message is
read through a window of the length that stands before it.

A merge changes a message that somebody holds. So the records are read
into a copy, which takes the place of the message at the end
(`mergeInto`). What becomes of the copy when the records run into an
error is nobody's concern, and the message is what it was. The
statements:

* `readAll_of_long`, `readAll_of_ok`, `readAll_of_error`: the three
  ways a read can end.
* `exists_mergeRecords_of_readAll_ok`,
  `exists_mergeRecords_of_readAll_error`: from the result back to the
  way it came about.
* `message_final_inScratch`: what is done to the copy leaves the message
  alone.
* `message_of_mergeInto_error`: so does a merge that fails.
* `mergeInto_of_ok`, `mergeInto_of_error`: otherwise the copy comes to
  what `merge` says, with the same error, reports and bytes left.
-/

set_option autoImplicit false

namespace ProtoWire.Message

/-- What came of a read: its result, what is left of the input, and
what was reported on the way. -/
structure Outcome (α : Type) where
  result : Except DecodeError α
  rest : Input
  events : List Event

variable {M : Type} [Message M]

/-- Reads the records of the whole input, provided it is not longer than
the options allow. -/
def mergeFields (options : DecodeOptions) : Filler (Progress M) Unit := fun s =>
  if options.maxMessageLength < s.input.remaining then
    .error (.messageTooLarge s.input.remaining options.maxMessageLength) s
  else mergeRecords options.unknownFields s

/-- Reports the error that a read ends with, if it does. -/
def reporting (purpose : Purpose) (f : Filler (Progress M) Unit) :
    Filler (Progress M) Unit := fun s =>
  match f s with
  | .ok () s' => .ok () s'
  | .error e s' =>
    .error e { s' with dest.events := s'.dest.events ++ [.failure (fullName M) purpose e] }

/-- Reads everything there is into a message, provided it is not longer
than the options allow. A failure is the last thing reported. -/
def readAll (purpose : Purpose) (options : DecodeOptions) (message : M) (input : Input) :
    Outcome M :=
  match reporting purpose (mergeFields options) ⟨input, { message := message }⟩ with
  | .ok () s => ⟨.ok s.dest.message, s.input, s.dest.events⟩
  | .error e s => ⟨.error e, s.input, s.dest.events⟩

/-- Under the limit, all there is to it is the loop. -/
theorem mergeFields_of_le {options : DecodeOptions} {s : Intake (Progress M)}
    (h : ¬ options.maxMessageLength < s.input.remaining) :
    mergeFields options s = mergeRecords options.unknownFields s :=
  if_neg h

/-- A message that is too long is refused unread. -/
theorem readAll_of_long {purpose : Purpose} {options : DecodeOptions} {message : M} {input : Input}
    (h : options.maxMessageLength < input.remaining) :
    readAll purpose options message input
      = ⟨.error (.messageTooLarge input.remaining options.maxMessageLength), input,
          [.failure (fullName M) purpose
            (.messageTooLarge input.remaining options.maxMessageLength)]⟩ := by
  have hrun : mergeFields options (⟨input, { message := message }⟩ : Intake (Progress M))
      = .error (.messageTooLarge input.remaining options.maxMessageLength) _ := if_pos h
  rw [readAll, reporting, hrun]
  rfl

/-- A message whose records could all be read is handed over. -/
theorem readAll_of_ok {purpose : Purpose} {options : DecodeOptions} {message : M} {input : Input}
    {s : Intake (Progress M)} (h : ¬ options.maxMessageLength < input.remaining)
    (hrun : mergeRecords options.unknownFields ⟨input, { message := message }⟩ = .ok () s) :
    readAll purpose options message input = ⟨.ok s.dest.message, s.input, s.dest.events⟩ := by
  rw [readAll, reporting, mergeFields_of_le h, hrun]

/-- The error that stopped the loop is the result, and the last report. -/
theorem readAll_of_error {purpose : Purpose} {options : DecodeOptions} {message : M}
    {input : Input} {s : Intake (Progress M)} {e : DecodeError}
    (h : ¬ options.maxMessageLength < input.remaining)
    (hrun : mergeRecords options.unknownFields ⟨input, { message := message }⟩ = .error e s) :
    readAll purpose options message input
      = ⟨.error e, s.input, s.dest.events ++ [.failure (fullName M) purpose e]⟩ := by
  rw [readAll, reporting, mergeFields_of_le h, hrun]

/-- What was read came through the loop. -/
theorem exists_mergeRecords_of_readAll_ok {purpose : Purpose} {options : DecodeOptions}
    {message absorbed : M} {input : Input}
    (h : (readAll purpose options message input).result = .ok absorbed) :
    ¬ options.maxMessageLength < input.remaining ∧ ∃ s : Intake (Progress M),
      mergeRecords options.unknownFields ⟨input, { message := message }⟩ = .ok () s ∧
      s.dest.message = absorbed ∧
      readAll purpose options message input = ⟨.ok absorbed, s.input, s.dest.events⟩ := by
  by_cases hlong : options.maxMessageLength < input.remaining
  · rw [readAll_of_long hlong] at h
    cases h
  · cases hrun : mergeRecords options.unknownFields ⟨input, { message := message }⟩ with
    | ok _ s =>
      rw [readAll_of_ok hlong hrun] at h
      cases h
      exact ⟨hlong, s, rfl, rfl, readAll_of_ok hlong hrun⟩
    | error e s =>
      rw [readAll_of_error hlong hrun] at h
      cases h

/-- What was refused is too long, or an error stopped the loop. -/
theorem exists_mergeRecords_of_readAll_error {purpose : Purpose} {options : DecodeOptions}
    {message : M} {input : Input} {e : DecodeError}
    (h : (readAll purpose options message input).result = .error e) :
    (options.maxMessageLength < input.remaining ∧
      e = .messageTooLarge input.remaining options.maxMessageLength) ∨
    (¬ options.maxMessageLength < input.remaining ∧ ∃ s : Intake (Progress M),
      mergeRecords options.unknownFields ⟨input, { message := message }⟩ = .error e s) := by
  by_cases hlong : options.maxMessageLength < input.remaining
  · rw [readAll_of_long hlong] at h
    cases h
    exact .inl ⟨hlong, rfl⟩
  · cases hrun : mergeRecords options.unknownFields ⟨input, { message := message }⟩ with
    | ok _ s =>
      rw [readAll_of_ok hlong hrun] at h
      cases h
    | error e' s =>
      rw [readAll_of_error hlong hrun] at h
      cases h
      exact .inr ⟨hlong, s, rfl⟩

/-- Reads a new message. -/
def decode (options : DecodeOptions) (input : Input) : Outcome M :=
  readAll .decode options empty input

/-- Reads into a message that is there. This is what a merge comes to;
`mergeInto` is how it goes about it. -/
def merge (options : DecodeOptions) (message : M) (input : Input) : Outcome M :=
  readAll .merge options message input

/-- Reads a new message behind its length. Nothing after the message is
looked at; what its reads used up is gone from the input in either
case, and so is the length. -/
def decodeDelimited (options : DecodeOptions) (input : Input) : Outcome M :=
  match Payload.readCheckedLength input with
  | .ok length rest =>
    let outcome : Outcome M := decode options (rest.window length)
    -- Bytes that the window still holds were not used up outside of it either.
    { outcome with rest := rest.advance (length - outcome.rest.remaining) }
  | .error e rest => ⟨.error e, rest, []⟩

/-! ### Merging into a message -/

/-- A message that is merged into, the copy of it that the records are
read into, and the reports so far. -/
structure Workspace (M : Type) where
  message : M
  scratch : M
  events : List Event := []

/-- Works on the copy. -/
def inScratch {α : Type} (f : Filler (Progress M) α) : Filler (Workspace M) α :=
  f.within (fun space => ⟨space.scratch, space.events⟩) fun progress space =>
    { space with scratch := progress.message, events := progress.events }

/-- Makes the copy. -/
def takeCopy : Filler (Workspace M) Unit :=
  Filler.update fun space => { space with scratch := space.message }

/-- Puts the copy in the place of the message. -/
def assignCopy : Filler (Workspace M) Unit :=
  Filler.update fun space => { space with message := space.scratch }

/-- Merges into a message: copies it, reads into the copy, and only then
puts the copy in its place. -/
def mergeInto (options : DecodeOptions) : Filler (Workspace M) Unit := do
  takeCopy
  inScratch (reporting .merge (mergeFields options))
  assignCopy

variable {options : DecodeOptions} {message absorbed : M} {input : Input} {e : DecodeError}

omit [Message M] in
/-- What is done to the copy leaves the message alone, whichever way it
ends. -/
theorem message_final_inScratch {α : Type} (f : Filler (Progress M) α) (s : Intake (Workspace M)) :
    ((inScratch f).final s).dest.message = s.dest.message := by
  rw [inScratch, Filler.dest_final_within]

/-- What the copy was before does not matter. -/
theorem mergeInto_eq (options : DecodeOptions) (s : Intake (Workspace M)) :
    mergeInto options s
      = (inScratch (reporting .merge (mergeFields options)) >>= fun _ => assignCopy)
          ⟨s.input, { s.dest with scratch := s.dest.message }⟩ := by
  have hcopied : takeCopy s = .ok () ⟨s.input, { s.dest with scratch := s.dest.message }⟩ := rfl
  rw [mergeInto, Filler.bind_of_ok hcopied]

/-- A merge that fails leaves the message alone: it has got no further
than the copy. -/
theorem message_of_mergeInto_error {s s' : Intake (Workspace M)}
    (h : mergeInto options s = .error e s') : s'.dest.message = s.dest.message := by
  let copied : Intake (Workspace M) := ⟨s.input, { s.dest with scratch := s.dest.message }⟩
  rw [mergeInto_eq] at h
  cases hrun : inScratch (reporting .merge (mergeFields options)) copied with
  | ok _ t =>
    -- Nothing can fail any more where the copy could be read.
    rw [Filler.bind_of_ok hrun] at h
    cases h
  | error e' t =>
    rw [Filler.bind_of_error hrun] at h
    cases h
    have hframe := message_final_inScratch (reporting .merge (mergeFields options)) copied
    rwa [Filler.final_of_error hrun] at hframe

/-- A merge that succeeds makes of the message what reading into it comes
to. -/
theorem mergeInto_of_ok (scratch : M) (h : (merge options message input).result = .ok absorbed) :
    ∃ s : Intake (Workspace M), mergeInto options ⟨input, { message, scratch }⟩ = .ok () s ∧
      s.dest.message = absorbed ∧ s.input = (merge options message input).rest ∧
      s.dest.events = (merge options message input).events := by
  unfold merge readAll at h ⊢
  cases hrun : reporting .merge (mergeFields options) ⟨input, { message := message }⟩ with
  | ok _ t =>
    simp only [hrun, Except.ok.injEq] at h ⊢
    have hscratch : inScratch (reporting .merge (mergeFields options))
        ⟨input, { message := message, scratch := message }⟩ = .ok () _ :=
      Filler.within_of_ok hrun
    exact ⟨_, (mergeInto_eq _ _).trans (Filler.bind_of_ok hscratch), h, rfl, rfl⟩
  | error e' t => simp only [hrun, reduceCtorEq] at h

/-- A merge that fails does so with the error of reading into the
message. -/
theorem mergeInto_of_error (scratch : M) (h : (merge options message input).result = .error e) :
    ∃ s : Intake (Workspace M), mergeInto options ⟨input, { message, scratch }⟩ = .error e s ∧
      s.dest.message = message ∧ s.input = (merge options message input).rest ∧
      s.dest.events = (merge options message input).events := by
  unfold merge readAll at h ⊢
  cases hrun : reporting .merge (mergeFields options) ⟨input, { message := message }⟩ with
  | ok _ t => simp only [hrun, reduceCtorEq] at h
  | error e' t =>
    simp only [hrun, Except.error.injEq] at h ⊢
    subst h
    have hscratch : inScratch (reporting .merge (mergeFields options))
        ⟨input, { message := message, scratch := message }⟩ = .error e' _ :=
      Filler.within_of_error hrun
    have hmerge : mergeInto options ⟨input, { message, scratch }⟩ = .error e' _ :=
      (mergeInto_eq _ _).trans (Filler.bind_of_error hscratch)
    exact ⟨_, hmerge, message_of_mergeInto_error hmerge, rfl, rfl⟩

end ProtoWire.Message
