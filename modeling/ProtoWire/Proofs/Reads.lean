import ProtoWire.Filler

/-!
# `ProtoWire.Proofs.Reads`: a read and the grammar it accepts

A grammar for values of type `α` is a relation `G` between bytes and
values: `G b a` says that the bytes `b`, all of them, are a spelling of
`a`. `Decoder.Reads d G` says that `d` accepts exactly `G`: what it
takes off the front of its input is a spelling of the value it
returns, and where a spelling stands in front, that is what it takes,
whatever follows. Both halves speak of the bytes only, so a grammar
knows nothing of cuts.

`Filler.Reads f G` is the same for reads into a destination. There
`G b d a d'` also says what becomes of the destination.

Sequencing two reads concatenates their grammars (`Reads.bind`); where
the second reads nothing, `Reads.bind_of_nil` leaves the empty bytes
out. With the other combinators this turns the reads of a message into its
grammar without a look at either input or cuts; `Reads.congr` then
puts that grammar into words.
-/

set_option autoImplicit false

namespace ProtoWire

variable {D M α β : Type}

namespace Decoder

/-- A read accepts exactly a grammar. -/
structure Reads (d : Decoder α) (G : List UInt8 → α → Prop) : Prop where
  sound : ∀ {input rest : Input} {a : α}, d input = .ok a rest →
    ∃ b, input.bytes = b ++ rest.bytes ∧ G b a
  complete : ∀ {input : Input} {b z : List UInt8} {a : α}, input.bytes = b ++ z → G b a →
    ∃ rest, d input = .ok a rest ∧ rest.bytes = z

namespace Reads

variable {d : Decoder α} {G : List UInt8 → α → Prop}

/-- A grammar in other words. -/
theorem congr {G' : List UInt8 → α → Prop} (h : d.Reads G) (hG : ∀ b a, G b a ↔ G' b a) :
    d.Reads G' where
  sound hrun := by
    obtain ⟨b, hb, hg⟩ := h.sound hrun
    exact ⟨b, hb, (hG b _).mp hg⟩
  complete hb hg := h.complete hb ((hG _ _).mpr hg)

/-- A grammar that is read has at most one way to begin: of two
spellings in front of the same bytes, both are the one that is read. -/
theorem unique (h : d.Reads G) {b b' z z' : List UInt8} {a a' : α} (hg : G b a) (hg' : G b' a')
    (hbytes : b ++ z = b' ++ z') : a = a' ∧ b = b' ∧ z = z' := by
  obtain ⟨rest, hrun, hz⟩ := h.complete (Input.bytes_ofBytes (b ++ z)) hg
  obtain ⟨rest', hrun', hz'⟩ :=
    h.complete ((Input.bytes_ofBytes (b ++ z)).trans hbytes) hg'
  rw [hrun] at hrun'
  injection hrun' with ha hrest
  -- What is left is the same, so what was taken is too.
  have hzz : z = z' := by rw [← hz, ← hz', hrest]
  subst hzz
  exact ⟨ha, List.append_cancel_right hbytes, rfl⟩

/-- A known answer is read from no bytes. -/
theorem pure (a : α) : (Pure.pure a : Decoder α).Reads fun b a' => b = [] ∧ a' = a where
  sound hrun := by
    cases hrun
    exact ⟨[], rfl, rfl, rfl⟩
  complete {input _ _ _} hb hg := by
    obtain ⟨rfl, rfl⟩ := hg
    exact ⟨input, rfl, hb⟩

/-- A known error is not read from any bytes. -/
theorem throw (e : DecodeError) :
    (MonadExcept.throw e : Decoder α).Reads fun _ _ => False where
  sound hrun := nomatch hrun
  complete _ hg := hg.elim

/-- One read after the other: a spelling for the second stands behind a
spelling for the first. -/
theorem bind {f : α → Decoder β} {H : α → List UInt8 → β → Prop} (hd : d.Reads G)
    (hf : ∀ a, (f a).Reads (H a)) :
    (d >>= f).Reads fun b c => ∃ b₁ b₂ a, b = b₁ ++ b₂ ∧ G b₁ a ∧ H a b₂ c where
  sound {input rest c} hrun := by
    cases hstep : d input with
    | error e left =>
      rw [bind_of_error hstep] at hrun
      cases hrun
    | ok a left =>
      rw [bind_of_ok hstep] at hrun
      obtain ⟨b₁, hb₁, hg⟩ := hd.sound hstep
      obtain ⟨b₂, hb₂, hh⟩ := (hf a).sound hrun
      exact ⟨b₁ ++ b₂, by rw [hb₁, hb₂, List.append_assoc], b₁, b₂, a, rfl, hg, hh⟩
  complete {input b z c} hb hg := by
    obtain ⟨b₁, b₂, a, rfl, hg, hh⟩ := hg
    rw [List.append_assoc] at hb
    obtain ⟨left, hstep, hleft⟩ := hd.complete hb hg
    obtain ⟨rest, hrun, hrest⟩ := (hf a).complete hleft hh
    exact ⟨rest, (bind_of_ok hstep).trans hrun, hrest⟩

/-- A read and a step that reads nothing: the spelling is that of the
read. -/
theorem bind_of_nil {f : α → Decoder β} {H : α → β → Prop} (hd : d.Reads G)
    (hf : ∀ a, (f a).Reads fun b c => b = [] ∧ H a c) :
    (d >>= f).Reads fun b c => ∃ a, G b a ∧ H a c := by
  refine (hd.bind hf).congr fun b c => ?_
  constructor
  · intro h
    obtain ⟨b, _, a, rfl, hg, rfl, hh⟩ := h
    rw [List.append_nil]
    exact ⟨a, hg, hh⟩
  · intro h
    obtain ⟨a, hg, hh⟩ := h
    exact ⟨b, [], a, (List.append_nil b).symm, hg, rfl, hh⟩

/-- What is made of an answer is read from the same bytes. -/
theorem map (f : α → β) (hd : d.Reads G) :
    (f <$> d).Reads fun b c => ∃ a, G b a ∧ f a = c where
  sound {input rest c} hrun := by
    cases hstep : d input with
    | error e left =>
      rw [map_of_error f hstep] at hrun
      cases hrun
    | ok a left =>
      rw [map_of_ok f hstep] at hrun
      cases hrun
      obtain ⟨b, hb, hg⟩ := hd.sound hstep
      exact ⟨b, hb, a, hg, rfl⟩
  complete hb hg := by
    obtain ⟨a, hg, rfl⟩ := hg
    obtain ⟨rest, hstep, hrest⟩ := hd.complete hb hg
    exact ⟨rest, map_of_ok f hstep, hrest⟩

/-- Any `n` bytes are a spelling of themselves. -/
theorem takeBytes (n : Nat) : (takeBytes n).Reads fun b a => b = a ∧ a.length = n where
  sound {input rest a} hrun := by
    obtain ⟨hlen, hbytes⟩ := bytes_of_takeBytes hrun
    exact ⟨a, hbytes.symm, rfl, hlen⟩
  complete {input b z a} hb hg := by
    obtain ⟨rfl, rfl⟩ := hg
    -- The spelling has `n` bytes and stands in front, so it is what is taken.
    have henough : ¬ input.remaining < b.length := by
      rw [Input.remaining_eq_length, hb, List.length_append]
      omega
    refine ⟨input.advance b.length, ?_, ?_⟩
    · rw [Decoder.takeBytes, if_neg henough, hb, List.take_left]
    · rw [Input.bytes_advance, hb, List.drop_left]

end Reads

end Decoder

namespace Filler

/-- A read into a destination accepts exactly a grammar. -/
structure Reads (f : Filler D α) (G : List UInt8 → D → α → D → Prop) : Prop where
  sound : ∀ {s s' : Intake D} {a : α}, f s = .ok a s' →
    ∃ b, s.input.bytes = b ++ s'.input.bytes ∧ G b s.dest a s'.dest
  complete : ∀ {s : Intake D} {b z : List UInt8} {a : α} {d' : D}, s.input.bytes = b ++ z →
    G b s.dest a d' → ∃ s', f s = .ok a s' ∧ s'.input.bytes = z ∧ s'.dest = d'

namespace Reads

variable {f : Filler D α} {G : List UInt8 → D → α → D → Prop}

/-- Grammars that say the same describe the same reads. -/
theorem congr {G' : List UInt8 → D → α → D → Prop} (h : f.Reads G)
    (hG : ∀ b d a d', G b d a d' ↔ G' b d a d') : f.Reads G' where
  sound hrun := by
    obtain ⟨b, hb, hg⟩ := h.sound hrun
    exact ⟨b, hb, (hG b _ _ _).mp hg⟩
  complete hb hg := h.complete hb ((hG _ _ _ _).mpr hg)

/-- A known answer is read from no bytes, and leaves the destination
alone. -/
theorem pure (a : α) :
    (Pure.pure a : Filler D α).Reads fun b d a' d' => b = [] ∧ a' = a ∧ d' = d where
  sound hrun := by
    cases hrun
    exact ⟨[], rfl, rfl, rfl, rfl⟩
  complete {s _ _ _ _} hb hg := by
    obtain ⟨rfl, rfl, rfl⟩ := hg
    exact ⟨s, rfl, hb, rfl⟩

/-- A known error is not read from any bytes. -/
theorem throw (e : DecodeError) :
    (MonadExcept.throw e : Filler D α).Reads fun _ _ _ _ => False where
  sound hrun := nomatch hrun
  complete _ hg := hg.elim

/-- A change of the destination is read from no bytes. -/
theorem update (change : D → D) :
    (update change).Reads fun b d _ d' => b = [] ∧ d' = change d where
  sound hrun := by
    cases hrun
    exact ⟨[], rfl, rfl, rfl⟩
  complete {s _ _ _ _} hb hg := by
    obtain ⟨rfl, rfl⟩ := hg
    exact ⟨⟨s.input, change s.dest⟩, rfl, hb, rfl⟩

/-- Two reads use up two parts of the bytes, and the second begins with
the destination of the first. -/
theorem bind {g : α → Filler D β} {H : α → List UInt8 → D → β → D → Prop} (hf : f.Reads G)
    (hg : ∀ a, (g a).Reads (H a)) :
    (f >>= g).Reads fun b d c d' =>
      ∃ b₁ b₂ a d₁, b = b₁ ++ b₂ ∧ G b₁ d a d₁ ∧ H a b₂ d₁ c d' where
  sound {s s' c} hrun := by
    cases hstep : f s with
    | error e s₁ =>
      rw [bind_of_error hstep] at hrun
      cases hrun
    | ok a s₁ =>
      rw [bind_of_ok hstep] at hrun
      obtain ⟨b₁, hb₁, h₁⟩ := hf.sound hstep
      obtain ⟨b₂, hb₂, h₂⟩ := (hg a).sound hrun
      exact ⟨b₁ ++ b₂, by rw [hb₁, hb₂, List.append_assoc], b₁, b₂, a, s₁.dest, rfl, h₁, h₂⟩
  complete {s b z c d'} hb h := by
    obtain ⟨b₁, b₂, a, d₁, rfl, h₁, h₂⟩ := h
    rw [List.append_assoc] at hb
    obtain ⟨s₁, hstep, hleft, rfl⟩ := hf.complete hb h₁
    obtain ⟨s', hrun, hrest⟩ := (hg a).complete hleft h₂
    exact ⟨s', (bind_of_ok hstep).trans hrun, hrest⟩

/-- If the second one reads no bytes, all are those of the first. -/
theorem bind_of_nil {g : α → Filler D β} {H : α → D → β → D → Prop} (hf : f.Reads G)
    (hg : ∀ a, (g a).Reads fun b d c d' => b = [] ∧ H a d c d') :
    (f >>= g).Reads fun b d c d' => ∃ a d₁, G b d a d₁ ∧ H a d₁ c d' := by
  refine (hf.bind hg).congr fun b d c d' => ?_
  constructor
  · intro h
    obtain ⟨b, _, a, d₁, rfl, h₁, rfl, h₂⟩ := h
    rw [List.append_nil]
    exact ⟨a, d₁, h₁, h₂⟩
  · intro h
    obtain ⟨a, d₁, h₁, h₂⟩ := h
    exact ⟨b, [], a, d₁, (List.append_nil b).symm, h₁, rfl, h₂⟩

/-- A value is read, and the destination stays as it is. -/
theorem reading {d : Decoder α} {G : List UInt8 → α → Prop} (h : d.Reads G) :
    (reading d : Filler D α).Reads fun b dest a dest' => G b a ∧ dest' = dest where
  sound {s s' a} hrun := by
    cases hstep : d s.input with
    | error e rest =>
      rw [reading_of_error hstep] at hrun
      cases hrun
    | ok a' rest =>
      rw [reading_of_ok hstep] at hrun
      cases hrun
      obtain ⟨b, hb, hg⟩ := h.sound hstep
      exact ⟨b, hb, hg, rfl⟩
  complete {s b z a d'} hb hg := by
    obtain ⟨hg, rfl⟩ := hg
    obtain ⟨rest, hstep, hrest⟩ := h.complete hb hg
    exact ⟨⟨rest, s.dest⟩, reading_of_ok hstep, hrest, rfl⟩

/-- What is read into a part changes the whole through that part. -/
theorem within {part : M → D} {putBack : D → M → M} (hf : f.Reads G) :
    (within part putBack f).Reads fun b m a m' =>
      ∃ d', G b (part m) a d' ∧ m' = putBack d' m where
  sound {s s' a} hrun := by
    cases hstep : f ⟨s.input, part s.dest⟩ with
    | error e s₁ =>
      rw [within_of_error hstep] at hrun
      cases hrun
    | ok a' s₁ =>
      rw [within_of_ok hstep] at hrun
      cases hrun
      obtain ⟨b, hb, hg⟩ := hf.sound hstep
      exact ⟨b, hb, s₁.dest, hg, rfl⟩
  complete {s b z a m'} hb hg := by
    obtain ⟨d', hg, rfl⟩ := hg
    obtain ⟨s₁, hstep, hleft, rfl⟩ :=
      hf.complete (s := ⟨s.input, part s.dest⟩) hb hg
    exact ⟨⟨s₁.input, putBack s₁.dest s.dest⟩, within_of_ok hstep, hleft, rfl⟩

end Reads

end Filler

end ProtoWire
