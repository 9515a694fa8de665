import ProtoWire.Proofs.Outcome
import ProtoWire.Proofs.Reads

/-!
# `ProtoWire.Proofs.Rejects`: a read and the faults it stops at

`Decoder.Reads` says what a read accepts. This module says the rest. A
grammar of faults is a relation `F` between bytes and errors: `F b e`
says that the bytes, and whatever is missing behind them, are to be
refused with `e`. `Decoder.Rejects d F` says that `d` fails with `e`
exactly on the inputs whose bytes have the fault `e`. Like a grammar of
values, one of faults knows nothing of cuts; unlike it, it speaks of all
the bytes that are left, since a fault can be that there are no more.

`Filler.Rejects f F` is the same for reads into a destination, which a
fault may depend on.

A sequence of two reads has the faults of the first, and those of the
second behind a spelling of what the first reads (`Rejects.bind`).
-/

set_option autoImplicit false

namespace ProtoWire

variable {D M α β : Type}

namespace Decoder

/-- A read fails exactly on a grammar of faults. -/
structure Rejects (d : Decoder α) (F : List UInt8 → DecodeError → Prop) : Prop where
  sound : ∀ {input rest : Input} {e : DecodeError}, d input = .error e rest → F input.bytes e
  complete : ∀ {input : Input} {e : DecodeError}, F input.bytes e → ∃ rest, d input = .error e rest

namespace Rejects

variable {d : Decoder α} {F : List UInt8 → DecodeError → Prop}

/-- A grammar of faults in other words. -/
theorem congr {F' : List UInt8 → DecodeError → Prop} (h : d.Rejects F)
    (hF : ∀ b e, F b e ↔ F' b e) : d.Rejects F' where
  sound hrun := (hF _ _).mp (h.sound hrun)
  complete hf := h.complete ((hF _ _).mpr hf)

/-- Where the outcome of a read is known, so are its faults. -/
theorem of_outcome (h : ∀ input e, d.outcome input = .error e ↔ F input.bytes e) :
    d.Rejects F where
  sound hrun := (h _ _).mp (outcome_of_error hrun)
  complete {input e} hf := by
    have hout := (h input e).mpr hf
    cases hrun : d input with
    | ok a rest =>
      rw [outcome_of_ok hrun] at hout
      cases hout
    | error e' rest =>
      rw [outcome_of_error hrun] at hout
      cases hout
      exact ⟨rest, rfl⟩

/-- A known answer is never refused. -/
theorem pure (a : α) : (Pure.pure a : Decoder α).Rejects fun _ _ => False where
  sound hrun := nomatch hrun
  complete hf := hf.elim

/-- A known error is given whatever the bytes. -/
theorem throw (e : DecodeError) :
    (MonadExcept.throw e : Decoder α).Rejects fun _ e' => e' = e where
  sound hrun := by
    cases hrun
    rfl
  complete {input _} hf := by
    obtain rfl := hf
    exact ⟨input, rfl⟩

/-- A verdict is an error whatever is left. -/
theorem ofExcept (verdict : Except DecodeError α) :
    (ofExcept verdict).Rejects fun _ e => verdict = .error e := by
  cases verdict with
  | ok a => exact (pure a).congr fun b e => by simp
  | error e => exact (throw e).congr fun b e' => by simp [eq_comm]

/-- The first read fails, or the second does behind what the first has
read. -/
theorem bind {G : List UInt8 → α → Prop} {f : α → Decoder β}
    {H : α → List UInt8 → DecodeError → Prop} (hd' : d.Rejects F) (hd : d.Reads G)
    (hf : ∀ a, (f a).Rejects (H a)) :
    (d >>= f).Rejects fun b e => F b e ∨ ∃ b₁ b₂ a, b = b₁ ++ b₂ ∧ G b₁ a ∧ H a b₂ e where
  sound {input rest e} hrun := by
    cases hstep : d input with
    | error e' left =>
      rw [bind_of_error hstep] at hrun
      cases hrun
      exact .inl (hd'.sound hstep)
    | ok a left =>
      rw [bind_of_ok hstep] at hrun
      obtain ⟨b₁, hb₁, hg⟩ := hd.sound hstep
      exact .inr ⟨b₁, left.bytes, a, hb₁, hg, (hf a).sound hrun⟩
  complete {input e} hfault := by
    rcases hfault with hfirst | ⟨b₁, b₂, a, hb, hg, hh⟩
    · obtain ⟨rest, hrun⟩ := hd'.complete hfirst
      exact ⟨rest, bind_of_error hrun⟩
    · obtain ⟨left, hstep, rfl⟩ := hd.complete hb hg
      obtain ⟨rest, hrun⟩ := (hf a).complete hh
      exact ⟨rest, (bind_of_ok hstep).trans hrun⟩

/-- What is made of an answer is refused for the same faults. -/
theorem map (f : α → β) (hd : d.Rejects F) : (f <$> d).Rejects F where
  sound {input rest e} hrun := by
    cases hstep : d input with
    | error e' left =>
      rw [map_of_error f hstep] at hrun
      cases hrun
      exact hd.sound hstep
    | ok a left =>
      rw [map_of_ok f hstep] at hrun
      cases hrun
  complete hf := by
    obtain ⟨rest, hrun⟩ := hd.complete hf
    exact ⟨rest, map_of_error f hrun⟩

/-- Fewer than `n` bytes are too few. -/
theorem takeBytes (n : Nat) :
    (takeBytes n).Rejects fun b e => b.length < n ∧ e = .unexpectedEnd where
  sound {input rest e} hrun := by
    unfold Decoder.takeBytes at hrun
    rw [Input.remaining_eq_length] at hrun
    split at hrun
    · rename_i hshort
      cases hrun
      exact ⟨hshort, rfl⟩
    · cases hrun
  complete {input e} hf := by
    obtain ⟨hshort, rfl⟩ := hf
    rw [← Input.remaining_eq_length] at hshort
    exact ⟨input, if_pos hshort⟩

end Rejects

end Decoder

namespace Filler

/-- A read into a destination fails exactly on a grammar of faults. -/
structure Rejects (f : Filler D α) (F : List UInt8 → D → DecodeError → Prop) : Prop where
  sound : ∀ {s s' : Intake D} {e : DecodeError}, f s = .error e s' → F s.input.bytes s.dest e
  complete : ∀ {s : Intake D} {e : DecodeError}, F s.input.bytes s.dest e →
    ∃ s', f s = .error e s'

namespace Rejects

variable {f : Filler D α} {F : List UInt8 → D → DecodeError → Prop}

/-- Faults that say the same describe the same errors. -/
theorem congr {F' : List UInt8 → D → DecodeError → Prop} (h : f.Rejects F)
    (hF : ∀ b d e, F b d e ↔ F' b d e) : f.Rejects F' where
  sound hrun := (hF _ _ _).mp (h.sound hrun)
  complete hf := h.complete ((hF _ _ _).mpr hf)

/-- A known answer is never refused. -/
theorem pure (a : α) : (Pure.pure a : Filler D α).Rejects fun _ _ _ => False where
  sound hrun := nomatch hrun
  complete hf := hf.elim

/-- A known error is given whatever the bytes and the destination. -/
theorem throw (e : DecodeError) :
    (MonadExcept.throw e : Filler D α).Rejects fun _ _ e' => e' = e where
  sound hrun := by
    cases hrun
    rfl
  complete {s _} hf := by
    obtain rfl := hf
    exact ⟨s, rfl⟩

/-- Changing the destination cannot fail. -/
theorem update (change : D → D) : (update change).Rejects fun _ _ _ => False where
  sound hrun := nomatch hrun
  complete hf := hf.elim

/-- Of two reads, the first fails, or it succeeds and the second fails
on what it has left. -/
theorem bind {G : List UInt8 → D → α → D → Prop} {g : α → Filler D β}
    {H : α → List UInt8 → D → DecodeError → Prop} (hf' : f.Rejects F) (hf : f.Reads G)
    (hg : ∀ a, (g a).Rejects (H a)) :
    (f >>= g).Rejects fun b d e =>
      F b d e ∨ ∃ b₁ b₂ a d₁, b = b₁ ++ b₂ ∧ G b₁ d a d₁ ∧ H a b₂ d₁ e where
  sound {s s' e} hrun := by
    -- The second read only starts if the first has succeeded.
    cases hstep : f s with
    | error e' s₁ =>
      rw [bind_of_error hstep] at hrun
      cases hrun
      exact .inl (hf'.sound hstep)
    | ok a s₁ =>
      rw [bind_of_ok hstep] at hrun
      obtain ⟨b₁, hb₁, h₁⟩ := hf.sound hstep
      exact .inr ⟨b₁, s₁.input.bytes, a, s₁.dest, hb₁, h₁, (hg a).sound hrun⟩
  complete {s e} hfault := by
    rcases hfault with hfirst | ⟨b₁, b₂, a, d₁, hb, h₁, h₂⟩
    · obtain ⟨s', hrun⟩ := hf'.complete hfirst
      exact ⟨s', bind_of_error hrun⟩
    · obtain ⟨s₁, hstep, rfl, rfl⟩ := hf.complete hb h₁
      obtain ⟨s', hrun⟩ := (hg a).complete h₂
      exact ⟨s', (bind_of_ok hstep).trans hrun⟩

/-- A step that cannot fail adds no fault. -/
theorem bind_of_total {G : List UInt8 → D → α → D → Prop} {g : α → Filler D β} (hf' : f.Rejects F)
    (hf : f.Reads G) (hg : ∀ a, (g a).Rejects fun _ _ _ => False) : (f >>= g).Rejects F := by
  refine (hf'.bind hf hg).congr fun b d e => ?_
  simp only [and_false, exists_false, or_false]

/-- The faults of the read, whatever the destination is. -/
theorem reading {d : Decoder α} {F : List UInt8 → DecodeError → Prop} (h : d.Rejects F) :
    (reading d : Filler D α).Rejects fun b _ e => F b e where
  sound {s s' e} hrun := by
    cases hstep : d s.input with
    | ok a rest =>
      rw [reading_of_ok hstep] at hrun
      cases hrun
    | error e' rest =>
      rw [reading_of_error hstep] at hrun
      cases hrun
      exact h.sound hstep
  complete {s e} hf := by
    obtain ⟨rest, hstep⟩ := h.complete hf
    exact ⟨⟨rest, s.dest⟩, reading_of_error hstep⟩

/-- The faults of reading into the part. -/
theorem within {part : M → D} {putBack : D → M → M} (hf : f.Rejects F) :
    (within part putBack f).Rejects fun b m e => F b (part m) e where
  sound {s s' e} hrun := by
    cases hstep : f ⟨s.input, part s.dest⟩ with
    | ok a s₁ =>
      rw [within_of_ok hstep] at hrun
      cases hrun
    | error e' s₁ =>
      rw [within_of_error hstep] at hrun
      cases hrun
      exact hf.sound hstep
  complete {s e} hfault := by
    obtain ⟨s₁, hstep⟩ := hf.complete (s := ⟨s.input, part s.dest⟩) hfault
    exact ⟨⟨s₁.input, putBack s₁.dest s.dest⟩, within_of_error hstep⟩

end Rejects

end Filler

end ProtoWire
