import ProtoWire.Filler
import ProtoWire.Proofs.Outcome

/-!
# `ProtoWire.Proofs.Alike`: two reads that go the same way

Several statements about messages compare two runs: the same read of
the same bytes cut in two ways, or a run that keeps what it does not
know beside one that passes over it. `Filler.Alike R Q f g` is their
common form. Started on the same bytes and on destinations that `R`
relates, `f` and `g` either both succeed, with values that `Q` relates
and the same bytes left, or both fail with the same error; `R` relates
the destinations afterwards whichever way the runs end.

What a failed read leaves of the input is not compared, for the reason
given in `ProtoWire.Proofs.Outcome`.

* `Alike.bind`: sequencing. The bytes that the first reads leave are
  the bytes the second reads start on.
* `Alike.reading_map`: reading the same thing, and making two
  things of it.
* `Alike.within`: working on a part of the destination.
-/

set_option autoImplicit false

namespace ProtoWire.Filler

variable {D D' M M' α α' β β' γ : Type}

/-- Two results are of the same kind: two successes with related
values and the same bytes left, or the same error twice. -/
inductive SameWay (R : D → D' → Prop) (Q : α → β → Prop) :
    EStateM.Result DecodeError (Intake D) α → EStateM.Result DecodeError (Intake D') β → Prop where
  | ok {a : α} {b : β} {s : Intake D} {t : Intake D'} : Q a b → s.input.bytes = t.input.bytes →
      R s.dest t.dest → SameWay R Q (.ok a s) (.ok b t)
  | error {e : DecodeError} {s : Intake D} {t : Intake D'} : R s.dest t.dest →
      SameWay R Q (.error e s) (.error e t)

/-- Two reads go the same way on the same bytes, from destinations
that are related. -/
def Alike (R : D → D' → Prop) (Q : α → β → Prop) (f : Filler D α) (g : Filler D' β) : Prop :=
  ∀ (s : Intake D) (t : Intake D'), s.input.bytes = t.input.bytes → R s.dest t.dest →
    SameWay R Q (f s) (g t)

namespace Alike

variable {R : D → D' → Prop} {Q : α → β → Prop}

/-- Less may be asked of the values. -/
theorem imp {Q' : α → β → Prop} {f : Filler D α} {g : Filler D' β} (h : Alike R Q f g)
    (hQ : ∀ a b, Q a b → Q' a b) : Alike R Q' f g := by
  intro s t hbytes hdest
  have hrun := h s t hbytes hdest
  revert hrun
  generalize f s = r
  generalize g t = r'
  intro hrun
  cases hrun with
  | ok hvalue hbytes' hdest' => exact .ok (hQ _ _ hvalue) hbytes' hdest'
  | error hdest' => exact .error hdest'

/-- Two answers that are related are given alike. -/
theorem pure {a : α} {b : β} (h : Q a b) :
    Alike R Q (Pure.pure a : Filler D α) (Pure.pure b : Filler D' β) := fun _ _ hbytes hdest =>
  .ok h hbytes hdest

/-- The same error ends both reads. -/
theorem throw (e : DecodeError) :
    Alike R Q (MonadExcept.throw e : Filler D α) (MonadExcept.throw e : Filler D' β) :=
  fun _ _ _ hdest => .error hdest

/-- Changes that keep the destinations related. -/
theorem update {change : D → D} {change' : D' → D'}
    (h : ∀ d d', R d d' → R (change d) (change' d')) :
    Alike R (fun _ _ => True) (update change) (update change') := fun _ _ hbytes hdest =>
  .ok trivial hbytes (h _ _ hdest)

/-- Two values that are related can be stored alike. -/
theorem store {value : D} {value' : D'} (h : R value value') :
    Alike R (fun _ _ => True) (store value) (store value') :=
  update fun _ _ _ => h

/-- Reads that go alike can be followed by reads that go alike from
related answers. -/
theorem bind {Q' : α' → β' → Prop} {f : Filler D α} {g : Filler D' β} {f' : α → Filler D α'}
    {g' : β → Filler D' β'} (h : Alike R Q f g)
    (h' : ∀ a b, Q a b → Alike R Q' (f' a) (g' b)) : Alike R Q' (f >>= f') (g >>= g') := by
  intro s t hbytes hdest
  have hfirst := h s t hbytes hdest
  simp only [Bind.bind, EStateM.bind]
  revert hfirst
  generalize f s = r
  generalize g t = r'
  intro hfirst
  cases hfirst with
  -- The second reads start where the first ones stopped, on the same bytes.
  | ok hvalue hbytes' hdest' => exact h' _ _ hvalue _ _ hbytes' hdest'
  | error hdest' => exact .error hdest'

/-- The same read on both sides, with what is made of its value. -/
theorem reading_map {d : Decoder γ} (hd : d.CutFree) {f : γ → α} {g : γ → β}
    (h : ∀ c, Q (f c) (g c)) :
    Alike R Q (reading (f <$> d) : Filler D α) (reading (g <$> d) : Filler D' β) := by
  intro s t hbytes hdest
  rcases hd.cases hbytes with ⟨c, ri, rj, hi, hj, hrest⟩ | ⟨e, ri, rj, hi, hj⟩
  · rw [reading_of_ok (Decoder.map_of_ok f hi), reading_of_ok (Decoder.map_of_ok g hj)]
    exact .ok (h c) hrest hdest
  · rw [reading_of_error (Decoder.map_of_error f hi), reading_of_error (Decoder.map_of_error g hj)]
    exact .error hdest

/-- A read that is free of the cuts answers the same in both. -/
theorem reading {d : Decoder α} (hd : d.CutFree) :
    Alike R Eq (reading d : Filler D α) (reading d : Filler D' α) := by
  have h := reading_map (R := R) (Q := Eq) hd (f := id) (g := id) fun _ => rfl
  rwa [id_map] at h

/-- Reads of a part. The parts of related destinations are related, and
putting related parts back keeps the destinations related. -/
theorem within {S : M → M' → Prop} {part : M → D} {putBack : D → M → M} {part' : M' → D'}
    {putBack' : D' → M' → M'} {f : Filler D α} {g : Filler D' β} (h : Alike R Q f g)
    (hpart : ∀ m m', S m m' → R (part m) (part' m'))
    (hput : ∀ m m' d d', S m m' → R d d' → S (putBack d m) (putBack' d' m')) :
    Alike S Q (within part putBack f) (within part' putBack' g) := by
  intro s t hbytes hdest
  have hrun := h ⟨s.input, part s.dest⟩ ⟨t.input, part' t.dest⟩ hbytes (hpart _ _ hdest)
  unfold Filler.within
  revert hrun
  generalize f ⟨s.input, part s.dest⟩ = r
  generalize g ⟨t.input, part' t.dest⟩ = r'
  intro hrun
  cases hrun with
  | ok hvalue hbytes' hdest' => exact .ok hvalue hbytes' (hput _ _ _ _ hdest hdest')
  | error hdest' => exact .error (hput _ _ _ _ hdest hdest')

end Alike

end ProtoWire.Filler
