import ProtoWire.Proofs.FieldType.Value

/-!
# `ProtoWire.Proofs.FieldType.WellFormed`: which bytes are a text

A text is taken from bytes by `String.fromUTF8?`. Here is said of bytes,
without characters and strings, when they are one. A character has one
to four bytes. The first says how many there are, the others start with
the bits `10`, and the bits that are left say its number (`HasForm`).
Not all that has this form is a character (`IsChar`): there must be no
shorter form of the number, the number must not be one of those that
only stand in pairs, and it must not be above the last.

* `isChar_iff`: the bytes of a character are those that a string has for
  it, and no others.
* `spells_iff`: bytes are spelled out by characters exactly if they are
  the bytes of a string of these.
* `fromUTF8?_eq_some_iff_spells`, `fromUTF8?_eq_none_iff`: they are taken
  for that string, and for none if they are not spelled out.
-/

set_option autoImplicit false

namespace ProtoWire

namespace Utf8

/-! ### The grammar -/

/-- A byte behind the first of a character. -/
def IsTail (b : UInt8) : Prop :=
  0x80 ≤ b.toNat ∧ b.toNat < 0xc0

/-- Bytes of the form of a character, and the number they say: six bits
in each byte behind the first, and in the first those that do not say
how many there are. -/
inductive HasForm : List UInt8 → Nat → Prop where
  | one {a : UInt8} : a.toNat < 0x80 → HasForm [a] a.toNat
  | two {a b : UInt8} : 0xc0 ≤ a.toNat → a.toNat < 0xe0 → IsTail b →
      HasForm [a, b] (64 * (a.toNat - 0xc0) + (b.toNat - 0x80))
  | three {a b c : UInt8} : 0xe0 ≤ a.toNat → a.toNat < 0xf0 → IsTail b → IsTail c →
      HasForm [a, b, c] (64 * (64 * (a.toNat - 0xe0) + (b.toNat - 0x80)) + (c.toNat - 0x80))
  | four {a b c d : UInt8} : 0xf0 ≤ a.toNat → a.toNat < 0xf8 → IsTail b → IsTail c → IsTail d →
      HasForm [a, b, c, d]
        (64 * (64 * (64 * (a.toNat - 0xf0) + (b.toNat - 0x80)) + (c.toNat - 0x80))
          + (d.toNat - 0x80))

/-- Bytes that are the character with a number. -/
structure IsChar (bytes : List UInt8) (n : Nat) : Prop where
  form : HasForm bytes n
  /-- The form is not overlong. -/
  shortest : ∀ bytes', HasForm bytes' n → bytes.length ≤ bytes'.length
  notSurrogate : ¬ (0xd800 ≤ n ∧ n ≤ 0xdfff)
  le_last : n ≤ 0x10ffff

/-- Bytes that are some characters, one after the other, with their
numbers. -/
inductive Spells : List UInt8 → List Nat → Prop where
  | nil : Spells [] []
  | cons {char bytes : List UInt8} {n : Nat} {ns : List Nat} : IsChar char n → Spells bytes ns →
      Spells (char ++ bytes) (n :: ns)

/-- Bytes that are some characters and nothing else. -/
def WellFormed (bytes : List UInt8) : Prop :=
  ∃ ns, Spells bytes ns

/-! ### The form of a number -/

variable {bytes : List UInt8} {n : Nat}

/-- How many numbers have a form of some bytes, or of more of them. -/
def room : Nat → Nat
  | 0 => 0
  | 1 => 0x80
  | 2 => 0x800
  | 3 => 0x10000
  | _ => 0x200000

/-- The form of a number that has so many bytes. -/
def form : Nat → Nat → List UInt8
  | 0, _ => []
  | 1, n => [UInt8.ofNat n]
  | 2, n => [UInt8.ofNat (n / 64 + 0xc0), UInt8.ofNat (n % 64 + 0x80)]
  | 3, n => [UInt8.ofNat (n / 4096 + 0xe0), UInt8.ofNat (n / 64 % 64 + 0x80),
      UInt8.ofNat (n % 64 + 0x80)]
  | _, n => [UInt8.ofNat (n / 262144 + 0xf0), UInt8.ofNat (n / 4096 % 64 + 0x80),
      UInt8.ofNat (n / 64 % 64 + 0x80), UInt8.ofNat (n % 64 + 0x80)]

/-- How many bytes the shortest form of a number has. -/
def formSize (n : Nat) : Nat :=
  if n ≤ 0x7f then 1
  else if n ≤ 0x7ff then 2
  else if n ≤ 0xffff then 3
  else 4

/-- More bytes have room for more numbers. -/
theorem room_mono {j k : Nat} (h : j ≤ k) : room j ≤ room k := by
  have hsucc : ∀ k, room k ≤ room (k + 1) := by
    intro k
    match k with
    | 0 | 1 | 2 | 3 => decide
    | k + 4 => exact Nat.le_refl _
  exact monotone_nat_of_le_succ hsucc h

/-- A form has room for the number it says. -/
theorem HasForm.lt_room (h : HasForm bytes n) : n < room bytes.length := by
  cases h with
  | one ha => exact ha
  -- Each byte behind the first adds six bits, and the first has what its mark leaves.
  | two _ ha hb =>
    obtain ⟨-, hb⟩ := hb
    show _ < 0x800
    omega
  | three _ ha hb hc =>
    obtain ⟨-, hb⟩ := hb
    obtain ⟨-, hc⟩ := hc
    show _ < 0x10000
    omega
  | four _ ha hb hc hd =>
    obtain ⟨-, hb⟩ := hb
    obtain ⟨-, hc⟩ := hc
    obtain ⟨-, hd⟩ := hd
    show _ < 0x200000
    omega

/-- The bytes can be told from the number and how many they are. -/
theorem HasForm.eq_form (h : HasForm bytes n) : bytes = form bytes.length n := by
  cases h with
  | @one a _ =>
    show [a] = [UInt8.ofNat a.toNat]
    rw [UInt8.ofNat_toNat]
  | @two a b ha _ hb =>
    obtain ⟨hb, hb'⟩ := hb
    have hfirst : (64 * (a.toNat - 0xc0) + (b.toNat - 0x80)) / 64 + 0xc0 = a.toNat := by omega
    have hlast : (64 * (a.toNat - 0xc0) + (b.toNat - 0x80)) % 64 + 0x80 = b.toNat := by omega
    simp only [List.length_cons, List.length_nil, form, hfirst, hlast, UInt8.ofNat_toNat]
  | @three a b c ha _ hb hc =>
    obtain ⟨hb, hb'⟩ := hb
    obtain ⟨hc, hc'⟩ := hc
    -- Each tail is a digit in base 64, so division by 64 takes the last one off.
    generalize hn : 64 * (64 * (a.toNat - 0xe0) + (b.toNat - 0x80)) + (c.toNat - 0x80) = n
    have hfirst : n / 4096 + 0xe0 = a.toNat := by omega
    have hsecond : n / 64 % 64 + 0x80 = b.toNat := by omega
    have hlast : n % 64 + 0x80 = c.toNat := by omega
    simp only [List.length_cons, List.length_nil, form, hfirst, hsecond, hlast, UInt8.ofNat_toNat]
  | @four a b c d ha _ hb hc hd =>
    obtain ⟨hb, hb'⟩ := hb
    obtain ⟨hc, hc'⟩ := hc
    obtain ⟨hd, hd'⟩ := hd
    generalize hn : 64 * (64 * (64 * (a.toNat - 0xf0) + (b.toNat - 0x80)) + (c.toNat - 0x80))
      + (d.toNat - 0x80) = n
    have hfirst : n / 262144 + 0xf0 = a.toNat := by omega
    have hsecond : n / 4096 % 64 + 0x80 = b.toNat := by omega
    have hthird : n / 64 % 64 + 0x80 = c.toNat := by omega
    have hlast : n % 64 + 0x80 = d.toNat := by omega
    simp only [List.length_cons, List.length_nil, form, hfirst, hsecond, hthird, hlast,
      UInt8.ofNat_toNat]

/-- The byte behind the first that holds six bits of a number. -/
theorem toNat_tail (n : Nat) : (UInt8.ofNat (n % 64 + 0x80)).toNat = n % 64 + 0x80 :=
  UInt8.toNat_ofNat_of_lt' (show n % 64 + 0x80 < 256 by omega)

/-- Six bits behind `10` make a byte behind the first. -/
theorem isTail_tail (n : Nat) : IsTail (UInt8.ofNat (n % 64 + 0x80)) := by
  rw [IsTail, toNat_tail]
  omega

/-- A number has a form of so many bytes if there is room for it. -/
theorem hasForm_form {k : Nat} (hk : k ≤ 4) (hn : n < room k) : HasForm (form k n) n := by
  -- The bound keeps the first byte below the marks of a longer form.
  match k with
  | 0 => exact absurd hn (Nat.not_lt_zero n)
  | 1 =>
    have hn' : n < 0x80 := hn
    have hfirst : (UInt8.ofNat n).toNat = n :=
      UInt8.toNat_ofNat_of_lt' (show n < 256 by omega)
    have h := HasForm.one (a := UInt8.ofNat n) (by omega)
    rwa [hfirst] at h
  | 2 =>
    have hn' : n < 0x800 := hn
    have hfirst : (UInt8.ofNat (n / 64 + 0xc0)).toNat = n / 64 + 0xc0 :=
      UInt8.toNat_ofNat_of_lt' (show n / 64 + 0xc0 < 256 by omega)
    have h := HasForm.two (a := UInt8.ofNat (n / 64 + 0xc0)) (by omega) (by omega) (isTail_tail n)
    rw [hfirst, toNat_tail] at h
    have hsum : 64 * (n / 64 + 0xc0 - 0xc0) + (n % 64 + 0x80 - 0x80) = n := by omega
    rwa [hsum] at h
  | 3 =>
    have hn' : n < 0x10000 := hn
    have hfirst : (UInt8.ofNat (n / 4096 + 0xe0)).toNat = n / 4096 + 0xe0 :=
      UInt8.toNat_ofNat_of_lt' (show n / 4096 + 0xe0 < 256 by omega)
    have h := HasForm.three (a := UInt8.ofNat (n / 4096 + 0xe0)) (by omega) (by omega)
      (isTail_tail (n / 64)) (isTail_tail n)
    rw [hfirst, toNat_tail, toNat_tail] at h
    have hsum : 64 * (64 * (n / 4096 + 0xe0 - 0xe0) + (n / 64 % 64 + 0x80 - 0x80))
        + (n % 64 + 0x80 - 0x80) = n := by omega
    rwa [hsum] at h
  | 4 =>
    have hn' : n < 0x200000 := hn
    have hfirst : (UInt8.ofNat (n / 262144 + 0xf0)).toNat = n / 262144 + 0xf0 :=
      UInt8.toNat_ofNat_of_lt' (show n / 262144 + 0xf0 < 256 by omega)
    have h := HasForm.four (a := UInt8.ofNat (n / 262144 + 0xf0)) (by omega) (by omega)
      (isTail_tail (n / 4096)) (isTail_tail (n / 64)) (isTail_tail n)
    rw [hfirst, toNat_tail, toNat_tail, toNat_tail] at h
    have hsum : 64 * (64 * (64 * (n / 262144 + 0xf0 - 0xf0) + (n / 4096 % 64 + 0x80 - 0x80))
        + (n / 64 % 64 + 0x80 - 0x80)) + (n % 64 + 0x80 - 0x80) = n := by omega
    rwa [hsum] at h

/-! ### The bytes of a character -/

/-- No character takes more than four bytes. -/
theorem formSize_le (n : Nat) : formSize n ≤ 4 := by
  unfold formSize
  split_ifs <;> decide

/-- A form of the size that is chosen has room for the number. -/
theorem lt_room_formSize (hn : n ≤ 0x10ffff) : n < room (formSize n) := by
  unfold formSize
  split_ifs with h1 h2 h3
  · exact Nat.lt_succ_of_le h1
  · exact Nat.lt_succ_of_le h2
  · exact Nat.lt_succ_of_le h3
  · exact Nat.lt_of_le_of_lt hn (by decide)

/-- In fewer bytes there would not be room for the number. -/
theorem room_le_of_lt_formSize {j : Nat} (hj : j < formSize n) : room j ≤ n := by
  have hlast : room (formSize n - 1) ≤ n := by
    unfold formSize
    split_ifs with h1 h2 h3
    · exact Nat.zero_le n
    · exact Nat.not_le.mp h1
    · exact Nat.not_le.mp h2
    · exact Nat.not_le.mp h3
  exact Nat.le_trans (room_mono (by omega)) hlast

/-- The form that is chosen has as many bytes as its size says. -/
theorem length_form_formSize (n : Nat) : (form (formSize n) n).length = formSize n := by
  unfold formSize
  split_ifs <;> rfl

/-- The number of a character is at most the last one of Unicode. -/
theorem toNat_le (c : Char) : c.toNat ≤ 0x10ffff := by
  rcases c.valid with h | ⟨-, h⟩
  · exact Nat.le_of_lt (Nat.lt_trans h (by decide))
  · exact Nat.le_of_lt_succ h

/-- The other numbers have a character. -/
theorem exists_char (hsurrogate : ¬ (0xd800 ≤ n ∧ n ≤ 0xdfff)) (hlast : n ≤ 0x10ffff) :
    ∃ c : Char, c.toNat = n := by
  have hvalid : n.isValidChar := by
    rw [Nat.isValidChar]
    omega
  exact ⟨Char.ofNatAux n hvalid, rfl⟩

/-- A string has the shortest form of a character. -/
theorem utf8EncodeChar_eq_form (c : Char) :
    String.utf8EncodeChar c = form (formSize c.toNat) c.toNat := by
  have hmax := toNat_le c
  have hval : c.val.toNat = c.toNat := rfl
  simp only [String.utf8EncodeChar, hval, formSize]
  generalize c.toNat = n at hmax ⊢
  -- A string cuts the bits of the first byte off above, where there are none.
  have hfirst : n ≤ 0x7ff → n / 64 % 0x20 = n / 64 := fun h => Nat.mod_eq_of_lt (by omega)
  have hfirst' : n ≤ 0xffff → n / 4096 % 0x10 = n / 4096 := fun h => Nat.mod_eq_of_lt (by omega)
  have hfirst'' : n / 262144 % 0x08 = n / 262144 := Nat.mod_eq_of_lt (by omega)
  split_ifs with h1 h2 h3
  · rfl
  · rw [hfirst h2]
    rfl
  · rw [hfirst' h3]
    rfl
  · rw [hfirst'']
    rfl

/-- The bytes of a character are those that a string has for it. -/
theorem isChar_iff :
    IsChar bytes n ↔ ∃ c : Char, c.toNat = n ∧ String.utf8EncodeChar c = bytes := by
  constructor
  · intro h
    -- The shortest form is no longer than this one, and in fewer bytes there is no room.
    have hlen : bytes.length = formSize n := by
      have hle := h.shortest _ (hasForm_form (formSize_le n) (lt_room_formSize h.le_last))
      rw [length_form_formSize] at hle
      have hroom := h.form.lt_room
      have hge : ¬ bytes.length < formSize n := fun hlt =>
        Nat.not_lt.mpr (room_le_of_lt_formSize hlt) hroom
      omega
    obtain ⟨c, hc⟩ := exists_char h.notSurrogate h.le_last
    refine ⟨c, hc, ?_⟩
    rw [utf8EncodeChar_eq_form, hc, ← hlen]
    exact h.form.eq_form.symm
  · rintro ⟨c, rfl, rfl⟩
    rw [utf8EncodeChar_eq_form]
    refine ⟨hasForm_form (formSize_le _) (lt_room_formSize (toNat_le c)), ?_, ?_, toNat_le c⟩
    · intro bytes' h'
      rw [length_form_formSize]
      have hroom := h'.lt_room
      by_contra hlt
      exact Nat.not_lt.mpr (room_le_of_lt_formSize (Nat.not_le.mp hlt)) hroom
    · have hvalid : c.toNat.isValidChar := c.valid
      rw [Nat.isValidChar] at hvalid
      omega

/-! ### The bytes of a text -/

/-- The numbers of the characters of a text. -/
def codes (text : String) : List Nat :=
  text.toList.map Char.toNat

/-- Bytes are spelled out by characters if they are the bytes of a list
of these. -/
theorem spells_iff_exists_chars {ns : List Nat} :
    Spells bytes ns ↔
      ∃ cs : List Char, cs.map Char.toNat = ns ∧ cs.flatMap String.utf8EncodeChar = bytes := by
  constructor
  · intro h
    induction h with
    | nil => exact ⟨[], rfl, rfl⟩
    | cons hchar _ ih =>
      -- A form that is a character is what the writer makes of that character.
      obtain ⟨c, rfl, rfl⟩ := isChar_iff.mp hchar
      obtain ⟨cs, rfl, rfl⟩ := ih
      exact ⟨c :: cs, rfl, rfl⟩
  · rintro ⟨cs, rfl, rfl⟩
    induction cs with
    | nil => exact .nil
    | cons c cs ih => exact .cons (isChar_iff.mpr ⟨c, rfl, rfl⟩) ih

/-- Bytes spell numbers exactly if they are the bytes of a text with
these numbers. -/
theorem spells_iff {ns : List Nat} :
    Spells bytes ns ↔ ∃ text, codes text = ns ∧ textBytes text = bytes := by
  rw [spells_iff_exists_chars]
  constructor
  · rintro ⟨cs, hns, hbytes⟩
    refine ⟨String.ofList cs, ?_, ?_⟩
    · rw [codes, String.toList_ofList, hns]
    · rw [textBytes, String.toList_ofList, hbytes]
  · rintro ⟨text, hns, hbytes⟩
    exact ⟨text.toList, hns, hbytes⟩

/-- Different texts have different numbers. -/
theorem codes_injective {text text' : String} (h : codes text = codes text') : text = text' := by
  have hchars : text.toList = text'.toList :=
    (List.map_inj_right fun _ _ => Char.toNat_inj.mp).mp h
  exact String.toList_inj.mp hchars

/-- Bytes are read as a text exactly if they spell its characters. -/
theorem fromUTF8?_eq_some_iff_spells {text : String} :
    String.fromUTF8? ⟨bytes.toArray⟩ = some text ↔ Spells bytes (codes text) := by
  rw [fromUTF8?_eq_some_iff, toList_toUTF8, spells_iff]
  constructor
  · intro h
    exact ⟨text, rfl, h⟩
  · rintro ⟨text', hcodes, hbytes⟩
    rwa [codes_injective hcodes] at hbytes

/-- Bytes are read as no text exactly if they are not well-formed. -/
theorem fromUTF8?_eq_none_iff : String.fromUTF8? ⟨bytes.toArray⟩ = none ↔ ¬ WellFormed bytes := by
  rw [Option.eq_none_iff_forall_ne_some]
  constructor
  · rintro h ⟨ns, hns⟩
    obtain ⟨text, rfl, -⟩ := spells_iff.mp hns
    exact h text (fromUTF8?_eq_some_iff_spells.mpr hns)
  · intro h text htext
    exact h ⟨_, fromUTF8?_eq_some_iff_spells.mp htext⟩

/-- An overlong form, half of a pair, a number above the last, and a
character that is cut off. -/
example :
    ¬ WellFormed [0xc0, 0x80] ∧ ¬ WellFormed [0xed, 0xa0, 0x80] ∧
      ¬ WellFormed [0xf4, 0x90, 0x80, 0x80] ∧ ¬ WellFormed [0xe2, 0x82] := by
  simp only [← fromUTF8?_eq_none_iff]
  exact ⟨by cbv, by cbv, by cbv, by cbv⟩

end Utf8

end ProtoWire
