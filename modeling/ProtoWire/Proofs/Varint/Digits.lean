import Mathlib.Algebra.Group.Nat.Defs
import Mathlib.Data.Nat.Log
import ProtoWire.Varint.Bounds

/-!
# `ProtoWire.Proofs.Varint.Digits`: what a varint is

A varint said without a decoder. `IsDigits bytes n`: every byte but the
last has its high bit set, and the low seven bits of the bytes are the
digits of `n` in base 128, lowest first. Trailing zero digits are
allowed, so a number has many spellings. `IsVarint w bytes n` bounds
both the spelling and the number by the width: five bytes and 32 bits,
or ten bytes and 64.

* `decode_append`: a varint is decoded as its number, and nothing
  behind it matters.
* `isVarint_of_decode`: nothing else is decoded. The decoder bounds
  the *last* digit where the grammar bounds the *number*; that the two
  come to the same is `decodeDigits_append_of_isDigits` one way and
  `decodeDigits_lt` the other.
* `length_encode`: the size that is computed from the highest bit is
  the number of bytes that are written.
* `isVarint_encode`: what is written is a varint, so a number that
  fits is read back.
* `IsDigits.eq_encode_of_length_le`: no digits are as few as those that
  are written, except these themselves.
-/

set_option autoImplicit false

namespace ProtoWire.Varint

/-- Bytes that spell a number in base 128, lowest digit first. All but
the last have the high bit set. -/
inductive IsDigits : List UInt8 → Nat → Prop where
  | last {b : UInt8} : b.toNat < 128 → IsDigits [b] b.toNat
  | more {b : UInt8} {bs : List UInt8} {n : Nat} : 128 ≤ b.toNat → IsDigits bs n →
      IsDigits (b :: bs) (b.toNat % 128 + 128 * n)

/-- Bytes that are a varint of the width. -/
structure IsVarint (w : Width) (bytes : List UInt8) (n : Nat) : Prop where
  digits : IsDigits bytes n
  length_le : bytes.length ≤ w.maxBytes
  lt : n < w.size

/-- A number has a digit. -/
theorem IsDigits.length_pos {bytes : List UInt8} {n : Nat} (h : IsDigits bytes n) :
    0 < bytes.length := by
  cases h <;> simp

/-- One byte is the digits of what it says, if no other is to follow. -/
theorem isDigits_singleton_iff {b : UInt8} {n : Nat} :
    IsDigits [b] n ↔ b.toNat < 128 ∧ b.toNat = n := by
  constructor
  · intro h
    cases h with
    | last hb => exact ⟨hb, rfl⟩
    | more _ hrest => cases hrest
  · rintro ⟨hb, rfl⟩
    exact .last hb

/-- A byte in front of others is the lowest digit, if it says that
others follow. -/
theorem isDigits_cons_iff {b : UInt8} {bs : List UInt8} {n : Nat} (hne : bs ≠ []) :
    IsDigits (b :: bs) n ↔
      128 ≤ b.toNat ∧ ∃ rest, IsDigits bs rest ∧ b.toNat % 128 + 128 * rest = n := by
  constructor
  · intro h
    cases h with
    | last => exact absurd rfl hne
    | more hb hrest => exact ⟨hb, _, hrest, rfl⟩
  · rintro ⟨hb, rest, hrest, rfl⟩
    exact .more hb hrest

/-! ### Decoding -/

/-- Digits within the bounds are decoded as their number. Each digit
takes one of the free ones and divides the bound by 128, so the bound
on the number arrives at the last digit as the bound on it. -/
theorem decodeDigits_append_of_isDigits {last free n : Nat} {digits : List UInt8}
    (rest : List UInt8) (h : IsDigits digits n) (hlen : digits.length ≤ free + 1)
    (hlt : n < (last + 1) * 128 ^ free) :
    decodeDigits last free (digits ++ rest) = .ok (n, digits.length) := by
  induction h generalizing free with
  | last hb =>
    cases free with
    | zero =>
      rw [Nat.pow_zero, Nat.mul_one] at hlt
      simp [decodeDigits, Nat.le_of_lt_succ hlt]
    | succ free => simp [decodeDigits, hb]
  | @more b bs n hb hbs ih =>
    have hpos := hbs.length_pos
    rw [List.length_cons] at hlen
    cases free with
    -- A second digit needs a free one in front of it.
    | zero => omega
    | succ free =>
      have hb256 := b.toNat_lt
      -- One digit less to read, and a bound that is smaller by a factor of 128.
      have hn : n < (last + 1) * 128 ^ free := by
        rw [Nat.pow_succ, ← Nat.mul_assoc] at hlt
        omega
      have hrest := ih (by omega) hn
      have hhigh : ¬ b.toNat < 128 := Nat.not_lt.mpr hb
      have hdigit : b.toNat - 128 = b.toNat % 128 := by omega
      simp [decodeDigits, hhigh, hrest, hdigit]

/-- What is decoded are digits, as many as are counted. -/
theorem isDigits_of_decodeDigits {last free n count : Nat} {bytes : List UInt8}
    (hlast : last < 128) (h : decodeDigits last free bytes = .ok (n, count)) :
    IsDigits (bytes.take count) n := by
  fun_induction decodeDigits last free bytes generalizing n count with
  | case1 => cases h
  | case2 b bs hb =>
    -- No digit is free, so this one is the last, and `last` keeps it below 128.
    cases h
    exact .last (by omega)
  | case3 => cases h
  | case4 free b bs hb =>
    cases h
    exact .last hb
  | case5 free b bs hb v c heq ih =>
    cases h
    have hb256 := b.toNat_lt
    have hdigit : b.toNat - 128 = b.toNat % 128 := by omega
    rw [List.take_succ_cons, hdigit]
    exact .more (by omega) (ih heq)
  | case6 => cases h

/-- A last digit that is small enough says that none follows. -/
theorem Width.lastDigitMax_lt (w : Width) : w.lastDigitMax < 128 := by
  cases w <;> decide

/-- The bits that are left for the last digit are those that the free
digits leave of the width. -/
theorem Width.size_eq (w : Width) : w.size = (w.lastDigitMax + 1) * 128 ^ w.freeDigits := by
  cases w <;> rfl

/-- A varint is decoded as its number, whatever follows it. -/
theorem decode_append {w : Width} {digits : List UInt8} {n : Nat} (h : IsVarint w digits n)
    (rest : List UInt8) : decode w (digits ++ rest) = .ok (n, digits.length) :=
  decodeDigits_append_of_isDigits rest h.digits h.length_le (w.size_eq ▸ h.lt)

/-- What is decoded is a varint at the front of the bytes. -/
theorem isVarint_of_decode {w : Width} {bytes : List UInt8} {n count : Nat}
    (h : decode w bytes = .ok (n, count)) :
    count ≤ bytes.length ∧ IsVarint w (bytes.take count) n := by
  obtain ⟨-, hmax, hlen⟩ := decode_count h
  refine ⟨hlen, ⟨isDigits_of_decodeDigits w.lastDigitMax_lt h, ?_, decode_lt h⟩⟩
  rw [List.length_take_of_le hlen]
  exact hmax

/-! ### Writing -/

/-- Seven bits to a byte: dividing by 128 takes a byte away. -/
theorem size_div {n : Nat} (h : 128 ≤ n) : size n = size (n / 128) + 1 := by
  have hne : n / 128 ≠ 0 := by omega
  obtain ⟨hlow, hhigh⟩ := (Nat.log2_eq_iff hne).mp rfl
  -- Dividing by 2 ^ 7 moves the highest bit down by seven.
  have hlog : n.log2 = (n / 128).log2 + 7 := by
    rw [Nat.log2_eq_iff (by omega), Nat.add_right_comm, Nat.pow_add, Nat.pow_add]
    omega
  rw [size, size, hlog]
  omega

/-- A number of seven bits has one digit. -/
theorem size_of_lt {n : Nat} (h : n < 128) : size n = 1 := by
  have hlog : n.log2 < 7 := by
    by_cases hn : n = 0
    · subst hn
      decide
    · exact (Nat.log2_lt hn).mpr h
  rw [size]
  omega

/-- The computed size is the number of bytes that are written. -/
theorem length_encode (n : Nat) : (encode n).length = size n := by
  fun_induction encode n with
  | case1 n h => rw [size_of_lt h, List.length_singleton]
  | case2 n h ih => rw [List.length_cons, ih, size_div (Nat.not_lt.mp h)]

/-- What is written for a number are its digits. -/
theorem isDigits_encode (n : Nat) : IsDigits (encode n) n := by
  fun_induction encode n with
  | case1 n h =>
    have hbyte : (UInt8.ofNat n).toNat = n :=
      UInt8.toNat_ofNat_of_lt' (show n < 256 by omega)
    have hlast := IsDigits.last (b := UInt8.ofNat n) (by omega)
    rwa [hbyte] at hlast
  | case2 n h ih =>
    have hbyte : (UInt8.ofNat (n % 128 + 128)).toNat = n % 128 + 128 :=
      UInt8.toNat_ofNat_of_lt' (show n % 128 + 128 < 256 by omega)
    have hmore := IsDigits.more (b := UInt8.ofNat (n % 128 + 128)) (by omega) ih
    -- The high bit says that more follows, and is no part of the digit.
    have hsum : (n % 128 + 128) % 128 + 128 * (n / 128) = n := by omega
    rwa [hbyte, hsum] at hmore

/-- A number that fits the width is written within its bytes. -/
theorem size_le_maxBytes {w : Width} {n : Nat} (h : n < w.size) : size n ≤ w.maxBytes := by
  by_cases hn : n = 0
  · -- Zero has no highest bit, but takes a byte.
    subst hn
    cases w <;> decide
  · cases w with
    | w32 =>
      have hlog : n.log2 < 32 := (Nat.log2_lt hn).mpr h
      show n.log2 / 7 + 1 ≤ 5
      omega
    | w64 =>
      have hlog : n.log2 < 64 := (Nat.log2_lt hn).mpr h
      show n.log2 / 7 + 1 ≤ 10
      omega

/-- What is written is a varint. -/
theorem isVarint_encode {w : Width} {n : Nat} (h : n < w.size) : IsVarint w (encode n) n :=
  ⟨isDigits_encode n, length_encode n ▸ size_le_maxBytes h, h⟩

/-! ### The fewest digits -/

/-- A digit in front of a number that is not zero is written in front of
it. -/
theorem encode_more {b : UInt8} {n : Nat} (hb : 128 ≤ b.toNat) (hn : n ≠ 0) :
    encode (b.toNat % 128 + 128 * n) = b :: encode n := by
  have hb256 := b.toNat_lt
  have hdigit : (b.toNat % 128 + 128 * n) % 128 + 128 = b.toNat := by omega
  have hrest : (b.toNat % 128 + 128 * n) / 128 = n := by omega
  rw [encode_of_ge (by omega), hdigit, hrest, UInt8.ofNat_toNat]

/-- In front of a zero, a digit is the whole number, and the zero is not
written. -/
theorem length_encode_more_zero (b : UInt8) :
    (encode (b.toNat % 128 + 128 * 0)).length = 1 := by
  rw [encode_of_lt (by omega), List.length_singleton]

/-- No spelling of a number is shorter than what is written for it. -/
theorem IsDigits.length_encode_le {bytes : List UInt8} {n : Nat} (h : IsDigits bytes n) :
    (encode n).length ≤ bytes.length := by
  induction h with
  | last hb => rw [encode_of_lt hb, List.length_singleton, List.length_singleton]
  | @more b bs n hb _ ih =>
    rw [List.length_cons]
    by_cases hn : n = 0
    · rw [hn, length_encode_more_zero]
      exact Nat.le_add_left _ _
    · rw [encode_more hb hn, List.length_cons]
      exact Nat.succ_le_succ ih

/-- Digits that are as few as possible are those that are written. A
zero behind other digits would be one too many. -/
theorem IsDigits.eq_encode_of_length_le {bytes : List UInt8} {n : Nat} (h : IsDigits bytes n)
    (hlen : bytes.length ≤ (encode n).length) : bytes = encode n := by
  induction h with
  | last hb => rw [encode_of_lt hb, UInt8.ofNat_toNat]
  | @more b bs n hb hbs ih =>
    rw [List.length_cons] at hlen
    by_cases hn : n = 0
    · have hpos := hbs.length_pos
      rw [hn, length_encode_more_zero] at hlen
      omega
    · rw [encode_more hb hn] at hlen ⊢
      rw [← ih (Nat.le_of_succ_le_succ hlen)]

/-- Smaller numbers are not longer. -/
theorem size_le_size {m n : Nat} (h : m ≤ n) : size m ≤ size n := by
  unfold size
  rw [Nat.log2_eq_log_two, Nat.log2_eq_log_two]
  exact Nat.succ_le_succ (Nat.div_le_div_right (Nat.log_mono_right h))

end ProtoWire.Varint
