import Mathlib.Algebra.BigOperators.Ring.Finset
import ProtoWire.Proofs.Record.Faults
import ProtoWire.Proofs.Varint.Words

/-!
# `ProtoWire.Proofs.Varint.Exact`: the three answers of the decoder

`IsVarint` and `VarintFault` follow the digits one by one, as the
decoder does. Here its answers are told by looking at the bytes from
outside: where the number ends, and what its digits sum up to.

* `isDigits_take_iff`: bytes are the digits of a number if it ends with
  them, and the number is the sum.
* `decode_eq_ok_iff_and_eq_error_iff`: a number is found if it ends
  within the bytes of the width and the sum fits its bits. The end is
  missing if nothing but the lack of bytes is wrong. There is no third
  error, and each answer is given in no other case. In a machine word
  the answer is the same.
-/

set_option autoImplicit false

namespace ProtoWire.Varint

/-- How many bits a number of the width has. -/
def Width.bits : Width → Nat
  | w32 => 32
  | w64 => 64

/-- There are as many numbers of a width as it has bits for. -/
theorem Width.size_eq_two_pow (w : Width) : w.size = 2 ^ w.bits := by
  cases w <;> rfl

/-- The byte at a place, and zero behind the end. -/
def byteAt (bytes : List UInt8) (i : Nat) : Nat :=
  (bytes.getD i 0).toNat

/-- The sum of the digits in the first `n` bytes, each at its place. -/
def digitSum (bytes : List UInt8) (n : Nat) : Nat :=
  ∑ i ∈ Finset.range n, byteAt bytes i % 128 * 128 ^ i

/-- The number at the front ends with the byte before the place `n`, and
not earlier. -/
structure EndsAt (bytes : List UInt8) (n : Nat) : Prop where
  pos : 0 < n
  le_length : n ≤ bytes.length
  high : ∀ i, i + 1 < n → 128 ≤ byteAt bytes i
  low : byteAt bytes (n - 1) < 128

/-! ### Where a number ends -/

variable {b : UInt8} {bytes : List UInt8} {n v : Nat}

@[simp]
theorem byteAt_cons_zero : byteAt (b :: bytes) 0 = b.toNat := rfl

@[simp]
theorem byteAt_cons_succ (i : Nat) : byteAt (b :: bytes) (i + 1) = byteAt bytes i := rfl

/-- A number ends with its first byte if that says so. -/
theorem endsAt_one_iff : EndsAt (b :: bytes) 1 ↔ b.toNat < 128 := by
  refine ⟨EndsAt.low, fun hb => ⟨Nat.one_pos, ?_, ?_, hb⟩⟩
  · exact Nat.succ_le_succ (Nat.zero_le _)
  · intro i hi
    omega

/-- A digit that another follows moves the end by one. -/
theorem endsAt_cons_iff (hn : 0 < n) :
    EndsAt (b :: bytes) (n + 1) ↔ 128 ≤ b.toNat ∧ EndsAt bytes n := by
  obtain ⟨m, rfl⟩ : ∃ m, n = m + 1 := Nat.exists_eq_succ_of_ne_zero hn.ne'
  constructor
  · intro h
    refine ⟨h.high 0 (by omega), hn, Nat.le_of_succ_le_succ h.le_length, ?_, h.low⟩
    intro i hi
    exact h.high (i + 1) (by omega)
  · rintro ⟨hb, h⟩
    refine ⟨Nat.succ_pos _, Nat.succ_le_succ h.le_length, ?_, h.low⟩
    intro i hi
    cases i with
    | zero => exact hb
    | succ i => exact h.high i (by omega)

/-! ### What the digits sum up to -/

/-- The first byte alone comes to its low seven bits. -/
theorem digitSum_one : digitSum (b :: bytes) 1 = b.toNat % 128 := by
  rw [digitSum, Finset.sum_range_one, byteAt_cons_zero, Nat.pow_zero, Nat.mul_one]

/-- The other digits stand one place further up. -/
theorem digitSum_cons : digitSum (b :: bytes) (n + 1) = b.toNat % 128 + 128 * digitSum bytes n := by
  rw [digitSum, Finset.sum_range_succ', digitSum, Finset.mul_sum, Nat.add_comm]
  refine congrArg₂ (· + ·) (Nat.mul_one _) (Finset.sum_congr rfl fun i _ => ?_)
  rw [byteAt_cons_succ, Nat.pow_succ, Nat.mul_comm (128 ^ i), Nat.mul_left_comm]

/-- Bytes are the digits of a number if the number ends with them, and
it is the sum. -/
theorem isDigits_take_iff (hpos : 0 < n) (hlen : n ≤ bytes.length) :
    IsDigits (bytes.take n) v ↔ EndsAt bytes n ∧ digitSum bytes n = v := by
  induction bytes generalizing n v with
  | nil => exact absurd (Nat.lt_of_lt_of_le hpos hlen) (Nat.lt_irrefl 0)
  | cons b bs ih =>
    obtain ⟨m, rfl⟩ : ∃ m, n = m + 1 := Nat.exists_eq_succ_of_ne_zero hpos.ne'
    rw [List.take_succ_cons]
    by_cases hm : m = 0
    · subst hm
      -- The first byte is all there is.
      rw [List.take_zero, isDigits_singleton_iff, endsAt_one_iff, digitSum_one]
      exact and_congr_right fun hb => by rw [Nat.mod_eq_of_lt hb]
    · have hmpos : 0 < m := Nat.pos_of_ne_zero hm
      have hle : m ≤ bs.length := Nat.le_of_succ_le_succ hlen
      -- Another byte follows, so the first is a digit that says so.
      have hne : bs.take m ≠ [] := by
        refine List.ne_nil_of_length_pos ?_
        rwa [List.length_take_of_le hle]
      rw [isDigits_cons_iff hne, endsAt_cons_iff hmpos, digitSum_cons, and_assoc]
      refine and_congr_right fun _ => ?_
      constructor
      · rintro ⟨r, hr, hsum⟩
        obtain ⟨hends, rfl⟩ := (ih hmpos hle).mp hr
        exact ⟨hends, hsum⟩
      · rintro ⟨hends, hsum⟩
        exact ⟨_, (ih hmpos hle).mpr ⟨hends, rfl⟩, hsum⟩

/-! ### The three answers -/

variable {w : Width}

/-- The bytes begin with a number of the width that has `n` bytes. -/
structure Opens (w : Width) (bytes : List UInt8) (v n : Nat) : Prop where
  ends : EndsAt bytes n
  le_maxBytes : n ≤ w.maxBytes
  sum_lt : digitSum bytes n < 2 ^ w.bits
  sum_eq : digitSum bytes n = v

/-- The bytes could go on as a number of the width, but they end. -/
structure Unfinished (w : Width) (bytes : List UInt8) : Prop where
  length_lt : bytes.length < w.maxBytes
  high : ∀ b ∈ bytes, 128 ≤ b.toNat

/-- The bytes that open as a number spell it. -/
theorem Opens.isVarint (h : Opens w bytes v n) : IsVarint w (bytes.take n) v := by
  obtain ⟨hends, hmax, hlt, rfl⟩ := h
  have hlen := hends.le_length
  refine ⟨(isDigits_take_iff hends.pos hlen).mpr ⟨hends, rfl⟩, ?_, ?_⟩
  · rwa [List.length_take_of_le hlen]
  · rwa [w.size_eq_two_pow]

/-- A number is decoded exactly where the bytes open with it. -/
theorem decode_eq_ok_iff_opens : decode w bytes = .ok (v, n) ↔ Opens w bytes v n := by
  constructor
  · intro h
    obtain ⟨hpos, hmax, hlen⟩ := decode_count h
    obtain ⟨-, hvarint⟩ := isVarint_of_decode h
    obtain ⟨hends, rfl⟩ := (isDigits_take_iff hpos hlen).mp hvarint.digits
    exact ⟨hends, hmax, w.size_eq_two_pow ▸ hvarint.lt, rfl⟩
  · intro h
    have hdec := decode_append h.isVarint (bytes.drop n)
    rwa [List.take_append_drop, List.length_take_of_le h.ends.le_length] at hdec

/-- The end is missing exactly where the bytes could go on. -/
theorem decode_eq_unexpectedEnd_iff :
    decode w bytes = .error .unexpectedEnd ↔ Unfinished w bytes := by
  rw [decode, decodeDigits_eq_error_iff]
  constructor
  · intro h
    cases h with
    | ended hlen hhigh => exact ⟨Nat.lt_succ_of_le hlen, hhigh⟩
  · rintro ⟨hlen, hhigh⟩
    exact .ended (Nat.le_of_lt_succ hlen) hhigh

/-- There are no other errors than these two. -/
theorem eq_of_decode_eq_error {e : DecodeError} (h : decode w bytes = .error e) :
    e = .unexpectedEnd ∨ e = .invalidVarint := by
  rw [decode, decodeDigits_eq_error_iff] at h
  cases h with
  | ended => exact .inl rfl
  | tooLarge => exact .inr rfl

/-- The bytes are no varint exactly if they neither open with a number
nor could go on. -/
theorem decode_eq_invalidVarint_iff :
    decode w bytes = .error .invalidVarint ↔
      (¬ ∃ v n, Opens w bytes v n) ∧ ¬ Unfinished w bytes := by
  simp only [← decode_eq_ok_iff_opens, ← decode_eq_unexpectedEnd_iff]
  cases hdec : decode w bytes with
  | ok found => exact iff_of_false (fun h => nomatch h) fun h => h.1 ⟨found.1, found.2, rfl⟩
  | error e => rcases eq_of_decode_eq_error hdec with rfl | rfl <;> simp

/-- Nothing behind a number matters. -/
theorem decode_take_append (h : decode w bytes = .ok (v, n)) (more : List UInt8) :
    decode w (bytes.take n ++ more) = .ok (v, n) := by
  obtain ⟨hlen, hvarint⟩ := isVarint_of_decode h
  rw [decode_append hvarint more, List.length_take_of_le hlen]

/-- The answers of the decoder, told by the bytes. -/
structure DecodesExactly (w : Width) (bytes : List UInt8) : Prop where
  ok_iff : ∀ v n, decode w bytes = .ok (v, n) ↔ Opens w bytes v n
  end_iff : decode w bytes = .error .unexpectedEnd ↔ Unfinished w bytes
  /-- This is the answer in every other case. -/
  invalid_iff : decode w bytes = .error .invalidVarint ↔
    (¬ ∃ v n, Opens w bytes v n) ∧ ¬ Unfinished w bytes
  /-- Bytes behind the number never matter. -/
  append : ∀ v n more, decode w bytes = .ok (v, n) →
    decode w (bytes.take n ++ more) = .ok (v, n)
  /-- In a word of 64 bits nothing is shifted out, and nothing is cut
  off when it is narrowed. -/
  word_eq : decodeWord w bytes = decode w bytes

/-- **Decoding is exact**: it finds the sum of the digits or says why
there is none, and never a number that has wrapped around. -/
theorem decode_eq_ok_iff_and_eq_error_iff (w : Width) (bytes : List UInt8) :
    DecodesExactly w bytes where
  ok_iff _ _ := decode_eq_ok_iff_opens
  end_iff := decode_eq_unexpectedEnd_iff
  invalid_iff := decode_eq_invalidVarint_iff
  append _ _ more h := decode_take_append h more
  word_eq := decodeWord_eq_decode w bytes

/-- A fifth byte of `0x0f` completes 32 bits. One of `0x10` would be the
bit behind them. -/
example :
    decode .w32 [0xff, 0xff, 0xff, 0xff, 0x0f] = .ok (2 ^ 32 - 1, 5) ∧
      decode .w32 [0x80, 0x80, 0x80, 0x80, 0x10] = .error .invalidVarint ∧
      decode .w64 [0x80, 0x80, 0x80, 0x80, 0x10] = .ok (2 ^ 32, 5) :=
  ⟨rfl, rfl, rfl⟩

end ProtoWire.Varint
