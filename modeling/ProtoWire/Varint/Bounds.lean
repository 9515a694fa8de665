import Mathlib.Algebra.Group.Nat.Defs
import ProtoWire.Varint

/-!
# `ProtoWire.Varint.Bounds`: an accepted value fits its width

* `decode_lt`: the digits before the last fill the bits they have, and
  the last is bounded by what is left of the width.
-/

set_option autoImplicit false

namespace ProtoWire.Varint

/-- The digits that were read bound the number: either the last place
was not reached, or its digit was small enough. -/
theorem decodeDigits_lt {last free value count : Nat} {bytes : List UInt8}
    (h : decodeDigits last free bytes = .ok (value, count)) :
    value < (last + 1) * 128 ^ free ∨ value < 128 ^ free := by
  fun_induction decodeDigits last free bytes generalizing value count with
  | case1 => cases h
  | case2 =>
    cases h
    omega
  | case3 => cases h
  | case4 free _ _ hb =>
    -- The number ends among the free digits, so the bound on the last does not come in.
    cases h
    right
    have : 0 < 128 ^ free := Nat.pow_pos (by decide)
    rw [Nat.pow_succ]
    omega
  | case5 free b _ hb v c heq ih =>
    cases h
    have hb256 := b.toNat_lt
    -- A digit in front multiplies the bound of the others by 128.
    rw [Nat.pow_succ, ← Nat.mul_assoc]
    rcases ih heq with h | h
    · left
      omega
    · right
      omega
  | case6 => cases h

/-- An accepted value fits its width. -/
theorem decode_lt {w : Width} {bytes : List UInt8} {value count : Nat}
    (h : decode w bytes = .ok (value, count)) : value < w.size := by
  have hlt := decodeDigits_lt h
  -- 16 * 128 ^ 4 is 2 ^ 32, and 2 * 128 ^ 9 is 2 ^ 64.
  cases w <;>
    simp only [Width.lastDigitMax, Width.freeDigits, Width.size, UInt32.size, UInt64.size]
      at hlt ⊢ <;>
    omega

end ProtoWire.Varint
