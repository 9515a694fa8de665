import Mathlib.Algebra.Group.Nat.Defs
import ProtoWire.LittleEndian

/-!
# `ProtoWire.LittleEndian.Bounds`: which numbers fit

* `toNat_lt`: bytes stand for a number below 256 to the power of how
  many they are.
* `toNat_ofNat`: such a number comes back from its bytes.
-/

set_option autoImplicit false

namespace ProtoWire.LittleEndian

/-- Some bytes cannot stand for more than they have bits for. -/
theorem toNat_lt (bytes : List UInt8) : toNat bytes < 256 ^ bytes.length := by
  induction bytes with
  | nil => simp [toNat]
  | cons b bs ih =>
    have hb := b.toNat_lt
    rw [toNat, List.length_cons, Nat.pow_succ]
    omega

/-- A number that fits comes back from its bytes. -/
theorem toNat_ofNat (width n : Nat) (h : n < 256 ^ width) : toNat (ofNat width n) = n := by
  induction width generalizing n with
  | zero =>
    rw [Nat.pow_zero] at h
    rw [ofNat, toNat]
    omega
  | succ width ih =>
    rw [Nat.pow_succ] at h
    have hdiv : n / 256 < 256 ^ width := Nat.div_lt_of_lt_mul (by omega)
    have hbyte : (UInt8.ofNat (n % 256)).toNat = n % 256 :=
      UInt8.toNat_ofNat_of_lt' (Nat.mod_lt n (by decide))
    rw [ofNat, toNat, ih (n / 256) hdiv, hbyte]
    omega

end ProtoWire.LittleEndian
