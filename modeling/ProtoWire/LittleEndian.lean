/-!
# `ProtoWire.LittleEndian`: numbers of a fixed width

A fixed-width number is written as that many bytes, the lowest first.
`length_ofNat` counts them, and `ofNat_toNat` says that bytes are
written again as they were read.
-/

set_option autoImplicit false

namespace ProtoWire.LittleEndian

/-- The number that bytes stand for, lowest byte first. -/
def toNat : List UInt8 → Nat
  | [] => 0
  | b :: bs => b.toNat + 256 * toNat bs

/-- The lowest `width` bytes of a number, lowest first. -/
def ofNat : (width : Nat) → Nat → List UInt8
  | 0, _ => []
  | width + 1, n => UInt8.ofNat (n % 256) :: ofNat width (n / 256)

/-- A number of a fixed width takes as many bytes as that says. -/
@[simp]
theorem length_ofNat (width n : Nat) : (ofNat width n).length = width := by
  induction width generalizing n with
  | zero => rfl
  | succ width ih => simp [ofNat, ih]

/-- Any bytes come back from their number. -/
theorem ofNat_toNat (bytes : List UInt8) : ofNat bytes.length (toNat bytes) = bytes := by
  induction bytes with
  | nil => rfl
  | cons b bs ih =>
    have hb := b.toNat_lt
    -- The lowest byte is below 256, so it neither carries nor is carried into.
    have hmod : (b.toNat + 256 * toNat bs) % 256 = b.toNat := by omega
    have hdiv : (b.toNat + 256 * toNat bs) / 256 = toNat bs := by omega
    rw [List.length_cons, toNat, ofNat, hmod, hdiv, ih, UInt8.ofNat_toNat]

end ProtoWire.LittleEndian
