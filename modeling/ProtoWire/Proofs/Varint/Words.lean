import Mathlib.Algebra.Order.Floor.Div
import Mathlib.Data.Nat.Size
import Mathlib.GroupTheory.GroupAction.Ring
import ProtoWire.Proofs.Varint.Cuts
import ProtoWire.Proofs.Varint.Digits

/-!
# `ProtoWire.Proofs.Varint.Words`: varints in machine words

`Varint.decode` and `Varint.encode` count in numbers of any size, where
nothing can be shifted out. Here the same is done in a word of 64 bits,
with shifts and masks, and the size is looked up in a table by how many
zero bits the word starts with. Narrower numbers go through the same
word.

* `orDigits_eq`: digits that are or-ed into a word have their bits to
  themselves, and the bound on the last digit keeps it from losing any.
* `decodeWord_eq_decode`: reading by way of a word is `Varint.decode`.
* `encodeWord_eq`: shifting a word out is `Varint.encode`, behind
  whatever is there already.
* `size_eq_ceilDiv`, `sizeOfWord_eq`: a byte holds seven bits and there
  is always one byte. All entries of the table agree with this.
* `writesFewest`: what is written for a word is its shortest spelling,
  and no other is as short.
-/

set_option autoImplicit false

namespace ProtoWire.Varint

/-! ### Reading into a word -/

/-- Reads digits into a word that holds `i` of them already. Each is
or-ed in at its place; of `most` digits the last is at most `last`. -/
def orDigits (most : Nat) (last : UInt8) :
    (i : Nat) → (word : UInt64) → List UInt8 → Except DecodeError (UInt64 × Nat)
  | _, _, [] => .error .unexpectedEnd
  | i, word, b :: bs =>
    if i + 1 = most then
      if last < b then .error .invalidVarint
      else .ok (word ||| b.toUInt64 <<< UInt64.ofNat (7 * i), most)
    else
      let word := word ||| (b &&& 0x7f).toUInt64 <<< UInt64.ofNat (7 * i)
      if b < 0x80 then .ok (word, i + 1) else orDigits most last (i + 1) word bs

/-- The number in the low bits of a word, as many as the width has. -/
def Width.ofWord : Width → UInt64 → Nat
  | w32, word => word.toUInt32.toNat
  | w64, word => word.toNat

/-- Reads the varint at the front of `bytes` by way of a word. -/
def decodeWord (w : Width) (bytes : List UInt8) : Except DecodeError (Nat × Nat) :=
  (orDigits w.maxBytes (UInt8.ofNat w.lastDigitMax) 0 0 (bytes.take w.maxBytes)).map
    fun found => (w.ofWord found.1, found.2)

/-- Seven bits are a place in base 128. -/
theorem two_pow_seven_mul (i : Nat) : 2 ^ (7 * i) = 128 ^ i :=
  Nat.pow_mul 2 7 i

/-- A digit that is or-ed in above all bits of the word is added to it,
and no bit of it is lost. -/
theorem toNat_or_shiftLeft {word digit : UInt64} {i : Nat} (hi : i < 10)
    (hword : word.toNat < 128 ^ i) (hdigit : digit.toNat * 128 ^ i < 2 ^ 64) :
    (word ||| digit <<< UInt64.ofNat (7 * i)).toNat = word.toNat + 128 ^ i * digit.toNat := by
  have hshift : (UInt64.ofNat (7 * i)).toNat % 64 = 7 * i := by
    rw [UInt64.toNat_ofNat_of_lt' (show 7 * i < 2 ^ 64 by omega), Nat.mod_eq_of_lt (by omega)]
  rw [UInt64.toNat_or, UInt64.toNat_shiftLeft, hshift, Nat.shiftLeft_eq, two_pow_seven_mul,
    Nat.mod_eq_of_lt hdigit, Nat.mul_comm]
  rw [← two_pow_seven_mul] at hword ⊢
  rw [Nat.or_comm, ← Nat.two_pow_add_eq_or_of_lt hword, Nat.add_comm]

/-- The low seven bits of a byte. -/
theorem toNat_and_low (b : UInt8) : (b &&& 0x7f).toUInt64.toNat = b.toNat % 128 := by
  rw [UInt8.toNat_toUInt64, UInt8.toNat_and]
  exact Nat.and_two_pow_sub_one_eq_mod b.toNat 7

/-- There is room in the word for any digit of the first nine. -/
theorem toNat_or_low {word : UInt64} {i : Nat} (hi : i < 9) (hword : word.toNat < 128 ^ i)
    (b : UInt8) :
    (word ||| (b &&& 0x7f).toUInt64 <<< UInt64.ofNat (7 * i)).toNat
      = word.toNat + 128 ^ i * (b.toNat % 128) := by
  have hpow : 128 ^ (i + 1) ≤ 128 ^ 9 := Nat.pow_le_pow_right (by decide) hi
  have hdigit : b.toNat % 128 * 128 ^ i ≤ 128 * 128 ^ i :=
    Nat.mul_le_mul_right _ (Nat.le_of_lt (Nat.mod_lt _ (by decide)))
  have hfit : (b &&& 0x7f).toUInt64.toNat * 128 ^ i < 2 ^ 64 := by
    rw [toNat_and_low]
    rw [Nat.pow_succ] at hpow
    omega
  rw [toNat_or_shiftLeft (by omega) hword hfit, toNat_and_low]

/-- The tenth digit has to leave out what a word has no bits for. -/
theorem toNat_or_last {word : UInt64} {i last : Nat} (hi : i < 10) (hword : word.toNat < 128 ^ i)
    (hfit : (last + 1) * 128 ^ i ≤ 2 ^ 64) {b : UInt8} (hb : b.toNat ≤ last) :
    (word ||| b.toUInt64 <<< UInt64.ofNat (7 * i)).toNat = word.toNat + 128 ^ i * b.toNat := by
  have hdigit : b.toNat * 128 ^ i < (last + 1) * 128 ^ i :=
    Nat.mul_lt_mul_of_pos_right (Nat.lt_succ_of_le hb) (Nat.pow_pos (by decide))
  have hlt : b.toUInt64.toNat * 128 ^ i < 2 ^ 64 := by
    rw [UInt8.toNat_toUInt64]
    omega
  rw [toNat_or_shiftLeft hi hword hlt, UInt8.toNat_toUInt64]

/-- One more digit fills the next place and no other. -/
theorem add_digit_lt {n i : Nat} (hn : n < 128 ^ i) (d : Nat) :
    n + 128 ^ i * (d % 128) < 128 ^ (i + 1) := by
  have hd : d % 128 < 128 := Nat.mod_lt d (by decide)
  have hle : 128 ^ i * (d % 128) ≤ 128 ^ i * 127 := Nat.mul_le_mul_left _ (by omega)
  rw [Nat.pow_succ]
  omega

/-- What is behind a digit stands one place further up. -/
theorem add_digit_add (n i d rest : Nat) :
    n + 128 ^ i * d + 128 ^ (i + 1) * rest = n + 128 ^ i * (d + 128 * rest) := by
  rw [Nat.pow_succ, Nat.mul_add, Nat.mul_assoc, Nat.add_assoc]

/-- Or-ing digits into a word is reading them as a number and adding it
at its place. The bound on the last digit is what keeps it in the word. -/
theorem orDigits_eq {last : UInt8} {i free : Nat} {word : UInt64} (hten : i + free < 10)
    (hfit : (last.toNat + 1) * 128 ^ (i + free) ≤ 2 ^ 64) (hword : word.toNat < 128 ^ i)
    (bytes : List UInt8) :
    (orDigits (i + free + 1) last i word bytes).map (fun found => (found.1.toNat, found.2))
      = (decodeDigits last.toNat free bytes).map
          fun found => (word.toNat + 128 ^ i * found.1, i + found.2) := by
  induction bytes generalizing i free word with
  | nil => cases free <;> rfl
  | cons b bs ih =>
    cases free with
    | zero =>
      -- This is the last digit that the width allows, and its bound is looked at.
      rw [Nat.add_zero] at hten hfit ⊢
      simp only [orDigits, decodeDigits, if_true]
      by_cases hb : b.toNat ≤ last.toNat
      · have hle : ¬ last < b := by rwa [UInt8.not_lt, UInt8.le_iff_toNat_le]
        rw [if_neg hle, if_pos hb, Except.map, Except.map, toNat_or_last hten hword hfit hb]
      · have hlt : last < b := by rwa [UInt8.lt_iff_toNat_lt, ← Nat.not_le]
        rw [if_pos hlt, if_neg hb]
        rfl
    | succ free =>
      -- A digit below the last always fits; if another follows, the loop goes on from it.
      have hor := toNat_or_low (by omega) hword b
      have hsum : i + (free + 1) = i + 1 + free := by omega
      have hne : i + 1 ≠ i + 1 + free + 1 := by omega
      rw [hsum] at hten hfit ⊢
      rw [orDigits, if_neg hne, decodeDigits]
      by_cases hb : b.toNat < 128
      · have hlow : b < 0x80 := UInt8.lt_iff_toNat_lt.mpr hb
        simp only [hlow, hb, if_true]
        rw [Except.map, Except.map, hor, Nat.mod_eq_of_lt hb]
      · have hhigh : ¬ b < 0x80 := mt UInt8.lt_iff_toNat_lt.mp hb
        have hb256 := b.toNat_lt
        have hdigit : b.toNat - 128 = b.toNat % 128 := by omega
        simp only [hhigh, hb, if_false]
        rw [ih hten hfit (hor ▸ add_digit_lt hword b.toNat), hor, hdigit]
        cases decodeDigits last.toNat free bs with
        | error e => rfl
        | ok found =>
          have hcount : i + 1 + found.2 = i + (found.2 + 1) := by omega
          exact congrArg Except.ok (Prod.ext (add_digit_add _ _ _ _) hcount)

/-- The digits that are left out are those that are not looked at. -/
theorem decodeDigits_take (last free : Nat) (bytes : List UInt8) :
    decodeDigits last free (bytes.take (free + 1)) = decodeDigits last free bytes := by
  by_cases hlen : free < bytes.length
  · have htake : free < (bytes.take (free + 1)).length := by
      rw [List.length_take]
      omega
    rw [← decodeDigits_append (bytes.drop (free + 1)) htake, List.take_append_drop]
  · rw [List.take_of_length_le (by omega)]

/-- The low bits of a word are all of it, if the number fits. -/
theorem Width.ofWord_of_lt {w : Width} {word : UInt64} (h : word.toNat < w.size) :
    w.ofWord word = word.toNat := by
  cases w with
  | w32 => rw [ofWord, UInt64.toNat_toUInt32, Nat.mod_eq_of_lt (show word.toNat < 2 ^ 32 from h)]
  | w64 => rfl

/-- From nothing on, the word and the count are those of the number. -/
theorem orDigits_zero (w : Width) (bytes : List UInt8) :
    (orDigits w.maxBytes (UInt8.ofNat w.lastDigitMax) 0 0 (bytes.take w.maxBytes)).map
        (fun found => (found.1.toNat, found.2))
      = decode w bytes := by
  have hlast : (UInt8.ofNat w.lastDigitMax).toNat = w.lastDigitMax := by cases w <;> rfl
  have hten : 0 + w.freeDigits < 10 := by cases w <;> decide
  have hfit : ((UInt8.ofNat w.lastDigitMax).toNat + 1) * 128 ^ (0 + w.freeDigits) ≤ 2 ^ 64 := by
    rw [hlast, Nat.zero_add, ← w.size_eq]
    cases w <;> decide
  have hzero : (0 : UInt64).toNat < 128 ^ 0 := by decide
  have hrun := orDigits_eq hten hfit hzero (bytes.take w.maxBytes)
  rw [hlast, Width.maxBytes, decodeDigits_take, Nat.zero_add] at hrun
  rw [Width.maxBytes, hrun, decode]
  cases decodeDigits w.lastDigitMax w.freeDigits bytes with
  | error e => rfl
  | ok found =>
    simp only [Except.map, UInt64.toNat_zero, Nat.pow_zero, Nat.one_mul, Nat.zero_add]

/-- A varint is read by way of a word as it is in numbers of any size.
Nothing is lost in the word, nor of it. -/
theorem decodeWord_eq_decode (w : Width) (bytes : List UInt8) :
    decodeWord w bytes = decode w bytes := by
  have hnat := orDigits_zero w bytes
  rw [decodeWord]
  cases hor : orDigits w.maxBytes (UInt8.ofNat w.lastDigitMax) 0 0 (bytes.take w.maxBytes) with
  | error e =>
    rw [hor] at hnat
    exact hnat
  | ok found =>
    rw [hor] at hnat
    -- The number fits its width, so the low bits of the word are all of it.
    rw [← hnat, Except.map, Except.map, Width.ofWord_of_lt (decode_lt hnat.symm)]

/-! ### Writing a word -/

/-- Shifting by seven bits drops the lowest digit. -/
theorem toNat_shiftRight_seven (word : UInt64) : (word >>> 7).toNat = word.toNat / 128 := by
  rw [UInt64.toNat_shiftRight]
  exact Nat.shiftRight_eq_div_pow word.toNat 7

/-- Writes the digits of a word behind `out`, lowest first, and counts
them on. -/
def putDigits (out : List UInt8) (word : UInt64) (count : Nat) : List UInt8 × Nat :=
  if 0x80 ≤ word then
    putDigits (out ++ [(word &&& 0x7f).toUInt8 ||| 0x80]) (word >>> 7) (count + 1)
  else (out ++ [word.toUInt8], count)
termination_by word.toNat
decreasing_by
  rename_i h
  have hn : 128 ≤ word.toNat := UInt64.le_iff_toNat_le.mp h
  rw [toNat_shiftRight_seven]
  omega

/-- Writes a word behind `out`, and answers how many bytes it took. -/
def encodeWord (out : List UInt8) (word : UInt64) : List UInt8 × Nat :=
  putDigits out word 1

/-- The byte for a digit that another follows. -/
theorem low_or_high_bit (word : UInt64) :
    (word &&& 0x7f).toUInt8 ||| 0x80 = UInt8.ofNat (word.toNat % 128 + 128) := by
  have hlow : (word &&& 0x7f).toUInt8.toNat = word.toNat % 128 := by
    rw [UInt64.toNat_toUInt8, UInt64.toNat_and]
    exact (congrArg (· % 2 ^ 8) (Nat.and_two_pow_sub_one_eq_mod word.toNat 7)).trans
      (Nat.mod_eq_of_lt (by omega))
  have hbit : word.toNat % 128 ||| 2 ^ 7 = word.toNat % 128 + 2 ^ 7 :=
    Nat.or_two_pow_eq_add_of_lt (Nat.mod_lt _ (by decide))
  rw [← UInt8.toNat_inj, UInt8.toNat_or, hlow,
    UInt8.toNat_ofNat_of_lt' (show word.toNat % 128 + 128 < 256 by omega)]
  exact hbit

/-- What has been written stays in front, and what remains to be written
is the rest of the number. -/
theorem putDigits_eq (out : List UInt8) (word : UInt64) (count : Nat) :
    putDigits out word count = (out ++ encode word.toNat, count + size word.toNat - 1) := by
  fun_induction putDigits out word count with
  | case1 out word count h ih =>
    have hge : 128 ≤ word.toNat := UInt64.le_iff_toNat_le.mp h
    -- One digit is written, so the rest of the number has one byte less.
    have hcount : count + 1 + size (word.toNat / 128) - 1 = count + size word.toNat - 1 := by
      rw [size_div hge]
      omega
    rw [ih, toNat_shiftRight_seven, low_or_high_bit, hcount, encode_of_ge hge, List.append_assoc,
      List.singleton_append]
  | case2 out word count h =>
    have hlt : word.toNat < 128 := UInt64.lt_iff_toNat_lt.mp (UInt64.not_le.mp h)
    have hbyte : word.toUInt8 = UInt8.ofNat word.toNat := rfl
    rw [hbyte, encode_of_lt hlt, size_of_lt hlt, Nat.add_sub_cancel]

/-- A word is written as its number is. -/
theorem encodeWord_eq (out : List UInt8) (word : UInt64) :
    encodeWord out word = (out ++ encode word.toNat, size word.toNat) := by
  rw [encodeWord, putDigits_eq, Nat.add_sub_cancel_left]

/-! ### The size of a word -/

/-- How many bytes a word has as a varint, by how many zero bits it
starts with. -/
def sizeTable : List Nat :=
  [10,
   9, 9, 9, 9, 9, 9, 9,
   8, 8, 8, 8, 8, 8, 8,
   7, 7, 7, 7, 7, 7, 7,
   6, 6, 6, 6, 6, 6, 6,
   5, 5, 5, 5, 5, 5, 5,
   4, 4, 4, 4, 4, 4, 4,
   3, 3, 3, 3, 3, 3, 3,
   2, 2, 2, 2, 2, 2, 2,
   1, 1, 1, 1, 1, 1, 1, 1]

/-- Looks the size of a word up. There has to be an entry for it. -/
def sizeOfWord (word : UInt64) : Option Nat :=
  sizeTable[word.toBitVec.clz.toNat]?

/-- A number has a byte for each seven of its bits, and for what is left
of them, but at least one. -/
theorem size_eq_ceilDiv (n : Nat) : size n = max 1 (n.size ⌈/⌉ 7) := by
  rw [Nat.ceilDiv_eq_add_pred_div]
  by_cases hn : n = 0
  · subst hn
    decide
  · have hbits : n.size = n.log2 + 1 := by
      refine Nat.le_antisymm (Nat.size_le.mpr Nat.lt_log2_self) ?_
      exact Nat.lt_size.mpr (Nat.log2_self_le hn)
    rw [hbits, size]
    omega

/-- The zero bits in front and the others are all 64. -/
theorem size_toNat_eq_sub_clz (word : UInt64) :
    word.toNat.size = 64 - word.toBitVec.clz.toNat := by
  refine Nat.le_antisymm (Nat.size_le.mpr BitVec.toNat_lt_two_pow_sub_clz) ?_
  by_cases hzero : word.toBitVec = 0#64
  · rw [BitVec.clz_eq_iff_eq_zero.mpr hzero]
    exact Nat.zero_le _
  · have hhigh := BitVec.two_pow_sub_clz_le_toNat_of_ne_zero (by decide) hzero
    have hbits : 64 - 1 - word.toBitVec.clz.toNat < word.toNat.size := Nat.lt_size.mpr hhigh
    omega

/-- Every entry of the table is right. -/
theorem sizeTable_eq :
    sizeTable = (List.range 65).map fun zeros => max 1 ((64 - zeros) ⌈/⌉ 7) := by
  decide

/-- The table has an entry for every word, and it is the size of the
number. -/
theorem sizeOfWord_eq (word : UInt64) : sizeOfWord word = some (size word.toNat) := by
  have hle : word.toBitVec.clz.toNat ≤ 64 := BitVec.clz_le
  rw [sizeOfWord, sizeTable_eq, List.getElem?_map, List.getElem?_range (Nat.lt_succ_of_le hle),
    Option.map_some, size_eq_ceilDiv, size_toNat_eq_sub_clz]

/-! ### The fewest bytes -/

section

variable {w : Width} {bytes : List UInt8} {n count : Nat}

/-- A number is not found in fewer bytes than it is written with. -/
theorem size_le_of_decode (h : decode w bytes = .ok (n, count)) : size n ≤ count := by
  obtain ⟨hlen, hvarint⟩ := isVarint_of_decode h
  have hle := hvarint.digits.length_encode_le
  rwa [length_encode, List.length_take_of_le hlen] at hle

/-- It is found in as few only where these bytes are the written ones. -/
theorem eq_size_iff_of_decode (h : decode w bytes = .ok (n, count)) :
    count = size n ↔ bytes.take count = encode n := by
  obtain ⟨hlen, hvarint⟩ := isVarint_of_decode h
  constructor
  · intro hcount
    refine hvarint.digits.eq_encode_of_length_le ?_
    rw [length_encode, List.length_take_of_le hlen, hcount]
  · intro htake
    rw [← length_encode, ← htake, List.length_take_of_le hlen]

end

/-- What is written for a word of the width, and what is accepted for
it. -/
structure WritesFewest (w : Width) (word : UInt64) : Prop where
  /-- The bytes go behind others, and they are counted. -/
  encodeWord_eq : ∀ out, encodeWord out word = (out ++ encode word.toNat, size word.toNat)
  length_eq : (encode word.toNat).length = size word.toNat
  sizeOfWord_eq : sizeOfWord word = some (size word.toNat)
  size_eq : size word.toNat = max 1 (word.toNat.size ⌈/⌉ 7)
  decode_append : ∀ rest,
    decode w (encode word.toNat ++ rest) = .ok (word.toNat, size word.toNat)
  size_le : ∀ bytes count, decode w bytes = .ok (word.toNat, count) → size word.toNat ≤ count
  eq_size_iff : ∀ bytes count, decode w bytes = .ok (word.toNat, count) →
    (count = size word.toNat ↔ bytes.take count = encode word.toNat)
  /-- What is read is the same in a word. -/
  decodeWord_eq : ∀ bytes, decodeWord w bytes = decode w bytes

/-- A word that holds a number of the width is written in the one
shortest way. -/
theorem writesFewest_of_lt {w : Width} {word : UInt64} (h : word.toNat < w.size) :
    WritesFewest w word where
  encodeWord_eq out := encodeWord_eq out word
  length_eq := length_encode word.toNat
  sizeOfWord_eq := sizeOfWord_eq word
  size_eq := size_eq_ceilDiv word.toNat
  decode_append rest := by rw [decode_append (isVarint_encode h) rest, length_encode]
  size_le _ _ := size_le_of_decode
  eq_size_iff _ _ := eq_size_iff_of_decode
  decodeWord_eq := decodeWord_eq_decode w

/-- **Every word is written in the one shortest way**, with as many
bytes as are counted, looked up and given by its bits. It is read back
from these bytes, and from no others that are as few. -/
theorem writesFewest :
    (∀ word : UInt64, WritesFewest .w64 word) ∧
      ∀ word : UInt32, WritesFewest .w32 word.toUInt64 := by
  constructor
  · intro word
    exact writesFewest_of_lt word.toNat_lt
  · intro word
    refine writesFewest_of_lt ?_
    rw [UInt32.toNat_toUInt64]
    exact word.toNat_lt

end ProtoWire.Varint
