/-!
# `ProtoWire.Input`: bytes that arrive in pieces

An input is a list of pieces, read from front to back. What it says is
the concatenation of the pieces, `Input.bytes`; how it is cut matters
only to a reader that looks at the `chunk` in front of it. The
statements give every operation on the concatenation:

* `remaining_eq_length`: the bytes left are counted over all pieces.
* `bytes_advance`, `bytes_window`: moving forward drops bytes from the
  concatenation, a window keeps its first ones.
* `advance_advance`: moving forward in two goes leaves the same, cuts
  included, as in one.
* `chunk_isPrefix`, `chunk_eq_nil_iff`: the chunk is the beginning of the
  concatenation, and is empty only where nothing is left.
-/

set_option autoImplicit false

namespace ProtoWire

/-- Bytes to be read, cut into pieces in any way. -/
structure Input where
  pieces : List (List UInt8)
  deriving DecidableEq, Repr

namespace Input

/-- The input that is one piece. -/
def ofBytes (bytes : List UInt8) : Input :=
  ⟨[bytes]⟩

/-- All bytes that are left, without the cuts. -/
def bytes (input : Input) : List UInt8 :=
  input.pieces.flatten

/-- How many bytes pieces have together. -/
def countBytes : List (List UInt8) → Nat
  | [] => 0
  | piece :: pieces => piece.length + countBytes pieces

/-- How many bytes are left. -/
def remaining (input : Input) : Nat :=
  countBytes input.pieces

/-- Whether every byte has been read. -/
def isEmpty (input : Input) : Bool :=
  input.remaining == 0

/-- The first piece that has a byte; empty pieces are never seen. -/
def firstPiece : List (List UInt8) → List UInt8
  | [] => []
  | [] :: pieces => firstPiece pieces
  | piece :: _ => piece

/-- The bytes a reader can look at without crossing a cut. -/
def chunk (input : Input) : List UInt8 :=
  firstPiece input.pieces

/-- Drops `n` bytes, and with them the pieces that are used up. -/
def dropPieces : Nat → List (List UInt8) → List (List UInt8)
  | _, [] => []
  | n, piece :: pieces =>
    match piece.drop n with
    -- The piece is used up, and what is still to be dropped comes out of the next ones.
    | [] => dropPieces (n - piece.length) pieces
    | rest => rest :: pieces

/-- Moves past the next `n` bytes. -/
def advance (input : Input) (n : Nat) : Input :=
  ⟨dropPieces n input.pieces⟩

/-- Keeps the first `n` bytes, cut where they were cut. -/
def takePieces : Nat → List (List UInt8) → List (List UInt8)
  | _, [] => []
  | n, piece :: pieces => piece.take n :: takePieces (n - piece.length) pieces

/-- The next `n` bytes as an input of their own. Nothing behind them
can be reached, nor seen in the chunk. -/
def window (input : Input) (n : Nat) : Input :=
  ⟨takePieces n input.pieces⟩

/-! ### What the operations do to the bytes -/

/-- Counted piece by piece, there are as many bytes as in one piece. -/
theorem length_flatten_eq_countBytes (pieces : List (List UInt8)) :
    pieces.flatten.length = countBytes pieces := by
  induction pieces with
  | nil => rfl
  | cons piece pieces ih => rw [List.flatten_cons, List.length_append, ih, countBytes]

/-- What is said to be left is the number of the bytes that are left. -/
theorem remaining_eq_length (input : Input) : input.remaining = input.bytes.length :=
  (length_flatten_eq_countBytes input.pieces).symm

/-- How many bytes are left does not depend on the cuts. -/
theorem remaining_congr {i j : Input} (h : i.bytes = j.bytes) : i.remaining = j.remaining := by
  rw [remaining_eq_length, remaining_eq_length, h]

/-- An input is empty if it has no bytes, whatever empty pieces it
has. -/
theorem isEmpty_iff {input : Input} : input.isEmpty = true ↔ input.bytes = [] := by
  rw [isEmpty, beq_iff_eq, remaining_eq_length, List.length_eq_zero_iff]

/-- Where something can be used up, something is left. -/
theorem not_isEmpty_of_remaining_lt {input rest : Input} (h : rest.remaining < input.remaining) :
    ¬ input.isEmpty = true := by
  rw [isEmpty, beq_iff_eq]
  exact Nat.ne_zero_of_lt h

/-- An input made of bytes has these bytes. -/
@[simp]
theorem bytes_ofBytes (bs : List UInt8) : (ofBytes bs).bytes = bs := by
  simp [ofBytes, bytes]

/-- Dropping from the pieces drops from the bytes. -/
theorem flatten_dropPieces (n : Nat) (pieces : List (List UInt8)) :
    (dropPieces n pieces).flatten = pieces.flatten.drop n := by
  induction pieces generalizing n with
  | nil => simp [dropPieces]
  | cons piece pieces ih =>
    rw [dropPieces, List.flatten_cons, List.drop_append]
    split
    · rename_i hnil
      rw [ih, hnil, List.nil_append]
    · -- A byte of this piece is left, so nothing is dropped behind it.
      rename_i hcons
      have hshort : n ≤ piece.length := by
        rcases Nat.le_total n piece.length with h | h
        · exact h
        · exact absurd (List.drop_eq_nil_of_le h) hcons
      rw [List.flatten_cons, Nat.sub_eq_zero_of_le hshort, List.drop_zero]

/-- Moving on by `n` drops the next `n` bytes, over as many cuts as
there are. -/
@[simp]
theorem bytes_advance (input : Input) (n : Nat) :
    (input.advance n).bytes = input.bytes.drop n :=
  flatten_dropPieces n input.pieces

/-- What is left after some bytes is the end of what was there. -/
theorem suffix_advance (input : Input) (n : Nat) : (input.advance n).bytes <:+ input.bytes := by
  rw [bytes_advance]
  exact List.drop_suffix n input.bytes

/-- A piece that is used up is gone. -/
theorem dropPieces_of_nil {n : Nat} {piece : List UInt8} (pieces : List (List UInt8))
    (h : piece.drop n = []) :
    dropPieces n (piece :: pieces) = dropPieces (n - piece.length) pieces := by
  rw [dropPieces, h]

/-- A piece that is not used up stays in front. -/
theorem dropPieces_of_ne_nil {n : Nat} {piece : List UInt8} (pieces : List (List UInt8))
    (h : piece.drop n ≠ []) : dropPieces n (piece :: pieces) = piece.drop n :: pieces := by
  rw [dropPieces]
  split
  · exact absurd ‹_› h
  · rfl

/-- Moving on twice is moving on by the sum. -/
theorem dropPieces_dropPieces (m n : Nat) (pieces : List (List UInt8)) :
    dropPieces n (dropPieces m pieces) = dropPieces (m + n) pieces := by
  induction pieces generalizing m n with
  | nil => simp [dropPieces]
  | cons piece pieces ih =>
    by_cases hm : piece.drop m = []
    · -- The first go uses the piece up, and so does the whole.
      have hlen : piece.length ≤ m := List.drop_eq_nil_iff.mp hm
      have hmn : piece.drop (m + n) = [] := List.drop_eq_nil_of_le (by omega)
      have hsub : m - piece.length + n = m + n - piece.length := by omega
      rw [dropPieces_of_nil pieces hm, ih, dropPieces_of_nil pieces hmn, hsub]
    · have hlen : ¬ piece.length ≤ m := mt List.drop_eq_nil_of_le hm
      have hdrop : (piece.drop m).drop n = piece.drop (m + n) := List.drop_drop
      rw [dropPieces_of_ne_nil pieces hm]
      by_cases hmn : piece.drop (m + n) = []
      · have hsub : n - (piece.length - m) = m + n - piece.length := by omega
        rw [dropPieces_of_nil pieces hmn, dropPieces_of_nil pieces (hdrop.trans hmn),
          List.length_drop, hsub]
      · rw [dropPieces_of_ne_nil pieces hmn, dropPieces_of_ne_nil pieces (by rwa [hdrop]), hdrop]

/-- Moving on in two goes leaves the same pieces as in one. -/
theorem advance_advance (input : Input) (m n : Nat) :
    (input.advance m).advance n = input.advance (m + n) :=
  congrArg Input.mk (dropPieces_dropPieces m n input.pieces)

/-- Taking from the pieces takes from the bytes. -/
theorem flatten_takePieces (n : Nat) (pieces : List (List UInt8)) :
    (takePieces n pieces).flatten = pieces.flatten.take n := by
  induction pieces generalizing n with
  | nil => simp [takePieces]
  | cons piece pieces ih =>
    rw [takePieces, List.flatten_cons, List.flatten_cons, List.take_append, ih]

/-- A window shows the next `n` bytes, over as many cuts as there
are. -/
@[simp]
theorem bytes_window (input : Input) (n : Nat) :
    (input.window n).bytes = input.bytes.take n :=
  flatten_takePieces n input.pieces

/-- The chunk in front is the beginning of what is left. -/
theorem firstPiece_isPrefix (pieces : List (List UInt8)) :
    firstPiece pieces <+: pieces.flatten := by
  fun_induction firstPiece pieces with
  | case1 => exact List.prefix_refl _
  | case2 pieces ih => simpa using ih
  | case3 piece pieces _ => exact List.prefix_append _ _

/-- The chunk is the beginning of what is left. -/
theorem chunk_isPrefix (input : Input) : input.chunk <+: input.bytes :=
  firstPiece_isPrefix input.pieces

/-- The chunk is empty only where nothing is left. -/
theorem chunk_eq_nil_iff {input : Input} : input.chunk = [] ↔ input.bytes = [] := by
  constructor
  · intro h
    -- An empty chunk means that every piece is empty, by induction on the pieces.
    unfold chunk at h
    unfold bytes
    generalize input.pieces = pieces at h ⊢
    fun_induction firstPiece pieces with
    | case1 => rfl
    | case2 pieces ih => simpa using ih h
    | case3 piece pieces hne => exact absurd h hne
  · intro h
    have hpre := input.chunk_isPrefix
    rw [h] at hpre
    exact List.prefix_nil.mp hpre

end Input

end ProtoWire
