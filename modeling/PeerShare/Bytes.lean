/-
  Byte strings.

  A byte string is a list of bytes.  Numbers are written in
  base 256 with the least significant digit first.  A field
  of known length is taken off the front of a byte string,
  and when the string is too short the number of missing
  bytes is reported.

  Key definitions include:
    * `Bytes.ofNat`
    * `Bytes.toNat`
    * `Bytes.splitExactly`
    * `Bytes.pieces`

  Key theorems include:
    * `Bytes.toNat_ofNat`
    * `Bytes.ofNat_toNat`
    * `Bytes.splitExactly_eq_ok_iff`
    * `Bytes.pieces_succ`
-/

namespace PeerShare

/- A string of bytes. -/
abbrev Bytes :=
  List UInt8

end PeerShare

------------------------------------------------------------
-- Little-Endian Numbers
------------------------------------------------------------

namespace PeerShare

namespace Bytes

/-
  The lowest `width` base-256 digits of `n`, least
  significant first.  Higher digits are dropped.
-/
def ofNat :
    (width : Nat) →
    (n : Nat) →
    Bytes
  | 0, _ => []
  | width + 1, n =>
      UInt8.ofNat n :: ofNat width (n / 256)

/- The number whose base-256 digits are given. -/
def toNat : Bytes → Nat
  | [] => 0
  | b :: bs => b.toNat + 256 * toNat bs

/- How many byte strings of length `width` there are. -/
def limit : (width : Nat) → Nat
  | 0 => 1
  | width + 1 => 256 * limit width

@[simp]
theorem length_ofNat
    (width n : Nat) :
    (ofNat width n).length = width := by
  induction width generalizing n with
  | zero => rfl
  | succ width ih => simp [ofNat, ih]

/- Writing a number and reading it drops the high digits. -/
theorem toNat_ofNat
    (width n : Nat) :
    toNat (ofNat width n) = n % limit width := by
  induction width generalizing n with
  | zero => simp [ofNat, toNat, limit, Nat.mod_one]
  | succ width ih =>
      have hByte : (UInt8.ofNat n).toNat = n % 256 :=
        UInt8.toNat_ofNat'
      rw [ofNat, toNat, ih, limit, Nat.mod_mul, hByte]

theorem toNat_lt
    (bs : Bytes) :
    toNat bs < limit bs.length := by
  induction bs with
  | nil => simp [toNat, limit]
  | cons b bs ih =>
      have hb : b.toNat < 256 := b.toNat_lt
      rw [toNat, List.length_cons, limit]
      omega

/- Every digit string is the one written for its number. -/
theorem ofNat_toNat
    (bs : Bytes) :
    ofNat bs.length (toNat bs) = bs := by
  induction bs with
  | nil => rfl
  | cons b bs ih =>
      have hb : b.toNat < 256 := b.toNat_lt
      have hDiv : (b.toNat + 256 * toNat bs) / 256 = toNat bs := by
        omega
      rw [List.length_cons, ofNat, toNat, hDiv, ih]
      congr 1
      apply UInt8.toNat_inj.mp
      rw [UInt8.toNat_ofNat']
      omega

end Bytes

end PeerShare

------------------------------------------------------------
-- Taking Fields off the Front
------------------------------------------------------------

namespace PeerShare

namespace Bytes

/-
  The first `n` bytes and the rest.  When there are fewer,
  the answer is how many are missing.
-/
def splitExactly
    (n : Nat)
    (bs : Bytes) :
    Except Nat (Bytes × Bytes) :=
  let front := bs.take n
  if front.length < n then
    .error (n - front.length)
  else
    .ok (front, bs.drop n)

theorem splitExactly_of_le
    {n : Nat}
    {bs : Bytes}
    (h : n ≤ bs.length) :
    splitExactly n bs = .ok (bs.take n, bs.drop n) := by
  have hLen : ¬ (bs.take n).length < n := by
    simp only [List.length_take]
    omega
  simp only [splitExactly, if_neg hLen]

theorem splitExactly_of_lt
    {n : Nat}
    {bs : Bytes}
    (h : bs.length < n) :
    splitExactly n bs = .error (n - bs.length) := by
  have hTake : bs.take n = bs :=
    List.take_of_length_le (Nat.le_of_lt h)
  simp only [splitExactly, hTake, if_pos h]

/- A split succeeds with just the two parts of the string. -/
theorem splitExactly_eq_ok_iff
    {n : Nat}
    {bs front rest : Bytes} :
    splitExactly n bs = .ok (front, rest) ↔
      bs = front ++ rest ∧ front.length = n := by
  constructor
  · intro h
    by_cases hn : n ≤ bs.length
    · rw [splitExactly_of_le hn] at h
      cases h
      exact ⟨(List.take_append_drop n bs).symm,
        List.length_take_of_le hn⟩
    · rw [splitExactly_of_lt (Nat.lt_of_not_le hn)] at h
      cases h
  · rintro ⟨rfl, hLen⟩
    have hn : n ≤ (front ++ rest).length := by
      rw [List.length_append]
      omega
    rw [splitExactly_of_le hn, List.take_left' hLen,
      List.drop_left' hLen]

end Bytes

end PeerShare

------------------------------------------------------------
-- Cutting into Equal Pieces
------------------------------------------------------------

namespace PeerShare

namespace Bytes

/-
  The first `count` pieces of `size` bytes, put behind the
  pieces already cut, which stand in reverse order.
-/
def piecesOnto
    (size : Nat) :
    (count : Nat) →
    Bytes →
    List Bytes →
    List Bytes
  | 0, _, cut => cut.reverse
  | count + 1, bs, cut =>
      piecesOnto size count (bs.drop size)
        (bs.take size :: cut)

/-
  The first `count` pieces of `size` bytes.  Pieces that
  reach past the end of the string are short or empty.
-/
def pieces
    (count size : Nat)
    (bs : Bytes) :
    List Bytes :=
  piecesOnto size count bs []

theorem piecesOnto_eq
    (size count : Nat)
    (bs : Bytes)
    (cut : List Bytes) :
    piecesOnto size count bs cut =
      cut.reverse ++ pieces count size bs := by
  induction count generalizing bs cut with
  | zero => simp [pieces, piecesOnto]
  | succ count ih =>
      rw [pieces, piecesOnto, piecesOnto, ih, ih]
      simp

@[simp]
theorem pieces_zero
    (size : Nat)
    (bs : Bytes) :
    pieces 0 size bs = [] := rfl

/- The first piece, and the pieces of what follows it. -/
theorem pieces_succ
    (count size : Nat)
    (bs : Bytes) :
    pieces (count + 1) size bs =
      bs.take size :: pieces count size (bs.drop size) := by
  rw [pieces, piecesOnto, piecesOnto_eq]
  rfl

@[simp]
theorem length_pieces
    (count size : Nat)
    (bs : Bytes) :
    (pieces count size bs).length = count := by
  induction count generalizing bs with
  | zero => rfl
  | succ count ih => rw [pieces_succ, List.length_cons, ih]

end Bytes

end PeerShare
