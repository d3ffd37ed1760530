import PeerShare.Bytes

/-
  Flags packed into bytes.

  Eight flags make a byte, the first of them in the highest
  bit.  A set of numbers is packed as the flags of the
  numbers up to its largest member, so that the last byte
  of a packed set is never zero, except that the empty set
  is packed as one zero byte.

  Key definitions include:
    * `Packing.unpack`
    * `Packing.pack`
    * `Packing.positions`
    * `Packing.ofIndices`
    * `Packing.toIndices`

  Key theorems include:
    * `Packing.getElem?_unpack`
    * `Packing.mem_positions_iff`
    * `Packing.mem_toIndices_iff`
-/

------------------------------------------------------------
-- Bytes and Flags
------------------------------------------------------------

namespace PeerShare

namespace Packing

/- Flag `t` of a byte, counted from the highest bit. -/
def byteFlag
    (b : UInt8)
    (t : Nat) : Bool :=
  b.toNat.testBit (7 - t)

/- The eight flags of a byte. -/
def byteFlags
    (b : UInt8) : List Bool :=
  (List.range 8).map (byteFlag b)

/- The byte with the given eight flags. -/
def byteOf
    (flag : Nat → Bool) : UInt8 :=
  UInt8.ofNat
    ((List.range 8).foldl
      (fun n t => 2 * n + (flag t).toNat) 0)

/- All flags of a byte string. -/
def unpack
    (bs : Bytes) : List Bool :=
  bs.flatMap byteFlags

/-
  The bytes of a row of flags.  The last byte is filled up
  with flags that are not set.
-/
def pack
    (flags : Array Bool) : Bytes :=
  (List.range ((flags.size + 7) / 8)).map fun j =>
    byteOf fun t => flags.getD (8 * j + t) false

/- The positions of the flags that are set. -/
def positions
    (flags : List Bool) : List Nat :=
  flags.zipIdx.filterMap fun (flag, i) =>
    if flag then some i else none

end Packing

end PeerShare

------------------------------------------------------------
-- Sets of Numbers
------------------------------------------------------------

namespace PeerShare

namespace Packing

/- The largest of some numbers, or zero. -/
def largest
    (indices : List Nat) : Nat :=
  indices.foldl max 0

/- The flags that are set at the listed positions. -/
def marks
    (size : Nat)
    (indices : List Nat) : Array Bool :=
  indices.foldl
    (fun flags i => flags.setIfInBounds i true)
    (Array.replicate size false)

/- The packed form of a set of numbers. -/
def ofIndices
    (indices : List Nat) : Bytes :=
  pack (marks (8 * (largest indices / 8 + 1)) indices)

/- The members of a packed set, in increasing order. -/
def toIndices
    (bs : Bytes) : List Nat :=
  positions (unpack bs)

end Packing

end PeerShare

------------------------------------------------------------
-- Laws
------------------------------------------------------------

namespace PeerShare

namespace Packing

@[simp]
theorem length_byteFlags
    (b : UInt8) :
    (byteFlags b).length = 8 := by
  simp [byteFlags]

@[simp]
theorem length_unpack
    (bs : Bytes) :
    (unpack bs).length = 8 * bs.length := by
  induction bs with
  | nil => rfl
  | cons b bs ih =>
      have hCons : unpack (b :: bs) = byteFlags b ++ unpack bs :=
        rfl
      rw [hCons, List.length_append, ih, length_byteFlags,
        List.length_cons]
      omega

@[simp]
theorem length_pack
    (flags : Array Bool) :
    (pack flags).length = (flags.size + 7) / 8 := by
  simp [pack]

/- Flag `i` of a byte string is flag `i % 8` of its byte. -/
theorem getElem?_unpack
    (bs : Bytes)
    (i : Nat) :
    (unpack bs)[i]? =
      (bs[i / 8]?).map fun b => byteFlag b (i % 8) := by
  induction bs generalizing i with
  | nil => simp [unpack]
  | cons b bs ih =>
      have hCons : unpack (b :: bs) = byteFlags b ++ unpack bs :=
        rfl
      rw [hCons]
      by_cases hi : i < 8
      · have hDiv : i / 8 = 0 := by omega
        have hMod : i % 8 = i := by omega
        rw [List.getElem?_append_left (by simpa using hi),
          hDiv, hMod]
        simp [byteFlags, hi]
      · have hDiv : i / 8 = (i - 8) / 8 + 1 := by omega
        have hMod : i % 8 = (i - 8) % 8 := by omega
        rw [List.getElem?_append_right (by simpa using hi),
          length_byteFlags, ih, hDiv, hMod]
        simp

/- The positions of the set flags. -/
theorem mem_positions_iff
    {flags : List Bool}
    {i : Nat} :
    i ∈ positions flags ↔ flags[i]? = some true := by
  rw [positions, List.mem_filterMap]
  constructor
  · rintro ⟨⟨flag, j⟩, hMem, hSome⟩
    have hGet := List.mem_zipIdx_iff_getElem?.mp hMem
    cases flag with
    | false => simp at hSome
    | true =>
        simp only [if_true, Option.some.injEq] at hSome
        subst hSome
        exact hGet
  · intro h
    exact ⟨(true, i), List.mem_zipIdx_iff_getElem?.mpr h, rfl⟩

/- A number is a member just if its flag is set. -/
theorem mem_toIndices_iff
    {bs : Bytes}
    {i : Nat} :
    i ∈ toIndices bs ↔
      ∃ b, bs[i / 8]? = some b ∧ byteFlag b (i % 8) = true := by
  rw [toIndices, mem_positions_iff, getElem?_unpack,
    Option.map_eq_some_iff]

end Packing

end PeerShare
