import Mathlib.Algebra.GroupWithZero.Nat
import PeerShare.Proofs.Packing.Masks

/-
  Sets of chunks kept as bytes.

  Such a set keeps its packed flags, in as many bytes as the
  chunks need.  The last byte may have flags to spare; they
  are never set, whatever the set is made from and however
  it is changed.  That is why equality of the bytes, the
  number of set bits and the test for zero bytes all speak
  about the members alone.

  Key definitions include:
    * `PackedSet`
    * `PackedSet.Represents`
    * `PackedSet.Recipe`
    * `PackedSet.IsFaithful`
    * `PackedSet.Agrees`

  Key theorems include:
    * `PackedSet.mem_clearSpare`
    * `PackedSet.represents_packed`
    * `PackedSet.Represents.isFaithful`
    * `PackedSet.Represents.agrees`
    * `PackedSet.built_sets_faithful`
-/

------------------------------------------------------------
-- Numbers of Flags
------------------------------------------------------------

namespace PeerShare

namespace Packing

/- The number of flags of a byte that are set. -/
def ones
    (b : UInt8) : Nat :=
  (byteFlags b).count true

theorem length_positions
    (flags : List Bool) :
    (positions flags).length = flags.count true := by
  have hFst : flags.zipIdx.map Prod.fst = flags :=
    List.zipIdx_map_fst 0 flags
  unfold positions
  rw [List.length_filterMap_eq_countP, List.count]
  conv_rhs => rw [← hFst]
  rw [List.countP_map]
  apply List.countP_congr
  rintro ⟨flag, i⟩ -
  cases flag <;> simp

/- Counting flags byte by byte counts the members. -/
theorem sum_ones
    (bs : Bytes) :
    (bs.map ones).sum = (toIndices bs).length := by
  rw [toIndices, length_positions, unpack, List.count_flatMap]
  rfl

theorem all_zero_iff
    {bs : Bytes} :
    bs.all (· == 0) = true ↔ ∀ i, i ∉ toIndices bs := by
  rw [List.all_eq_true]
  constructor
  · intro hZero i hi
    rcases mem_toIndices_iff.mp hi with ⟨b, hGet, hFlag⟩
    have hb := eq_of_beq (hZero b (List.mem_of_getElem? hGet))
    rw [hb, byteFlag_zero] at hFlag
    cases hFlag
  · intro hNone b hb
    apply beq_iff_eq.mpr
    by_contra hNonzero
    rcases exists_byteFlag hNonzero with ⟨t, ht, hFlag⟩
    rcases List.mem_iff_getElem?.mp hb with ⟨j, hGet⟩
    exact hNone (8 * j + t)
      ((mem_toIndices_at ht).mpr ⟨b, hGet, hFlag⟩)

/- The flags that a shift leaves set. -/
theorem byteFlag_shift
    {spare t : Nat}
    (hSpare : spare < 8)
    (ht : t < 8) :
    byteFlag (0xFF <<< UInt8.ofNat spare) t =
      decide (t + spare < 8) := by
  have hAll :
      ∀ spare t : Fin 8,
        byteFlag (0xFF <<< UInt8.ofNat spare) t =
          decide (t.val + spare.val < 8) := by
    decide
  exact hAll ⟨spare, hSpare⟩ ⟨t, ht⟩

end Packing

end PeerShare

------------------------------------------------------------
-- Sets as Bytes
------------------------------------------------------------

namespace PeerShare

/- The packed flags of the chunks of a file. -/
structure PackedSet where
  bits : Bytes
  chunkCount : Nat
  deriving DecidableEq

namespace PackedSet

/- The number of bytes for the flags of `n` chunks. -/
def width
    (n : Nat) : Nat :=
  (n + 7) / 8

/- Clear the flags of the last byte that no chunk has. -/
def clearSpare
    (p : PackedSet) : PackedSet :=
  let spare := 8 * p.bits.length - p.chunkCount
  if 0 < spare ∧ spare < 8 then
    { p with
      bits :=
        p.bits.modify (p.bits.length - 1)
          (· &&& (0xFF <<< UInt8.ofNat spare)) }
  else p

def empty
    (chunkCount : Nat) : PackedSet where
  bits := List.replicate (width chunkCount) 0
  chunkCount := chunkCount

def full
    (chunkCount : Nat) : PackedSet :=
  clearSpare
    ⟨List.replicate (width chunkCount) 0xFF, chunkCount⟩

/- Bytes too many are dropped, and missing bytes are zero. -/
def ofBytes
    (bs : Bytes)
    (chunkCount : Nat) : PackedSet :=
  clearSpare
    ⟨(bs.take (width chunkCount)).rightpad
        (width chunkCount) 0,
      chunkCount⟩

def insert
    (p : PackedSet)
    (index : Nat) : PackedSet :=
  if p.chunkCount ≤ index then p
  else { p with bits := Packing.raise p.bits index }

def erase
    (p : PackedSet)
    (index : Nat) : PackedSet :=
  if p.chunkCount ≤ index then p
  else { p with bits := Packing.lower p.bits index }

def ofIndices
    (indices : List Nat)
    (chunkCount : Nat) : PackedSet :=
  indices.foldl insert (empty chunkCount)

def has
    (p : PackedSet)
    (index : Nat) : Bool :=
  if p.chunkCount ≤ index then false
  else
    (p.bits.getD (index / 8) 0 >>>
        UInt8.ofNat (7 - index % 8)) &&& 1 == 1

/- The members in increasing order. -/
def indices
    (p : PackedSet) : List Nat :=
  Packing.scan p.bits

/- The number of flags that are set. -/
def card
    (p : PackedSet) : Nat :=
  (p.bits.map Packing.ones).sum

def isFull
    (p : PackedSet) : Bool :=
  p.card == p.chunkCount

def isEmpty
    (p : PackedSet) : Bool :=
  p.bits.all (· == 0)

def toWire
    (p : PackedSet) : Bytes :=
  Packing.raiseAll p.indices

/-
  The bytes are just as many as the chunks need, and the
  flags that are set are those of the members.
-/
structure Represents
    (p : PackedSet)
    (n : Nat)
    (members : Nat → Prop) : Prop where
  chunkCount_eq : p.chunkCount = n
  length_eq : p.bits.length = width n
  mem_iff : ∀ i, i ∈ Packing.toIndices p.bits ↔ members i
  lt_of_mem : ∀ i, members i → i < n

end PackedSet

end PeerShare

------------------------------------------------------------
-- Making and Changing Sets
------------------------------------------------------------

namespace PeerShare

namespace PackedSet

open Packing

variable {p p' : PackedSet}
variable {n : Nat}
variable {members members' : Nat → Prop}

@[simp]
theorem chunkCount_clearSpare
    (p : PackedSet) :
    p.clearSpare.chunkCount = p.chunkCount := by
  unfold clearSpare
  dsimp only
  split
  · rfl
  · rfl

@[simp]
theorem length_clearSpare
    (p : PackedSet) :
    p.clearSpare.bits.length = p.bits.length := by
  unfold clearSpare
  dsimp only
  split
  · exact List.length_modify _ _ _
  · rfl

/- Just the flags past the last chunk are cleared. -/
theorem mem_clearSpare
    (hLength : p.bits.length = width p.chunkCount)
    {i : Nat} :
    i ∈ toIndices p.clearSpare.bits ↔
      i ∈ toIndices p.bits ∧ i < p.chunkCount := by
  have hMod : i % 8 < 8 := Nat.mod_lt i (by decide)
  unfold width at hLength
  unfold clearSpare
  dsimp only
  split
  · rename_i hSpare
    rw [mem_toIndices_modify, mem_toIndices_iff]
    constructor
    · rintro ⟨b, hGet, hFlag⟩
      have hLt := (List.getElem?_eq_some_iff.mp hGet).1
      by_cases hLast : p.bits.length - 1 = i / 8
      · rw [if_pos hLast, byteFlag_and,
          byteFlag_shift hSpare.2 hMod, Bool.and_eq_true,
          decide_eq_true_iff] at hFlag
        exact ⟨⟨b, hGet, hFlag.1⟩, by omega⟩
      · rw [if_neg hLast] at hFlag
        exact ⟨⟨b, hGet, hFlag⟩, by omega⟩
    · rintro ⟨⟨b, hGet, hFlag⟩, hLt⟩
      refine ⟨b, hGet, ?_⟩
      split
      · rename_i hLast
        have hKept :
            i % 8 + (8 * p.bits.length - p.chunkCount) < 8 := by
          omega
        rw [byteFlag_and, hFlag, byteFlag_shift hSpare.2 hMod,
          decide_eq_true hKept, Bool.and_true]
      · exact hFlag
  · constructor
    · intro hMem
      have := div_lt_of_mem hMem
      exact ⟨hMem, by omega⟩
    · exact And.left

/- Clearing the spare flags leaves the members. -/
theorem represents_clearSpare
    {bs : Bytes}
    (hLength : bs.length = width n)
    (hMembers :
      ∀ i, members i ↔ i ∈ toIndices bs ∧ i < n) :
    (clearSpare ⟨bs, n⟩).Represents n members where
  chunkCount_eq := chunkCount_clearSpare _
  length_eq := by rw [length_clearSpare, hLength]
  mem_iff i := by
    rw [mem_clearSpare hLength, hMembers]
  lt_of_mem i hi := ((hMembers i).mp hi).2

theorem represents_empty
    (n : Nat) :
    (empty n).Represents n (fun _ => False) where
  chunkCount_eq := rfl
  length_eq := List.length_replicate
  mem_iff i := by
    unfold empty
    rw [toIndices_zeros]
    exact iff_of_false List.not_mem_nil id
  lt_of_mem _ := False.elim

theorem represents_full
    (n : Nat) :
    (full n).Represents n (· < n) := by
  apply represents_clearSpare List.length_replicate
  intro i
  have hAll : ∀ t : Fin 8, byteFlag 0xFF t = true := by
    decide
  constructor
  · intro hLt
    refine ⟨?_, hLt⟩
    have hByte : i / 8 < width n := by
      unfold width
      omega
    rw [mem_toIndices_iff, List.getElem?_replicate,
      if_pos hByte]
    exact ⟨_, rfl, hAll ⟨i % 8, Nat.mod_lt i (by decide)⟩⟩
  · exact And.right

/- Whether a flag is set in the bytes that are kept. -/
theorem represents_ofBytes
    (bs : Bytes)
    (n : Nat) :
    (ofBytes bs n).Represents n
      (fun i => i ∈ toIndices bs ∧ i < n) := by
  apply represents_clearSpare
  · rw [List.length_rightpad, List.length_take]
    omega
  · intro i
    apply and_congr_left
    intro hLt
    have hByte : i / 8 < width n := by
      unfold width
      omega
    rw [mem_toIndices_iff, mem_toIndices_iff, List.rightpad]
    by_cases hHas : i / 8 < bs.length
    · rw [List.getElem?_append_left (by
          rw [List.length_take]
          omega),
        List.getElem?_take_of_lt hByte]
    · have hLe := Nat.le_of_not_lt hHas
      rw [List.getElem?_eq_none hLe,
        List.take_of_length_le (by omega),
        List.getElem?_append_right hLe,
        List.getElem?_replicate]
      constructor
      · rintro ⟨b, hGet, -⟩
        cases hGet
      · rintro ⟨b, hGet, hFlag⟩
        split at hGet
        · cases hGet
          rw [byteFlag_zero] at hFlag
          cases hFlag
        · cases hGet

namespace Represents

theorem insert
    (h : p.Represents n members)
    (index : Nat) :
    (p.insert index).Represents n
      (fun i => members i ∨ i = index ∧ index < n) := by
  unfold PackedSet.insert
  by_cases hLe : p.chunkCount ≤ index
  · rw [if_pos hLe]
    rw [h.chunkCount_eq] at hLe
    refine ⟨h.chunkCount_eq, h.length_eq, ?_, ?_⟩
    · intro i
      rw [h.mem_iff]
      constructor
      · exact Or.inl
      · rintro (hi | ⟨-, hLt⟩)
        · exact hi
        · omega
    · rintro i (hi | ⟨rfl, hLt⟩)
      · exact h.lt_of_mem i hi
      · exact hLt
  · rw [if_neg hLe]
    rw [h.chunkCount_eq] at hLe
    have hLt := Nat.lt_of_not_le hLe
    refine ⟨h.chunkCount_eq, ?_, ?_, ?_⟩
    · rw [length_raise, h.length_eq]
    · intro i
      rw [mem_toIndices_raise, h.mem_iff, h.length_eq]
      constructor
      · rintro (hi | ⟨rfl, -⟩)
        · exact Or.inl hi
        · exact Or.inr ⟨rfl, hLt⟩
      · rintro (hi | ⟨rfl, hi⟩)
        · exact Or.inl hi
        · refine Or.inr ⟨rfl, ?_⟩
          unfold width
          omega
    · rintro i (hi | ⟨rfl, -⟩)
      · exact h.lt_of_mem i hi
      · exact hLt

theorem erase
    (h : p.Represents n members)
    (index : Nat) :
    (p.erase index).Represents n
      (fun i => members i ∧ i ≠ index) := by
  have hBelow : ∀ i, members i ∧ i ≠ index → i < n := by
    rintro i ⟨hi, -⟩
    exact h.lt_of_mem i hi
  unfold PackedSet.erase
  by_cases hLe : p.chunkCount ≤ index
  · rw [if_pos hLe]
    rw [h.chunkCount_eq] at hLe
    refine ⟨h.chunkCount_eq, h.length_eq, ?_, hBelow⟩
    intro i
    rw [h.mem_iff]
    constructor
    · intro hi
      have := h.lt_of_mem i hi
      exact ⟨hi, by omega⟩
    · exact And.left
  · rw [if_neg hLe]
    refine ⟨h.chunkCount_eq, ?_, ?_, hBelow⟩
    · rw [length_lower, h.length_eq]
    · intro i
      rw [mem_toIndices_lower, h.mem_iff]

theorem congr
    (h : p.Represents n members)
    (hSame : ∀ i, members i ↔ members' i) :
    p.Represents n members' where
  chunkCount_eq := h.chunkCount_eq
  length_eq := h.length_eq
  mem_iff i := (h.mem_iff i).trans (hSame i)
  lt_of_mem i hi := h.lt_of_mem i ((hSame i).mpr hi)

/- The listed chunks are inserted one after another. -/
theorem insertAll
    (h : p.Represents n members)
    (indices : List Nat) :
    (indices.foldl PackedSet.insert p).Represents n
      (fun i => members i ∨ i ∈ indices ∧ i < n) := by
  induction indices generalizing p members with
  | nil =>
      apply h.congr
      intro i
      simp
  | cons index indices ih =>
      apply (ih (h.insert index)).congr
      intro i
      rw [List.mem_cons]
      constructor
      · rintro ((hi | ⟨rfl, hLt⟩) | ⟨hi, hLt⟩)
        · exact Or.inl hi
        · exact Or.inr ⟨Or.inl rfl, hLt⟩
        · exact Or.inr ⟨Or.inr hi, hLt⟩
      · rintro (hi | ⟨rfl | hi, hLt⟩)
        · exact Or.inl (Or.inl hi)
        · exact Or.inl (Or.inr ⟨rfl, hLt⟩)
        · exact Or.inr ⟨hi, hLt⟩

/- The members determine the bytes. -/
theorem eq_of_iff
    (h : p.Represents n members)
    (h' : p'.Represents n members')
    (hSame : ∀ i, members i ↔ members' i) :
    p = p' := by
  have hBits : p.bits = p'.bits := by
    apply eq_of_mem_toIndices_iff
    · rw [h.length_eq, h'.length_eq]
    · intro i
      rw [h.mem_iff, h'.mem_iff, hSame]
  cases p
  cases p'
  cases h.chunkCount_eq
  cases h'.chunkCount_eq
  cases hBits
  rfl

theorem eq_iff
    (h : p.Represents n members)
    (h' : p'.Represents n members') :
    p = p' ↔ ∀ i, members i ↔ members' i := by
  constructor
  · rintro rfl i
    rw [← h.mem_iff, h'.mem_iff]
  · exact h.eq_of_iff h'

end Represents

end PackedSet

end PeerShare

------------------------------------------------------------
-- Asking Sets
------------------------------------------------------------

namespace PeerShare

namespace PackedSet

open Packing

variable {p : PackedSet}
variable {n : Nat}
variable {members : Nat → Prop}

/-
  The bytes have the length that the chunks need, no bit
  past the last chunk is set, and all that can be asked or
  changed is answered or done as for the set of members.
-/
structure IsFaithful
    (p : PackedSet)
    (n : Nat)
    (members : Nat → Prop) : Prop where
  chunkCount_eq : p.chunkCount = n
  length_eq : p.bits.length = (n + 7) / 8
  lt_of_bit :
    ∀ i b,
      p.bits[i / 8]? = some b →
      b.toNat.testBit (7 - i % 8) = true →
      i < n
  has_iff : ∀ i, p.has i = true ↔ members i
  has_insert :
    ∀ index i,
      (p.insert index).has i = true ↔
        members i ∨ i = index ∧ index < n
  has_erase :
    ∀ index i,
      (p.erase index).has i = true ↔
        members i ∧ i ≠ index
  enumerates : Enumerates p.indices members
  card_eq : p.card = p.indices.length
  isEmpty_iff : p.isEmpty = true ↔ ∀ i, ¬ members i
  isFull_iff : p.isFull = true ↔ ∀ i < n, members i
  ofBytes_toWire : ofBytes p.toWire n = p

namespace Represents

/- Where a flag stands is always within the bytes. -/
theorem has_iff
    (h : p.Represents n members)
    (i : Nat) :
    p.has i = true ↔ members i := by
  have hMod : i % 8 < 8 := Nat.mod_lt i (by decide)
  rw [← h.mem_iff, mem_toIndices_iff]
  unfold has
  by_cases hLe : p.chunkCount ≤ i
  · rw [if_pos hLe]
    constructor
    · intro hFalse
      cases hFalse
    · intro hMem
      have := h.lt_of_mem i
        ((h.mem_iff i).mp (mem_toIndices_iff.mpr hMem))
      rw [h.chunkCount_eq] at hLe
      omega
  · have hByte : i / 8 < p.bits.length := by
      rw [h.length_eq, ← h.chunkCount_eq]
      unfold width
      omega
    rw [if_neg hLe, beq_iff_eq, shift_and_one_eq_iff hMod,
      List.getD_eq_getElem?_getD,
      List.getElem?_eq_getElem hByte, Option.getD_some]
    constructor
    · exact fun hFlag => ⟨_, rfl, hFlag⟩
    · rintro ⟨b, hGet, hFlag⟩
      cases hGet
      exact hFlag

theorem enumerates
    (h : p.Represents n members) :
    Enumerates p.indices members where
  sorted := (enumerates_scan p.bits).sorted
  mem_iff i := ((enumerates_scan p.bits).mem_iff i).trans
    (h.mem_iff i)

theorem card_eq
    (p : PackedSet) :
    p.card = p.indices.length := by
  unfold card indices
  rw [sum_ones, toIndices_eq_scan]

theorem isEmpty_iff
    (h : p.Represents n members) :
    p.isEmpty = true ↔ ∀ i, ¬ members i := by
  unfold isEmpty
  rw [all_zero_iff]
  exact forall_congr' fun i => not_congr (h.mem_iff i)

/- The members are those of the first `n` numbers. -/
theorem indices_eq_filter
    (h : p.Represents n members) :
    p.indices = (List.range n).filter p.has := by
  apply h.enumerates.unique
  refine ⟨List.pairwise_lt_range.filter _, ?_⟩
  intro i
  rw [List.mem_filter, List.mem_range, h.has_iff]
  constructor
  · exact And.right
  · exact fun hi => ⟨h.lt_of_mem i hi, hi⟩

theorem isFull_iff
    (h : p.Represents n members) :
    p.isFull = true ↔ ∀ i < n, members i := by
  have hLength :
      ((List.range n).filter p.has).length = n ↔
        ∀ i ∈ List.range n, p.has i = true := by
    rw [← List.length_filter_eq_length_iff, List.length_range]
  unfold isFull
  rw [beq_iff_eq, h.chunkCount_eq, card_eq,
    h.indices_eq_filter, hLength]
  constructor
  · intro hAll i hi
    exact (h.has_iff i).mp (hAll i (List.mem_range.mpr hi))
  · intro hAll i hi
    exact (h.has_iff i).mpr (hAll i (List.mem_range.mp hi))

theorem ofBytes_toWire
    (h : p.Represents n members) :
    ofBytes p.toWire n = p := by
  apply (represents_ofBytes _ n).eq_of_iff h
  intro i
  unfold toWire
  rw [← ofIndices_eq_raiseAll, mem_toIndices_ofIndices,
    h.enumerates.mem_iff]
  exact ⟨And.left, fun hi => ⟨hi, h.lt_of_mem i hi⟩⟩

theorem isFaithful
    (h : p.Represents n members) :
    p.IsFaithful n members where
  chunkCount_eq := h.chunkCount_eq
  length_eq := h.length_eq
  lt_of_bit i b hGet hBit :=
    h.lt_of_mem i
      ((h.mem_iff i).mp (mem_toIndices_iff.mpr ⟨b, hGet, hBit⟩))
  has_iff := h.has_iff
  has_insert index := (h.insert index).has_iff
  has_erase index := (h.erase index).has_iff
  enumerates := h.enumerates
  card_eq := card_eq p
  isEmpty_iff := h.isEmpty_iff
  isFull_iff := h.isFull_iff
  ofBytes_toWire := h.ofBytes_toWire

end Represents

end PackedSet

end PeerShare

------------------------------------------------------------
-- Sets as Flags
------------------------------------------------------------

namespace PeerShare

namespace ChunkSet

theorem enumerates_members
    (s : ChunkSet) :
    Packing.Enumerates s.members (fun i => s.has i = true) where
  sorted := (Packing.enumerates_positions _).sorted
  mem_iff _ := mem_members_iff

theorem card_eq_length_members
    (s : ChunkSet) :
    s.card = s.members.length :=
  (Packing.length_positions s.flags.toList).symm

end ChunkSet

namespace PackedSet

open Packing

variable {p : PackedSet}
variable {s : ChunkSet}
variable {n : Nat}
variable {members : Nat → Prop}

/- A set kept as bytes and one kept as flags are the same. -/
structure Agrees
    (p : PackedSet)
    (s : ChunkSet) : Prop where
  chunkCount_eq : p.chunkCount = s.chunkCount
  bits_eq : p.bits = s.toBytes
  has_eq : ∀ i, p.has i = s.has i
  indices_eq : p.indices = s.members
  card_eq : p.card = s.card
  isFull_eq : p.isFull = s.isFull
  isEmpty_eq : p.isEmpty = s.isEmpty
  toWire_eq : p.toWire = s.toWire

/- The packed flags of a set represent it. -/
theorem represents_toBytes
    (s : ChunkSet) :
    Represents ⟨s.toBytes, s.chunkCount⟩ s.chunkCount
      (fun i => s.has i = true) where
  chunkCount_eq := rfl
  length_eq := length_pack s.flags
  mem_iff _ := mem_toIndices_pack
  lt_of_mem _ := ChunkSet.lt_of_has

/- Bytes and flags with the same members agree. -/
theorem Represents.agrees
    (h : p.Represents n members)
    (hCount : s.chunkCount = n)
    (hHas : ∀ i, s.has i = true ↔ members i) :
    p.Agrees s := by
  subst hCount
  have hEq : p = ⟨s.toBytes, s.chunkCount⟩ :=
    h.eq_of_iff (represents_toBytes s) fun i => (hHas i).symm
  have hIndices : p.indices = s.members := by
    apply h.enumerates.unique
    refine ⟨s.enumerates_members.sorted, ?_⟩
    exact fun i => (s.enumerates_members.mem_iff i).trans
      (hHas i)
  have hCard : p.card = s.card := by
    rw [Represents.card_eq, hIndices,
      ChunkSet.card_eq_length_members]
  refine
    ⟨h.chunkCount_eq, ?_, ?_, hIndices, hCard, ?_, ?_, ?_⟩
  · rw [hEq]
  · intro i
    rw [Bool.eq_iff_iff, h.has_iff, hHas]
  · unfold isFull ChunkSet.isFull
    rw [hCard, h.chunkCount_eq]
  · rw [Bool.eq_iff_iff, h.isEmpty_iff, ChunkSet.isEmpty_iff]
    apply forall_congr'
    intro i
    rw [← hHas, Bool.not_eq_true]
  · unfold toWire ChunkSet.toWire
    rw [hIndices, ofIndices_eq_raiseAll]

end PackedSet

end PeerShare

------------------------------------------------------------
-- All Sets
------------------------------------------------------------

namespace PeerShare

namespace PackedSet

/- How a set is made and changed. -/
inductive Recipe where
  | empty
  | full
  | ofBytes (bs : Bytes)
  | ofIndices (indices : List Nat)
  | insert (r : Recipe) (index : Nat)
  | erase (r : Recipe) (index : Nat)

namespace Recipe

/- The set that is made, kept as bytes. -/
def packed
    (n : Nat) : Recipe → PackedSet
  | empty => PackedSet.empty n
  | full => PackedSet.full n
  | ofBytes bs => PackedSet.ofBytes bs n
  | ofIndices indices => PackedSet.ofIndices indices n
  | insert r index => (packed n r).insert index
  | erase r index => (packed n r).erase index

/- The set that is made, kept as flags. -/
def chunkSet
    (n : Nat) : Recipe → ChunkSet
  | empty => ChunkSet.empty n
  | full => ChunkSet.full n
  | ofBytes bs => ChunkSet.ofBytes bs n
  | ofIndices indices => ChunkSet.ofIndices indices n
  | insert r index => (chunkSet n r).insert index
  | erase r index => (chunkSet n r).erase index

/- The members of the set that is made, of `n` chunks. -/
def Has
    (n : Nat) : Recipe → Nat → Prop
  | empty, _ => False
  | full, i => i < n
  | ofBytes bs, i =>
      (∃ b,
        bs[i / 8]? = some b ∧
          b.toNat.testBit (7 - i % 8) = true) ∧
        i < n
  | ofIndices indices, i => i ∈ indices ∧ i < n
  | insert r index, i => Has n r i ∨ i = index ∧ index < n
  | erase r index, i => Has n r i ∧ i ≠ index

/- Each way of making a set keeps the bytes in order. -/
theorem represents_packed
    (n : Nat)
    (r : Recipe) :
    (r.packed n).Represents n (r.Has n) := by
  induction r with
  | empty => exact represents_empty n
  | full => exact represents_full n
  | ofBytes bs =>
      apply (represents_ofBytes bs n).congr
      exact fun i => and_congr_left fun _ =>
        Packing.mem_toIndices_iff
  | ofIndices indices =>
      apply ((represents_empty n).insertAll indices).congr
      exact fun i => iff_of_eq (false_or _)
  | insert r index ih => exact ih.insert index
  | erase r index ih => exact ih.erase index

theorem chunkCount_chunkSet
    (n : Nat)
    (r : Recipe) :
    (r.chunkSet n).chunkCount = n := by
  induction r with
  | empty => exact ChunkSet.chunkCount_empty n
  | full => exact ChunkSet.chunkCount_full n
  | ofBytes bs => exact ChunkSet.chunkCount_ofBytes bs n
  | ofIndices indices =>
      exact ChunkSet.chunkCount_ofIndices indices n
  | insert r index ih =>
      exact (ChunkSet.chunkCount_insert _ index).trans ih
  | erase r index ih =>
      exact (ChunkSet.chunkCount_erase _ index).trans ih

/- Flags give the same members. -/
theorem has_chunkSet_iff
    (n : Nat)
    (r : Recipe)
    (i : Nat) :
    (r.chunkSet n).has i = true ↔ r.Has n i := by
  induction r with
  | empty => simp [chunkSet, Has]
  | full => simp [chunkSet, Has, ChunkSet.has_full]
  | ofBytes bs =>
      unfold chunkSet Has
      rw [ChunkSet.has_ofBytes, decide_eq_true_iff,
        Packing.mem_toIndices_iff]
      rfl
  | ofIndices indices =>
      unfold chunkSet Has
      rw [ChunkSet.has_ofIndices, decide_eq_true_iff]
  | insert r index ih =>
      unfold chunkSet Has
      rw [ChunkSet.has_insert, chunkCount_chunkSet, ← ih]
      split
      · rename_i hHere
        rcases hHere with ⟨rfl, hLt⟩
        exact iff_of_true rfl (Or.inr ⟨rfl, hLt⟩)
      · rename_i hElsewhere
        constructor
        · exact Or.inl
        · rintro (hOld | ⟨rfl, hLt⟩)
          · exact hOld
          · exact absurd ⟨rfl, hLt⟩ hElsewhere
  | erase r index ih =>
      unfold chunkSet Has
      rw [ChunkSet.has_erase, ← ih]
      split
      · rename_i hHere
        exact iff_of_false Bool.false_ne_true
          fun hOld => hOld.2 hHere
      · rename_i hElsewhere
        exact (and_iff_left hElsewhere).symm

end Recipe

/-
  Every set of chunks, however it was made and changed, is
  faithful to its members, is the same whether it is kept
  as bytes or as flags, equals just the sets over the same
  chunks with the same members, and comes back from its
  packed form.
-/
theorem built_sets_faithful
    (n : Nat)
    (r : Recipe) :
    (∀ i, r.Has n i → i < n) ∧
      (r.packed n).IsFaithful n (r.Has n) ∧
      (r.packed n).Agrees (r.chunkSet n) ∧
      ChunkSet.ofBytes (r.chunkSet n).toWire n =
        r.chunkSet n ∧
      ∀ r' : Recipe,
        (r.packed n = r'.packed n ↔
            ∀ i, r.Has n i ↔ r'.Has n i) ∧
          (r.chunkSet n = r'.chunkSet n ↔
            ∀ i, r.Has n i ↔ r'.Has n i) := by
  have hPacked := r.represents_packed n
  have hCount := r.chunkCount_chunkSet n
  refine ⟨hPacked.lt_of_mem, hPacked.isFaithful,
    hPacked.agrees hCount (r.has_chunkSet_iff n), ?_, ?_⟩
  · have hBack := ChunkSet.ofBytes_toWire (r.chunkSet n)
    rwa [hCount] at hBack
  · intro r'
    refine ⟨hPacked.eq_iff (r'.represents_packed n), ?_⟩
    constructor
    · intro hEq i
      rw [← r.has_chunkSet_iff n, hEq, r'.has_chunkSet_iff]
    · intro hSame
      apply ChunkSet.eq_of_has_eq
      · rw [hCount, r'.chunkCount_chunkSet]
      · intro i
        rw [Bool.eq_iff_iff, r.has_chunkSet_iff,
          r'.has_chunkSet_iff]
        exact hSame i

end PackedSet

end PeerShare
