import PeerShare.Packing

/-
  Sets of chunks of one file.

  A set holds one flag for each chunk of the file, so it has
  no members past the last chunk, and two sets of chunks of
  the same file with the same members are equal.

  Key definitions include:
    * `ChunkSet`
    * `ChunkSet.empty`
    * `ChunkSet.full`
    * `ChunkSet.ofBytes`
    * `ChunkSet.ofIndices`
    * `ChunkSet.has`
    * `ChunkSet.insert`
    * `ChunkSet.erase`
    * `ChunkSet.members`
    * `ChunkSet.toWire`

  Key theorems include:
    * `ChunkSet.has_insert`
    * `ChunkSet.has_erase`
    * `ChunkSet.isEmpty_iff`
    * `ChunkSet.mem_members_iff`
    * `ChunkSet.eq_of_has_eq`
-/

------------------------------------------------------------
-- Sets
------------------------------------------------------------

namespace PeerShare

/- A set of chunks: one flag for each chunk of a file. -/
structure ChunkSet where
  flags : Array Bool
  deriving DecidableEq

namespace ChunkSet

/- The number of chunks of the file. -/
def chunkCount
    (s : ChunkSet) : Nat :=
  s.flags.size

/- The set without members. -/
def empty
    (chunkCount : Nat) : ChunkSet where
  flags := Array.replicate chunkCount false

/- The set of all chunks. -/
def full
    (chunkCount : Nat) : ChunkSet where
  flags := Array.replicate chunkCount true

/- Whether a chunk is a member. -/
def has
    (s : ChunkSet)
    (index : Nat) : Bool :=
  s.flags.getD index false

/- Add a chunk.  Numbers past the last chunk are ignored. -/
def insert
    (s : ChunkSet)
    (index : Nat) : ChunkSet where
  flags := s.flags.setIfInBounds index true

/- Remove a chunk. -/
def erase
    (s : ChunkSet)
    (index : Nat) : ChunkSet where
  flags := s.flags.setIfInBounds index false

/- The set of the listed chunks. -/
def ofIndices
    (indices : List Nat)
    (chunkCount : Nat) : ChunkSet where
  flags := Packing.marks chunkCount indices

/-
  The set with the given packed flags.  Flags past the last
  chunk are dropped and missing flags are not set.
-/
def ofBytes
    (bs : Bytes)
    (chunkCount : Nat) : ChunkSet where
  flags :=
    ((Packing.unpack bs).rightpad chunkCount false
      |>.take chunkCount).toArray

/- The members in increasing order. -/
def members
    (s : ChunkSet) : List Nat :=
  Packing.positions s.flags.toList

/- The number of members. -/
def card
    (s : ChunkSet) : Nat :=
  s.flags.toList.count true

/- Whether every chunk is a member. -/
def isFull
    (s : ChunkSet) : Bool :=
  s.card == s.chunkCount

/- Whether no chunk is a member. -/
def isEmpty
    (s : ChunkSet) : Bool :=
  s.flags.toList.all fun flag => !flag

/- The packed flags of all chunks. -/
def toBytes
    (s : ChunkSet) : Bytes :=
  Packing.pack s.flags

/-
  The packed form of the members, without the zero bytes
  past the last of them.
-/
def toWire
    (s : ChunkSet) : Bytes :=
  Packing.ofIndices s.members

end ChunkSet

end PeerShare

------------------------------------------------------------
-- Membership
------------------------------------------------------------

namespace PeerShare

namespace ChunkSet

theorem has_eq_getElem?
    (s : ChunkSet)
    (index : Nat) :
    s.has index = s.flags[index]?.getD false := by
  simp [has, Array.getD_eq_getD_getElem?]

theorem lt_of_has
    {s : ChunkSet}
    {index : Nat}
    (h : s.has index = true) :
    index < s.chunkCount := by
  apply Nat.lt_of_not_le
  intro hLe
  have hNone : s.flags[index]? = none :=
    Array.getElem?_eq_none hLe
  rw [has_eq_getElem?, hNone] at h
  cases h

@[simp]
theorem has_empty
    (chunkCount index : Nat) :
    (empty chunkCount).has index = false := by
  rw [has_eq_getElem?, empty, Array.getElem?_replicate]
  split <;> rfl

theorem has_full
    (chunkCount index : Nat) :
    (full chunkCount).has index = decide (index < chunkCount) := by
  rw [has_eq_getElem?, full, Array.getElem?_replicate]
  split <;> simp_all

@[simp]
theorem chunkCount_insert
    (s : ChunkSet)
    (index : Nat) :
    (s.insert index).chunkCount = s.chunkCount := by
  simp [insert, chunkCount]

@[simp]
theorem chunkCount_erase
    (s : ChunkSet)
    (index : Nat) :
    (s.erase index).chunkCount = s.chunkCount := by
  simp [erase, chunkCount]

@[simp]
theorem chunkCount_empty
    (n : Nat) :
    (empty n).chunkCount = n := by
  simp [empty, chunkCount]

@[simp]
theorem chunkCount_full
    (n : Nat) :
    (full n).chunkCount = n := by
  simp [full, chunkCount]

@[simp]
theorem chunkCount_ofBytes
    (bs : Bytes)
    (n : Nat) :
    (ofBytes bs n).chunkCount = n := by
  simp only [ofBytes, chunkCount, List.size_toArray,
    List.length_take, List.length_rightpad]
  omega

/- Inserting adds the chunk, if there is such a chunk. -/
theorem has_insert
    (s : ChunkSet)
    (index i : Nat) :
    (s.insert index).has i =
      if i = index ∧ i < s.chunkCount then true
      else s.has i := by
  rw [has_eq_getElem?, has_eq_getElem?, insert,
    Array.getElem?_setIfInBounds, chunkCount]
  by_cases hEq : index = i
  · subst hEq
    by_cases hLt : index < s.flags.size
    · simp [hLt]
    · simp [hLt]
  · simp [hEq, Ne.symm hEq]

/- Erasing removes just the chunk. -/
theorem has_erase
    (s : ChunkSet)
    (index i : Nat) :
    (s.erase index).has i =
      if i = index then false else s.has i := by
  rw [has_eq_getElem?, has_eq_getElem?, erase,
    Array.getElem?_setIfInBounds]
  by_cases hEq : index = i
  · subst hEq
    by_cases hLt : index < s.flags.size
    · simp [hLt]
    · simp [hLt]
  · simp [hEq, Ne.symm hEq]

/- A set is empty just if no chunk is a member. -/
theorem isEmpty_iff
    {s : ChunkSet} :
    s.isEmpty = true ↔ ∀ index, s.has index = false := by
  unfold isEmpty
  rw [List.all_eq_true]
  constructor
  · intro h index
    rw [has_eq_getElem?]
    cases hFlag : s.flags[index]? with
    | none => rfl
    | some flag =>
        have hMem : flag ∈ s.flags.toList :=
          Array.mem_toList_iff.mpr (Array.mem_of_getElem? hFlag)
        simpa using h flag hMem
  · intro h flag hMem
    rcases Array.mem_iff_getElem?.mp
      (Array.mem_toList_iff.mp hMem) with ⟨index, hFlag⟩
    have hHas := h index
    rw [has_eq_getElem?, hFlag] at hHas
    simpa using hHas

/- The members are the chunks of the set. -/
theorem mem_members_iff
    {s : ChunkSet}
    {index : Nat} :
    index ∈ s.members ↔ s.has index = true := by
  rw [members, Packing.mem_positions_iff, has_eq_getElem?,
    Array.getElem?_toList]
  cases s.flags[index]? with
  | none => simp
  | some flag => simp

/- Sets over the same chunks with the same members. -/
theorem eq_of_has_eq
    {s t : ChunkSet}
    (hCount : s.chunkCount = t.chunkCount)
    (h : ∀ index, s.has index = t.has index) :
    s = t := by
  rcases s with ⟨fs⟩
  rcases t with ⟨gs⟩
  congr 1
  apply Array.ext hCount
  intro i hi hi'
  have hHas := h i
  rw [has_eq_getElem?, has_eq_getElem?,
    Array.getElem?_eq_getElem hi,
    Array.getElem?_eq_getElem hi'] at hHas
  exact hHas

end ChunkSet

end PeerShare
