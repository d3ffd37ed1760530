import PeerShare.ChunkSet

/-
  Packing loses no members.

  Key definitions include:
    * `ChunkSet.IsCanonical`

  Key theorems include:
    * `Packing.byteFlag_byteOf`
    * `Packing.mem_toIndices_pack`
    * `Packing.mem_toIndices_ofIndices`
    * `ChunkSet.has_ofIndices`
    * `ChunkSet.has_ofBytes`
    * `ChunkSet.mem_toIndices_toWire`
    * `ChunkSet.isCanonical_of_chunkCount_eq`
-/

------------------------------------------------------------
-- Flags
------------------------------------------------------------

namespace PeerShare

namespace Packing

/- The flags of a byte are those it was made of. -/
theorem byteFlag_byteOf
    (flag : Nat → Bool)
    {t : Nat}
    (h : t < 8) :
    byteFlag (byteOf flag) t = flag t := by
  have hAll :
      ∀ b₀ b₁ b₂ b₃ b₄ b₅ b₆ b₇ : Bool,
        let flags := [b₀, b₁, b₂, b₃, b₄, b₅, b₆, b₇]
        ∀ t : Fin 8,
          byteFlag (byteOf fun k => flags.getD k false) t =
            flags.getD t false := by
    decide
  have hEight :=
    hAll (flag 0) (flag 1) (flag 2) (flag 3) (flag 4) (flag 5)
      (flag 6) (flag 7) ⟨t, h⟩
  -- Only the first eight flags make the byte.
  have hByte :
      (byteOf fun k =>
          [flag 0, flag 1, flag 2, flag 3, flag 4, flag 5,
            flag 6, flag 7].getD k false) = byteOf flag := rfl
  rw [hByte] at hEight
  rw [hEight]
  have hCases :
      t = 0 ∨ t = 1 ∨ t = 2 ∨ t = 3 ∨ t = 4 ∨ t = 5 ∨ t = 6 ∨
        t = 7 := by
    omega
  rcases hCases with
    rfl | rfl | rfl | rfl | rfl | rfl | rfl | rfl <;> rfl

/- The members of packed flags are the flags that are set. -/
theorem mem_toIndices_pack
    {flags : Array Bool}
    {i : Nat} :
    i ∈ toIndices (pack flags) ↔
      flags.getD i false = true := by
  have hFlag :
      ∀ b, (pack flags)[i / 8]? = some b →
        byteFlag b (i % 8) = flags.getD i false := by
    intro b hGet
    unfold pack at hGet
    rw [List.getElem?_map, Option.map_eq_some_iff] at hGet
    rcases hGet with ⟨j, hRange, rfl⟩
    rcases List.getElem?_eq_some_iff.mp hRange with ⟨_, hj⟩
    rw [List.getElem_range] at hj
    rw [byteFlag_byteOf _ (Nat.mod_lt i (by omega)), ← hj,
      Nat.div_add_mod]
  rw [mem_toIndices_iff]
  constructor
  · rintro ⟨b, hGet, hSet⟩
    rw [← hFlag b hGet]
    exact hSet
  · intro hSet
    have hLt : i < flags.size := by
      apply Nat.lt_of_not_le
      intro hLe
      rw [Array.getD_eq_getD_getElem?,
        Array.getElem?_eq_none hLe] at hSet
      cases hSet
    have hByte : i / 8 < (pack flags).length := by
      rw [length_pack]
      omega
    have hGet := List.getElem?_eq_getElem hByte
    refine ⟨_, hGet, ?_⟩
    rw [hFlag _ hGet]
    exact hSet

end Packing

end PeerShare

------------------------------------------------------------
-- Sets of Numbers
------------------------------------------------------------

namespace PeerShare

namespace Packing

/- Setting flags one after another sets all of them. -/
theorem getD_foldl_setIfInBounds
    (flags : Array Bool)
    (indices : List Nat)
    (i : Nat) :
    (indices.foldl
        (fun flags i => flags.setIfInBounds i true)
        flags).getD i false =
      (flags.getD i false ||
        decide (i ∈ indices ∧ i < flags.size)) := by
  induction indices generalizing flags with
  | nil => simp
  | cons k indices ih =>
      rw [List.foldl_cons, ih, Array.size_setIfInBounds,
        Array.getD_eq_getD_getElem?,
        Array.getD_eq_getD_getElem?,
        Array.getElem?_setIfInBounds]
      by_cases hk : k = i
      · subst hk
        by_cases hLt : k < flags.size
        · simp [hLt]
        · simp [hLt]
      · simp [hk, Ne.symm hk]

/- A flag is set just if its number is listed. -/
theorem getD_marks
    (size : Nat)
    (indices : List Nat)
    (i : Nat) :
    (marks size indices).getD i false =
      decide (i ∈ indices ∧ i < size) := by
  unfold marks
  rw [getD_foldl_setIfInBounds, Array.getD_eq_getD_getElem?,
    Array.getElem?_replicate, Array.size_replicate]
  split
  · rfl
  · rfl

theorem size_marks
    (size : Nat)
    (indices : List Nat) :
    (marks size indices).size = size := by
  have hFold :
      ∀ flags : Array Bool,
        (indices.foldl
          (fun flags i => flags.setIfInBounds i true)
          flags).size = flags.size := by
    induction indices with
    | nil => exact fun _ => rfl
    | cons k indices ih =>
        intro flags
        rw [List.foldl_cons, ih, Array.size_setIfInBounds]
  unfold marks
  rw [hFold, Array.size_replicate]

theorem le_foldl_max
    (indices : List Nat)
    (n : Nat) :
    n ≤ indices.foldl max n ∧
      ∀ i ∈ indices, i ≤ indices.foldl max n := by
  induction indices generalizing n with
  | nil => simp
  | cons k indices ih =>
      rcases ih (max n k) with ⟨hStart, hAll⟩
      rw [List.foldl_cons]
      refine ⟨by omega, ?_⟩
      intro i hi
      rcases List.mem_cons.mp hi with rfl | hi
      · omega
      · exact hAll i hi

theorem le_largest
    {indices : List Nat}
    {i : Nat}
    (h : i ∈ indices) :
    i ≤ largest indices :=
  (le_foldl_max indices 0).2 i h

theorem largest_le
    {indices : List Nat}
    {n : Nat}
    (h : ∀ i ∈ indices, i ≤ n) :
    largest indices ≤ n := by
  have hFold :
      ∀ start ≤ n, indices.foldl max start ≤ n := by
    induction indices with
    | nil => exact fun _ hStart => hStart
    | cons k indices ih =>
        rcases List.forall_mem_cons.mp h with ⟨hk, hLater⟩
        intro start hStart
        exact ih hLater _ (Nat.max_le.mpr ⟨hStart, hk⟩)
  exact hFold 0 (Nat.zero_le n)

/- The bytes reach just to the largest number. -/
theorem length_ofIndices
    (indices : List Nat) :
    (ofIndices indices).length = largest indices / 8 + 1 := by
  rw [ofIndices, length_pack, size_marks]
  omega

/- Packing a set of numbers loses none of them. -/
theorem mem_toIndices_ofIndices
    {indices : List Nat}
    {i : Nat} :
    i ∈ toIndices (ofIndices indices) ↔ i ∈ indices := by
  unfold ofIndices
  rw [mem_toIndices_pack, getD_marks, decide_eq_true_iff]
  constructor
  · exact And.left
  · intro hMem
    have hLe := le_largest hMem
    exact ⟨hMem, by omega⟩

end Packing

namespace ChunkSet

theorem has_ofIndices
    (indices : List Nat)
    (chunkCount i : Nat) :
    (ofIndices indices chunkCount).has i =
      decide (i ∈ indices ∧ i < chunkCount) :=
  Packing.getD_marks chunkCount indices i

@[simp]
theorem chunkCount_ofIndices
    (indices : List Nat)
    (n : Nat) :
    (ofIndices indices n).chunkCount = n :=
  Packing.size_marks n indices

/- A packed flag counts just if there is such a chunk. -/
theorem has_ofBytes
    (bs : Bytes)
    (chunkCount i : Nat) :
    (ofBytes bs chunkCount).has i =
      decide (i ∈ Packing.toIndices bs ∧ i < chunkCount) := by
  rw [Bool.eq_iff_iff, decide_eq_true_iff, has_eq_getElem?,
    ofBytes, List.getElem?_toArray, Packing.toIndices,
    Packing.mem_positions_iff, List.rightpad]
  by_cases hi : i < chunkCount
  · rw [List.getElem?_take_of_lt hi]
    by_cases hLt : i < (Packing.unpack bs).length
    · rw [List.getElem?_append_left hLt,
        List.getElem?_eq_getElem hLt]
      simp [hi]
    · have hLe := Nat.le_of_not_lt hLt
      rw [List.getElem?_append_right hLe,
        List.getElem?_eq_none hLe, List.getElem?_replicate]
      split <;> simp
  · rw [List.getElem?_take_eq_none (Nat.le_of_not_lt hi)]
    simp [hi]

/- The packed form of a set has the same members. -/
theorem mem_toIndices_toWire
    {s : ChunkSet}
    {i : Nat} :
    i ∈ Packing.toIndices s.toWire ↔ s.has i = true := by
  unfold toWire
  rw [Packing.mem_toIndices_ofIndices, mem_members_iff]

/- A set comes back from its packed form. -/
theorem ofBytes_toWire
    (s : ChunkSet) :
    ofBytes s.toWire s.chunkCount = s := by
  apply eq_of_has_eq (chunkCount_ofBytes _ _)
  intro i
  rw [has_ofBytes, Bool.eq_iff_iff, decide_eq_true_iff,
    mem_toIndices_toWire]
  exact ⟨And.left, fun hHas => ⟨hHas, lt_of_has hHas⟩⟩

theorem length_toWire_full
    {n : Nat}
    (h : 0 < n) :
    (full n).toWire.length = (n - 1) / 8 + 1 := by
  have hMem :
      ∀ i, i ∈ (full n).members ↔ i < n := by
    intro i
    rw [mem_members_iff, has_full, decide_eq_true_iff]
  have hLargest : Packing.largest (full n).members = n - 1 := by
    apply Nat.le_antisymm
    · apply Packing.largest_le
      intro i hi
      have := (hMem i).mp hi
      omega
    · exact Packing.le_largest ((hMem _).mpr (by omega))
  rw [toWire, Packing.length_ofIndices, hLargest]

/-
  A set is canonical for a number of chunks when its packed
  flags fill just the bytes that this number needs, and no
  flag past the last chunk is set.
-/
structure IsCanonical
    (s : ChunkSet)
    (chunkCount : Nat) : Prop where
  chunkCount_eq : s.chunkCount = chunkCount
  length_eq : s.toBytes.length = (chunkCount + 7) / 8
  lt_chunkCount :
    ∀ i ∈ Packing.toIndices s.toBytes, i < chunkCount
  ofBytes_toBytes : ofBytes s.toBytes chunkCount = s

theorem isCanonical_of_chunkCount_eq
    {s : ChunkSet}
    {n : Nat}
    (h : s.chunkCount = n) :
    s.IsCanonical n where
  chunkCount_eq := h
  length_eq := by
    rw [← h]
    exact Packing.length_pack s.flags
  lt_chunkCount i hi := by
    rw [← h]
    exact lt_of_has (Packing.mem_toIndices_pack.mp hi)
  ofBytes_toBytes := by
    apply eq_of_has_eq
    · rw [chunkCount_ofBytes, h]
    · intro i
      rw [has_ofBytes, Bool.eq_iff_iff, decide_eq_true_iff,
        toBytes, Packing.mem_toIndices_pack]
      constructor
      · exact And.left
      · intro hHas
        exact ⟨hHas, h ▸ lt_of_has hHas⟩

end ChunkSet

end PeerShare
