import Mathlib.Data.List.DropRight
import Mathlib.Data.List.Pairwise
import Mathlib.Data.List.Sort
import PeerShare.Proofs.Packing

/-
  Packed sets as bytes that are masked.

  Flags are set, cleared and tested by masks of one bit, and
  a set is packed by setting one flag after another in bytes
  of zeros.  Two byte strings of one length with the same
  members are equal, so that it does not matter in which
  order this is done, and how often.

  Key definitions include:
    * `Packing.mask`
    * `Packing.raise`
    * `Packing.lower`
    * `Packing.raiseAll`
    * `Packing.scan`
    * `Packing.trimmed`
    * `Packing.Enumerates`
    * `Packing.HasBit`
    * `Packing.IsPacked`

  Key theorems include:
    * `Packing.eq_of_mem_toIndices_iff`
    * `Packing.mem_toIndices_raise`
    * `Packing.mem_toIndices_lower`
    * `Packing.toIndices_eq_scan`
    * `Packing.ofIndices_eq_raiseAll`
    * `Packing.ofIndices_toIndices`
    * `Packing.codec_exact`
    * `Packing.isPacked_iff`
-/

------------------------------------------------------------
-- Bits of Bytes
------------------------------------------------------------

namespace PeerShare

namespace Packing

/- The byte in which just flag `t` is set. -/
def mask
    (t : Nat) : UInt8 :=
  1 <<< UInt8.ofNat (7 - t)

theorem byteFlag_mask
    {s t : Nat}
    (hs : s < 8)
    (ht : t < 8) :
    byteFlag (mask s) t = decide (s = t) := by
  have hAll :
      ∀ s t : Fin 8,
        byteFlag (mask s) t = decide (s.val = t.val) := by
    decide
  exact hAll ⟨s, hs⟩ ⟨t, ht⟩

@[simp]
theorem byteFlag_zero
    (t : Nat) :
    byteFlag 0 t = false :=
  Nat.zero_testBit _

theorem byteFlag_or
    (a b : UInt8)
    (t : Nat) :
    byteFlag (a ||| b) t = (byteFlag a t || byteFlag b t) := by
  unfold byteFlag
  rw [UInt8.toNat_or, Nat.testBit_or]

theorem byteFlag_and
    (a b : UInt8)
    (t : Nat) :
    byteFlag (a &&& b) t = (byteFlag a t && byteFlag b t) := by
  unfold byteFlag
  rw [UInt8.toNat_and, Nat.testBit_and]

theorem byteFlag_not
    (a : UInt8)
    (t : Nat) :
    byteFlag (~~~a) t = !byteFlag a t := by
  have hBit : 7 - t < 8 := by omega
  unfold byteFlag
  rw [← UInt8.toNat_toBitVec, BitVec.testBit_toNat,
    ← UInt8.toNat_toBitVec, BitVec.testBit_toNat,
    UInt8.toBitVec_not, BitVec.getLsbD_not]
  simp [hBit]

/- A byte is known by its eight flags. -/
theorem eq_of_byteFlag_eq
    {a b : UInt8}
    (h : ∀ t < 8, byteFlag a t = byteFlag b t) :
    a = b := by
  apply UInt8.toNat_inj.mp
  apply Nat.eq_of_testBit_eq
  intro i
  by_cases hi : i < 8
  · have hFlag := h (7 - i) (by omega)
    have hBack : 7 - (7 - i) = i := by omega
    unfold byteFlag at hFlag
    rwa [hBack] at hFlag
  · have hPow : 2 ^ 8 ≤ 2 ^ i :=
      Nat.pow_le_pow_right (by decide) (Nat.le_of_not_lt hi)
    have hNone : ∀ c : UInt8, c.toNat.testBit i = false := by
      intro c
      exact Nat.testBit_lt_two_pow
        (Nat.lt_of_lt_of_le c.toNat_lt hPow)
    rw [hNone, hNone]

/- A flag is tested by shifting it to the end. -/
theorem shift_and_one_eq_iff
    {b : UInt8}
    {t : Nat}
    (ht : t < 8) :
    (b >>> UInt8.ofNat (7 - t)) &&& 1 = 1 ↔
      byteFlag b t = true := by
  have hShift : (UInt8.ofNat (7 - t)).toNat % 8 = 7 - t := by
    rw [UInt8.toNat_ofNat_of_lt' (by
      simp only [UInt8.size]
      omega)]
    omega
  rw [← UInt8.toNat_inj, UInt8.toNat_and,
    UInt8.toNat_shiftRight, hShift]
  unfold byteFlag
  rw [Nat.testBit_eq_decide_div_mod_eq, decide_eq_true_iff,
    ← Nat.shiftRight_eq_div_pow, ← Nat.and_one_is_mod]
  rfl

/- A flag is tested by masking all others. -/
theorem and_mask_eq_zero_iff
    {b : UInt8}
    {t : Nat}
    (ht : t < 8) :
    b &&& mask t = 0 ↔ byteFlag b t = false := by
  constructor
  · intro hZero
    have hFlag := congrArg (byteFlag · t) hZero
    simpa [byteFlag_and, byteFlag_mask ht ht] using hFlag
  · intro hFlag
    apply eq_of_byteFlag_eq
    intro s hs
    rw [byteFlag_and, byteFlag_mask ht hs, byteFlag_zero]
    by_cases hEq : t = s
    · rw [← hEq, hFlag, Bool.false_and]
    · rw [decide_eq_false hEq, Bool.and_false]

end Packing

end PeerShare

------------------------------------------------------------
-- Flags of Byte Strings
------------------------------------------------------------

namespace PeerShare

namespace Packing

/- Set a flag of a byte string. -/
def raise
    (bs : Bytes)
    (index : Nat) : Bytes :=
  bs.modify (index / 8) (· ||| mask (index % 8))

/- Clear a flag of a byte string. -/
def lower
    (bs : Bytes)
    (index : Nat) : Bytes :=
  bs.modify (index / 8) (· &&& ~~~mask (index % 8))

variable {bs cs : Bytes}
variable {i index : Nat}

@[simp]
theorem length_raise
    (bs : Bytes)
    (index : Nat) :
    (raise bs index).length = bs.length :=
  List.length_modify _ _ _

@[simp]
theorem length_lower
    (bs : Bytes)
    (index : Nat) :
    (lower bs index).length = bs.length :=
  List.length_modify _ _ _

theorem div_lt_of_mem
    (h : i ∈ toIndices bs) :
    i / 8 < bs.length := by
  rcases mem_toIndices_iff.mp h with ⟨b, hGet, -⟩
  exact (List.getElem?_eq_some_iff.mp hGet).1

/- The number of flag `t` of byte `j`. -/
theorem mem_toIndices_at
    {j t : Nat}
    (ht : t < 8) :
    8 * j + t ∈ toIndices bs ↔
      ∃ b, bs[j]? = some b ∧ byteFlag b t = true := by
  have hDiv : (8 * j + t) / 8 = j := by omega
  have hMod : (8 * j + t) % 8 = t := by omega
  rw [mem_toIndices_iff, hDiv, hMod]

/-
  Changing one byte changes the members that have their
  flags there, and no others.
-/
theorem mem_toIndices_modify
    {j : Nat}
    {f : UInt8 → UInt8} :
    i ∈ toIndices (bs.modify j f) ↔
      ∃ b,
        bs[i / 8]? = some b ∧
          byteFlag (if j = i / 8 then f b else b) (i % 8) =
            true := by
  simp only [mem_toIndices_iff, List.getElem?_modify,
    Option.map_eq_map, Option.map_eq_some_iff]
  constructor
  · rintro ⟨-, ⟨b, hGet, rfl⟩, hFlag⟩
    exact ⟨b, hGet, hFlag⟩
  · rintro ⟨b, hGet, hFlag⟩
    exact ⟨_, ⟨b, hGet, rfl⟩, hFlag⟩

/- Two numbers are one if their flags are at one place. -/
theorem eq_of_place_eq
    (hByte : index / 8 = i / 8)
    (hFlag : index % 8 = i % 8) :
    index = i := by
  omega

/- Setting a flag adds its number, if it has a place. -/
theorem mem_toIndices_raise :
    i ∈ toIndices (raise bs index) ↔
      i ∈ toIndices bs ∨ i = index ∧ i / 8 < bs.length := by
  have hMod : i % 8 < 8 := Nat.mod_lt i (by decide)
  have hMod' : index % 8 < 8 := Nat.mod_lt index (by decide)
  unfold raise
  rw [mem_toIndices_modify, mem_toIndices_iff]
  constructor
  · rintro ⟨b, hGet, hFlag⟩
    by_cases hByte : index / 8 = i / 8
    · rw [if_pos hByte, byteFlag_or, byteFlag_mask hMod' hMod,
        Bool.or_eq_true, decide_eq_true_iff] at hFlag
      rcases hFlag with hOld | hNew
      · exact Or.inl ⟨b, hGet, hOld⟩
      · exact Or.inr ⟨(eq_of_place_eq hByte hNew).symm,
          (List.getElem?_eq_some_iff.mp hGet).1⟩
    · rw [if_neg hByte] at hFlag
      exact Or.inl ⟨b, hGet, hFlag⟩
  · rintro (⟨b, hGet, hOld⟩ | ⟨rfl, hLt⟩)
    · refine ⟨b, hGet, ?_⟩
      split
      · rw [byteFlag_or, hOld, Bool.true_or]
      · exact hOld
    · refine ⟨_, List.getElem?_eq_getElem hLt, ?_⟩
      rw [if_pos rfl, byteFlag_or, byteFlag_mask hMod hMod,
        decide_eq_true rfl, Bool.or_true]

/- Clearing a flag removes just its number. -/
theorem mem_toIndices_lower :
    i ∈ toIndices (lower bs index) ↔
      i ∈ toIndices bs ∧ i ≠ index := by
  have hMod : i % 8 < 8 := Nat.mod_lt i (by decide)
  have hMod' : index % 8 < 8 := Nat.mod_lt index (by decide)
  unfold lower
  rw [mem_toIndices_modify, mem_toIndices_iff]
  constructor
  · rintro ⟨b, hGet, hFlag⟩
    by_cases hByte : index / 8 = i / 8
    · rw [if_pos hByte, byteFlag_and, byteFlag_not,
        byteFlag_mask hMod' hMod, Bool.and_eq_true,
        Bool.not_eq_true', decide_eq_false_iff_not] at hFlag
      refine ⟨⟨b, hGet, hFlag.1⟩, ?_⟩
      rintro rfl
      exact hFlag.2 rfl
    · rw [if_neg hByte] at hFlag
      refine ⟨⟨b, hGet, hFlag⟩, ?_⟩
      rintro rfl
      exact hByte rfl
  · rintro ⟨⟨b, hGet, hOld⟩, hNe⟩
    refine ⟨b, hGet, ?_⟩
    by_cases hByte : index / 8 = i / 8
    · have hFlag : index % 8 ≠ i % 8 := by
        intro hEq
        exact hNe (eq_of_place_eq hByte hEq).symm
      rw [if_pos hByte, byteFlag_and, byteFlag_not,
        byteFlag_mask hMod' hMod, hOld,
        decide_eq_false hFlag]
      rfl
    · rw [if_neg hByte]
      exact hOld

/- Byte strings are known by their length and members. -/
theorem eq_of_mem_toIndices_iff
    (hLength : bs.length = cs.length)
    (h : ∀ i, i ∈ toIndices bs ↔ i ∈ toIndices cs) :
    bs = cs := by
  apply List.ext_getElem hLength
  intro j hj hj'
  apply eq_of_byteFlag_eq
  intro t ht
  have hMem := h (8 * j + t)
  rw [mem_toIndices_at ht, mem_toIndices_at ht,
    List.getElem?_eq_getElem hj,
    List.getElem?_eq_getElem hj'] at hMem
  simpa [← Bool.eq_iff_iff] using hMem

@[simp]
theorem toIndices_zeros
    (n : Nat) :
    toIndices (List.replicate n 0) = [] := by
  apply List.eq_nil_iff_forall_not_mem.mpr
  intro i hi
  rcases mem_toIndices_iff.mp hi with ⟨b, hGet, hFlag⟩
  rcases List.getElem?_eq_some_iff.mp hGet with ⟨hLt, hZero⟩
  rw [List.getElem_replicate] at hZero
  rw [← hZero, byteFlag_zero] at hFlag
  cases hFlag

end Packing

end PeerShare

------------------------------------------------------------
-- Packing by Masks
------------------------------------------------------------

namespace PeerShare

namespace Packing

/-
  Bytes of zeros that reach to the largest of some numbers,
  in which the flags of all of them are set.
-/
def raiseAll
    (indices : List Nat) : Bytes :=
  indices.foldl raise
    (List.replicate (largest indices / 8 + 1) 0)

theorem length_foldl_raise
    (indices : List Nat)
    (bs : Bytes) :
    (indices.foldl raise bs).length = bs.length := by
  induction indices generalizing bs with
  | nil => rfl
  | cons index indices ih =>
      rw [List.foldl_cons, ih, length_raise]

/- Flags set one after another are all set. -/
theorem mem_toIndices_foldl_raise
    {indices : List Nat}
    {bs : Bytes}
    {i : Nat} :
    i ∈ toIndices (indices.foldl raise bs) ↔
      i ∈ toIndices bs ∨
        i ∈ indices ∧ i / 8 < bs.length := by
  induction indices generalizing bs with
  | nil => simp
  | cons index indices ih =>
      rw [List.foldl_cons, ih, mem_toIndices_raise,
        length_raise, List.mem_cons]
      tauto

theorem ofIndices_eq_raiseAll
    (indices : List Nat) :
    ofIndices indices = raiseAll indices := by
  unfold raiseAll
  apply eq_of_mem_toIndices_iff
  · rw [length_foldl_raise, length_ofIndices,
      List.length_replicate]
  · intro i
    rw [mem_toIndices_ofIndices, mem_toIndices_foldl_raise,
      toIndices_zeros, List.length_replicate]
    constructor
    · intro hMem
      have hLe := le_largest hMem
      exact Or.inr ⟨hMem, by omega⟩
    · rintro (hNil | ⟨hMem, -⟩)
      · cases hNil
      · exact hMem

/-
  The numbers of the flags that are set, found by testing
  the flags of the bytes that are not zero.
-/
def scan
    (bs : Bytes) : List Nat :=
  bs.zipIdx.flatMap fun (b, j) =>
    if b = 0 then []
    else
      ((List.range 8).filter fun t =>
        b &&& (0x80 >>> UInt8.ofNat t) ≠ 0).map (8 * j + ·)

/- Some numbers in increasing order, each of them once. -/
structure Enumerates
    (list : List Nat)
    (p : Nat → Prop) : Prop where
  sorted : list.Pairwise (· < ·)
  mem_iff : ∀ i, i ∈ list ↔ p i

theorem Enumerates.unique
    {list list' : List Nat}
    {p : Nat → Prop}
    (h : Enumerates list p)
    (h' : Enumerates list' p) :
    list = list' := by
  apply h.sorted.eq_of_mem_iff h'.sorted
  intro i
  rw [h.mem_iff, h'.mem_iff]

/- Positions go upwards in a row. -/
theorem pairwise_zipIdx
    {α : Type}
    (list : List α) :
    list.zipIdx.Pairwise fun a b => a.2 < b.2 := by
  have hRange :
      (list.zipIdx.map Prod.snd).Pairwise (· < ·) := by
    rw [List.zipIdx_map_snd]
    exact List.pairwise_lt_range' 1
  exact List.pairwise_map.mp hRange

theorem enumerates_positions
    (flags : List Bool) :
    Enumerates (positions flags)
      (fun i => flags[i]? = some true) where
  sorted := by
    unfold positions
    rw [List.pairwise_filterMap]
    apply (pairwise_zipIdx flags).imp
    rintro ⟨flag, j⟩ ⟨flag', j'⟩ hLt i hi i' hi'
    dsimp only at hLt hi hi'
    split at hi
    · split at hi'
      · cases hi
        cases hi'
        exact hLt
      · cases hi'
    · cases hi
  mem_iff i := mem_positions_iff

theorem enumerates_toIndices
    (bs : Bytes) :
    Enumerates (toIndices bs) (· ∈ toIndices bs) where
  sorted := (enumerates_positions _).sorted
  mem_iff _ := Iff.rfl

/- The mask that goes through a byte is the mask of a flag. -/
theorem shift_eq_mask
    {t : Nat}
    (ht : t < 8) :
    0x80 >>> UInt8.ofNat t = mask t := by
  have hAll :
      ∀ t : Fin 8, 0x80 >>> UInt8.ofNat t = mask t := by
    decide
  exact hAll ⟨t, ht⟩

/- A flag is found in the byte at its place. -/
theorem mem_scan_iff
    {bs : Bytes}
    {i : Nat} :
    i ∈ scan bs ↔
      ∃ b j t,
        bs[j]? = some b ∧ t < 8 ∧ byteFlag b t = true ∧
          8 * j + t = i := by
  unfold scan
  rw [List.mem_flatMap]
  constructor
  · rintro ⟨⟨b, j⟩, hGet, hMem⟩
    dsimp only at hMem
    split at hMem
    · cases hMem
    · simp only [List.mem_map, List.mem_filter,
        List.mem_range, decide_eq_true_iff] at hMem
      rcases hMem with ⟨t, ⟨ht, hFlag⟩, hEq⟩
      rw [shift_eq_mask ht] at hFlag
      refine ⟨b, j, t, ?_, ht, ?_, hEq⟩
      · exact List.mem_zipIdx_iff_getElem?.mp hGet
      · exact Bool.of_not_eq_false
          (mt (and_mask_eq_zero_iff ht).mpr hFlag)
  · rintro ⟨b, j, t, hGet, ht, hFlag, hEq⟩
    have hNonzero : b ≠ 0 := by
      rintro rfl
      rw [byteFlag_zero] at hFlag
      cases hFlag
    have hMask : b &&& 0x80 >>> UInt8.ofNat t ≠ 0 := by
      intro hZero
      rw [shift_eq_mask ht, and_mask_eq_zero_iff ht,
        hFlag] at hZero
      cases hZero
    refine ⟨(b, j), List.mem_zipIdx_iff_getElem?.mpr hGet, ?_⟩
    dsimp only
    rw [if_neg hNonzero]
    simp only [List.mem_map, List.mem_filter, List.mem_range,
      decide_eq_true_iff]
    exact ⟨t, ⟨ht, hMask⟩, hEq⟩

theorem enumerates_scan
    (bs : Bytes) :
    Enumerates (scan bs) (· ∈ toIndices bs) where
  sorted := by
    unfold scan
    rw [List.pairwise_flatMap]
    constructor
    · rintro ⟨b, j⟩ -
      dsimp only
      split
      · exact List.Pairwise.nil
      · apply List.pairwise_map.mpr
        apply List.Pairwise.filter
        apply List.pairwise_lt_range.imp
        intro t t' hLt
        exact Nat.add_lt_add_left hLt _
    · apply (pairwise_zipIdx bs).imp
      -- A flag of an earlier byte has a smaller number.
      rintro ⟨b, j⟩ ⟨b', j'⟩ hLt i hi i' hi'
      dsimp only at hLt hi hi'
      split at hi
      · cases hi
      · split at hi'
        · cases hi'
        · simp only [List.mem_map, List.mem_filter,
            List.mem_range] at hi hi'
          rcases hi with ⟨t, ⟨ht, -⟩, rfl⟩
          rcases hi' with ⟨t', ⟨ht', -⟩, rfl⟩
          omega
  mem_iff i := by
    rw [mem_scan_iff]
    constructor
    · rintro ⟨b, j, t, hGet, ht, hFlag, rfl⟩
      exact (mem_toIndices_at ht).mpr ⟨b, hGet, hFlag⟩
    · intro hMem
      rcases mem_toIndices_iff.mp hMem with ⟨b, hGet, hFlag⟩
      exact ⟨b, i / 8, i % 8, hGet, Nat.mod_lt i (by decide),
        hFlag, Nat.div_add_mod i 8⟩

theorem toIndices_eq_scan
    (bs : Bytes) :
    toIndices bs = scan bs :=
  (enumerates_toIndices bs).unique (enumerates_scan bs)

end Packing

end PeerShare

------------------------------------------------------------
-- There and Back
------------------------------------------------------------

namespace PeerShare

namespace Packing

/-
  A byte string without the zero bytes at its end; one zero
  byte if nothing is left.
-/
def trimmed
    (bs : Bytes) : Bytes :=
  match bs.rdropWhile (· == 0) with
  | [] => [0]
  | b :: front => b :: front

/- The largest of some numbers, or zero. -/
theorem largest_eq_max?
    (indices : List Nat) :
    largest indices = indices.max?.getD 0 := by
  cases indices with
  | nil => rfl
  | cons index indices =>
      rw [largest, List.foldl_cons, Nat.zero_max]
      rfl

theorem mem_toIndices_append_zero
    {bs : Bytes}
    {i : Nat} :
    i ∈ toIndices (bs ++ [0]) ↔ i ∈ toIndices bs := by
  rw [mem_toIndices_iff, mem_toIndices_iff]
  rcases Nat.lt_or_ge (i / 8) bs.length with hLt | hGe
  · rw [List.getElem?_append_left hLt]
  · rw [List.getElem?_append_right hGe,
      List.getElem?_eq_none hGe]
    constructor
    · rintro ⟨b, hGet, hFlag⟩
      have hZero : b = 0 :=
        List.mem_singleton.mp (List.mem_of_getElem? hGet)
      rw [hZero, byteFlag_zero] at hFlag
      cases hFlag
    · rintro ⟨b, hGet, -⟩
      cases hGet

/- Zero bytes at the end hold no members. -/
theorem toIndices_rdropWhile
    (bs : Bytes) :
    toIndices (bs.rdropWhile (· == 0)) = toIndices bs := by
  apply (enumerates_toIndices _).unique
  refine ⟨(enumerates_toIndices bs).sorted, ?_⟩
  intro i
  induction bs using List.reverseRecOn with
  | nil => rfl
  | append_singleton bs b ih =>
      rw [List.rdropWhile_concat]
      split
      · rename_i hZero
        rw [eq_of_beq hZero, mem_toIndices_append_zero]
        exact ih
      · rfl

/- A byte that is not zero has a flag that is set. -/
theorem exists_byteFlag
    {b : UInt8}
    (h : b ≠ 0) :
    ∃ t < 8, byteFlag b t = true := by
  by_contra hNone
  apply h
  apply eq_of_byteFlag_eq
  intro t ht
  rw [byteFlag_zero]
  apply Bool.eq_false_iff.mpr
  intro hFlag
  exact hNone ⟨t, ht, hFlag⟩

/- Bytes that do not end with zero come back as they were. -/
theorem ofIndices_toIndices_of_getLast
    {bs : Bytes}
    (hNonempty : bs ≠ [])
    (hLast : bs.getLast hNonempty ≠ 0) :
    ofIndices (toIndices bs) = bs := by
  have hPos := List.length_pos_iff.mpr hNonempty
  rcases exists_byteFlag hLast with ⟨t, ht, hFlag⟩
  have hGet :
      bs[bs.length - 1]? = some (bs.getLast hNonempty) := by
    rw [← List.getLast?_eq_getElem?,
      List.getLast?_eq_getLast_of_ne_nil hNonempty]
  have hTop : 8 * (bs.length - 1) + t ∈ toIndices bs :=
    (mem_toIndices_at ht).mpr ⟨_, hGet, hFlag⟩
  have hLow := le_largest hTop
  have hHigh : largest (toIndices bs) ≤ 8 * bs.length - 1 := by
    apply largest_le
    intro i hi
    have := div_lt_of_mem hi
    omega
  apply eq_of_mem_toIndices_iff
  · rw [length_ofIndices]
    omega
  · exact fun i => mem_toIndices_ofIndices

/- Only the zero bytes at the end are lost. -/
theorem ofIndices_toIndices
    (bs : Bytes) :
    ofIndices (toIndices bs) = trimmed bs := by
  rw [← toIndices_rdropWhile]
  unfold trimmed
  have hLast := List.rdropWhile_last_not (· == (0 : UInt8)) bs
  split
  · rename_i hNil
    rw [hNil]
    rfl
  · rename_i b front hFront
    rw [hFront] at hLast ⊢
    apply ofIndices_toIndices_of_getLast (List.cons_ne_nil b front)
    intro hZero
    exact hLast (List.cons_ne_nil b front) (beq_iff_eq.mpr hZero)

/- Two sets are packed alike just if they are the same. -/
theorem ofIndices_eq_iff
    {indices indices' : List Nat} :
    ofIndices indices = ofIndices indices' ↔
      ∀ i, i ∈ indices ↔ i ∈ indices' := by
  constructor
  · intro hEq i
    rw [← mem_toIndices_ofIndices, hEq,
      mem_toIndices_ofIndices]
  · intro hSame
    have hLe :
        ∀ list list' : List Nat,
          (∀ i ∈ list, i ∈ list') →
          largest list ≤ largest list' := by
      intro list list' hSub
      exact largest_le fun i hi => le_largest (hSub i hi)
    have hLargest : largest indices = largest indices' :=
      Nat.le_antisymm
        (hLe _ _ fun i => (hSame i).mp)
        (hLe _ _ fun i => (hSame i).mpr)
    apply eq_of_mem_toIndices_iff
    · rw [length_ofIndices, length_ofIndices, hLargest]
    · intro i
      rw [mem_toIndices_ofIndices, mem_toIndices_ofIndices]
      exact hSame i

/-
  Packed numbers come back in increasing order, each once,
  from as many bytes as the largest of them needs, and the
  bytes depend on nothing but which numbers there are.  Any
  bytes hold just the numbers of their set bits, and come
  back without the zero bytes at their end.  Masking the
  bits one by one gives the same in both directions.
-/
theorem codec_exact :
    (∀ indices : List Nat,
      Enumerates (toIndices (ofIndices indices))
          (· ∈ indices) ∧
        (ofIndices indices).length =
          indices.max?.getD 0 / 8 + 1 ∧
        ofIndices indices = raiseAll indices ∧
        ∀ indices' : List Nat,
          ofIndices indices = ofIndices indices' ↔
            ∀ i, i ∈ indices ↔ i ∈ indices') ∧
      ∀ bs : Bytes,
        Enumerates (toIndices bs)
            (fun i =>
              ∃ b,
                bs[i / 8]? = some b ∧
                  b.toNat.testBit (7 - i % 8) = true) ∧
          toIndices bs = scan bs ∧
          ofIndices (toIndices bs) = trimmed bs := by
  refine ⟨?_, ?_⟩
  · intro indices
    refine ⟨⟨(enumerates_toIndices _).sorted, ?_⟩, ?_, ?_, ?_⟩
    · exact fun i => mem_toIndices_ofIndices
    · rw [length_ofIndices, largest_eq_max?]
    · exact ofIndices_eq_raiseAll indices
    · exact fun indices' => ofIndices_eq_iff
  · intro bs
    refine ⟨⟨(enumerates_toIndices bs).sorted, ?_⟩, ?_, ?_⟩
    · exact fun i => mem_toIndices_iff
    · exact toIndices_eq_scan bs
    · exact ofIndices_toIndices bs

end Packing

end PeerShare

------------------------------------------------------------
-- Packed Forms
------------------------------------------------------------

namespace PeerShare

namespace Packing

/- Whether bit `i` is set, counted from the highest bit. -/
def HasBit
    (bs : Bytes)
    (i : Nat) : Prop :=
  ∃ b,
    bs[i / 8]? = some b ∧
      b.toNat.testBit (7 - i % 8) = true

/-
  Whether bytes are the packed form of some numbers: the
  bits of these are set and no others, and the bytes end
  with that of one of the numbers, or there is one byte.
-/
structure IsPacked
    (bs : Bytes)
    (members : Nat → Prop) : Prop where
  hasBit_iff : ∀ i, HasBit bs i ↔ members i
  length_eq :
    bs.length = 1 ∨
      ∃ i, members i ∧ bs.length = i / 8 + 1

theorem mem_toIndices_iff_hasBit
    {bs : Bytes}
    {i : Nat} :
    i ∈ toIndices bs ↔ HasBit bs i :=
  mem_toIndices_iff

variable {bs bs' : Bytes}
variable {members : Nat → Prop}

/- The other bytes hold every member, so they reach as far. -/
theorem IsPacked.length_le
    (h : IsPacked bs members)
    (h' : IsPacked bs' members) :
    bs.length ≤ bs'.length := by
  rcases h.length_eq with hOne | ⟨i, hMember, hLength⟩
  · rcases h'.length_eq with hOne' | ⟨i, -, hLength'⟩
    · omega
    · omega
  · have hMem :=
      mem_toIndices_iff_hasBit.mpr
        ((h'.hasBit_iff i).mpr hMember)
    have := div_lt_of_mem hMem
    omega

/- Some numbers have one packed form. -/
theorem IsPacked.unique
    (h : IsPacked bs members)
    (h' : IsPacked bs' members) :
    bs = bs' := by
  apply eq_of_mem_toIndices_iff
  · exact Nat.le_antisymm (h.length_le h') (h'.length_le h)
  · intro i
    rw [mem_toIndices_iff_hasBit, mem_toIndices_iff_hasBit,
      h.hasBit_iff, h'.hasBit_iff]

theorem isPacked_ofIndices
    (indices : List Nat) :
    IsPacked (ofIndices indices) (· ∈ indices) where
  hasBit_iff i := by
    rw [← mem_toIndices_iff_hasBit, mem_toIndices_ofIndices]
  length_eq := by
    rw [length_ofIndices, largest_eq_max?]
    cases hMax : indices.max? with
    | none => exact Or.inl rfl
    | some i => exact Or.inr ⟨i, List.max?_mem hMax, rfl⟩

/- Packing gives the packed form and nothing else does. -/
theorem isPacked_iff
    {indices : List Nat} :
    IsPacked bs (· ∈ indices) ↔ bs = ofIndices indices := by
  constructor
  · exact fun h => h.unique (isPacked_ofIndices indices)
  · rintro rfl
    exact isPacked_ofIndices indices

end Packing

/- A set is sent as the packed form of its members. -/
theorem ChunkSet.isPacked_toWire
    {s : ChunkSet}
    {members : Nat → Prop}
    (h : ∀ i, s.has i = true ↔ members i) :
    Packing.IsPacked s.toWire members := by
  have hMembers : (· ∈ s.members) = members := by
    funext i
    rw [mem_members_iff, h]
  rw [← hMembers]
  exact Packing.isPacked_ofIndices s.members

end PeerShare
