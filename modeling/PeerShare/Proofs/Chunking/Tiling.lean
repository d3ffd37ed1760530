import PeerShare.FileRecord

/-
  The chunks of a file lie side by side and cover it.

  Key definitions include:
    * `Chunking.InChunk`
    * `Chunking.Tiles`

  Key theorems include:
    * `Chunking.chunkStart_add_chunkLength_le`
    * `Chunking.chunk_le_chunkStart`
    * `Chunking.tiles_of_pos`
    * `Chunking.eq_of_chunks_eq`
    * `FileRecord.getElem?_chunksOf`
-/

------------------------------------------------------------
-- Ranges
------------------------------------------------------------

namespace PeerShare

namespace Chunking

/- A chunk ends before any later chunk starts. -/
theorem chunk_le_chunkStart
    {i j : Nat}
    (size : Nat)
    (h : i < j) :
    chunkStart size i + chunkLength size i ≤
      chunkStart size j := by
  have hMul : (i + 1) * chunkSize size ≤ j * chunkSize size :=
    Nat.mul_le_mul_right _ h
  have hSucc :
      (i + 1) * chunkSize size =
        i * chunkSize size + chunkSize size :=
    Nat.succ_mul _ _
  simp only [chunkStart, chunkLength]
  omega

/- A chunk within the count ends within the file. -/
theorem chunkStart_add_chunkLength_le
    {size index : Nat}
    (h : index < chunkCount size) :
    chunkStart size index + chunkLength size index ≤ size := by
  have hStart := lt_chunkCount_iff.mp h
  simp only [chunkLength]
  omega

/- Every byte of a file lies in a chunk. -/
theorem exists_chunk_of_lt
    {size k : Nat}
    (h : k < size) :
    ∃ index < chunkCount size,
      chunkStart size index ≤ k ∧
        k < chunkStart size index +
          chunkLength size index := by
  have hPos : 0 < chunkSize size :=
    chunkSize_pos (by omega)
  have hMod := Nat.mod_lt k hPos
  have hDiv := Nat.div_add_mod k (chunkSize size)
  rw [Nat.mul_comm] at hDiv
  have hStart :
      chunkStart size (k / chunkSize size) ≤ k := by
    simp only [chunkStart]
    omega
  refine ⟨k / chunkSize size, ?_, hStart, ?_⟩
  · apply lt_chunkCount_iff.mpr
    omega
  · simp only [chunkStart, chunkLength] at hStart ⊢
    omega

/- Byte `k` of a file of `size` bytes lies in a chunk. -/
def InChunk
    (size index k : Nat) : Prop :=
  chunkStart size index ≤ k ∧
    k < chunkStart size index + chunkLength size index

/- No byte lies in two chunks. -/
theorem InChunk.unique
    {size i j k : Nat}
    (hi : InChunk size i k)
    (hj : InChunk size j k) :
    i = j := by
  rcases hi with ⟨hLow, hHigh⟩
  rcases hj with ⟨hLow', hHigh'⟩
  rcases Nat.lt_trichotomy i j with hLt | hEq | hGt
  · have := chunk_le_chunkStart size hLt
    omega
  · exact hEq
  · have := chunk_le_chunkStart size hGt
    omega

/- A chunk ends where the next one would start, or short. -/
theorem chunkStart_succ
    (size index : Nat) :
    chunkStart size (index + 1) =
      chunkStart size index + chunkSize size :=
  Nat.succ_mul index (chunkSize size)

theorem chunkLength_of_succ_lt
    {size index : Nat}
    (h : index + 1 < chunkCount size) :
    chunkLength size index = chunkSize size := by
  have hStart := lt_chunkCount_iff.mp h
  rw [chunkStart_succ] at hStart
  simp only [chunkLength]
  omega

/- The last chunk ends where the file ends. -/
theorem chunkStart_add_chunkLength_last
    {size index : Nat}
    (h : index + 1 = chunkCount size) :
    chunkStart size index + chunkLength size index = size := by
  have hStart : chunkStart size index < size :=
    lt_chunkCount_iff.mp (by omega)
  have hNext : ¬ chunkStart size (index + 1) < size := by
    intro hLt
    have := lt_chunkCount_iff.mpr hLt
    omega
  rw [chunkStart_succ] at hNext
  simp only [chunkLength]
  omega

/-
  The chunks of a file of `size` bytes: there are some and
  not too many of them, none is empty, they follow one
  another from the start of the file to its end, and every
  byte of the file lies in just one of them.
-/
structure Tiles
    (size : Nat) : Prop where
  chunkSize_pos : 0 < chunkSize size
  dvd_chunkSize : 16000 ∣ chunkSize size
  chunkCount_pos : 1 ≤ chunkCount size
  chunkCount_le : chunkCount size ≤ 65536
  chunkLength_pos :
    ∀ i < chunkCount size, 0 < chunkLength size i
  chunkLength_eq :
    ∀ i,
      i + 1 < chunkCount size →
      chunkLength size i = chunkSize size
  chunkStart_zero : chunkStart size 0 = 0
  chunkStart_succ :
    ∀ i,
      i + 1 < chunkCount size →
      chunkStart size (i + 1) =
        chunkStart size i + chunkLength size i
  end_eq :
    ∀ i,
      i + 1 = chunkCount size →
      chunkStart size i + chunkLength size i = size
  inChunk_unique :
    ∀ i j k, InChunk size i k → InChunk size j k → i = j
  lt_iff :
    ∀ k,
      k < size ↔ ∃ i < chunkCount size, InChunk size i k

/- Every file that is not empty is tiled. -/
theorem tiles_of_pos
    {size : Nat}
    (h : 0 < size) :
    Tiles size where
  chunkSize_pos := Chunking.chunkSize_pos h
  dvd_chunkSize := Nat.dvd_mul_left _ _
  chunkCount_pos := by
    apply lt_chunkCount_iff.mpr
    rw [chunkStart, Nat.zero_mul]
    exact h
  chunkCount_le := Chunking.chunkCount_le size
  chunkLength_pos i hi := by
    apply Nat.pos_of_ne_zero
    intro hZero
    have := chunkLength_eq_zero_iff.mp hZero
    omega
  chunkLength_eq i hi := chunkLength_of_succ_lt hi
  chunkStart_zero := Nat.zero_mul _
  chunkStart_succ i hi := by
    rw [chunkLength_of_succ_lt hi, Chunking.chunkStart_succ]
  end_eq i hi := chunkStart_add_chunkLength_last hi
  inChunk_unique i j k hi hj := hi.unique hj
  lt_iff k := by
    constructor
    · exact exists_chunk_of_lt
    · rintro ⟨i, hi, hk⟩
      exact Nat.lt_of_lt_of_le hk.2
        (chunkStart_add_chunkLength_le hi)

end Chunking

end PeerShare

------------------------------------------------------------
-- Chunks of Byte Strings
------------------------------------------------------------

namespace PeerShare

namespace Chunking

/- The bytes of a chunk of a byte string. -/
def chunkOf
    (bs : Bytes)
    (index : Nat) : Bytes :=
  (bs.drop (chunkStart bs.length index)).take
    (chunkLength bs.length index)

theorem length_chunkOf
    {bs : Bytes}
    {index : Nat}
    (h : index < chunkCount bs.length) :
    (chunkOf bs index).length =
      chunkLength bs.length index := by
  have hEnd := chunkStart_add_chunkLength_le h
  rw [chunkOf, List.length_take, List.length_drop]
  omega

/- Strings of one length with the same chunks are equal. -/
theorem eq_of_chunks_eq
    {bs cs : Bytes}
    (hLength : bs.length = cs.length)
    (h :
      ∀ index < chunkCount bs.length,
        chunkOf bs index = chunkOf cs index) :
    bs = cs := by
  apply List.ext_getElem?
  intro k
  by_cases hk : k < bs.length
  · rcases exists_chunk_of_lt hk with
      ⟨index, hIndex, hLow, hHigh⟩
    have hChunk := h index hIndex
    rw [chunkOf, chunkOf, ← hLength] at hChunk
    have hGet :=
      congrArg
        (fun chunk =>
          chunk[k - chunkStart bs.length index]?)
        hChunk
    have hIn :
        k - chunkStart bs.length index <
          chunkLength bs.length index := by
      omega
    have hBack :
        chunkStart bs.length index +
          (k - chunkStart bs.length index) = k := by
      omega
    simpa only [List.getElem?_take_of_lt hIn,
      List.getElem?_drop, hBack] using hGet
  · have hLe : bs.length ≤ k := Nat.le_of_not_lt hk
    rw [List.getElem?_eq_none hLe,
      List.getElem?_eq_none (hLength ▸ hLe)]

end Chunking

end PeerShare

------------------------------------------------------------
-- Described Chunks
------------------------------------------------------------

namespace PeerShare

theorem Bytes.getElem?_pieces
    {count index : Nat}
    (size : Nat)
    (bs : Bytes)
    (h : index < count) :
    (pieces count size bs)[index]? =
      some ((bs.drop (index * size)).take size) := by
  induction count generalizing index bs with
  | zero => omega
  | succ count ih =>
      rw [pieces_succ]
      cases index with
      | zero => simp
      | succ index =>
          rw [List.getElem?_cons_succ, ih _ (by omega),
            List.drop_drop, Nat.succ_mul, Nat.add_comm]

namespace FileRecord

/- The pieces of a content are its chunks. -/
theorem getElem?_chunksOf
    {content : Bytes}
    {index : Nat}
    (h : index < Chunking.chunkCount content.length) :
    (chunksOf content)[index]? =
      some (Chunking.chunkOf content index) := by
  rw [chunksOf, Bytes.getElem?_pieces _ _ h, Chunking.chunkOf]
  congr 1
  rw [Chunking.chunkStart, List.take_eq_take_iff,
    List.length_drop]
  simp only [Chunking.chunkLength, Chunking.chunkStart]
  omega

@[simp]
theorem length_chunksOf
    (content : Bytes) :
    (chunksOf content).length =
      Chunking.chunkCount content.length := by
  rw [chunksOf, Bytes.length_pieces]

end FileRecord

end PeerShare
