/-
  How a file is cut into chunks.

  All chunks of a file have the same size but the last,
  which may be short.  Small files have chunks of one block;
  larger files have chunks of several blocks, as many as are
  needed to keep the number of chunks within `maxChunks`.

  Key definitions include:
    * `Chunking.chunkSize`
    * `Chunking.chunkCount`
    * `Chunking.chunkStart`
    * `Chunking.chunkLength`

  Key theorems include:
    * `Chunking.chunkSize_pos`
    * `Chunking.chunkCount_le`
    * `Chunking.chunkLength_eq_zero_iff`
-/

namespace PeerShare

namespace Chunking

/- The number of bytes in a block. -/
def blockSize : Nat :=
  16000

/- The largest number of chunks in a file. -/
def maxChunks : Nat :=
  65536

/- The quotient of two numbers, rounded up. -/
def divUp
    (n d : Nat) : Nat :=
  n / d + if n % d = 0 then 0 else 1

/- The size of the chunks of a file of `size` bytes. -/
def chunkSize
    (size : Nat) : Nat :=
  divUp size (maxChunks * blockSize) * blockSize

/- The number of chunks of a file of `size` bytes. -/
def chunkCount
    (size : Nat) : Nat :=
  if chunkSize size = 0 then 0
  else divUp size (chunkSize size)

/- Where chunk `index` starts in a file of `size` bytes. -/
def chunkStart
    (size index : Nat) : Nat :=
  index * chunkSize size

/-
  The length of chunk `index` of a file of `size` bytes:
  zero for a chunk past the end of the file.
-/
def chunkLength
    (size index : Nat) : Nat :=
  min (chunkSize size) (size - chunkStart size index)

end Chunking

end PeerShare

------------------------------------------------------------
-- Bounds
------------------------------------------------------------

namespace PeerShare

namespace Chunking

theorem le_divUp_mul
    (n : Nat)
    {d : Nat}
    (hd : 0 < d) :
    n ≤ divUp n d * d := by
  have hMod := Nat.mod_lt n hd
  have hDiv := Nat.div_add_mod n d
  rw [divUp, Nat.add_mul, Nat.mul_comm (n / d)]
  split <;> omega

theorem divUp_le_of_le_mul
    {n d k : Nat}
    (h : n ≤ k * d) :
    divUp n d ≤ k := by
  have hQuotient : n / d ≤ k := Nat.div_le_of_le_mul (by
    rwa [Nat.mul_comm])
  rw [divUp]
  split
  · exact hQuotient
  · rename_i hMod
    apply Nat.succ_le_of_lt
    apply Nat.lt_of_le_of_ne hQuotient
    intro hEq
    have hDiv := Nat.div_add_mod n d
    rw [hEq, Nat.mul_comm] at hDiv
    omega

theorem lt_divUp_iff
    {n d k : Nat}
    (hd : 0 < d) :
    k < divUp n d ↔ k * d < n := by
  constructor
  · intro h
    apply Nat.lt_of_not_le
    intro hn
    have := divUp_le_of_le_mul hn
    omega
  · intro h
    apply Nat.lt_of_not_le
    intro hk
    have hMul := Nat.mul_le_mul_right d hk
    have hn := le_divUp_mul n hd
    omega

/- Only the empty file has chunks of size zero. -/
theorem chunkSize_pos
    {size : Nat}
    (h : 0 < size) :
    0 < chunkSize size := by
  have hUp : 0 < divUp size (maxChunks * blockSize) := by
    rw [lt_divUp_iff (by decide)]
    omega
  exact Nat.mul_pos hUp (by decide)

@[simp]
theorem chunkSize_zero :
    chunkSize 0 = 0 := by
  decide

/- No file has more than `maxChunks` chunks. -/
theorem chunkCount_le
    (size : Nat) :
    chunkCount size ≤ maxChunks := by
  rw [chunkCount]
  split
  · decide
  · apply divUp_le_of_le_mul
    have h := le_divUp_mul size
      (d := maxChunks * blockSize) (by decide)
    rw [chunkSize]
    calc size ≤ _ := h
      _ = maxChunks * (divUp size (maxChunks * blockSize) *
            blockSize) := by
        rw [Nat.mul_left_comm]

/- A chunk is within the count when it starts in the file. -/
theorem lt_chunkCount_iff
    {size index : Nat} :
    index < chunkCount size ↔ chunkStart size index < size := by
  rw [chunkCount, chunkStart]
  split
  · rename_i hSize
    have hZero : size = 0 := by
      apply Nat.eq_zero_of_not_pos
      intro hPos
      have := chunkSize_pos hPos
      omega
    subst hZero
    simp
  · rename_i hSize
    exact lt_divUp_iff (Nat.pos_of_ne_zero hSize)

/- Chunks past the count are empty, and only those. -/
theorem chunkLength_eq_zero_iff
    {size index : Nat} :
    chunkLength size index = 0 ↔ chunkCount size ≤ index := by
  have hIff := @lt_chunkCount_iff size index
  rw [chunkLength]
  constructor
  · intro h
    apply Nat.le_of_not_lt
    intro hLt
    have hStart := hIff.mp hLt
    have hPos : 0 < chunkSize size :=
      chunkSize_pos (by omega)
    omega
  · intro h
    have hStart : ¬ chunkStart size index < size := by
      intro hStart
      have := hIff.mpr hStart
      omega
    omega

end Chunking

end PeerShare
