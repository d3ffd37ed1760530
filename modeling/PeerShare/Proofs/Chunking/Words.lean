import Mathlib.Algebra.Group.Nat.Defs
import PeerShare.Proofs.Chunking.Tiling

/-
  Cutting files in words of 64 bits.

  Sizes, offsets and lengths are kept in words.  Here every
  sum and every product is taken in words, and there is none
  when it does not fit.  The last chunk number is below
  `maxChunks`, so that even the chunks of the largest file
  start within a word; chunk `maxChunks` would not.

  Key definitions include:
    * `Word.ofNat?`
    * `Word.chunkSize?`
    * `Word.chunkCount?`
    * `Word.chunkStart?`
    * `Word.chunkLength?`
    * `Chunking.FitsWords`

  Key theorems include:
    * `Word.chunkSize?_toNat`
    * `Word.chunkStart?_toNat`
    * `Chunking.tiles_within_words`
-/

------------------------------------------------------------
-- Words
------------------------------------------------------------

namespace PeerShare

namespace Word

/- The word of a number, if the number fits into one. -/
def ofNat?
    (n : Nat) : Option UInt64 :=
  if n < 2 ^ 64 then some (UInt64.ofNat n) else none

def add?
    (a b : UInt64) : Option UInt64 :=
  ofNat? (a.toNat + b.toNat)

def mul?
    (a b : UInt64) : Option UInt64 :=
  ofNat? (a.toNat * b.toNat)

/- The quotient of two words, rounded up. -/
def divUp?
    (n d : UInt64) : Option UInt64 :=
  if n % d = 0 then some (n / d) else add? (n / d) 1

theorem ofNat?_eq_some_iff
    {n : Nat}
    {w : UInt64} :
    ofNat? n = some w ↔ w.toNat = n := by
  unfold ofNat?
  constructor
  · intro h
    split at h
    · rename_i hLt
      cases h
      exact UInt64.toNat_ofNat_of_lt hLt
    · cases h
  · rintro rfl
    rw [if_pos w.toNat_lt, UInt64.ofNat_toNat]

theorem exists_ofNat?
    {n : Nat}
    (h : n < 2 ^ 64) :
    ∃ w, ofNat? n = some w ∧ w.toNat = n :=
  ⟨UInt64.ofNat n, if_pos h, UInt64.toNat_ofNat_of_lt h⟩

/- Rounding up never leaves the words. -/
theorem exists_divUp?
    (n d : UInt64) :
    ∃ w,
      divUp? n d = some w ∧
        w.toNat = Chunking.divUp n.toNat d.toNat := by
  have hZero : n % d = 0 ↔ n.toNat % d.toNat = 0 := by
    rw [← UInt64.toNat_inj, UInt64.toNat_mod]
    rfl
  unfold divUp? Chunking.divUp
  by_cases hMod : n % d = 0
  · rw [if_pos hMod, if_pos (hZero.mp hMod)]
    exact ⟨n / d, rfl, UInt64.toNat_div n d⟩
  · have hRest := mt hZero.mpr hMod
    rw [if_neg hMod, if_neg hRest]
    have hDivMod := Nat.div_add_mod n.toNat d.toNat
    have hLt := n.toNat_lt
    have hBound : (n / d).toNat + 1 < 2 ^ 64 := by
      rw [UInt64.toNat_div]
      rcases Nat.eq_zero_or_pos d.toNat with hd | hd
      · rw [hd, Nat.div_zero]
        decide
      · have := Nat.le_mul_of_pos_left
          (n.toNat / d.toNat) hd
        omega
    rcases exists_ofNat? hBound with ⟨w, hw, hNat⟩
    exact ⟨w, hw, by rw [hNat, UInt64.toNat_div]⟩

end Word

end PeerShare

------------------------------------------------------------
-- Chunks in Words
------------------------------------------------------------

namespace PeerShare

namespace Word

/- The size of the chunks of a file of `size` bytes. -/
def chunkSize?
    (size : UInt64) : Option UInt64 := do
  let whole ← mul? 65536 16000
  let blocks ← divUp? size whole
  mul? blocks 16000

/- The number of chunks of a file of `size` bytes. -/
def chunkCount?
    (size : UInt64) : Option UInt64 := do
  let chunk ← chunkSize? size
  if chunk = 0 then some 0 else divUp? size chunk

/- Where chunk `index` starts. -/
def chunkStart?
    (size : UInt64)
    (index : UInt16) : Option UInt64 := do
  let chunk ← chunkSize? size
  mul? index.toUInt64 chunk

/- The length of chunk `index`. -/
def chunkLength?
    (size : UInt64)
    (index : UInt16) : Option UInt64 := do
  let chunk ← chunkSize? size
  let start ← mul? index.toUInt64 chunk
  if size ≤ start then some 0
  else if chunk ≤ size - start then some chunk
  else some (size - start)

/- Where chunk `index` ends. -/
def chunkEnd?
    (size : UInt64)
    (index : UInt16) : Option UInt64 := do
  let start ← chunkStart? size index
  let length ← chunkLength? size index
  add? start length

end Word

namespace Chunking

/- The largest files have chunks of this size. -/
theorem chunkSize_le
    {size : Nat}
    (h : size < 2 ^ 64) :
    chunkSize size ≤ 17592186045 * 16000 := by
  apply Nat.mul_le_mul_right
  apply divUp_le_of_le_mul
  simp only [maxChunks, blockSize]
  omega

/- The chunks that a number of 16 bits can name start there. -/
theorem chunkStart_lt
    {size : Nat}
    (h : size < 2 ^ 64)
    (index : UInt16) :
    chunkStart size index.toNat < 2 ^ 64 := by
  have hIndex : index.toNat ≤ 65535 :=
    Nat.le_of_lt_succ index.toNat_lt
  calc chunkStart size index.toNat
      ≤ 65535 * (17592186045 * 16000) :=
        Nat.mul_le_mul hIndex (chunkSize_le h)
    _ < 2 ^ 64 := by decide

end Chunking

namespace Word

open Chunking

theorem chunkSize?_toNat
    (size : UInt64) :
    ∃ w,
      chunkSize? size = some w ∧
        w.toNat = chunkSize size.toNat := by
  have hWhole :
      mul? 65536 16000 = some (65536 * 16000) := by
    rw [mul?, ofNat?_eq_some_iff]
    decide
  rcases exists_divUp? size (65536 * 16000) with
    ⟨blocks, hBlocks, hNat⟩
  have hSize : blocks.toNat * 16000 = chunkSize size.toNat := by
    rw [hNat]
    rfl
  have hLt : blocks.toNat * 16000 < 2 ^ 64 := by
    have := chunkSize_le size.toNat_lt
    omega
  rcases exists_ofNat? hLt with ⟨w, hw, hwNat⟩
  refine ⟨w, ?_, hwNat.trans hSize⟩
  simp only [chunkSize?, hWhole, hBlocks,
    Option.bind_eq_bind, Option.bind_some]
  exact hw

theorem chunkCount?_toNat
    (size : UInt64) :
    ∃ w,
      chunkCount? size = some w ∧
        w.toNat = chunkCount size.toNat := by
  rcases chunkSize?_toNat size with ⟨chunk, hChunk, hNat⟩
  have hZero : chunk = 0 ↔ chunkSize size.toNat = 0 := by
    rw [← UInt64.toNat_inj, hNat]
    rfl
  rw [chunkCount?, hChunk, Option.bind_eq_bind,
    Option.bind_some, chunkCount]
  by_cases h : chunk = 0
  · rw [if_pos h, if_pos (hZero.mp h)]
    exact ⟨0, rfl, rfl⟩
  · rw [if_neg h, if_neg (mt hZero.mpr h), ← hNat]
    exact exists_divUp? size chunk

theorem chunkStart?_toNat
    (size : UInt64)
    (index : UInt16) :
    ∃ w,
      chunkStart? size index = some w ∧
        w.toNat = chunkStart size.toNat index.toNat := by
  rcases chunkSize?_toNat size with ⟨chunk, hChunk, hNat⟩
  have hStart :
      index.toUInt64.toNat * chunk.toNat =
        chunkStart size.toNat index.toNat := by
    rw [hNat, UInt16.toNat_toUInt64]
    rfl
  have hLt := chunkStart_lt size.toNat_lt index
  rw [← hStart] at hLt
  rcases exists_ofNat? hLt with ⟨w, hw, hwNat⟩
  refine ⟨w, ?_, hwNat.trans hStart⟩
  rw [chunkStart?, hChunk]
  exact hw

theorem chunkLength?_toNat
    (size : UInt64)
    (index : UInt16) :
    ∃ w,
      chunkLength? size index = some w ∧
        w.toNat = chunkLength size.toNat index.toNat := by
  rcases chunkSize?_toNat size with ⟨chunk, hChunk, hNat⟩
  rcases chunkStart?_toNat size index with
    ⟨start, hStart, hStartNat⟩
  rw [chunkStart?, hChunk, Option.bind_eq_bind,
    Option.bind_some] at hStart
  simp only [chunkLength?, hChunk, hStart,
    Option.bind_eq_bind, Option.bind_some]
  rw [chunkLength, ← hNat, ← hStartNat]
  by_cases hPast : size ≤ start
  · have hLe := UInt64.le_iff_toNat_le.mp hPast
    rw [if_pos hPast]
    refine ⟨0, rfl, ?_⟩
    rw [Nat.sub_eq_zero_of_le hLe, Nat.min_zero]
    rfl
  · have hLe : start ≤ size :=
      UInt64.le_of_lt (UInt64.not_le.mp hPast)
    have hSub := UInt64.toNat_sub_of_le size start hLe
    rw [if_neg hPast]
    by_cases hWhole : chunk ≤ size - start
    · have hMin := UInt64.le_iff_toNat_le.mp hWhole
      rw [hSub] at hMin
      rw [if_pos hWhole, Nat.min_eq_left hMin]
      exact ⟨chunk, rfl, rfl⟩
    · have hMin := mt UInt64.le_iff_toNat_le.mpr hWhole
      rw [hSub] at hMin
      rw [if_neg hWhole,
        Nat.min_eq_right (Nat.le_of_not_le hMin)]
      exact ⟨size - start, rfl, hSub⟩

theorem chunkEnd?_toNat
    (size : UInt64)
    (index : UInt16) :
    ∃ w,
      chunkEnd? size index = some w ∧
        w.toNat =
          chunkStart size.toNat index.toNat +
            chunkLength size.toNat index.toNat := by
  rcases chunkStart?_toNat size index with
    ⟨start, hStart, hStartNat⟩
  rcases chunkLength?_toNat size index with
    ⟨length, hLength, hLengthNat⟩
  have hLt : start.toNat + length.toNat < 2 ^ 64 := by
    have hSize := size.toNat_lt
    have hFirst := chunkStart_lt hSize index
    rw [hStartNat, hLengthNat, chunkLength]
    omega
  rcases exists_ofNat? hLt with ⟨w, hw, hwNat⟩
  rw [chunkEnd?, hStart, Option.bind_eq_bind,
    Option.bind_some, hLength, ← hStartNat, ← hLengthNat]
  exact ⟨w, hw, hwNat⟩

end Word

end PeerShare

------------------------------------------------------------
-- All Files
------------------------------------------------------------

namespace PeerShare

namespace Chunking

/-
  The size, number, place and length of the chunks of a file
  come out in words, and as they should.
-/
structure FitsWords
    (size : UInt64)
    (index : UInt16) : Prop where
  chunkSize_eq :
    (Word.chunkSize? size).map UInt64.toNat =
      some (chunkSize size.toNat)
  chunkCount_eq :
    (Word.chunkCount? size).map UInt64.toNat =
      some (chunkCount size.toNat)
  chunkStart_eq :
    (Word.chunkStart? size index).map UInt64.toNat =
      some (chunkStart size.toNat index.toNat)
  chunkLength_eq :
    (Word.chunkLength? size index).map UInt64.toNat =
      some (chunkLength size.toNat index.toNat)
  chunkEnd_eq :
    (Word.chunkEnd? size index).map UInt64.toNat =
      some
        (chunkStart size.toNat index.toNat +
          chunkLength size.toNat index.toNat)

theorem fitsWords
    (size : UInt64)
    (index : UInt16) :
    FitsWords size index where
  chunkSize_eq :=
    Option.map_eq_some_iff.mpr (Word.chunkSize?_toNat size)
  chunkCount_eq :=
    Option.map_eq_some_iff.mpr (Word.chunkCount?_toNat size)
  chunkStart_eq :=
    Option.map_eq_some_iff.mpr
      (Word.chunkStart?_toNat size index)
  chunkLength_eq :=
    Option.map_eq_some_iff.mpr
      (Word.chunkLength?_toNat size index)
  chunkEnd_eq :=
    Option.map_eq_some_iff.mpr
      (Word.chunkEnd?_toNat size index)

/-
  The chunks of every file that is not empty tile it, chunks
  past the last are empty, and no sum or product on the way
  to any of this leaves the words.
-/
theorem tiles_within_words
    (size : UInt64) :
    (1 ≤ size → Tiles size.toNat) ∧
      ∀ index : UInt16,
        (chunkCount size.toNat ≤ index.toNat →
            chunkLength size.toNat index.toNat = 0) ∧
          FitsWords size index := by
  refine ⟨?_, ?_⟩
  · intro hSize
    exact tiles_of_pos (UInt64.le_iff_toNat_le.mp hSize)
  · intro index
    exact ⟨chunkLength_eq_zero_iff.mpr, fitsWords size index⟩

/-
  The largest file, whose last chunk has the largest number,
  and a file of two chunks with a number past them.
-/
theorem tiles_within_words_of_largest :
    (1 : UInt64) ≤ 18446744073709551615 ∧
      Tiles 18446744073709551615 ∧
      FitsWords 18446744073709551615 65535 ∧
      chunkCount 16001 ≤ 2 ∧
      chunkLength 16001 2 = 0 ∧
      FitsWords 16001 2 := by
  have hSize : (1 : UInt64) ≤ 18446744073709551615 := by
    decide
  have hPast :
      chunkCount (16001 : UInt64).toNat ≤ (2 : UInt16).toNat := by
    decide
  rcases tiles_within_words 18446744073709551615 with
    ⟨hTiles, hLargest⟩
  rcases (tiles_within_words 16001).2 2 with ⟨hZero, hWords⟩
  exact ⟨hSize, hTiles hSize, (hLargest 65535).2, hPast,
    hZero hPast, hWords⟩

end Chunking

end PeerShare
