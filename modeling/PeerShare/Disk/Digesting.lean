import PeerShare.FileRecord
import PeerShare.IoFailure

/-
  Describing a file while it is read.

  The reads of a file give its bytes in pieces of any size.
  A block is filled from as many reads as it takes, and only
  the last block of a file stays short.  Each block goes
  into the digest of the file and gets a digest of its own.

  Key definitions include:
    * `FileRead`
    * `fillBlock`
    * `digestBlocks`
    * `FileRecord.digestReads`
-/

------------------------------------------------------------
-- Filling a Block
------------------------------------------------------------

namespace PeerShare

/-
  What one read of a file gives.  No bytes at all mean the
  end of the file, and so does a row of reads that is over.
  An interrupted read is made again.
-/
inductive FileRead where
  | bytes (bs : Bytes)
  | interrupted
  | failure (cause : IoFailure)

/- The bytes that some reads still give. -/
def FileRead.bytesAhead : List FileRead → Bytes
  | [] => []
  | .bytes bs :: reads => bs ++ bytesAhead reads
  | .interrupted :: reads => bytesAhead reads
  | .failure _ :: reads => bytesAhead reads

/-
  Fill a block that has room for a number of bytes.  What
  does not fit is left for the reads that follow.
-/
def fillBlock :
    List FileRead →
    (room : Nat) →
    Except IoFailure (Bytes × List FileRead)
  | reads, 0 => .ok ([], reads)
  | [], _ => .ok ([], [])
  | .interrupted :: reads, room => fillBlock reads room
  | .failure cause :: _, _ => .error cause
  | .bytes bs :: reads, room =>
      if bs = [] then .ok ([], reads)
      else if room < bs.length then
        .ok (bs.take room, .bytes (bs.drop room) :: reads)
      else
        match fillBlock reads (room - bs.length) with
        | .error cause => .error cause
        | .ok (more, reads) => .ok (bs ++ more, reads)

/- A block takes its bytes from the front of those ahead. -/
theorem bytesAhead_of_fillBlock
    {reads rest : List FileRead}
    {room : Nat}
    {filled : Bytes}
    (h : fillBlock reads room = .ok (filled, rest)) :
    FileRead.bytesAhead reads =
      filled ++ FileRead.bytesAhead rest := by
  fun_induction fillBlock reads room generalizing filled rest with
  | case1 => cases h; rfl
  | case2 => cases h; rfl
  | case3 room hRoom reads ih => exact ih h
  | case4 => cases h
  | case5 => cases h; rfl
  | case6 bs reads room _ hBytes hRoom =>
      cases h
      rw [FileRead.bytesAhead, FileRead.bytesAhead,
        ← List.append_assoc, List.take_append_drop]
  | case7 => cases h
  | case8 bs reads room _ hBytes hRoom more rest' hMore ih =>
      cases h
      rw [FileRead.bytesAhead, ih hMore, List.append_assoc]

end PeerShare

------------------------------------------------------------
-- Digesting a File
------------------------------------------------------------

namespace PeerShare

/-
  Go through the blocks of a file, with the bytes that went
  into its digest so far and the digests of the blocks.  The
  end of the file shows in a block that is not full.
-/
def digestBlocks
    (block : Nat)
    (reads : List FileRead)
    (whole : Bytes)
    (digests : List Digest) :
    Except IoFailure (Bytes × List Digest) :=
  match _hFill : fillBlock reads block with
  | .error cause => .error cause
  | .ok (filled, rest) =>
      if _hEnd : filled = [] then .ok (whole, digests)
      else
        let whole := whole ++ filled
        let digests := digests ++ [Digest.of filled]
        if filled.length < block then .ok (whole, digests)
        else digestBlocks block rest whole digests
termination_by (FileRead.bytesAhead reads).length
decreasing_by
  have hPos : 0 < filled.length := List.length_pos_iff.mpr _hEnd
  rw [bytesAhead_of_fillBlock _hFill, List.length_append]
  omega

/-
  The description of a file of a given size, made from its
  reads.  The blocks are as long as the chunks of a file of
  that size.
-/
def FileRecord.digestReads
    (name : String)
    (size : UInt64)
    (reads : List FileRead) : Except IoFailure FileRecord :=
  let block := max (Chunking.chunkSize size.toNat) 1
  match digestBlocks block reads [] [] with
  | .error cause => .error cause
  | .ok (whole, digests) =>
      .ok
        { name, size
          digest := Digest.of whole
          chunkDigests := digests }

end PeerShare
