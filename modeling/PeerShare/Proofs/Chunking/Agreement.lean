import Mathlib.Algebra.Group.Nat.Defs
import PeerShare.Disk.Digesting
import PeerShare.Proofs.Chunking.Tiling
import PeerShare.Proofs.Disk.Writing
import PeerShare.Proofs.Fetch.Progress
import PeerShare.Tracker.Catalog

/-
  All sides cut a file in the same way.

  The publisher digests the blocks that it fills one after
  another, the tracker and the downloader count chunks, the
  reader takes a chunk from its place in the file, and the
  writer knows how long each chunk has to be.

  Key definitions include:
    * `FileRead.Give`
    * `Transfer.IsFresh`
    * `FileRecord.Carries`
    * `FileRecord.Refuses`

  Key theorems include:
    * `fillBlock_eq`
    * `digestBlocks_eq`
    * `FileRecord.digestReads_eq`
    * `FileRecord.carries_describe`
    * `FileRecord.refuses_describe`
    * `FileRecord.agreement`
-/

------------------------------------------------------------
-- Blocks of a File That Is Read
------------------------------------------------------------

namespace PeerShare

/-
  Whether some reads give a byte string: they go on to its
  end, and none of them fails.
-/
inductive FileRead.Give :
    List FileRead → Bytes → Prop where
  | nil : Give [] []
  | interrupted
      {reads : List FileRead}
      {bs : Bytes}
      (h : Give reads bs) :
      Give (.interrupted :: reads) bs
  | bytes
      {front : Bytes}
      {reads : List FileRead}
      {bs : Bytes}
      (hFront : front ≠ [])
      (h : Give reads bs) :
      Give (.bytes front :: reads) (front ++ bs)

/- A block is filled up if there are bytes enough. -/
theorem fillBlock_eq
    {reads : List FileRead}
    {bs : Bytes}
    (h : FileRead.Give reads bs)
    (room : Nat) :
    ∃ rest,
      fillBlock reads room = .ok (bs.take room, rest) ∧
        FileRead.Give rest (bs.drop room) := by
  induction h generalizing room with
  | nil =>
      cases room with
      | zero => exact ⟨[], rfl, .nil⟩
      | succ room => exact ⟨[], rfl, .nil⟩
  | @interrupted reads bs hReads ih =>
      cases room with
      | zero =>
          exact ⟨.interrupted :: reads, rfl,
            .interrupted hReads⟩
      | succ room => exact ih (room + 1)
  | @bytes front reads bs hFront hReads ih =>
      cases room with
      | zero =>
          exact ⟨.bytes front :: reads, rfl,
            .bytes hFront hReads⟩
      | succ room =>
          rw [fillBlock, if_neg hFront]
          case x_2 => exact Nat.succ_ne_zero room
          by_cases hRoom : room + 1 < front.length
          · have hRest : front.drop (room + 1) ≠ [] := by
              intro hNil
              have := List.drop_eq_nil_iff.mp hNil
              omega
            have hLe : room + 1 ≤ front.length :=
              Nat.le_of_lt hRoom
            rw [if_pos hRoom, List.take_append_of_le_length hLe,
              List.drop_append_of_le_length hLe]
            exact ⟨_, rfl, .bytes hRest hReads⟩
          · have hLe : front.length ≤ room + 1 :=
              Nat.le_of_not_lt hRoom
            rcases ih (room + 1 - front.length) with
              ⟨rest, hFill, hGive⟩
            rw [if_neg hRoom, hFill, List.take_append,
              List.take_of_length_le hLe, List.drop_append,
              List.drop_of_length_le hLe]
            exact ⟨rest, rfl, hGive⟩

/- One more piece fits than in what follows the first. -/
theorem Chunking.divUp_sub
    {n d : Nat}
    (hd : 0 < d)
    (h : d ≤ n) :
    divUp n d = divUp (n - d) d + 1 := by
  rw [divUp, divUp, Nat.div_eq_sub_div hd h,
    Nat.mod_eq_sub_mod h]
  omega

theorem Chunking.divUp_of_le
    {n d : Nat}
    (hn : 0 < n)
    (h : n ≤ d) :
    divUp n d = 1 := by
  apply Nat.le_antisymm
  · apply divUp_le_of_le_mul
    omega
  · apply (lt_divUp_iff (by omega)).mpr
    omega

/-
  Whatever the reads are, the blocks are the pieces of the
  file.  A file of whole blocks only ends with an empty one.
-/
theorem digestBlocks_eq
    {block : Nat}
    {reads : List FileRead}
    {bs : Bytes}
    (hBlock : 0 < block)
    (h : FileRead.Give reads bs)
    (whole : Bytes)
    (digests : List Digest) :
    digestBlocks block reads whole digests =
      .ok
        (whole ++ bs,
          digests ++
            (Bytes.pieces (Chunking.divUp bs.length block)
              block bs).map Digest.of) := by
  -- The induction is on the number of bytes still ahead.
  induction hLength : bs.length using Nat.strongRecOn
    generalizing reads bs whole digests with
  | ind n ih =>
      subst hLength
      rcases fillBlock_eq h block with ⟨rest, hFill, hRest⟩
      unfold digestBlocks
      split
      · rename_i hError
        rw [hFill] at hError
        cases hError
      · rename_i filled rest' hOk
        rw [hFill] at hOk
        cases hOk
        by_cases hNil : bs = []
        · subst hNil
          simp [Chunking.divUp]
        · have hPos : 0 < bs.length :=
            List.length_pos_iff.mpr hNil
          have hTake : bs.take block ≠ [] := by
            intro hEmpty
            rcases List.take_eq_nil_iff.mp hEmpty with hZero | hBs
            · omega
            · exact hNil hBs
          rw [dif_neg hTake]
          dsimp only
          rw [List.length_take]
          by_cases hShort : bs.length < block
          · have hLe : bs.length ≤ block :=
              Nat.le_of_lt hShort
            rw [if_pos (by omega),
              Chunking.divUp_of_le hPos hLe,
              Bytes.pieces_succ, List.take_of_length_le hLe]
            rfl
          · have hLe : block ≤ bs.length :=
              Nat.le_of_not_lt hShort
            have hDrop :
                (bs.drop block).length = bs.length - block :=
              List.length_drop
            rw [if_neg (by omega),
              ih _ (by omega) hRest _ _ rfl, hDrop,
              Chunking.divUp_sub hBlock hLe, Bytes.pieces_succ,
              List.append_assoc, List.take_append_drop,
              List.append_assoc]
            rfl

end PeerShare

------------------------------------------------------------
-- The Published Description
------------------------------------------------------------

namespace PeerShare

namespace FileRecord

variable {content : Bytes}

theorem toNat_size_describe
    (name : String)
    (h : content.length < 2 ^ 64) :
    (describe name content).size.toNat = content.length :=
  UInt64.toNat_ofNat_of_lt' h

/- Reading a file gives its description. -/
theorem digestReads_eq
    {reads : List FileRead}
    (name : String)
    (hLength : content.length < 2 ^ 64)
    (hReads : FileRead.Give reads content) :
    digestReads name (UInt64.ofNat content.length) reads =
      .ok (describe name content) := by
  have hSize :
      (UInt64.ofNat content.length).toNat = content.length :=
    UInt64.toNat_ofNat_of_lt' hLength
  have hPieces :
      Bytes.pieces
          (Chunking.divUp content.length
            (max (Chunking.chunkSize content.length) 1))
          (max (Chunking.chunkSize content.length) 1)
          content =
        chunksOf content := by
    unfold chunksOf Chunking.chunkCount
    by_cases hNil : content = []
    · subst hNil
      rfl
    · have hPos : 0 < Chunking.chunkSize content.length :=
        Chunking.chunkSize_pos (List.length_pos_iff.mpr hNil)
      rw [if_neg (by omega), Nat.max_eq_left hPos]
  unfold digestReads
  dsimp only
  rw [hSize, digestBlocks_eq (by omega) hReads, hPieces]
  rfl

/- Every chunk of a content has its digest in its place. -/
theorem getElem?_chunkDigests_describe
    {i : Nat}
    (name : String)
    (h : i < Chunking.chunkCount content.length) :
    (describe name content).chunkDigests[i]? =
      some (Digest.of (Chunking.chunkOf content i)) := by
  rw [describe, List.getElem?_map, getElem?_chunksOf h]
  rfl

@[simp]
theorem chunkCount_describe
    (name : String)
    (content : Bytes) :
    (describe name content).chunkCount =
      Chunking.chunkCount content.length := by
  rw [chunkCount, describe, List.length_map, length_chunksOf]

/- The description of a content that is not empty is good. -/
theorem isConsistent_describe
    (name : String)
    (hContent : content ≠ [])
    (hLength : content.length < 2 ^ 64) :
    (describe name content).IsConsistent := by
  have hSize := toNat_size_describe name hLength
  refine ⟨?_, by rw [chunkCount_describe, hSize]⟩
  intro hZero
  rw [hZero] at hSize
  exact hContent (List.eq_nil_of_length_eq_zero hSize.symm)

end FileRecord

end PeerShare

------------------------------------------------------------
-- Fresh Transfers
------------------------------------------------------------

namespace PeerShare

namespace Transfer

/-
  Whether a transfer of a file is fresh: since it started it
  only got a writer and was told of peers.
-/
inductive IsFresh
    (file : FileRecord) : Transfer → Prop where
  | start
      (path : String)
      (now : Moment) :
      IsFresh file (start file path now)
  | withWriter
      {t : Transfer}
      (h : IsFresh file t)
      (w : ChunkWriter) :
      IsFresh file (t.withWriter w)
  | applyPeers
      {t : Transfer}
      (h : IsFresh file t)
      (peers : List (Endpoint × Bytes)) :
      IsFresh file (t.applyPeers peers)

namespace IsFresh

variable {t : Transfer}
variable {file : FileRecord}
variable {index : UInt16}
variable {data : Bytes}

theorem chunks_eq
    (h : IsFresh file t) :
    t.chunks = freshChunks file.chunkDigests := by
  induction h with
  | start => rfl
  | withWriter _ _ ih => exact ih
  | @applyPeers t _ peers ih =>
      rw [(t.sameProgress_applyPeers peers).chunks_eq, ih]

/- Bytes with the digest of a chunk are accepted. -/
theorem accept_eq_accepted
    (h : IsFresh file t)
    (hDigest :
      file.chunkDigests[index.toNat]? =
        some (Digest.of data))
    (sender : Endpoint)
    (now : Moment)
    (log : TransferLog) :
    (t.accept index data sender now log).1 =
      .accepted t.writer.isSome := by
  have hGet :
      t.chunks[index.toNat]? =
        some
          { index := index.toNat
            digest := Digest.of data
            downloaded := false
            persisted := false } := by
    rw [h.chunks_eq, getElem?_freshChunks, hDigest]
    rfl
  unfold accept
  rw [hGet]
  dsimp only
  rw [if_neg Bool.false_ne_true, if_neg (not_not_intro rfl)]

/- Nothing is accepted past the last chunk. -/
theorem accept_eq_unknown
    (h : IsFresh file t)
    (hIndex : file.chunkCount ≤ index.toNat)
    (sender : Endpoint)
    (now : Moment)
    (log : TransferLog) :
    t.accept index data sender now log = (.unknown, t, log) := by
  have hGet : t.chunks[index.toNat]? = none := by
    rw [h.chunks_eq, getElem?_freshChunks,
      List.getElem?_eq_none hIndex]
    rfl
  unfold accept
  rw [hGet]

end IsFresh

end Transfer

end PeerShare

------------------------------------------------------------
-- The Way of a Chunk
------------------------------------------------------------

namespace PeerShare

namespace FileRecord

/-
  A chunk gets through under a number.  It is what any file
  with the content gives, it has the digest of that number,
  a fresh transfer accepts it, and a writer may write it.
-/
structure Carries
    (file : FileRecord)
    (content : Bytes)
    (index : UInt16)
    (data : Bytes) : Prop where
  digest_eq :
    file.chunkDigests[index.toNat]? = some (Digest.of data)
  read_eq :
    ∀ (disk : Disk) (path : String) (c : Content),
      disk.read path = .ok c →
      c.toBytes = content →
      readChunk disk path content.length index = .ok data
  accept_eq :
    ∀ t,
      Transfer.IsFresh file t →
      ∀ sender now log,
        (t.accept index data sender now log).1 =
          .accepted t.writer.isSome
  check_eq :
    ChunkWriter.check content.length index data = .ok ()

/- A number that reader, downloader and writer all refuse. -/
structure Refuses
    (file : FileRecord)
    (content : Bytes)
    (index : UInt16) : Prop where
  read_eq :
    ∀ disk path,
      readChunk disk path content.length index =
        .error (.invalidChunkIndex index)
  accept_eq :
    ∀ t,
      Transfer.IsFresh file t →
      ∀ data sender now log,
        t.accept index data sender now log =
          (.unknown, t, log)
  check_eq :
    ∀ data,
      ChunkWriter.check content.length index data =
        .error (.invalidChunkIndex index)

/-
  A description is true of a content, the tracker and the
  downloader take it, and it agrees with what becomes of
  the chunks of the content.
-/
structure Agrees
    (file : FileRecord)
    (content : Bytes) : Prop where
  size_eq : file.size.toNat = content.length
  digest_eq : file.digest = Digest.of content
  chunkCount_eq :
    file.chunkDigests.length =
      Chunking.chunkCount content.length
  isValid : Tracker.fileFault? file = none
  isConsistent : file.IsConsistent
  carries :
    ∀ i < Chunking.chunkCount content.length,
      ∃ index : UInt16,
        index.toNat = i ∧
          ∃ data, file.Carries content index data
  refuses :
    ∀ index : UInt16,
      Chunking.chunkCount content.length ≤ index.toNat →
      file.Refuses content index

variable {content : Bytes}
variable {index : UInt16}

theorem carries_describe
    (name : String)
    (h : index.toNat < Chunking.chunkCount content.length) :
    (describe name content).Carries content index
      (Chunking.chunkOf content index.toNat) where
  digest_eq := getElem?_chunkDigests_describe name h
  read_eq disk path c hRead hBytes := by
    subst hBytes
    exact readChunk_eq_ok hRead h
  accept_eq t hFresh :=
    hFresh.accept_eq_accepted
      (getElem?_chunkDigests_describe name h)
  check_eq :=
    ChunkWriter.check_eq_ok_iff.mpr
      ⟨h, Chunking.length_chunkOf h⟩

theorem refuses_describe
    (name : String)
    (h : Chunking.chunkCount content.length ≤ index.toNat) :
    (describe name content).Refuses content index where
  read_eq disk path := if_pos h
  accept_eq t hFresh data :=
    hFresh.accept_eq_unknown (by rwa [chunkCount_describe])
  check_eq data := if_pos h

theorem agrees_describe
    (name : String)
    (hContent : content ≠ [])
    (hLength : content.length < 2 ^ 64) :
    (describe name content).Agrees content where
  size_eq := toNat_size_describe name hLength
  digest_eq := rfl
  chunkCount_eq := chunkCount_describe name content
  isValid :=
    Tracker.fileFault?_eq_none_iff.mpr
      (isConsistent_describe name hContent hLength)
  isConsistent := isConsistent_describe name hContent hLength
  carries i hi := by
    have hMax := Chunking.chunkCount_le content.length
    have hFits : i < UInt16.size := Nat.lt_of_lt_of_le hi hMax
    have hIndex : (UInt16.ofNat i).toNat = i :=
      UInt16.toNat_ofNat_of_lt' hFits
    exact ⟨UInt16.ofNat i, hIndex, _,
      carries_describe name (by rwa [hIndex])⟩
  refuses index := refuses_describe name

/-
  However a file is read, its description is the same, and
  all sides agree with it.
-/
theorem agreement
    {reads : List FileRead}
    (name : String)
    (hContent : content ≠ [])
    (hLength : content.length < 2 ^ 64)
    (hReads : FileRead.Give reads content) :
    ∃ file,
      digestReads name (UInt64.ofNat content.length) reads =
          .ok file ∧
        file = describe name content ∧
        file.Agrees content :=
  ⟨describe name content,
    digestReads_eq name hLength hReads, rfl,
    agrees_describe name hContent hLength⟩

/- A file of two bytes, given in two reads. -/
theorem agreement_of_two_bytes :
    ([7, 7] : Bytes) ≠ [] ∧
      ([7, 7] : Bytes).length < 2 ^ 64 ∧
      FileRead.Give [.bytes [7], .interrupted, .bytes [7]]
        [7, 7] ∧
      ∃ file,
        digestReads "a" (UInt64.ofNat ([7, 7] : Bytes).length)
            [.bytes [7], .interrupted, .bytes [7]] =
            .ok file ∧
          file = describe "a" [7, 7] ∧
          file.Agrees [7, 7] := by
  have hContent : ([7, 7] : Bytes) ≠ [] := by decide
  have hLength : ([7, 7] : Bytes).length < 2 ^ 64 := by
    decide
  have hReads :
      FileRead.Give [.bytes [7], .interrupted, .bytes [7]]
        [7, 7] :=
    .bytes (by decide) (.interrupted (.bytes (by decide) .nil))
  exact ⟨hContent, hLength, hReads,
    agreement "a" hContent hLength hReads⟩

end FileRecord

end PeerShare
