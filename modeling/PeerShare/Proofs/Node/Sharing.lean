import PeerShare.Proofs.Node.Backing
import PeerShare.Proofs.Packing

/-
  A node shares no chunk of a download that it has not
  verified.

  The chunks that it tells the tracker about, and those that
  it serves, are on disk with the digests that the tracker
  has described.

  Key definitions include:
    * `Disk.HasChunk`
    * `Transfer.Tells`
    * `Transfer.told`

  Key theorems include:
    * `Transfer.Backed.hasChunk`
    * `Node.hasChunk_of_source?`
    * `Node.hasChunk_of_mem_messages`
    * `Node.verified_of_shared`
-/

------------------------------------------------------------
-- Verified Chunks
------------------------------------------------------------

namespace PeerShare

/-
  Whether a chunk of a described file is on disk.  The file
  of the path has the described size, and the bytes of the
  chunk have the described digest.
-/
def Disk.HasChunk
    (disk : Disk)
    (path : String)
    (file : FileRecord)
    (i : Nat) : Prop :=
  ∃ content,
    disk.read path = .ok content ∧
      content.length = file.size.toNat ∧
      i < Chunking.chunkCount file.size.toNat ∧
      file.chunkDigests[i]? =
        some (Digest.of (content.chunk file.size.toNat i))

/- A chunk that is read from there has its digest. -/
theorem Disk.HasChunk.digest_eq
    {disk : Disk}
    {path : String}
    {file : FileRecord}
    {index : UInt16}
    {data : Bytes}
    (h : disk.HasChunk path file index.toNat)
    (hRead :
      readChunk disk path file.size.toNat index = .ok data) :
    file.chunkDigests[index.toNat]? =
      some (Digest.of data) := by
  rcases h with ⟨content, hContent, -, hRange, hDigest⟩
  unfold readChunk at hRead
  rw [if_neg (Nat.not_le_of_lt hRange), hContent] at hRead
  dsimp only at hRead
  split at hRead
  · cases hRead
  · cases hRead
    exact hDigest

namespace Transfer

variable {t : Transfer}

/- The chunks of the bitfield are those that are noted. -/
theorem has_persisted_iff
    (h : t.WellFormed)
    {i : Nat} :
    t.persisted.has i = true ↔
      ∃ chunk,
        t.chunks[i]? = some chunk ∧ chunk.persisted = true := by
  unfold persisted
  rw [ChunkSet.has_ofIndices, decide_eq_true_iff, List.mem_map]
  constructor
  · rintro ⟨⟨chunk, hMem, hIndex⟩, -⟩
    rcases List.mem_filter.mp hMem with ⟨hChunk, hNoted⟩
    rcases List.mem_iff_getElem?.mp hChunk with ⟨j, hGet⟩
    rw [Array.getElem?_toList] at hGet
    rw [← hIndex, h.index_eq j chunk hGet]
    exact ⟨chunk, hGet, hNoted⟩
  · rintro ⟨chunk, hGet, hNoted⟩
    have hMem : chunk ∈ t.chunks.toList := by
      apply List.mem_of_getElem?
      rw [Array.getElem?_toList]
      exact hGet
    rcases Array.getElem?_eq_some_iff.mp hGet with ⟨hLt, -⟩
    exact
      ⟨⟨chunk, List.mem_filter.mpr ⟨hMem, hNoted⟩,
          h.index_eq i chunk hGet⟩, hLt⟩

/- A chunk that is noted is on disk. -/
theorem Backed.hasChunk
    {directory name : String}
    {disk : Disk}
    {described : List FileRecord}
    (h : t.Backed directory name disk described)
    {i : Nat}
    {chunk : ChunkEntry}
    (hGet : t.chunks[i]? = some chunk)
    (hNoted : chunk.persisted = true) :
    disk.HasChunk t.path t.record i := by
  rcases h.backs with ⟨w, content, -, hBacks⟩
  rcases hBacks.noted i chunk hGet hNoted with
    ⟨-, hRange, hDigest⟩
  have hRead := hBacks.read_eq
  have hLength := hBacks.length_eq
  rw [hBacks.path_eq] at hRead
  rw [hBacks.size_eq] at hLength hRange hDigest
  refine ⟨content, hRead, hLength, hRange, ?_⟩
  rw [getElem?_chunkDigests, hGet, Option.map_some, ← hDigest]
  rfl

/- What a pass tells the tracker about a transfer. -/
theorem mem_messages_tick
    {now : Moment}
    {log : TransferLog}
    {m : Wire.Message}
    (h : m ∈ (t.tick now log).1.messages) :
    m ∈ t.refreshMessages := by
  unfold tick at h
  dsimp only at h
  split at h
  · rename_i hComplete
    rw [hComplete] at h
    exact h
  · dsimp only at h
    split at h
    · exact h
    · cases h

/-
  What the tracker is told to be there: the chunks that are
  on disk, or all chunks of a complete file.
-/
def told
    (t : Transfer) : ChunkSet :=
  if t.isComplete then ChunkSet.full t.chunkCount
  else t.persisted

/-
  Whether the tracker is told of a chunk: it belongs to a
  complete file, or is noted to be on disk.
-/
def Tells
    (t : Transfer)
    (i : Nat) : Prop :=
  i < t.chunkCount ∧
    (t.isComplete = true ∨
      ∃ chunk ∈ t.chunks,
        chunk.index = i ∧ chunk.persisted = true)

theorem has_told_iff
    {i : Nat} :
    t.told.has i = true ↔ t.Tells i := by
  unfold told Tells
  cases hComplete : t.isComplete with
  | true =>
      rw [if_pos rfl, ChunkSet.has_full, decide_eq_true_iff]
      exact (and_iff_left (.inl rfl)).symm
  | false =>
      rw [if_neg Bool.false_ne_true, persisted,
        ChunkSet.has_ofIndices, decide_eq_true_iff]
      simp only [List.mem_map, List.mem_filter,
        Array.mem_toList_iff, Bool.false_eq_true, false_or]
      constructor
      · rintro ⟨⟨chunk, ⟨hMem, hNoted⟩, hIndex⟩, hLt⟩
        exact ⟨hLt, chunk, hMem, hIndex, hNoted⟩
      · rintro ⟨hLt, chunk, hMem, hIndex, hNoted⟩
        exact ⟨⟨chunk, ⟨hMem, hNoted⟩, hIndex⟩, hLt⟩

end Transfer

/- A pass tells of a file what its transfer has. -/
theorem Downloads.eq_told_of_mem_messages_tick
    {d : Downloads}
    {name : String}
    {t : Transfer}
    {bits : Bytes}
    {now : Moment}
    {log : TransferLog}
    (hNamed :
      ∀ name t, d.transfer? name = some t → t.name = name)
    (hGet : d.transfer? name = some t)
    (h : .holdings name bits ∈ (d.tick now log).1.messages) :
    bits = t.told.toWire := by
  rcases exists_of_mem_messages_tick h with
    ⟨other, t', hOther, hMessage⟩
  have hRefresh := Transfer.mem_messages_tick hMessage
  unfold Transfer.refreshMessages at hRefresh
  rcases List.mem_cons.mp hRefresh with hHoldings | hRest
  · rcases Wire.Message.holdings.inj hHoldings with
      ⟨hName, hBits⟩
    have hSame : other = name := by
      rw [hName]
      exact (hNamed other t' hOther).symm
    rw [hSame, hGet] at hOther
    cases hOther
    exact hBits
  · cases List.mem_singleton.mp hRest

end PeerShare

------------------------------------------------------------
-- Shared Chunks
------------------------------------------------------------

namespace PeerShare

namespace Node

variable {node : Node}
variable {name : String}

/- Each datagram that is served holds a chunk of the file. -/
theorem exists_of_mem_serve
    {indices : List UInt16}
    {datagram : Wire.Datagram}
    (h : datagram ∈ (node.serve name indices).1) :
    ∃ index ∈ indices, ∃ path size data,
      node.source? name index = some (path, size) ∧
        readChunk node.disk path size.toNat index = .ok data ∧
        datagram = .chunk name index data := by
  induction indices generalizing node with
  | nil => cases h
  | cons index indices ih =>
      have hLater :
          ∀ node' : Node,
            node'.source? name = node.source? name →
            node'.disk = node.disk →
            datagram ∈ (node'.serve name indices).1 →
            ∃ index' ∈ index :: indices, ∃ path size data,
              node.source? name index' = some (path, size) ∧
                readChunk node.disk path size.toNat index' =
                  .ok data ∧
                datagram = .chunk name index' data := by
        intro node' hSource hDisk hMem
        rcases ih hMem with ⟨index', hIndex, hRest⟩
        rw [hSource, hDisk] at hRest
        exact ⟨index', List.mem_cons_of_mem _ hIndex, hRest⟩
      unfold serve at h
      split at h
      · exact hLater node rfl rfl h
      · rename_i sent length hChunk
        rcases List.mem_cons.mp h with rfl | hMem
        · unfold chunkDatagram? at hChunk
          split at hChunk
          · cases hChunk
          · rename_i path size hSource
            split at hChunk
            · cases hChunk
            · rename_i data hRead
              dsimp only at hChunk
              split at hChunk
              · cases hChunk
              · cases hChunk
                exact ⟨index, List.mem_cons_self, path, size,
                  data, hSource, hRead, rfl⟩
        · exact hLater
            { node with log := node.log.recordUpload length }
            rfl rfl hMem

/-
  A chunk of a download that a node has is on disk if the
  node names a place to read it from.
-/
theorem hasChunk_of_source?
    {described : List FileRecord}
    {t : Transfer}
    {index : UInt16}
    {path : String}
    {size : UInt64}
    (h : node.IsBacked described)
    (hGet : node.downloads.transfer? name = some t)
    (hSource :
      node.downloads.source? name index = some (path, size)) :
    path = t.path ∧ size = t.size ∧
      node.disk.HasChunk t.path t.record index.toNat := by
  unfold Downloads.source? at hSource
  rw [hGet] at hSource
  dsimp only at hSource
  split at hSource
  · cases hSource
  · rename_i chunk hChunk
    split at hSource
    · rename_i hNoted
      cases hSource
      exact ⟨rfl, rfl, (h name t hGet).hasChunk hChunk hNoted⟩
    · cases hSource

/- The chunks that a pass tells the tracker about. -/
theorem hasChunk_of_mem_messages
    {described : List FileRecord}
    {t : Transfer}
    {disk : Disk}
    {now : Moment}
    {bits : Bytes}
    {i : Nat}
    (h : node.downloads.Backed node.directory disk described)
    (hGet : node.downloads.transfer? name = some t)
    (hIncomplete : t.isComplete = false)
    (hMem :
      .holdings name bits ∈
        (node.downloads.tick now node.log).1.messages)
    (hi : i ∈ Packing.toIndices bits) :
    disk.HasChunk t.path t.record i := by
  have hBacked := h name t hGet
  have hBits :=
    Downloads.eq_told_of_mem_messages_tick
      (fun other t' hOther => (h other t' hOther).name_eq)
      hGet hMem
  rw [hBits, Transfer.told, hIncomplete,
    if_neg Bool.false_ne_true, ChunkSet.mem_toIndices_toWire,
    Transfer.has_persisted_iff hBacked.wellFormed] at hi
  rcases hi with ⟨chunk, hChunk, hNoted⟩
  exact hBacked.hasChunk hChunk hNoted

/-
  Nothing unverified is shared while a file is being
  fetched.  The chunks that the tracker is told about are on
  disk when the pass begins and when the message is sent;
  so are those that may be read for others; and what is
  served is as the tracker has described it.
-/
theorem verified_of_shared
    {described : List FileRecord}
    (h : node.IsReachable described)
    {t : Transfer}
    (hGet : node.downloads.transfer? name = some t) :
    t.record ∈ described ∧ t.record.name = name ∧
      (∀ (closes : Completed → Bool)
        (now : Moment)
        (bits : Bytes),
        t.isComplete = false →
          .holdings name bits ∈
            (node.downloads.tick now node.log).1.messages →
          ∀ i ∈ Packing.toIndices bits,
            node.disk.HasChunk t.path t.record i ∧
              (node.tick closes now).2.disk.HasChunk t.path
                t.record i) ∧
      (∀ (index : UInt16) (path : String) (size : UInt64),
        node.downloads.source? name index = some (path, size) →
          path = t.path ∧ size = t.size ∧
            node.disk.HasChunk t.path t.record
              index.toNat) ∧
      (node.offers.published.get? name = none →
        ∀ (indices : List UInt16),
          ∀ datagram ∈ (node.serve name indices).1,
            ∃ index ∈ indices, ∃ data,
              datagram = .chunk name index data ∧
                t.record.chunkDigests[index.toNat]? =
                  some (Digest.of data)) := by
  have hBacked := h.isBacked
  have hOwn := hBacked name t hGet
  refine ⟨hOwn.mem_answers, hOwn.name_eq, ?_, ?_, ?_⟩
  · intro closes now bits hIncomplete hMem i hi
    have hTick := (hBacked.tick closes now).1
    exact
      ⟨hasChunk_of_mem_messages hBacked hGet hIncomplete hMem hi,
        hasChunk_of_mem_messages hTick hGet hIncomplete hMem hi⟩
  · intro index path size hSource
    exact hasChunk_of_source? hBacked hGet hSource
  · intro hUnpublished indices datagram hMem
    rcases exists_of_mem_serve hMem with
      ⟨index, hIndex, path, size, data, hSource, hRead,
        hDatagram⟩
    unfold source? at hSource
    rw [hUnpublished] at hSource
    rcases hasChunk_of_source? hBacked hGet hSource with
      ⟨rfl, rfl, hChunk⟩
    exact ⟨index, hIndex, data, hDatagram,
      hChunk.digest_eq hRead⟩

/- A file of two chunks, of which the second is one byte. -/
def twoChunks : FileRecord where
  name := "a"
  size := 16001
  digest := .ofBytes []
  chunkDigests := [.ofBytes [], Digest.of [7]]

/- The small node after it has fetched the second chunk. -/
def halfway : Node :=
  small.run
    [.request "a" 0,
      .receive (Wire.Message.answer twoChunks []).payload
        noHosts 0,
      .handleDatagram ⟨.loopback, 1⟩
        (Wire.Datagram.chunk "a" 1 [7]).encode 0,
      .performWrite "a" 0]

theorem exists_isReachable_halfway :
    ∃ described, halfway.IsReachable described := by
  unfold halfway
  exact ⟨_, isReachable_small.run _⟩

/-
  The tracker is told about the second chunk, which is on
  disk and may be served.
-/
theorem verified_of_shared_of_halfway :
    ∃ t,
      halfway.downloads.transfer? "a" = some t ∧
        t.isComplete = false ∧
        .holdings "a" [64] ∈
          (halfway.downloads.tick (Span.ofSeconds 6)
            halfway.log).1.messages ∧
        halfway.downloads.source? "a" 1 = some (t.path, t.size) ∧
        halfway.disk.HasChunk t.path t.record 1 ∧
        (halfway.tick (fun _ => true)
          (Span.ofSeconds 6)).2.disk.HasChunk t.path
            t.record 1 ∧
        ∃ index data,
          (halfway.serve "a" [1]).1 =
              [.chunk "a" index data] ∧
            t.record.chunkDigests[index.toNat]? =
              some (Digest.of data) := by
  have hRun :
      (halfway.downloads.transfer? "a").map (·.isComplete) =
          some false ∧
        (halfway.downloads.tick (Span.ofSeconds 6)
            halfway.log).1.messages =
          [.holdings "a" [64], .refresh "a"] ∧
        halfway.downloads.source? "a" 1 =
          some ("d/a", 16001) ∧
        halfway.offers.published.get? "a" = none ∧
        (halfway.serve "a" [1]).1 = [.chunk "a" 1 [7]] := by
    decide +kernel
  rcases hRun with
    ⟨hIncomplete, hMessages, hSource, hUnpublished, hServed⟩
  rcases Option.map_eq_some_iff.mp hIncomplete with
    ⟨t, hGet, hIncomplete⟩
  have hMem :
      .holdings "a" [64] ∈
        (halfway.downloads.tick (Span.ofSeconds 6)
          halfway.log).1.messages := by
    rw [hMessages]
    exact List.mem_cons_self
  rcases exists_isReachable_halfway with
    ⟨described, hReachable⟩
  rcases verified_of_shared hReachable hGet with
    ⟨-, -, hPushed, hRead, hSent⟩
  rcases hPushed (fun _ => true) (Span.ofSeconds 6) [64]
      hIncomplete hMem 1 (by decide)
    with ⟨hBefore, hAfter⟩
  rcases hRead 1 "d/a" 16001 hSource with ⟨hPath, hSize, -⟩
  rw [hPath, hSize] at hSource
  have hDatagram :
      .chunk "a" 1 [7] ∈ (halfway.serve "a" [1]).1 := by
    rw [hServed]
    exact List.mem_cons_self
  rcases hSent hUnpublished [1] _ hDatagram with
    ⟨index, -, data, hChunk, hDigest⟩
  rw [hChunk] at hServed
  exact ⟨t, hGet, hIncomplete, hMem, hSource, hBefore, hAfter,
    index, data, hServed, hDigest⟩

end Node

end PeerShare
