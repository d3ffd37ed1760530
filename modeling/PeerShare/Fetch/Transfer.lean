import PeerShare.Disk.Chunks
import PeerShare.Fetch.Holder
import PeerShare.FileRecord
import PeerShare.TransferLog

/-
  A file that is being fetched.

  A chunk is downloaded once bytes with its digest have
  arrived, and persisted once they are on disk.  Peers that
  did not answer are evicted; an evicted peer comes back
  only when it is said to hold other chunks than before.

  Key definitions include:
    * `Transfer`
    * `Transfer.start`
    * `Transfer.applyPeers`
    * `Transfer.accept`
    * `Transfer.markPersisted`
    * `Transfer.persisted`
    * `Transfer.evict`
    * `Transfer.complete`
-/

------------------------------------------------------------
-- Transfers
------------------------------------------------------------

namespace PeerShare

/- How far one chunk has come. -/
structure ChunkEntry where
  index : Nat
  digest : Digest
  downloaded : Bool
  persisted : Bool
  deriving DecidableEq

/-
  A transfer.  `downloaded` counts the chunks that have
  arrived, and `evicted` holds for every evicted peer the
  chunks that it was said to hold.
-/
structure Transfer where
  name : String
  path : String
  size : UInt64
  digest : Digest
  chunks : Array ChunkEntry
  downloaded : Nat
  peers : Table Endpoint Holder
  evicted : Table Endpoint ChunkSet
  writer : Option ChunkWriter
  started : Moment
  refreshed : Moment
  deriving DecidableEq

/- What became of a chunk that arrived. -/
inductive Verdict where
  /- It is good; it may be written if there is a writer. -/
  | accepted (hasWriter : Bool)
  /- It arrived before. -/
  | duplicate
  /- Its digest is wrong. -/
  | corrupt
  /- It belongs to no file that is fetched. -/
  | unknown
  deriving DecidableEq

/- A complete file, whose writer is still to be stopped. -/
structure Completed where
  file : LocalFile
  elapsed : Span
  writer : Option ChunkWriter
  deriving DecidableEq

namespace Transfer

/- The entries of chunks that have not yet arrived. -/
def freshChunks
    (digests : List Digest) : Array ChunkEntry :=
  (digests.zipIdx.map fun (digest, index) =>
    { index, digest, downloaded := false,
      persisted := false }).toArray

/- The transfer of a file, without peers. -/
def start
    (file : FileRecord)
    (path : String)
    (now : Moment) : Transfer where
  name := file.name
  path := path
  size := file.size
  digest := file.digest
  chunks := freshChunks file.chunkDigests
  downloaded := 0
  peers := Table.empty
  evicted := Table.empty
  writer := none
  started := now
  refreshed := now

/- The same transfer with a writer. -/
def withWriter
    (t : Transfer)
    (w : ChunkWriter) : Transfer :=
  { t with writer := some w }

/- The number of chunks of the file. -/
def chunkCount
    (t : Transfer) : Nat :=
  t.chunks.size

/- Whether every chunk has arrived. -/
def isComplete
    (t : Transfer) : Bool :=
  t.downloaded == t.chunkCount

/- The chunks that are on disk. -/
def persisted
    (t : Transfer) : ChunkSet :=
  ChunkSet.ofIndices
    ((t.chunks.toList.filter (·.persisted)).map (·.index))
    t.chunkCount

/- The description of the file. -/
def record
    (t : Transfer) : FileRecord where
  name := t.name
  size := t.size
  digest := t.digest
  chunkDigests := t.chunks.toList.map (·.digest)

end Transfer

end PeerShare

------------------------------------------------------------
-- Peers
------------------------------------------------------------

namespace PeerShare

namespace Transfer

/- Note which chunks a peer holds. -/
def reportPeer
    (t : Transfer)
    (peer : Endpoint)
    (chunks : ChunkSet) : Transfer :=
  let holder := (t.peers.get? peer).getD Holder.fresh
  { t with peers := t.peers.insert peer (holder.report chunks) }

/-
  Note the packed chunks of a peer.  A peer that is evicted
  stays so while it is said to hold the same chunks, and
  else starts anew.
-/
def applyPeer
    (t : Transfer)
    (peer : Endpoint)
    (bitfield : Bytes) : Transfer :=
  let chunks := ChunkSet.ofBytes bitfield t.chunkCount
  match t.evicted.get? peer with
  | none => t.reportPeer peer chunks
  | some held =>
      if held = chunks then t
      else
        reportPeer { t with evicted := t.evicted.erase peer }
          peer chunks

/- Note the packed chunks of some peers, one after another. -/
def applyPeers
    (t : Transfer)
    (peers : List (Endpoint × Bytes)) : Transfer :=
  peers.foldl
    (fun t (peer, bitfield) => t.applyPeer peer bitfield) t

/- Remove a peer, and keep what it was said to hold. -/
def evict
    (t : Transfer)
    (peer : Endpoint) : Transfer :=
  let held :=
    match t.peers.get? peer with
    | none => []
    | some holder => holder.held
  { t with
    peers := t.peers.erase peer
    evicted :=
      t.evicted.insert peer
        (ChunkSet.ofIndices held t.chunkCount) }

end Transfer

end PeerShare

------------------------------------------------------------
-- Arriving Chunks
------------------------------------------------------------

namespace PeerShare

namespace Transfer

/- Set the entry of a chunk. -/
def setChunk
    (t : Transfer)
    (index : Nat)
    (chunk : ChunkEntry) : Transfer :=
  { t with chunks := t.chunks.setIfInBounds index chunk }

/-
  Credit the sender of a good chunk.  Its strikes are
  forgiven, and if the chunk was requested from it the log
  gets a sample.  Nothing is credited to other senders.
-/
def credit
    (t : Transfer)
    (index bytes : Nat)
    (sender : Endpoint)
    (now : Moment)
    (log : TransferLog) :
    Transfer × TransferLog :=
  match t.peers.get? sender with
  | none => (t, log)
  | some holder =>
      let credited :=
        { t with peers := t.peers.insert sender holder.forgive }
      match (holder.record? index).bind (·.lastRequested) with
      | none => (credited, log)
      | some requested =>
          (credited,
            log.recordDownload sender
              { bytes := UInt64.ofNat bytes
                requested
                received := now })

/- Judge a chunk that arrived, and note it if it is good. -/
def accept
    (t : Transfer)
    (index : UInt16)
    (data : Bytes)
    (sender : Endpoint)
    (now : Moment)
    (log : TransferLog) :
    Verdict × Transfer × TransferLog :=
  match t.chunks[index.toNat]? with
  | none => (.unknown, t, log)
  | some chunk =>
      if chunk.downloaded then (.duplicate, t, log)
      else if Digest.of data ≠ chunk.digest then
        (.corrupt, t, log)
      else
        let noted :=
          { t.setChunk index.toNat
              { chunk with downloaded := true } with
            downloaded := t.downloaded + 1 }
        let (credited, log) :=
          noted.credit index.toNat data.length sender now log
        (.accepted t.writer.isSome, credited, log)

/- Note that a chunk is on disk. -/
def markPersisted
    (t : Transfer)
    (index : UInt16) : Transfer :=
  match t.chunks[index.toNat]? with
  | none => t
  | some chunk =>
      t.setChunk index.toNat { chunk with persisted := true }

/- Let a chunk wait for the writer, if there is one. -/
def enqueue
    (t : Transfer)
    (index : UInt16)
    (data : Bytes) : Except StorageError Transfer :=
  match t.writer with
  | none => .ok t
  | some w =>
      match w.enqueue index data with
      | .error e => .error e
      | .ok w => .ok (t.withWriter w)

/-
  Write the chunk at a position of the writer's queue, and
  give its number.
-/
def perform
    (t : Transfer)
    (position : Nat)
    (disk : Disk) :
    Option (UInt16 × Transfer × Disk) :=
  match t.writer with
  | none => none
  | some w =>
      match w.perform position disk with
      | none => none
      | some (index, w, disk) =>
          some (index, t.withWriter w, disk)

/- The complete file. -/
def complete
    (t : Transfer)
    (now : Moment) : Completed where
  file := { record := t.record, path := t.path }
  elapsed := elapsed t.started now
  writer := t.writer

end Transfer

end PeerShare
