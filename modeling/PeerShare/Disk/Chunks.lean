import PeerShare.Chunking
import PeerShare.Disk

/-
  Chunks on disk.

  A writer puts chunks of one file in their places, in any
  order.  The file gets its full length when the writer is
  made.  Chunks wait in a queue, and the workers of the
  writer may take them out of it in any order; stopping the
  writer empties the queue.

  Key definitions include:
    * `StorageError`
    * `ChunkWriter`
    * `ChunkWriter.create`
    * `ChunkWriter.check`
    * `ChunkWriter.enqueue`
    * `ChunkWriter.perform`
    * `ChunkWriter.drain`
    * `readChunk`
-/

------------------------------------------------------------
-- Writers
------------------------------------------------------------

namespace PeerShare

/- Why a chunk was not written or read. -/
inductive StorageError where
  | io (cause : IoFailure)
  | invalidChunkIndex (index : UInt16)
  | chunkLength
      (index : UInt16)
      (expected actual : Nat)
  deriving DecidableEq

/- The text of an error. -/
def StorageError.message : StorageError → String
  | io cause => "io error: " ++ cause.name
  | invalidChunkIndex index =>
      "invalid chunk index: " ++ toString index.toNat
  | chunkLength index expected actual =>
      "chunk " ++ toString index.toNat ++ " has " ++
        toString actual ++ " bytes, expected " ++
        toString expected

/- A chunk that waits to be written. -/
structure QueuedChunk where
  index : UInt16
  data : Bytes
  deriving DecidableEq

/- A writer of chunks of one file, and the chunks that wait. -/
structure ChunkWriter where
  path : String
  file : Disk.FileId
  size : Nat
  queue : List QueuedChunk
  deriving DecidableEq

namespace ChunkWriter

/- The length of the longest file. -/
def maxSize : Nat :=
  0x7FFFFFFFFFFFFFFF

/-
  Make a writer for the file of a path, which gets the given
  length.  Directories and file are made if missing, and
  those that are made before an error stay.
-/
def create
    (disk : Disk)
    (path : String)
    (size : Nat) :
    Except StorageError ChunkWriter × Disk :=
  match disk.makeParents path with
  | (.error e, disk) => (.error (.io e), disk)
  | (.ok (), disk) =>
      match disk.openFile path with
      | .error e => (.error (.io e), disk)
      | .ok (file, disk) =>
          if maxSize < size then
            (.error (.io .invalidInput), disk)
          else
            (.ok { path, file, size, queue := [] },
              disk.update file fun content =>
                content.resize size)

/- Whether a chunk may be written. -/
def check
    (size : Nat)
    (index : UInt16)
    (data : Bytes) : Except StorageError Unit :=
  let expected := Chunking.chunkLength size index.toNat
  if Chunking.chunkCount size ≤ index.toNat then
    .error (.invalidChunkIndex index)
  else if data.length ≠ expected then
    .error (.chunkLength index expected data.length)
  else .ok ()

/- Let a chunk wait to be written. -/
def enqueue
    (w : ChunkWriter)
    (index : UInt16)
    (data : Bytes) : Except StorageError ChunkWriter :=
  match check w.size index data with
  | .error e => .error e
  | .ok () =>
      .ok { w with queue := w.queue ++ [{ index, data }] }

/- Write a chunk in its place. -/
def put
    (w : ChunkWriter)
    (chunk : QueuedChunk)
    (disk : Disk) : Disk :=
  disk.update w.file fun content =>
    content.write
      (Chunking.chunkStart w.size chunk.index.toNat)
      chunk.data

/-
  Write the chunk at a position of the queue.  The number of
  the chunk tells that it is on disk.
-/
def perform
    (w : ChunkWriter)
    (position : Nat)
    (disk : Disk) :
    Option (UInt16 × ChunkWriter × Disk) :=
  match w.queue[position]? with
  | none => none
  | some chunk =>
      some
        (chunk.index,
          { w with queue := w.queue.eraseIdx position },
          w.put chunk disk)

/- Write all chunks that wait, in order. -/
def drain
    (w : ChunkWriter)
    (disk : Disk) :
    List UInt16 × Disk :=
  (w.queue.map (·.index),
    w.queue.foldl (fun disk chunk => w.put chunk disk) disk)

end ChunkWriter

end PeerShare

------------------------------------------------------------
-- Reading
------------------------------------------------------------

namespace PeerShare

/- The bytes of a chunk of the file of a path. -/
def readChunk
    (disk : Disk)
    (path : String)
    (size : Nat)
    (index : UInt16) :
    Except StorageError Bytes :=
  if Chunking.chunkCount size ≤ index.toNat then
    .error (.invalidChunkIndex index)
  else
    match disk.read path with
    | .error e => .error (.io e)
    | .ok content =>
        let start := Chunking.chunkStart size index.toNat
        let length := Chunking.chunkLength size index.toNat
        if content.length < start + length then
          .error (.io .unexpectedEof)
        else .ok (content.read start length)

end PeerShare
