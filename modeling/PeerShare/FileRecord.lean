import PeerShare.Chunking
import PeerShare.Digest

/-
  What is known of a shared file: its name, its size, the
  digest of its content and the digest of each chunk.

  Key definitions include:
    * `FileRecord`
    * `FileRecord.describe`
    * `FileRecord.IsConsistent`
    * `LocalFile`
-/

namespace PeerShare

/- The description of a shared file. -/
structure FileRecord where
  name : String
  size : UInt64
  digest : Digest
  chunkDigests : List Digest
  deriving BEq, DecidableEq

namespace FileRecord

/- The chunks of a content, in order. -/
def chunksOf
    (content : Bytes) : List Bytes :=
  Bytes.pieces
    (Chunking.chunkCount content.length)
    (Chunking.chunkSize content.length)
    content

/- The description of a content under a name. -/
def describe
    (name : String)
    (content : Bytes) : FileRecord where
  name := name
  size := UInt64.ofNat content.length
  digest := Digest.of content
  chunkDigests := (chunksOf content).map Digest.of

/- The number of chunks that have a digest. -/
def chunkCount
    (file : FileRecord) : Nat :=
  file.chunkDigests.length

/-
  A description is consistent when the file is not empty
  and there is one digest for each of its chunks.
-/
def IsConsistent
    (file : FileRecord) : Prop :=
  file.size ≠ 0 ∧
    file.chunkCount = Chunking.chunkCount file.size.toNat

instance
    (file : FileRecord) :
    Decidable file.IsConsistent := by
  unfold IsConsistent
  infer_instance

end FileRecord

/- A shared file that is complete on the local disk. -/
structure LocalFile where
  record : FileRecord
  path : String
  deriving DecidableEq

end PeerShare
