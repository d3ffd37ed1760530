import PeerShare.ChunkSet
import PeerShare.FileRecord
import PeerShare.Table
import PeerShare.Wire.Message

/-
  The catalog of a tracker: the published files and, for
  each registered peer, the chunks it holds of each file.

  Every registration gets a fresh number, and peers are
  listed in the order of their numbers, which is the order
  of registration.

  Key definitions include:
    * `Tracker.Catalog`
    * `Tracker.Catalog.register`
    * `Tracker.Catalog.unregister`
    * `Tracker.Catalog.publish`
    * `Tracker.Catalog.query`
    * `Tracker.Catalog.update`
    * `Tracker.Catalog.remove`
-/

------------------------------------------------------------
-- The Catalog
------------------------------------------------------------

namespace PeerShare

namespace Tracker

/- The number of a registration. -/
abbrev PeerId :=
  Nat

/- What is known of a registered peer. -/
structure PeerRecord where
  identity : String
  port : UInt16
  holdings : Table String ChunkSet
  deriving DecidableEq

/- Published files, registered peers and the next number. -/
structure Catalog where
  files : Table String FileRecord
  peers : Table PeerId PeerRecord
  nextPeer : PeerId
  deriving DecidableEq

/- What is wrong with a description of a file. -/
inductive FileFault where
  | empty
  | chunkCount (expected actual : Nat)
  deriving DecidableEq

/- Why the tracker refuses a request. -/
inductive TrackerError where
  | peerNotRegistered (peer : PeerId)
  | notInitialized
  | invalidFile (name : String) (fault : FileFault)
  deriving DecidableEq

/- What became of a publication. -/
inductive PublishOutcome where
  | accepted
  | alreadyExists
  deriving DecidableEq

/- What became of a removal. -/
inductive RemoveOutcome where
  | removed
  | notFound
  deriving DecidableEq

/- The text of a fault. -/
def FileFault.message : FileFault → String
  | empty => "file is empty"
  | chunkCount expected actual =>
      "expected " ++ toString expected ++
        " chunk hashes, got " ++ toString actual

/- The text of an error. -/
def TrackerError.message : TrackerError → String
  | peerNotRegistered peer =>
      "peer " ++ toString peer ++ " is not registered"
  | notInitialized => "request received before init"
  | invalidFile name fault =>
      "invalid file " ++ name ++ ": " ++ fault.message

/- The first thing wrong with a description, if any. -/
def fileFault?
    (file : FileRecord) : Option FileFault :=
  let expected := Chunking.chunkCount file.size.toNat
  if file.size = 0 then some .empty
  else if file.chunkCount ≠ expected then
    some (.chunkCount expected file.chunkCount)
  else none

/- Nothing is wrong just with consistent descriptions. -/
theorem fileFault?_eq_none_iff
    {file : FileRecord} :
    fileFault? file = none ↔ file.IsConsistent := by
  unfold fileFault? FileRecord.IsConsistent
  dsimp only
  split
  · simp_all
  · split <;> simp_all

end Tracker

end PeerShare

------------------------------------------------------------
-- Operations
------------------------------------------------------------

namespace PeerShare

namespace Tracker

/- What a peer holds of a file, if it has told. -/
def PeerRecord.holding?
    (peer : PeerRecord)
    (name : String) : Option ChunkSet :=
  peer.holdings.get? name

/- Note what a peer holds of a file. -/
def PeerRecord.setHolding
    (peer : PeerRecord)
    (name : String)
    (chunks : ChunkSet) : PeerRecord :=
  { peer with holdings := peer.holdings.insert name chunks }

/- Forget what a peer holds of a file. -/
def PeerRecord.dropHolding
    (peer : PeerRecord)
    (name : String) : PeerRecord :=
  { peer with holdings := peer.holdings.erase name }

/-
  The entry of a peer in an answer: none for a peer that
  holds no chunk of the file.
-/
def PeerRecord.listing?
    (peer : PeerRecord)
    (name : String) : Option Wire.PeerEntry :=
  match peer.holding? name with
  | none => none
  | some chunks =>
      if chunks.isEmpty then none
      else
        some
          { identity := peer.identity
            port := peer.port
            bitfield := chunks.toWire }

namespace Catalog

/- The catalog of a new tracker. -/
def empty : Catalog where
  files := Table.empty
  peers := Table.empty
  nextPeer := 0

/- Register a peer under a fresh number. -/
def register
    (c : Catalog)
    (identity : String)
    (port : UInt16) :
    PeerId × Catalog :=
  let peer : PeerRecord :=
    { identity, port, holdings := Table.empty }
  (c.nextPeer,
    { c with
      peers := c.peers.insert c.nextPeer peer
      nextPeer := c.nextPeer + 1 })

/- Forget a peer and all that it holds. -/
def unregister
    (c : Catalog)
    (peer : PeerId) : Catalog :=
  { c with peers := c.peers.erase peer }

/-
  Publish a file, of which the publisher holds every chunk.
  A name that is already taken stays as it is.
-/
def publish
    (c : Catalog)
    (publisher : PeerId)
    (file : FileRecord) :
    Except TrackerError PublishOutcome × Catalog :=
  match fileFault? file with
  | some fault => (.error (.invalidFile file.name fault), c)
  | none =>
      match c.peers.get? publisher with
      | none => (.error (.peerNotRegistered publisher), c)
      | some peer =>
          if c.files.contains file.name then
            (.ok .alreadyExists, c)
          else
            let held :=
              peer.setHolding file.name
                (ChunkSet.full file.chunkCount)
            (.ok .accepted,
              { c with
                files := c.files.insert file.name file
                peers := c.peers.insert publisher held })

/-
  A file and the peers that hold chunks of it, in the order
  of registration.
-/
def query
    (c : Catalog)
    (name : String) :
    Option (FileRecord × List Wire.PeerEntry) :=
  match c.files.get? name with
  | none => none
  | some file =>
      some (file, c.peers.values.filterMap (·.listing? name))

/-
  Note which chunks of a file a peer holds.  Nothing changes
  when the file or the peer is not known.
-/
def update
    (c : Catalog)
    (peer : PeerId)
    (name : String)
    (bitfield : Bytes) :
    Bool × Catalog :=
  match c.files.get? name, c.peers.get? peer with
  | some file, some record =>
      let chunks := ChunkSet.ofBytes bitfield file.chunkCount
      (true,
        { c with
          peers :=
            c.peers.insert peer
              (record.setHolding name chunks) })
  | _, _ => (false, c)

/- Remove a file, and what every peer holds of it. -/
def remove
    (c : Catalog)
    (name : String) :
    RemoveOutcome × Catalog :=
  if c.files.contains name then
    (.removed,
      { c with
        files := c.files.erase name
        peers := c.peers.mapValues (·.dropHolding name) })
  else (.notFound, c)

end Catalog

end Tracker

end PeerShare
