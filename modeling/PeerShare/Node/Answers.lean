import PeerShare.Node

/-
  How a node handles messages of the tracker.

  Key definitions include:
    * `otherPeers`
    * `Hosts`
    * `resolve?`
    * `Node.listedPeers`
    * `Node.downloadPath?`
    * `Node.handleAnswer`
    * `Node.handleMessage`
    * `Node.receive`
-/

------------------------------------------------------------
-- Peers in Answers
------------------------------------------------------------

namespace PeerShare

/-
  The entries of an answer other than that of the node with
  the given identity and port.
-/
def otherPeers
    (entries : List Wire.PeerEntry)
    (identity : String)
    (port : UInt16) : List Wire.PeerEntry :=
  entries.filter fun entry =>
    !(entry.identity == identity && entry.port == port)

/-
  A look-up of the names of hosts.  It gives where a host
  is reached on a port, if the name is known.
-/
abbrev Hosts :=
  String → UInt16 → Option Endpoint

/-
  Where a peer is reached.  Its identity is an address or
  else the name of a host.
-/
def resolve?
    (hosts : Hosts)
    (entry : Wire.PeerEntry) : Option (Endpoint × Bytes) :=
  match IpAddress.parse? entry.identity with
  | some address =>
      some ({ address, port := entry.port }, entry.bitfield)
  | none =>
      match hosts entry.identity entry.port with
      | none => none
      | some reached => some (reached, entry.bitfield)

end PeerShare

------------------------------------------------------------
-- Answers
------------------------------------------------------------

namespace PeerShare

namespace Node

/- The peers that an answer lists, but for the node itself. -/
def listedPeers
    (node : Node)
    (entries : List Wire.PeerEntry)
    (hosts : Hosts) : List (Endpoint × Bytes) :=
  (otherPeers entries node.identity node.port).filterMap
    (resolve? hosts)

/-
  Where a file is downloaded to.  Only a plain name has such
  a place: one that is all of its own last segment.
-/
def downloadPath?
    (node : Node)
    (name : String) : Option String :=
  match Path.fileName? name with
  | none => none
  | some last =>
      if last = name then some (Path.join node.directory name)
      else none

/- Drop a download, and stop its writer. -/
def discard
    (node : Node)
    (name : String) : Node :=
  match node.downloads.discard name with
  | (none, _) => node
  | (some download, downloads) =>
      stopWriter? { node with downloads } name download.writer?

/-
  Fetch a file that was requested, from the given peers.
-/
def beginTransfer
    (node : Node)
    (file : FileRecord)
    (path : String)
    (peers : List (Endpoint × Bytes))
    (now : Moment) : Node :=
  match ChunkWriter.create node.disk path file.size.toNat with
  | (.error _, disk) => discard { node with disk } file.name
  | (.ok w, disk) =>
      let t := (Transfer.start file path now).withWriter w
      match node.downloads.start (t.applyPeers peers) with
      | (true, downloads) => { node with disk, downloads }
      | (false, downloads) =>
          stopWriter { node with disk, downloads } file.name w

/-
  Handle an answer of the tracker: peers of a file that is
  being fetched, or the description of a file that was
  requested.  Without a consistent description and a plain
  name the request is dropped.
-/
def handleAnswer
    (node : Node)
    (file : FileRecord)
    (entries : List Wire.PeerEntry)
    (hosts : Hosts)
    (now : Moment) : Node :=
  let peers := node.listedPeers entries hosts
  if node.downloads.isAwaiting file.name then
    if file.IsConsistent then
      match node.downloadPath? file.name with
      | none => node.discard file.name
      | some path => node.beginTransfer file path peers now
    else node.discard file.name
  else
    { node with
      downloads :=
        (node.downloads.applyPeers file.name peers).2 }

end Node

end PeerShare

------------------------------------------------------------
-- Messages
------------------------------------------------------------

namespace PeerShare

namespace Node

/- Handle a message of the tracker. -/
def handleMessage
    (node : Node)
    (m : Wire.Message)
    (hosts : Hosts)
    (now : Moment) : Node :=
  match m with
  | .success name .publish =>
      { node with offers := node.offers.confirm name }
  | .success _ .remove => node
  | .alreadyExists name =>
      { node with offers := node.offers.reject name }
  | .notFound name =>
      discard { node with offers := node.offers.reject name }
        name
  | .answer file entries =>
      node.handleAnswer file entries hosts now
  | _ => node

/-
  Handle a payload of the tracker.  Payloads that are no
  message are skipped.
-/
def receive
    (node : Node)
    (payload : Bytes)
    (hosts : Hosts)
    (now : Moment) : Node :=
  if node.isListening then
    match Wire.Message.decode payload with
    | .error _ => node
    | .ok m => node.handleMessage m hosts now
  else node

end Node

end PeerShare
