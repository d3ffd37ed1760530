import PeerShare.Fetch.Downloads
import PeerShare.Node.Offers

/-
  The state of a node.

  A node offers files, fetches files and talks to the
  tracker.  Messages for the tracker leave in the order in
  which they were sent.

  Key definitions include:
    * `Node`
    * `Node.start`
    * `Node.send`
    * `Node.stopWriter`
    * `Node.performWrite`
    * `Node.flush`
    * `Node.shutDown`
-/

------------------------------------------------------------
-- Nodes
------------------------------------------------------------

namespace PeerShare

/-
  A node.  It is known to others by its identity and port,
  and downloads files into a directory.
-/
structure Node where
  identity : String
  port : UInt16
  directory : String
  offers : Offers
  downloads : Downloads
  log : TransferLog
  disk : Disk
  /- Messages that are on their way to the tracker. -/
  outbox : List Wire.Message
  /- Whether messages for the tracker are taken. -/
  isConnected : Bool
  /- Whether messages of the tracker are read. -/
  isListening : Bool
  /- Whether the node takes part in the swarm. -/
  isRunning : Bool
  deriving DecidableEq

/- Why a node refuses to do something. -/
inductive NodeError where
  | io (cause : IoFailure)
  | notConnected
  | emptyFile (path : String)
  | chunkTooLarge (name : String) (chunkSize : Nat)
  | unknownFile (name : String)
  | alreadyTracked (name : String)
  | invalidName (path : String)
  deriving DecidableEq

/- The text of an error. -/
def NodeError.message : NodeError → String
  | io cause => "io error: " ++ cause.name
  | notConnected => "not connected to tracker"
  | emptyFile path => "file \"" ++ path ++ "\" is empty"
  | chunkTooLarge name chunkSize =>
      "chunks of " ++ name ++ " are " ++ toString chunkSize ++
        " bytes, too large for a datagram"
  | unknownFile name => "unknown file: " ++ name
  | alreadyTracked name =>
      "file " ++ name ++ " is already tracked locally"
  | invalidName path => "invalid file name: \"" ++ path ++ "\""

namespace Node

/-
  Start a node that reaches the tracker from a local
  address.  Without an identity of its own it is known by
  that address.
-/
def start
    (identity : Option String)
    (localAddress : IpAddress)
    (port : UInt16)
    (directory : String)
    (disk : Disk) : Node :=
  let identity := identity.getD localAddress.render
  { identity
    port
    directory
    offers := Offers.empty
    downloads := Downloads.empty
    log := TransferLog.start TransferLog.defaultWindow
    disk
    outbox := [.init identity port]
    isConnected := true
    isListening := true
    isRunning := true }

/- Whether a file is offered or fetched. -/
def tracks
    (node : Node)
    (name : String) : Bool :=
  node.offers.contains name || node.downloads.contains name

/-
  Send a message to the tracker, if the way to it is open.
-/
def send
    (node : Node)
    (m : Wire.Message) :
    Bool × Node :=
  if node.isConnected then
    (true, { node with outbox := node.outbox ++ [m] })
  else (false, node)

/- Send messages until one is not taken. -/
def sendAll
    (node : Node) :
    List Wire.Message → Node
  | [] => node
  | m :: ms =>
      match node.send m with
      | (true, node) => sendAll node ms
      | (false, node) => node

end Node

end PeerShare

------------------------------------------------------------
-- Writing Chunks
------------------------------------------------------------

namespace PeerShare

namespace Node

/- Note that chunks of a file are on disk. -/
def markPersisted
    (node : Node)
    (name : String)
    (indices : List UInt16) : Node :=
  { node with
    downloads :=
      indices.foldl
        (fun d index => d.markPersisted name index)
        node.downloads }

/- Stop the writer of a file: write all chunks that wait. -/
def stopWriter
    (node : Node)
    (name : String)
    (w : ChunkWriter) : Node :=
  let (written, disk) := w.drain node.disk
  markPersisted { node with disk } name written

/- Stop the writer of a file, if there is one. -/
def stopWriter?
    (node : Node)
    (name : String) :
    Option ChunkWriter → Node
  | none => node
  | some w => node.stopWriter name w

/-
  Write the chunk at a position of the queue of a file, and
  note that it is on disk.
-/
def performWrite
    (node : Node)
    (name : String)
    (position : Nat) : Node :=
  match node.downloads.perform name position node.disk with
  | none => node
  | some (index, downloads, disk) =>
      markPersisted { node with downloads, disk } name [index]

/- The number of chunks of a file that wait to be written. -/
def queueLength
    (node : Node)
    (name : String) : Nat :=
  match (node.downloads.transfer? name).bind (·.writer) with
  | none => 0
  | some w => w.queue.length

/- Write all chunks of a file that wait, in order. -/
def flushFile
    (node : Node)
    (name : String) : Node :=
  (List.range (node.queueLength name)).foldl
    (fun node _ => node.performWrite name 0) node

/- Write all chunks that wait. -/
def flush
    (node : Node) : Node :=
  node.downloads.files.keys.foldl flushFile node

/-
  Stop the node.  What waits to be written is written, and
  all downloads are dropped.
-/
def shutDown
    (node : Node) : Node :=
  let disk :=
    node.downloads.writers.foldl
      (fun disk w => (w.drain disk).2) node.disk
  { node with
    disk
    downloads := Downloads.empty
    isConnected := false
    isListening := false
    isRunning := false }

/- Read no more messages of the tracker. -/
def stopListening
    (node : Node) : Node :=
  { node with isListening := false }

/- Take no more messages for the tracker. -/
def disconnect
    (node : Node) : Node :=
  { node with isConnected := false }

end Node

end PeerShare
