import PeerShare.Fetch.Schedule
import PeerShare.Wire.Datagram

/-
  All files that are being fetched.

  A file is first requested from the tracker; when the
  tracker has answered it is fetched.  A pass over the files
  tells the tracker what has been fetched, when that is due,
  hands out complete files, and requests missing chunks.

  Key definitions include:
    * `Download`
    * `Downloads`
    * `Downloads.request`
    * `Downloads.start`
    * `Downloads.applyPeers`
    * `Downloads.accept`
    * `Downloads.tick`
-/

------------------------------------------------------------
-- Downloads
------------------------------------------------------------

namespace PeerShare

/- A file that was requested, or that is being fetched. -/
inductive Download where
  | awaiting (requested : Moment)
  | fetching (transfer : Transfer)
  deriving DecidableEq

/- The writer of a download, if it has one. -/
def Download.writer? : Download → Option ChunkWriter
  | awaiting _ => none
  | fetching t => t.writer

/- The downloads of a node by the names of the files. -/
structure Downloads where
  files : Table String Download
  deriving DecidableEq

/- How far a download has come. -/
structure DownloadStatus where
  name : String
  isFetching : Bool
  downloaded : Nat
  total : Nat
  peers : Nat
  deriving DecidableEq

namespace Downloads

/- No downloads. -/
def empty : Downloads where
  files := Table.empty

/- Whether a file is requested or fetched. -/
def contains
    (d : Downloads)
    (name : String) : Bool :=
  d.files.contains name

/- Whether a file is requested but not yet fetched. -/
def isAwaiting
    (d : Downloads)
    (name : String) : Bool :=
  match d.files.get? name with
  | some (.awaiting _) => true
  | _ => false

/- The transfer of a file. -/
def transfer?
    (d : Downloads)
    (name : String) : Option Transfer :=
  match d.files.get? name with
  | some (.fetching t) => some t
  | _ => none

/- Set the transfer of a file. -/
def set
    (d : Downloads)
    (name : String)
    (t : Transfer) : Downloads where
  files := d.files.insert name (.fetching t)

/-
  Note that a file is requested, unless it already is.
-/
def request
    (d : Downloads)
    (name : String)
    (now : Moment) :
    Bool × Downloads :=
  if d.contains name then (false, d)
  else (true, { files := d.files.insert name (.awaiting now) })

/- Start the transfer of a file that was requested. -/
def start
    (d : Downloads)
    (t : Transfer) :
    Bool × Downloads :=
  if d.isAwaiting t.name then (true, d.set t.name t)
  else (false, d)

/- Note the packed chunks of some peers of a file. -/
def applyPeers
    (d : Downloads)
    (name : String)
    (peers : List (Endpoint × Bytes)) :
    Bool × Downloads :=
  match d.transfer? name with
  | none => (false, d)
  | some t => (true, d.set name (t.applyPeers peers))

/- Drop a download. -/
def discard
    (d : Downloads)
    (name : String) :
    Option Download × Downloads :=
  (d.files.get? name, { files := d.files.erase name })

/- Judge a chunk of a file that arrived. -/
def accept
    (d : Downloads)
    (name : String)
    (index : UInt16)
    (data : Bytes)
    (sender : Endpoint)
    (now : Moment)
    (log : TransferLog) :
    Verdict × Downloads × TransferLog :=
  match d.transfer? name with
  | none => (.unknown, d, log)
  | some t =>
      match t.accept index data sender now log with
      | (verdict, t, log) => (verdict, d.set name t, log)

/- Let a good chunk wait for the writer of its file. -/
def enqueue
    (d : Downloads)
    (name : String)
    (index : UInt16)
    (data : Bytes) : Except StorageError Downloads :=
  match d.transfer? name with
  | none => .ok d
  | some t =>
      match t.enqueue index data with
      | .error e => .error e
      | .ok t => .ok (d.set name t)

/- Note that a chunk of a file is on disk. -/
def markPersisted
    (d : Downloads)
    (name : String)
    (index : UInt16) : Downloads :=
  match d.transfer? name with
  | none => d
  | some t => d.set name (t.markPersisted index)

/-
  Write the chunk at a position of the queue of a file, and
  give its number.
-/
def perform
    (d : Downloads)
    (name : String)
    (position : Nat)
    (disk : Disk) :
    Option (UInt16 × Downloads × Disk) :=
  match d.transfer? name with
  | none => none
  | some t =>
      match t.perform position disk with
      | none => none
      | some (index, t, disk) => some (index, d.set name t, disk)

/- Where a chunk of a file can be read, if it is on disk. -/
def source?
    (d : Downloads)
    (name : String)
    (index : UInt16) : Option (String × UInt64) :=
  match d.transfer? name with
  | none => none
  | some t =>
      match t.chunks[index.toNat]? with
      | none => none
      | some chunk =>
          if chunk.persisted then some (t.path, t.size)
          else none

/- How far every download has come, in order of names. -/
def status
    (d : Downloads) : List DownloadStatus :=
  d.files.entries.map fun (name, download) =>
    match download with
    | .awaiting _ =>
        { name, isFetching := false, downloaded := 0,
          total := 0, peers := 0 }
    | .fetching t =>
        { name, isFetching := true, downloaded := t.downloaded,
          total := t.chunkCount, peers := t.peers.size }

/- The writers of all downloads. -/
def writers
    (d : Downloads) : List ChunkWriter :=
  d.files.values.filterMap (·.writer?)

end Downloads

end PeerShare

------------------------------------------------------------
-- Passes
------------------------------------------------------------

namespace PeerShare

/- A request for chunks of a file. -/
structure ChunkRequest where
  peer : Endpoint
  name : String
  indices : List UInt16
  deriving DecidableEq

/- The datagram of a request. -/
def ChunkRequest.datagram
    (r : ChunkRequest) : Wire.Datagram :=
  .request r.name r.indices

/-
  What a pass decides: messages for the tracker, requests
  for chunks, and complete files.
-/
structure Pass where
  messages : List Wire.Message
  requests : List ChunkRequest
  completed : List Completed
  deriving DecidableEq

namespace Pass

/- A pass that decides nothing. -/
def nothing : Pass where
  messages := []
  requests := []
  completed := []

/- What two passes decide together. -/
def append
    (p q : Pass) : Pass where
  messages := p.messages ++ q.messages
  requests := p.requests ++ q.requests
  completed := p.completed ++ q.completed

end Pass

/- How often the tracker is told what has been fetched. -/
def refreshInterval : Span :=
  Span.ofSeconds 5

namespace Transfer

/- Whether the tracker is to be told what has been fetched. -/
def isRefreshDue
    (t : Transfer)
    (now : Moment) : Bool :=
  refreshInterval < elapsed t.refreshed now

/-
  What the tracker is told: the chunks that are on disk, or
  all chunks of a complete file, and that the peers of the
  file are asked for.
-/
def refreshMessages
    (t : Transfer) : List Wire.Message :=
  let chunks :=
    if t.isComplete then ChunkSet.full t.chunkCount
    else t.persisted
  [.holdings t.name chunks.toWire, .refresh t.name]

/-
  The pass over one transfer.  A complete file leaves no
  transfer.
-/
def tick
    (t : Transfer)
    (now : Moment)
    (log : TransferLog) :
    Pass × Option Transfer :=
  let due := t.isComplete || t.isRefreshDue now
  let messages := if due then t.refreshMessages else []
  let refreshed := if due then { t with refreshed := now } else t
  if t.isComplete then
    ({ messages
       requests := []
       completed := [refreshed.complete now] }, none)
  else
    let (requests, scheduled) := refreshed.schedule now log
    ({ messages
       requests :=
         requests.map fun (peer, indices) =>
           { peer, name := t.name, indices }
       completed := [] }, some scheduled)

end Transfer

/- The pass over one download. -/
def Download.tick
    (download : Download)
    (now : Moment)
    (log : TransferLog) :
    Pass × Option Download :=
  match download with
  | .awaiting requested => (Pass.nothing, some (.awaiting requested))
  | .fetching t =>
      match t.tick now log with
      | (pass, t) => (pass, t.map .fetching)

namespace Downloads

/- Set or drop a download after its pass. -/
def settle
    (d : Downloads)
    (name : String) :
    Option Download → Downloads
  | none => { files := d.files.erase name }
  | some download => { files := d.files.insert name download }

/- The pass over all downloads, in order of names. -/
def tick
    (d : Downloads)
    (now : Moment)
    (log : TransferLog) :
    Pass × Downloads :=
  d.files.entries.foldl
    (fun (pass, d) (name, download) =>
      match download.tick now log with
      | (own, rest) => (pass.append own, d.settle name rest))
    (Pass.nothing, d)

end Downloads

end PeerShare
