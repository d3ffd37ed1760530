import PeerShare.Node

/-
  How a node deals with other nodes: it serves the chunks
  that it has on disk, takes in chunks that it asked for,
  and asks for the chunks that are missing.

  Key definitions include:
    * `Node.source?`
    * `Node.serve`
    * `Node.takeChunk`
    * `Node.handleDatagram`
    * `Node.finish`
    * `Node.tick`
-/

------------------------------------------------------------
-- Serving Chunks
------------------------------------------------------------

namespace PeerShare

namespace Node

/-
  Where a chunk can be read: in the file if it is served, or
  else in the download if the chunk is on disk.
-/
def source?
    (node : Node)
    (name : String)
    (index : UInt16) : Option (String × UInt64) :=
  match node.offers.published.get? name with
  | some file => some (file.path, file.record.size)
  | none => node.downloads.source? name index

/- The datagram with a chunk, if it can be read and sent. -/
def chunkDatagram?
    (node : Node)
    (name : String)
    (index : UInt16) : Option (Wire.Datagram × Nat) :=
  match node.source? name index with
  | none => none
  | some (path, size) =>
      match readChunk node.disk path size.toNat index with
      | .error _ => none
      | .ok data =>
          let datagram := Wire.Datagram.chunk name index data
          if Wire.maxDatagram < datagram.encode.length then none
          else some (datagram, data.length)

/- Serve the requested chunks, as far as they can be. -/
def serve
    (node : Node)
    (name : String) :
    List UInt16 → List Wire.Datagram × Node
  | [] => ([], node)
  | index :: indices =>
      match node.chunkDatagram? name index with
      | none => serve node name indices
      | some (datagram, length) =>
          let served :=
            { node with log := node.log.recordUpload length }
          let (datagrams, node) := serve served name indices
          (datagram :: datagrams, node)

end Node

end PeerShare

------------------------------------------------------------
-- Taking in Chunks
------------------------------------------------------------

namespace PeerShare

namespace Node

/-
  Take in a chunk from a peer.  A good chunk waits to be
  written.
-/
def takeChunk
    (node : Node)
    (name : String)
    (index : UInt16)
    (data : Bytes)
    (sender : Endpoint)
    (now : Moment) : Node :=
  match node.downloads.accept name index data sender now
      node.log with
  | (.accepted true, downloads, log) =>
      match downloads.enqueue name index data with
      | .ok downloads => { node with downloads, log }
      | .error _ => { node with downloads, log }
  | (_, downloads, log) => { node with downloads, log }

/- Handle a datagram of a peer, and give the answers. -/
def handleDatagram
    (node : Node)
    (sender : Endpoint)
    (bs : Bytes)
    (now : Moment) :
    List Wire.Datagram × Node :=
  if node.isRunning then
    match Wire.Datagram.decode bs with
    | .error _ => ([], node)
    | .ok (.chunk name index data) =>
        ([], node.takeChunk name index data sender now)
    | .ok (.request name indices) => node.serve name indices
  else ([], node)

end Node

end PeerShare

------------------------------------------------------------
-- Passes
------------------------------------------------------------

namespace PeerShare

namespace Node

/-
  Whether a complete file is closed.  A writer may fail to
  close, as `closes` tells.
-/
def isClosed
    (closes : Completed → Bool)
    (c : Completed) : Bool :=
  c.writer.isNone || closes c

/-
  Stop the writer of a complete file, and serve the file
  unless it has failed to close.
-/
def finish
    (closes : Completed → Bool)
    (node : Node)
    (c : Completed) : Node :=
  let stopped := node.stopWriter? c.file.record.name c.writer
  if isClosed closes c then
    { stopped with offers := stopped.offers.publish c.file }
  else stopped

/-
  What the tracker is told of a complete file that has
  failed to close: none of its chunks is held.
-/
def withdrawal?
    (closes : Completed → Bool)
    (c : Completed) : Option Wire.Message :=
  if isClosed closes c then none
  else
    some
      (.holdings c.file.record.name
        (ChunkSet.empty c.file.record.chunkCount).toWire)

/-
  One pass over the downloads: complete files are served,
  the tracker is told, and chunks are requested.
-/
def tick
    (node : Node)
    (closes : Completed → Bool)
    (now : Moment) :
    List ChunkRequest × Node :=
  if node.isRunning then
    match node.downloads.tick now node.log with
    | (pass, downloads) =>
        let finished :=
          pass.completed.foldl (finish closes)
            { node with downloads }
        (pass.requests,
          finished.sendAll
            (pass.messages ++
              pass.completed.filterMap (withdrawal? closes)))
  else ([], node)

end Node

end PeerShare
