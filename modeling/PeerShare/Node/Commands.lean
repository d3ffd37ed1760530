import PeerShare.Node

/-
  What a user asks of a node: to publish files, to fetch a
  file, and to withdraw a file.

  Key definitions include:
    * `Node.publish`
    * `Node.request`
    * `Node.remove`
-/

------------------------------------------------------------
-- Publishing
------------------------------------------------------------

namespace PeerShare

namespace Node

/-
  The description of the file of a path under a name, unless
  it cannot be published.
-/
def describeFile
    (node : Node)
    (name path : String) : Except NodeError FileRecord :=
  match node.disk.read path with
  | .error e => .error (.io e)
  | .ok content =>
      let record := FileRecord.describe name content.toBytes
      let chunkSize := Chunking.chunkSize record.size.toNat
      if record.size = 0 then .error (.emptyFile path)
      else if
          Wire.maxDatagram <
            chunkSize + Wire.chunkOverhead + name.utf8ByteSize
        then .error (.chunkTooLarge name chunkSize)
      else .ok record

/-
  Publish the file of a path under the name at the end of
  the path.  The file waits for the tracker; if the tracker
  cannot be told, it waits no longer.
-/
def publishFile
    (node : Node)
    (path : String) :
    Except NodeError String × Node :=
  match Path.fileName? path with
  | none => (.error (.invalidName path), node)
  | some name =>
      if node.tracks name then
        (.error (.alreadyTracked name), node)
      else
        match node.describeFile name path with
        | .error e => (.error e, node)
        | .ok record =>
            let waiting :=
              { node with
                offers := node.offers.await { record, path } }
            match waiting.send (.publish record) with
            | (true, node) => (.ok name, node)
            | (false, node) =>
                (.error .notConnected,
                  { node with offers := node.offers.reject name })

/-
  Publish files one after another.  Those that cannot be
  published are left out.
-/
def publishAll
    (node : Node) :
    List String → List String × Node
  | [] => ([], node)
  | path :: paths =>
      match node.publishFile path with
      | (.error _, node) => publishAll node paths
      | (.ok name, node) =>
          let (names, node) := publishAll node paths
          (name :: names, node)

/-
  Publish a file, or all files of a directory and below it.
  The names of the published files are given.
-/
def publish
    (node : Node)
    (path : String) :
    Except NodeError (List String) × Node :=
  match node.disk.isDirectory path with
  | .error e => (.error (.io e), node)
  | .ok false =>
      match node.publishFile path with
      | (.error e, node) => (.error e, node)
      | (.ok name, node) => (.ok [name], node)
  | .ok true =>
      match node.disk.filesUnder path with
      | .error e => (.error (.io e), node)
      | .ok files =>
          let paths := files.map fun names =>
            names.foldl Path.join path
          let (names, node) := node.publishAll paths
          (.ok names, node)

end Node

end PeerShare

------------------------------------------------------------
-- Fetching and Withdrawing
------------------------------------------------------------

namespace PeerShare

namespace Node

/-
  Fetch a file.  If the tracker cannot be asked, the request
  is dropped.
-/
def request
    (node : Node)
    (name : String)
    (now : Moment) :
    Except NodeError Unit × Node :=
  if node.offers.contains name then
    (.error (.alreadyTracked name), node)
  else
    match node.downloads.request name now with
    | (false, _) => (.error (.alreadyTracked name), node)
    | (true, downloads) =>
        match { node with downloads }.send (.request name) with
        | (true, node) => (.ok (), node)
        | (false, node) =>
            (.error .notConnected,
              { node with
                downloads := (node.downloads.discard name).2 })

/- Serve a file no longer, and have the tracker forget it. -/
def remove
    (node : Node)
    (name : String) :
    Except NodeError Unit × Node :=
  match node.offers.withdraw? name with
  | none => (.error (.unknownFile name), node)
  | some offers =>
      match { node with offers }.send (.remove name) with
      | (true, node) => (.ok (), node)
      | (false, node) => (.error .notConnected, node)

end Node

end PeerShare
