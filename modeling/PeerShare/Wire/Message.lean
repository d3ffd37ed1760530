import PeerShare.Wire.Layout

/-
  The messages between nodes and the tracker.

  Key definitions include:
    * `Wire.PeerEntry`
    * `Wire.Message`
    * `Wire.Message.payload`
    * `Wire.Message.decode`
-/

------------------------------------------------------------
-- Messages
------------------------------------------------------------

namespace PeerShare

namespace Wire

/- A peer that holds chunks of a file. -/
structure PeerEntry where
  identity : String
  port : UInt16
  bitfield : Bytes
  deriving BEq, DecidableEq

/-
  A message.  Nodes introduce themselves, publish, request,
  refresh and remove files and tell which chunks they hold;
  the tracker acknowledges, refuses and answers.
-/
inductive Message where
  | init (identity : String) (port : UInt16)
  | publish (file : FileRecord)
  | request (name : String)
  | holdings (name : String) (bitfield : Bytes)
  | refresh (name : String)
  | remove (name : String)
  | success (name : String) (kind : Success)
  | alreadyExists (name : String)
  | notFound (name : String)
  | answer (file : FileRecord) (peers : List PeerEntry)
  deriving BEq, DecidableEq

/- The tag of a message. -/
def Message.tag : Message → Tag
  | init .. => .init
  | publish .. => .publish
  | request .. => .request
  | holdings .. => .holdings
  | refresh .. => .refresh
  | remove .. => .remove
  | success .. => .success
  | alreadyExists .. => .alreadyExists
  | notFound .. => .notFound
  | answer .. => .answer

end Wire

end PeerShare

------------------------------------------------------------
-- Layouts of the Fields
------------------------------------------------------------

namespace PeerShare

namespace Wire

namespace Layout

/- Who introduces itself, and on which port it listens. -/
def introduction : Layout (String × UInt16) :=
  (text .identity).seq (uint16 .port)

/- A name alone. -/
def name : Layout String :=
  text .name

/- A file and the packed set of chunks held of it. -/
def holdings : Layout (String × Bytes) :=
  (text .name).seq (block .bitfield)

/- The byte of an acknowledged request. -/
def successKind : Layout Success :=
  (uint8 .kind).refine
    (fun b =>
      match Success.ofByte? b with
      | some kind => .ok kind
      | none => .error (.unknownSuccess b))
    (fun kind => kind.tag.toByte)

/- An acknowledged request and the file it named. -/
def success : Layout (String × Success) :=
  (text .name).seq successKind

/- A peer in an answer. -/
def peerEntry : Layout PeerEntry :=
  ((text .peerIdentity).seq
    ((uint16 .peerPort).seq (block .peerBitfield))).convert
    (fun (identity, port, bitfield) =>
      { identity, port, bitfield })
    (fun entry => (entry.identity, entry.port, entry.bitfield))

/- A file and the peers that hold chunks of it. -/
def answer : Layout (FileRecord × List PeerEntry) :=
  fileRecord.seq (list .peers peerEntry)

end Layout

end Wire

end PeerShare

------------------------------------------------------------
-- Encoding and Decoding
------------------------------------------------------------

namespace PeerShare

namespace Wire

variable {α β : Type}

/- Change the value that has been read. -/
def mapRead
    (f : α → β) :
    Except DecodeError (α × Bytes) →
    Except DecodeError (β × Bytes)
  | .error e => .error e
  | .ok (a, rest) => .ok (f a, rest)

/- Require that nothing is left after the last field. -/
def finish :
    Except DecodeError (α × Bytes) →
    Except DecodeError α
  | .error e => .error e
  | .ok (a, []) => .ok a
  | .ok (_, rest) => .error (.trailing rest.length)

/- Read the tag that leads a message. -/
def readTag
    (bs : Bytes) :
    Except DecodeError (Tag × Bytes) :=
  ((Layout.uint8 .id).refine
    (fun b =>
      match Tag.ofByte? b with
      | some tag => .ok tag
      | none => .error (.unknownTag b))
    Tag.toByte).read bs

namespace Message

/- The bytes of the fields of a message. -/
def fields : Message → Bytes
  | init identity port =>
      Layout.introduction.write (identity, port)
  | publish file => Layout.fileRecord.write file
  | request name => Layout.name.write name
  | holdings name bitfield =>
      Layout.holdings.write (name, bitfield)
  | refresh name => Layout.name.write name
  | remove name => Layout.name.write name
  | success name kind => Layout.success.write (name, kind)
  | alreadyExists name => Layout.name.write name
  | notFound name => Layout.name.write name
  | answer file peers => Layout.answer.write (file, peers)

/- The bytes of a message: its tag and its fields. -/
def payload
    (m : Message) : Bytes :=
  m.tag.toByte :: m.fields

/- Read the fields of a message with a given tag. -/
def readFields
    (tag : Tag)
    (bs : Bytes) :
    Except DecodeError (Message × Bytes) :=
  match tag with
  | .init =>
      mapRead (fun (identity, port) => init identity port)
        (Layout.introduction.read bs)
  | .publish => mapRead publish (Layout.fileRecord.read bs)
  | .request => mapRead request (Layout.name.read bs)
  | .holdings =>
      mapRead (fun (name, bitfield) => holdings name bitfield)
        (Layout.holdings.read bs)
  | .refresh => mapRead refresh (Layout.name.read bs)
  | .remove => mapRead remove (Layout.name.read bs)
  | .success =>
      mapRead (fun (name, kind) => success name kind)
        (Layout.success.read bs)
  | .alreadyExists =>
      mapRead alreadyExists (Layout.name.read bs)
  | .notFound => mapRead notFound (Layout.name.read bs)
  | .answer =>
      mapRead (fun (file, peers) => answer file peers)
        (Layout.answer.read bs)
  | .chunkRequest => .error (.wrongChannel .chunkRequest)
  | .chunk => .error (.wrongChannel .chunk)

/- The message with the given bytes. -/
def decode
    (bs : Bytes) :
    Except DecodeError Message :=
  match readTag bs with
  | .error e => .error e
  | .ok (tag, rest) => finish (readFields tag rest)

end Message

end Wire

end PeerShare
