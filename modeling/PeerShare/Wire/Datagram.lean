import PeerShare.Wire.Message

/-
  The datagrams between nodes.

  Key definitions include:
    * `Wire.Datagram`
    * `Wire.Datagram.encode`
    * `Wire.Datagram.decode`
-/

namespace PeerShare

namespace Wire

/- The size of the largest datagram that can be sent. -/
def maxDatagram : Nat :=
  65507

/- The size of a chunk datagram without name and data. -/
def chunkOverhead : Nat :=
  11

/- A datagram: a request for chunks, or a chunk. -/
inductive Datagram where
  | request (name : String) (indices : List UInt16)
  | chunk (name : String) (index : UInt16) (data : Bytes)
  deriving BEq, DecidableEq

namespace Layout

/- A file and the chunks that are wanted of it. -/
def chunkRequest : Layout (String × List UInt16) :=
  (text .name).seq (indices .indices)

/- A file, the number of a chunk and its bytes. -/
def chunk : Layout (String × UInt16 × Bytes) :=
  (text .name).seq ((uint16 .index).seq (block .data))

end Layout

namespace Datagram

/- The tag of a datagram. -/
def tag : Datagram → Tag
  | request .. => .chunkRequest
  | chunk .. => .chunk

/- The bytes of the fields of a datagram. -/
def fields : Datagram → Bytes
  | request name indices =>
      Layout.chunkRequest.write (name, indices)
  | chunk name index data =>
      Layout.chunk.write (name, index, data)

/- The bytes of a datagram: its tag and its fields. -/
def encode
    (d : Datagram) : Bytes :=
  d.tag.toByte :: d.fields

/- Read the fields of a datagram with a given tag. -/
def readFields
    (tag : Tag)
    (bs : Bytes) :
    Except DecodeError (Datagram × Bytes) :=
  match tag with
  | .chunkRequest =>
      mapRead (fun (name, indices) => request name indices)
        (Layout.chunkRequest.read bs)
  | .chunk =>
      mapRead
        (fun (name, index, data) => chunk name index data)
        (Layout.chunk.read bs)
  | tag => .error (.wrongChannel tag)

/- The datagram with the given bytes. -/
def decode
    (bs : Bytes) :
    Except DecodeError Datagram :=
  match readTag bs with
  | .error e => .error e
  | .ok (tag, rest) => finish (readFields tag rest)

end Datagram

end Wire

end PeerShare
