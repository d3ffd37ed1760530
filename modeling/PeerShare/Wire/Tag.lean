/-
  The tag that leads every message.

  Tracker messages travel on a stream between a node and
  the tracker; datagrams travel between nodes.  Both kinds
  share one space of tags.

  Key definitions include:
    * `Wire.Tag`
    * `Wire.Tag.toByte`
    * `Wire.Tag.ofByte?`
    * `Wire.Channel`
    * `Wire.Success`

  Key theorems include:
    * `Wire.Tag.ofByte?_eq_some_iff`
-/

------------------------------------------------------------
-- Tags
------------------------------------------------------------

namespace PeerShare

namespace Wire

/- The kinds of messages. -/
inductive Tag where
  | init
  | publish
  | success
  | alreadyExists
  | notFound
  | holdings
  | request
  | refresh
  | answer
  | remove
  | chunkRequest
  | chunk
  deriving DecidableEq

/- The two ways messages travel. -/
inductive Channel where
  | tracker
  | datagram
  deriving DecidableEq

namespace Tag

/- The byte of a tag. -/
def toByte : Tag → UInt8
  | init => 0
  | publish => 1
  | success => 2
  | alreadyExists => 3
  | notFound => 4
  | holdings => 5
  | request => 6
  | refresh => 7
  | answer => 9
  | remove => 10
  | chunkRequest => 11
  | chunk => 12

/- All tags. -/
def all : List Tag :=
  [init, publish, success, alreadyExists, notFound, holdings,
    request, refresh, answer, remove, chunkRequest, chunk]

/- The tag with a given byte. -/
def ofByte?
    (b : UInt8) : Option Tag :=
  all.find? fun tag => tag.toByte == b

/- The name of a tag in error messages. -/
def name : Tag → String
  | init => "Init"
  | publish => "PublishFile"
  | success => "FileSuccess"
  | alreadyExists => "AlreadyExists"
  | notFound => "NotFound"
  | holdings => "UpdateChunks"
  | request => "RequestFile"
  | refresh => "UpdateFile"
  | answer => "AnswerNodes"
  | remove => "RemoveFile"
  | chunkRequest => "RequestChunks"
  | chunk => "Chunk"

/- The channel on which messages with this tag travel. -/
def channel : Tag → Channel
  | chunkRequest => .datagram
  | chunk => .datagram
  | _ => .tracker

theorem toByte_injective
    {s t : Tag}
    (h : s.toByte = t.toByte) :
    s = t := by
  cases s <;> cases t <;> first | rfl | exact absurd h (by decide)

/- A byte is read as the one tag that is written with it. -/
theorem ofByte?_eq_some_iff
    {b : UInt8}
    {tag : Tag} :
    ofByte? b = some tag ↔ tag.toByte = b := by
  constructor
  · intro h
    simpa using List.find?_some h
  · intro h
    subst h
    cases tag <;> rfl

end Tag

end Wire

end PeerShare

------------------------------------------------------------
-- Acknowledged Requests
------------------------------------------------------------

namespace PeerShare

namespace Wire

/- The requests that are acknowledged with success. -/
inductive Success where
  | publish
  | remove
  deriving DecidableEq

namespace Success

/- The tag of the acknowledged request. -/
def tag : Success → Tag
  | publish => .publish
  | remove => .remove

/- The acknowledgement with a given byte. -/
def ofByte?
    (b : UInt8) : Option Success :=
  [publish, remove].find? fun s => s.tag.toByte == b

/- The name of an acknowledged request. -/
def name : Success → String
  | publish => "Publish"
  | remove => "Remove"

theorem ofByte?_eq_some_iff
    {b : UInt8}
    {s : Success} :
    ofByte? b = some s ↔ s.tag.toByte = b := by
  constructor
  · intro h
    simpa using List.find?_some h
  · intro h
    subst h
    cases s <;> rfl

end Success

end Wire

end PeerShare
