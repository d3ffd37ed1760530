import PeerShare.Tracker.Catalog
import PeerShare.Wire.Frame

/-
  The tracker server.

  Each connection is a session.  A session registers its
  peer with the first introduction it receives and anew with
  every later one; requests before the first introduction
  are not served.  Payloads that are no message are skipped.
  A frame that is too large ends the session, and with the
  session ends the registration of its peer.

  Key definitions include:
    * `Tracker.Session`
    * `Tracker.dispatch`
    * `Tracker.Server`
    * `Tracker.Server.connect`
    * `Tracker.Server.deliver`
    * `Tracker.Server.hangUp`
    * `Tracker.Server.shutDown`
-/

------------------------------------------------------------
-- Requests
------------------------------------------------------------

namespace PeerShare

namespace Tracker

/- The registration of a session, and the shared catalog. -/
structure Standing where
  peer : Option PeerId
  catalog : Catalog
  deriving DecidableEq

/- The same registration with another catalog. -/
def Standing.withCatalog
    (s : Standing)
    (catalog : Catalog) : Standing :=
  { s with catalog }

/-
  Register the peer of a session, in place of an earlier
  registration.  A peer without identity is known by the
  address it connects from.
-/
def introduce
    (remote : String)
    (identity : String)
    (port : UInt16)
    (s : Standing) : Standing :=
  let catalog :=
    match s.peer with
    | none => s.catalog
    | some old => s.catalog.unregister old
  let identity := if identity.isEmpty then remote else identity
  let (peer, catalog) := catalog.register identity port
  { peer := some peer, catalog }

/-
  Serve a request of a registered peer.  A description that
  is refused is answered like a file that is not known.
-/
def serve
    (peer : PeerId)
    (m : Wire.Message)
    (c : Catalog) :
    Except TrackerError (Option Wire.Message) × Catalog :=
  match m with
  | .publish file =>
      match c.publish peer file with
      | (.ok .accepted, c) =>
          (.ok (some (.success file.name .publish)), c)
      | (.ok .alreadyExists, c) =>
          (.ok (some (.alreadyExists file.name)), c)
      | (.error (.invalidFile _ _), c) =>
          (.ok (some (.notFound file.name)), c)
      | (.error e, c) => (.error e, c)
  | .request name | .refresh name =>
      match c.query name with
      | some (file, peers) => (.ok (some (.answer file peers)), c)
      | none => (.ok (some (.notFound name)), c)
  | .holdings name bitfield =>
      (.ok none, (c.update peer name bitfield).2)
  | .remove name =>
      match c.remove name with
      | (.removed, c) => (.ok (some (.success name .remove)), c)
      | (.notFound, c) => (.ok (some (.notFound name)), c)
  | _ => (.ok none, c)

/-
  Handle a message of a session that connects from an
  address.
-/
def dispatch
    (remote : String)
    (m : Wire.Message)
    (s : Standing) :
    Except TrackerError (Option Wire.Message) × Standing :=
  match m with
  | .init identity port =>
      (.ok none, introduce remote identity port s)
  | m =>
      match s.peer with
      | none => (.error .notInitialized, s)
      | some peer =>
          let (reply, catalog) := serve peer m s.catalog
          (reply, s.withCatalog catalog)

end Tracker

end PeerShare

------------------------------------------------------------
-- Sessions
------------------------------------------------------------

namespace PeerShare

namespace Tracker

/-
  An open connection: the address of the other side, the
  bytes that do not yet make a frame, and the registration.
-/
structure Session where
  remote : String
  buffer : Bytes
  peer : Option PeerId
  deriving DecidableEq

/- What a session has read and written. -/
structure Progress where
  standing : Standing
  /- The bytes that do not yet make a frame. -/
  buffer : Bytes
  /- The replies, in the order in which they were sent. -/
  replies : List Wire.Message
  /- Whether the session goes on. -/
  isOpen : Bool

/- The reply to a payload, if there is one. -/
def replyTo
    (remote : String)
    (payload : Bytes)
    (s : Standing) :
    Option Wire.Message × Standing :=
  match Wire.Message.decode payload with
  | .error _ => (none, s)
  | .ok m =>
      match dispatch remote m s with
      | (.ok reply, s) => (reply, s)
      | (.error _, s) => (none, s)

/- Serve all complete frames of a buffer. -/
def serveFrames
    (remote : String)
    (buffer : Bytes)
    (s : Standing) : Progress :=
  match _hNext : Wire.Frame.next buffer with
  | .incomplete =>
      { standing := s, buffer, replies := [], isOpen := true }
  | .tooLarge _ =>
      { standing := s, buffer, replies := [], isOpen := false }
  | .frame payload rest =>
      let (reply, s) := replyTo remote payload s
      let later := serveFrames remote rest s
      { later with replies := reply.toList ++ later.replies }
termination_by buffer.length
decreasing_by
  exact Wire.Frame.length_rest_of_next _hNext

end Tracker

end PeerShare

------------------------------------------------------------
-- The Server
------------------------------------------------------------

namespace PeerShare

namespace Tracker

/- The number of a connection. -/
abbrev ConnectionId :=
  Nat

/- The catalog and the open connections. -/
structure Server where
  catalog : Catalog
  sessions : Table ConnectionId Session
  deriving DecidableEq

namespace Server

/- A server without connections. -/
def start : Server where
  catalog := Catalog.empty
  sessions := Table.empty

/- Accept a connection from an address. -/
def connect
    (server : Server)
    (id : ConnectionId)
    (remote : String) : Server :=
  let session : Session := { remote, buffer := [], peer := none }
  { server with sessions := server.sessions.insert id session }

/- Whether a connection is open. -/
def isConnected
    (server : Server)
    (id : ConnectionId) : Bool :=
  server.sessions.contains id

/- End a session and the registration of its peer. -/
def endSession
    (server : Server)
    (id : ConnectionId)
    (peer : Option PeerId) : Server where
  catalog :=
    match peer with
    | none => server.catalog
    | some peer => server.catalog.unregister peer
  sessions := server.sessions.erase id

/- Read bytes from a connection and serve them. -/
def deliver
    (server : Server)
    (id : ConnectionId)
    (bs : Bytes) :
    List Wire.Message × Server :=
  match server.sessions.get? id with
  | none => ([], server)
  | some session =>
      let p :=
        serveFrames session.remote (session.buffer ++ bs)
          { peer := session.peer, catalog := server.catalog }
      let session :=
        { session with
          buffer := p.buffer
          peer := p.standing.peer }
      let server : Server :=
        { catalog := p.standing.catalog
          sessions := server.sessions.insert id session }
      if p.isOpen then (p.replies, server)
      else (p.replies, server.endSession id session.peer)

/- The other side of a connection sends no more. -/
def hangUp
    (server : Server)
    (id : ConnectionId) : Server :=
  match server.sessions.get? id with
  | none => server
  | some session => server.endSession id session.peer

/- End every session. -/
def shutDown
    (server : Server) : Server :=
  server.sessions.keys.foldl hangUp server

end Server

end Tracker

end PeerShare
