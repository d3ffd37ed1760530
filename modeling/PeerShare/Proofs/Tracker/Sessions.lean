import PeerShare.Proofs.Wire.Codec
import PeerShare.Proofs.Tracker.Mirror
import PeerShare.Proofs.Wire.Division
import PeerShare.Tracker.Server

/-
  Runs of a tracker server.

  Connections are opened, bring bytes in pieces of any size,
  and end.  What a connection has brought divides into
  frames, and its session handles the messages among their
  payloads one after another, however the bytes were cut.

  Key definitions include:
    * `Tracker.messagesOf`
    * `Tracker.handleAll`
    * `Tracker.Server.Event`
    * `Tracker.Server.IsReachable`
    * `Tracker.Server.line?`

  Key theorems include:
    * `Tracker.serveFrames_of_divides`
    * `Tracker.Server.deliver_of_divides`
    * `Tracker.serve_eq_run`
    * `Tracker.Server.IsReachable.catalog_induction`
-/

------------------------------------------------------------
-- Messages
------------------------------------------------------------

namespace PeerShare

/- Whether a message introduces a peer. -/
def Wire.Message.isInit : Wire.Message → Bool
  | .init _ _ => true
  | _ => false

namespace Tracker

/- The messages among some payloads. -/
def messagesOf
    (payloads : List Bytes) : List Wire.Message :=
  payloads.filterMap fun payload =>
    (Wire.Message.decode payload).toOption

/- What becomes of a message: an error, or maybe a reply. -/
abbrev Outcome :=
  Except TrackerError (Option Wire.Message)

/- Handle the messages of a session one after another. -/
def handleAll
    (remote : String) :
    List Wire.Message →
    Standing →
    List Outcome × Standing
  | [], s => ([], s)
  | m :: messages, s =>
      let (outcome, s) := dispatch remote m s
      let (outcomes, s) := handleAll remote messages s
      (outcome :: outcomes, s)

/- The reply that is sent, if there is one. -/
def sentReply? : Outcome → Option Wire.Message
  | .ok reply => reply
  | .error _ => none

theorem sentReply?_eq_some_iff
    {outcome : Outcome}
    {r : Wire.Message} :
    sentReply? outcome = some r ↔ outcome = .ok (some r) := by
  rcases outcome with e | reply <;> simp [sentReply?]

variable {m : Wire.Message}
variable {messages : List Wire.Message}
variable {payload buffer rest : Bytes}
variable {payloads : List Bytes}
variable {last : Wire.ReceiveError}
variable {s : Standing}

theorem messagesOf_append
    (payloads payloads' : List Bytes) :
    messagesOf (payloads ++ payloads') =
      messagesOf payloads ++ messagesOf payloads' :=
  List.filterMap_append

/- A message is no longer than a frame may be. -/
theorem length_payload_of_mem_messagesOf
    (h : Wire.Frame.Divides buffer payloads rest last)
    (hMem : m ∈ messagesOf payloads) :
    m.payload.length ≤ Wire.maxFrame := by
  rcases List.mem_filterMap.mp hMem with
    ⟨payload, hPayload, hDecode⟩
  cases hRead : Wire.Message.decode payload with
  | error e =>
      rw [hRead] at hDecode
      cases hDecode
  | ok m' =>
      rw [hRead] at hDecode
      cases hDecode
      rw [(Wire.Message.decode_eq_ok_iff.mp hRead).2]
      exact h.le_maxFrame payload hPayload

/- Messages that come later are handled later. -/
theorem handleAll_append
    (remote : String)
    (messages later : List Wire.Message)
    (s : Standing) :
    handleAll remote (messages ++ later) s =
      ((handleAll remote messages s).1 ++
          (handleAll remote later
            (handleAll remote messages s).2).1,
        (handleAll remote later
          (handleAll remote messages s).2).2) := by
  induction messages generalizing s with
  | nil => rfl
  | cons m messages ih =>
      simp only [List.cons_append, handleAll, ih]

/-
  What every message keeps is kept by all of them, and every
  outcome is that of a message that met it.
-/
theorem handleAll_induction
    (Keeps : Standing → Prop)
    (remote : String)
    (hStep :
      ∀ m ∈ messages, ∀ s,
        Keeps s → Keeps (dispatch remote m s).2)
    (h : Keeps s) :
    Keeps (handleAll remote messages s).2 ∧
      ∀ outcome ∈ (handleAll remote messages s).1,
        ∃ m ∈ messages, ∃ s',
          Keeps s' ∧ outcome = (dispatch remote m s').1 := by
  induction messages generalizing s with
  | nil => exact ⟨h, by simp [handleAll]⟩
  | cons m messages ih =>
      rcases List.forall_mem_cons.mp hStep with
        ⟨hFirst, hLater⟩
      rcases ih hLater (hFirst s h) with ⟨hKeeps, hOutcomes⟩
      refine ⟨hKeeps, ?_⟩
      intro outcome hMem
      rcases List.mem_cons.mp hMem with rfl | hMem
      · exact ⟨m, List.mem_cons_self, s, h, rfl⟩
      · rcases hOutcomes outcome hMem with
          ⟨m', hMessage, hRest⟩
        exact ⟨m', List.mem_cons_of_mem _ hMessage, hRest⟩

/- A payload is handled if it is a message. -/
theorem replyTo_eq
    (remote : String)
    (payload : Bytes)
    (s : Standing) :
    (replyTo remote payload s).1.toList =
        (handleAll remote (messagesOf [payload])
          s).1.filterMap sentReply? ∧
      (replyTo remote payload s).2 =
        (handleAll remote (messagesOf [payload]) s).2 := by
  unfold replyTo
  cases hDecode : Wire.Message.decode payload with
  | error e =>
      have hNone : messagesOf [payload] = [] := by
        simp [messagesOf, hDecode, Except.toOption]
      rw [hNone]
      exact ⟨rfl, rfl⟩
  | ok m =>
      have hSome : messagesOf [payload] = [m] := by
        simp [messagesOf, hDecode, Except.toOption]
      rw [hSome]
      dsimp only [handleAll]
      rcases dispatch remote m s with ⟨outcome, s'⟩
      cases outcome with
      | error e => exact ⟨rfl, rfl⟩
      | ok reply => cases reply <;> exact ⟨rfl, rfl⟩

/-
  The frames of a buffer are served up to its rest.  The
  session goes on unless the rest is a frame that is too
  large.
-/
theorem serveFrames_of_divides
    (remote : String)
    (h : Wire.Frame.Divides buffer payloads rest last)
    (s : Standing) :
    serveFrames remote buffer s =
      { standing :=
          (handleAll remote (messagesOf payloads) s).2
        buffer := rest
        replies :=
          (handleAll remote (messagesOf payloads)
            s).1.filterMap sentReply?
        isOpen := decide (last = .closed) } := by
  induction payloads generalizing buffer s with
  | nil =>
      have hRest : buffer = rest := h.eq_append
      subst hRest
      rw [serveFrames.eq_def]
      rcases Wire.Frame.next_of_isEnd h.isEnd with
        ⟨rfl, hNext⟩ | ⟨length, rfl, hNext⟩
      · split
        · rfl
        · rename_i hOther
          rw [hNext] at hOther
          cases hOther
        · rename_i hOther
          rw [hNext] at hOther
          cases hOther
      · split
        · rename_i hOther
          rw [hNext] at hOther
          cases hOther
        · rfl
        · rename_i hOther
          rw [hNext] at hOther
          cases hOther
  | cons payload payloads ih =>
      rcases List.forall_mem_cons.mp h.le_maxFrame with
        ⟨hLe, hLater⟩
      have hEq := h.eq_append
      rw [List.flatMap_cons, List.append_assoc] at hEq
      subst hEq
      have hNext := Wire.Frame.next_encode hLe
        (payloads.flatMap Wire.Frame.encode ++ rest)
      rcases replyTo_eq remote payload s with
        ⟨hReplies, hStanding⟩
      rw [serveFrames.eq_def]
      split
      · rename_i hOther
        rw [hNext] at hOther
        cases hOther
      · rename_i hOther
        rw [hNext] at hOther
        cases hOther
      · rename_i payload' rest' hOther
        rw [hNext] at hOther
        cases hOther
        dsimp only
        rw [ih ⟨rfl, hLater, h.isEnd⟩, hReplies, hStanding,
          ← List.singleton_append (l := payloads),
          messagesOf_append, handleAll_append,
          List.filterMap_append]

end Tracker

end PeerShare

------------------------------------------------------------
-- Events
------------------------------------------------------------

namespace PeerShare

namespace Tracker

namespace Server

/- What happens to a server. -/
inductive Event where
  | connect (id : ConnectionId) (remote : String)
  | deliver (id : ConnectionId) (bs : Bytes)
  | hangUp (id : ConnectionId)
  | shutDown
  deriving DecidableEq

/- A server after something happened to it. -/
def after
    (server : Server) : Event → Server
  | .connect id remote => server.connect id remote
  | .deliver id bs => (server.deliver id bs).2
  | .hangUp id => server.hangUp id
  | .shutDown => server.shutDown

/- A connection that is open is not opened again. -/
def Event.canHappen
    (server : Server) : Event → Bool
  | .connect id _ => !server.isConnected id
  | _ => true

/-
  Whether a server comes out of some events, of which the
  last one stands first.
-/
inductive IsReachable : Server → List Event → Prop where
  | start : IsReachable start []
  | step
      {server : Server}
      {events : List Event}
      {e : Event}
      (before : IsReachable server events)
      (can : e.canHappen server = true) :
      IsReachable (server.after e) (e :: events)

/-
  The address of a connection and the bytes it has brought
  since it was opened, unless one of the two sides has ended
  it on purpose.
-/
def line?
    (id : ConnectionId) :
    List Event → Option (String × Bytes)
  | [] => none
  | .connect other remote :: events =>
      if other = id then some (remote, [])
      else line? id events
  | .deliver other bs :: events =>
      (line? id events).map fun line =>
        if other = id then (line.1, line.2 ++ bs) else line
  | .hangUp other :: events =>
      if other = id then none else line? id events
  | .shutDown :: _ => none

variable {server : Server}
variable {id : ConnectionId}
variable {session : Session}
variable {bs rest : Bytes}
variable {payloads : List Bytes}
variable {last : Wire.ReceiveError}

/- The registration of a session, and the shared catalog. -/
def standing
    (server : Server)
    (session : Session) : Standing where
  peer := session.peer
  catalog := server.catalog

/-
  What is brought by a connection: its messages are handled,
  and the session ends at a frame that is too large.
-/
theorem deliver_of_divides
    (hGet : server.sessions.get? id = some session)
    (h :
      Wire.Frame.Divides (session.buffer ++ bs) payloads rest
        last) :
    let handled :=
      handleAll session.remote (messagesOf payloads)
        (server.standing session)
    let server' : Server :=
      { catalog := handled.2.catalog
        sessions :=
          server.sessions.insert id
            { session with
              buffer := rest
              peer := handled.2.peer } }
    server.deliver id bs =
      (handled.1.filterMap sentReply?,
        if last = .closed then server'
        else server'.endSession id handled.2.peer) := by
  intro handled server'
  have hServe :=
    serveFrames_of_divides session.remote h
      (server.standing session)
  unfold deliver
  rw [hGet]
  dsimp only
  rw [show
      serveFrames session.remote (session.buffer ++ bs)
        { peer := session.peer, catalog := server.catalog } =
        _ from hServe]
  dsimp only
  by_cases hLast : last = .closed
  · rw [if_pos hLast, if_pos (decide_eq_true hLast)]
  · rw [if_neg hLast, if_neg (by simp [hLast])]

end Server

end Tracker

end PeerShare

------------------------------------------------------------
-- The Catalog of a Server
------------------------------------------------------------

namespace PeerShare

namespace Tracker

/- What is replied to who asks for a file. -/
def Catalog.answerTo
    (c : Catalog)
    (name : String) : Wire.Message :=
  match c.query name with
  | some (file, peers) => .answer file peers
  | none => .notFound name

theorem serve_request
    (peer : PeerId)
    (name : String)
    (c : Catalog) :
    serve peer (.request name) c =
      (.ok (some (c.answerTo name)), c) := by
  simp only [serve, Catalog.answerTo]
  cases c.query name <;> rfl

theorem serve_refresh
    (peer : PeerId)
    (name : String)
    (c : Catalog) :
    serve peer (.refresh name) c =
      (.ok (some (c.answerTo name)), c) :=
  serve_request peer name c

/- A registered peer hears of each of its publications. -/
theorem serve_publish
    {own : PeerId}
    {c : Catalog}
    {record : PeerRecord}
    (hOwn : c.peers.get? own = some record)
    (file : FileRecord) :
    ∃ reply,
      (serve own (.publish file) c).1 = .ok (some reply) ∧
        (reply = .success file.name .publish ∨
          reply = .alreadyExists file.name ∨
          reply = .notFound file.name) := by
  simp only [serve, Catalog.publish]
  cases fileFault? file with
  | some fault => exact ⟨_, rfl, Or.inr (Or.inr rfl)⟩
  | none =>
      dsimp only
      rw [hOwn]
      dsimp only
      cases c.files.contains file.name with
      | false => exact ⟨_, rfl, Or.inl rfl⟩
      | true => exact ⟨_, rfl, Or.inr (Or.inl rfl)⟩

/- What a request of a peer does to the catalog. -/
def operations
    (peer : PeerId) :
    Wire.Message → List Operation
  | .publish file => [.publish peer file]
  | .request name => [.query name]
  | .refresh name => [.query name]
  | .holdings name bitfield => [.update peer name bitfield]
  | .remove name => [.remove peer name]
  | _ => []

/- Serving a request performs what the request asks for. -/
theorem serve_eq_run
    (peer : PeerId)
    (m : Wire.Message)
    (c : Catalog) :
    (serve peer m c).2 = c.run (operations peer m) := by
  cases m with
  | publish file =>
      simp only [serve, operations, Catalog.run,
        List.foldl_cons, List.foldl_nil, Catalog.perform]
      split <;> simp only [*]
  | request name => rw [serve_request]; rfl
  | refresh name => rw [serve_refresh]; rfl
  | remove name =>
      simp only [serve, operations, Catalog.run,
        List.foldl_cons, List.foldl_nil, Catalog.perform]
      split <;> simp only [*]
  | _ => rfl

/- Whether an operation can be asked for by a frame. -/
def Operation.IsFramed : Operation → Prop
  | .publish _ file =>
      (Wire.Message.publish file).payload.length ≤
        Wire.maxFrame
  | _ => True

variable {remote : String}
variable {m : Wire.Message}
variable {s : Standing}
variable {server : Server}
variable {events : List Server.Event}
variable {Keeps : Catalog → Prop}

/- A predicate that operations keep is kept by a message. -/
theorem keeps_dispatch
    (hPerform :
      ∀ c (o : Operation),
        o.IsFramed → Keeps c → Keeps (c.perform o).2)
    (hLength : m.payload.length ≤ Wire.maxFrame)
    (h : Keeps s.catalog) :
    Keeps (dispatch remote m s).2.catalog := by
  have hServe :
      ∀ peer, Keeps (serve peer m s.catalog).2 := by
    intro peer
    rw [serve_eq_run]
    cases m with
    | publish file => exact hPerform _ (.publish _ _) hLength h
    | request name => exact hPerform _ (.query _) trivial h
    | refresh name => exact hPerform _ (.query _) trivial h
    | holdings name bitfield =>
        exact hPerform _ (.update _ _ _) trivial h
    | remove name => exact hPerform _ (.remove _ _) trivial h
    | _ => exact h
  rcases s with ⟨own, c⟩
  cases m with
  | init identity port =>
      cases own with
      | none => exact hPerform _ (.register _ _) trivial h
      | some old =>
          exact hPerform _ (.register _ _) trivial
            (hPerform _ (.unregister old) trivial h)
  | _ =>
      cases own with
      | none => exact h
      | some peer => exact hServe peer

namespace Server

/- A session that ends unregisters its peer. -/
theorem keeps_endSession
    (hPerform :
      ∀ c (o : Operation),
        o.IsFramed → Keeps c → Keeps (c.perform o).2)
    (h : Keeps server.catalog)
    (id : ConnectionId)
    (peer : Option PeerId) :
    Keeps (server.endSession id peer).catalog := by
  cases peer with
  | none => exact h
  | some peer => exact hPerform _ (.unregister _) trivial h

theorem keeps_hangUp
    (hPerform :
      ∀ c (o : Operation),
        o.IsFramed → Keeps c → Keeps (c.perform o).2)
    (h : Keeps server.catalog)
    (id : ConnectionId) :
    Keeps (server.hangUp id).catalog := by
  unfold hangUp
  split
  · exact h
  · exact keeps_endSession hPerform h id _

/-
  What holds of an empty catalog and is kept by every
  operation that fits into a frame holds of the catalog of
  a server, whatever its connections bring.
-/
theorem IsReachable.catalog_induction
    (h : IsReachable server events)
    (hEmpty : Keeps Catalog.empty)
    (hPerform :
      ∀ c (o : Operation),
        o.IsFramed → Keeps c → Keeps (c.perform o).2) :
    Keeps server.catalog := by
  induction h with
  | start => exact hEmpty
  | @step server events e before can ih =>
      cases e with
      | connect id remote => exact ih
      | deliver id bs =>
          cases hGet : server.sessions.get? id with
          | none =>
              simp only [after, deliver, hGet]
              exact ih
          | some session =>
              rcases Wire.Frame.exists_divides
                (session.buffer ++ bs) with
                ⟨payloads, rest, last, hDivides⟩
              have hHandled :=
                (handleAll_induction
                  (fun s => Keeps s.catalog) session.remote
                  (s := server.standing session)
                  (fun m hMem s hs =>
                    keeps_dispatch hPerform
                      (length_payload_of_mem_messagesOf
                        hDivides hMem) hs) ih).1
              rw [after, deliver_of_divides hGet hDivides]
              dsimp only
              split
              · exact hHandled
              · exact keeps_endSession hPerform hHandled id _
      | hangUp id => exact keeps_hangUp hPerform ih id
      | shutDown =>
          exact List.foldlRecOn
            (motive := fun server => Keeps server.catalog)
            server.sessions.keys hangUp ih
            fun _ hServer id _ =>
              keeps_hangUp hPerform hServer id

end Server

end Tracker

end PeerShare
