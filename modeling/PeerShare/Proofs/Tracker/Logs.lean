import PeerShare.Proofs.Tracker.Seats

/-
  The log of a tracker server.

  A log says what a server notices, one thing after another:
  that a connection is opened, that a frame has come to its
  end, that a connection ends.  It is read off the bytes
  that connections bring, wherever these are cut.  What the
  server has on record depends on its log alone.

  Key definitions include:
    * `Wire.Frame.split`
    * `Tracker.Server.Step`
    * `Tracker.Server.log`
    * `Tracker.Server.sentOn`
    * `Tracker.Ledger`
    * `Tracker.received`

  Key theorems include:
    * `Tracker.Ledger.noteAll_frames`
    * `Tracker.Server.IsReachable.ledger_eq`
    * `Tracker.Ledger.isSome_peer`
-/

------------------------------------------------------------
-- Whole Frames
------------------------------------------------------------

namespace PeerShare

namespace Wire

namespace Frame

/-
  The payloads of the whole frames at the front of a byte
  string, and whether a frame that is too large follows.
-/
def split
    (bs : Bytes) : List Bytes × Bool :=
  match _hNext : next bs with
  | .incomplete => ([], false)
  | .tooLarge _ => ([], true)
  | .frame payload rest =>
      let (payloads, isBlocked) := split rest
      (payload :: payloads, isBlocked)
termination_by bs.length
decreasing_by
  exact length_rest_of_next _hNext

theorem split_of_divides
    {bs rest : Bytes}
    {payloads : List Bytes}
    {last : ReceiveError}
    (h : Divides bs payloads rest last) :
    split bs = (payloads, decide (last ≠ .closed)) := by
  induction payloads generalizing bs with
  | nil =>
      have hRest : bs = rest := h.eq_append
      subst hRest
      rw [split.eq_def]
      rcases next_of_isEnd h.isEnd with
        ⟨rfl, hNext⟩ | ⟨length, rfl, hNext⟩
      · split
        · rfl
        all_goals
          rename_i hOther
          rw [hNext] at hOther
          cases hOther
      · split
        case h_2 => rfl
        all_goals
          rename_i hOther
          rw [hNext] at hOther
          cases hOther
  | cons payload payloads ih =>
      rcases List.forall_mem_cons.mp h.le_maxFrame with
        ⟨hLe, hLater⟩
      have hEq := h.eq_append
      rw [List.flatMap_cons, List.append_assoc] at hEq
      subst hEq
      have hNext := next_encode hLe
        (payloads.flatMap encode ++ rest)
      rw [split.eq_def]
      split
      case h_3 payload' rest' hOther =>
        rw [hNext] at hOther
        cases hOther
        rw [ih ⟨rfl, hLater, h.isEnd⟩]
      all_goals
        rename_i hOther
        rw [hNext] at hOther
        cases hOther

end Frame

end Wire

end PeerShare

------------------------------------------------------------
-- Logs
------------------------------------------------------------

namespace PeerShare

namespace Tracker

namespace Server

/- What a server notices. -/
inductive Step where
  | opened (id : ConnectionId) (remote : String)
  /- A frame of a connection has come to its end. -/
  | frame (id : ConnectionId) (payload : Bytes)
  | ended (id : ConnectionId)
  /- Every connection ends. -/
  | shutDown
  deriving DecidableEq

/-
  What is noticed when something happens.  Bytes add the
  frames that come to their end with them, and a frame that
  is too large ends the connection.
-/
def stepsOf
    (events : List Event) : Event → List Step
  | .connect id remote => [.opened id remote]
  | .deliver id bs =>
      match line? id events with
      | none => []
      | some (_, old) =>
          let before := Wire.Frame.split old
          let whole := Wire.Frame.split (old ++ bs)
          if before.2 then []
          else
            (whole.1.drop before.1.length).map (.frame id) ++
              if whole.2 then [.ended id] else []
  | .hangUp id => [.ended id]
  | .shutDown => [.shutDown]

/- The log of some events, of which the last stands first. -/
def log : List Event → List Step
  | [] => []
  | e :: events => log events ++ stepsOf events e

/- The server after some events, the last of them first. -/
def afterAll : List Event → Server
  | [] => start
  | e :: events => (afterAll events).after e

/-
  The replies that were sent on a connection since it was
  opened.
-/
def sentOn
    (id : ConnectionId) :
    List Event → List Wire.Message
  | [] => []
  | .connect other _ :: events =>
      if other = id then [] else sentOn id events
  | .deliver other bs :: events =>
      if other = id then
        sentOn id events ++
          ((afterAll events).deliver other bs).1
      else sentOn id events
  | .hangUp _ :: events => sentOn id events
  | .shutDown :: events => sentOn id events

theorem IsReachable.eq_afterAll
    {server : Server}
    {events : List Event}
    (h : IsReachable server events) :
    server = afterAll events := by
  induction h with
  | start => rfl
  | step _ _ ih => rw [afterAll, ← ih]

end Server

/-
  What a server has on record: the catalog, where each open
  connection comes from and which peer it has registered,
  and the replies that were sent on each connection.
-/
@[ext]
structure Ledger where
  catalog : Catalog
  lines : ConnectionId → Option (String × Option PeerId)
  sent : ConnectionId → List Wire.Message

namespace Ledger

/- Nothing is on record. -/
def blank : Ledger where
  catalog := Catalog.empty
  lines _ := none
  sent _ := []

/- Put something that is noticed on record. -/
def note
    (l : Ledger) : Server.Step → Ledger
  | .opened id remote =>
      { l with
        lines :=
          Function.update l.lines id (some (remote, none))
        sent := Function.update l.sent id [] }
  | .frame id payload =>
      match l.lines id with
      | none => l
      | some (remote, peer) =>
          let (reply, s) :=
            replyTo remote payload
              { peer, catalog := l.catalog }
          { catalog := s.catalog
            lines :=
              Function.update l.lines id
                (some (remote, s.peer))
            sent :=
              Function.update l.sent id
                (l.sent id ++ reply.toList) }
  | .ended id =>
      match l.lines id with
      | none => l
      | some (_, peer) =>
          { l with
            catalog :=
              match peer with
              | none => l.catalog
              | some peer => l.catalog.unregister peer
            lines := Function.update l.lines id none }
  | .shutDown =>
      { l with
        catalog := { l.catalog with peers := Table.empty }
        lines := fun _ => none }

/- Put a log on record. -/
def noteAll
    (l : Ledger)
    (steps : List Server.Step) : Ledger :=
  steps.foldl note l

variable {l : Ledger}
variable {id : ConnectionId}
variable {remote : String}
variable {peer : Option PeerId}

theorem noteAll_append
    (l : Ledger)
    (steps later : List Server.Step) :
    l.noteAll (steps ++ later) =
      (l.noteAll steps).noteAll later :=
  List.foldl_append

/- Frames of a connection are handled one after another. -/
theorem noteAll_frames
    (h : l.lines id = some (remote, peer))
    (payloads : List Bytes) :
    l.noteAll (payloads.map (.frame id)) =
      let handled :=
        handleAll remote (messagesOf payloads)
          { peer, catalog := l.catalog }
      { catalog := handled.2.catalog
        lines :=
          Function.update l.lines id
            (some (remote, handled.2.peer))
        sent :=
          Function.update l.sent id
            (l.sent id ++
              handled.1.filterMap sentReply?) } := by
  induction payloads generalizing l peer with
  | nil =>
      dsimp only [noteAll, messagesOf, handleAll,
        List.filterMap_nil, List.map_nil, List.foldl_nil]
      rw [← h, List.append_nil, Function.update_eq_self,
        Function.update_eq_self]
      rfl
  | cons payload payloads ih =>
      have hReply :=
        replyTo_eq remote payload
          { peer, catalog := l.catalog }
      have hNote :
          l.note (.frame id payload) =
            let replied :=
              replyTo remote payload
                { peer, catalog := l.catalog }
            { catalog := replied.2.catalog
              lines :=
                Function.update l.lines id
                  (some (remote, replied.2.peer))
              sent :=
                Function.update l.sent id
                  (l.sent id ++ replied.1.toList) } := by
        unfold note
        dsimp only
        rw [h]
      rw [List.map_cons, noteAll, List.foldl_cons, hNote,
        ← noteAll,
        ih (Function.update_self _ _ _)]
      dsimp only
      rw [Function.update_idem, Function.update_idem,
        Function.update_self, hReply.1, hReply.2,
        ← List.singleton_append (l := payloads),
        messagesOf_append, handleAll_append,
        List.filterMap_append, List.append_assoc]

end Ledger

end Tracker

end PeerShare

------------------------------------------------------------
-- Logs and Servers
------------------------------------------------------------

namespace PeerShare

namespace Tracker

namespace Server

/- A server on record, with the replies that were sent. -/
def recorded
    (server : Server)
    (sent : ConnectionId → List Wire.Message) : Ledger where
  catalog := server.catalog
  lines id :=
    (server.sessions.get? id).map fun session =>
      (session.remote, session.peer)
  sent := sent

variable {server : Server}
variable {events : List Event}
variable {id : ConnectionId}
variable {session : Session}
variable {sent : ConnectionId → List Wire.Message}

/- Setting a session sets the line of its connection. -/
theorem lines_insert
    (sessions : Table ConnectionId Session)
    (id : ConnectionId)
    (session : Session) :
    (fun other =>
        ((sessions.insert id session).get? other).map
          fun session => (session.remote, session.peer)) =
      Function.update
        (fun other =>
          (sessions.get? other).map
            fun session => (session.remote, session.peer))
        id (some (session.remote, session.peer)) := by
  funext other
  by_cases hOther : other = id
  · rw [hOther, Table.get?_insert_self, Function.update_self]
    rfl
  · rw [Table.get?_insert_of_ne _ _ hOther,
      Function.update_of_ne hOther]

theorem recorded_connect
    (server : Server)
    (id : ConnectionId)
    (remote : String) :
    (server.connect id remote).recorded
        (Function.update sent id []) =
      (server.recorded sent).note (.opened id remote) := by
  unfold recorded connect Ledger.note
  dsimp only
  rw [lines_insert]

theorem recorded_endSession
    (session : Session)
    (hGet : server.sessions.get? id = some session) :
    (server.endSession id session.peer).recorded sent =
      (server.recorded sent).note (.ended id) := by
  have hLine :
      (server.recorded sent).lines id =
        some (session.remote, session.peer) := by
    unfold recorded
    dsimp only
    rw [hGet]
    rfl
  have hLines :
      (fun other =>
          ((server.sessions.erase id).get? other).map
            fun session => (session.remote, session.peer)) =
        Function.update (server.recorded sent).lines id
          none := by
    funext other
    by_cases hOther : other = id
    · rw [hOther, Table.get?_erase_self, Function.update_self]
      rfl
    · rw [Table.get?_erase_of_ne _ hOther,
        Function.update_of_ne hOther]
      rfl
  unfold Ledger.note
  dsimp only
  rw [hLine]
  dsimp only
  rw [← hLines]
  rfl

theorem recorded_hangUp
    (server : Server)
    (id : ConnectionId) :
    (server.hangUp id).recorded sent =
      (server.recorded sent).note (.ended id) := by
  unfold hangUp
  split
  · rename_i hGet
    have hLine : (server.recorded sent).lines id = none := by
      unfold recorded
      dsimp only
      rw [hGet]
      rfl
    unfold Ledger.note
    dsimp only
    rw [hLine]
  · rename_i session hGet
    exact recorded_endSession session hGet

/- Whoever hangs up leaves the files and their order alone. -/
theorem files_foldl_hangUp
    (ids : List ConnectionId)
    (server : Server) :
    (ids.foldl hangUp server).catalog.files =
        server.catalog.files ∧
      (ids.foldl hangUp server).catalog.nextPeer =
        server.catalog.nextPeer := by
  induction ids generalizing server with
  | nil => exact ⟨rfl, rfl⟩
  | cons first ids ih =>
      have hFirst :
          (server.hangUp first).catalog.files =
              server.catalog.files ∧
            (server.hangUp first).catalog.nextPeer =
              server.catalog.nextPeer := by
        unfold hangUp
        split
        · exact ⟨rfl, rfl⟩
        · unfold endSession
          dsimp only
          split <;> exact ⟨rfl, rfl⟩
      rcases ih (server.hangUp first) with ⟨hFiles, hNext⟩
      exact ⟨hFiles.trans hFirst.1, hNext.trans hFirst.2⟩

/- When every session has ended, no peer is left. -/
theorem recorded_shutDown
    (h : IsReachable server events) :
    server.shutDown.recorded sent =
      (server.recorded sent).note .shutDown := by
  have hNobody :
      ∀ id, server.shutDown.sessions.get? id = none := by
    intro id
    apply sessions_foldl_hangUp
    cases hGet : server.sessions.get? id with
    | none => exact Or.inr rfl
    | some session =>
        exact Or.inl (Table.mem_keys_iff.mpr ⟨session, hGet⟩)
  have hPeers :
      server.shutDown.catalog.peers = Table.empty := by
    rcases (h.step (e := .shutDown) rfl).accounted with
      ⟨seat, hSeated, hStands⟩
    apply Table.eq_of_get?_eq
    intro peer
    rw [Table.get?_empty, Option.eq_none_iff_forall_ne_some]
    intro record hRecord
    rcases exists_session_of_get? hSeated hStands hRecord with
      ⟨id, session, hGet, -⟩
    rw [after, hNobody id] at hGet
    cases hGet
  rcases files_foldl_hangUp server.sessions.keys server with
    ⟨hFiles, hNext⟩
  ext1
  · unfold recorded Ledger.note
    dsimp only
    rw [← hPeers, ← hFiles, ← hNext]
    rfl
  · funext id
    unfold recorded Ledger.note
    dsimp only
    rw [hNobody id]
    rfl
  · rfl

/- Bytes for which no session is left change nothing. -/
theorem deliver_of_none
    (hGet : server.sessions.get? id = none)
    (bs : Bytes) :
    server.deliver id bs = ([], server) := by
  rw [deliver, hGet]

/- Bytes for which no session is left are not noticed. -/
theorem IsReachable.stepsOf_of_none
    (h : IsReachable server events)
    (hGet : server.sessions.get? id = none)
    (bs : Bytes) :
    stepsOf events (.deliver id bs) = [] := by
  rcases h.accounted with ⟨seat, -, hStands⟩
  have hStand := hStands id
  rw [hGet] at hStand
  unfold stepsOf
  dsimp only
  generalize line? id events = line at hStand ⊢
  generalize seat id = own at hStand
  cases hStand with
  | away => rfl
  | dropped divides =>
      dsimp only
      rw [Wire.Frame.split_of_divides divides]
      rfl

/- What is noticed of the bytes that a session is brought. -/
theorem IsReachable.stepsOf_of_divides
    {bs rest : Bytes}
    {payloads : List Bytes}
    {last : Wire.ReceiveError}
    (h : IsReachable server events)
    (hGet : server.sessions.get? id = some session)
    (hDivides :
      Wire.Frame.Divides (session.buffer ++ bs) payloads rest
        last) :
    stepsOf events (.deliver id bs) =
      payloads.map (.frame id) ++
        if last = .closed then [] else [.ended id] := by
  rcases h.accounted with ⟨seat, -, hStands⟩
  have hStand := hStands id
  rw [hGet] at hStand
  unfold stepsOf
  dsimp only
  generalize line? id events = line at hStand ⊢
  generalize seat id = own at hStand
  cases hStand with
  | @present remote old buffer before own divides hContact =>
      dsimp only
      rw [Wire.Frame.split_of_divides divides,
        Wire.Frame.split_of_divides (divides.append hDivides),
        List.drop_left]
      by_cases hLast : last = .closed
      · simp [hLast]
      · simp [hLast]

theorem recorded_deliver
    (h : IsReachable server events)
    (id : ConnectionId)
    (bs : Bytes) :
    (server.deliver id bs).2.recorded
        (Function.update sent id
          (sent id ++ (server.deliver id bs).1)) =
      (server.recorded sent).noteAll
        (stepsOf events (.deliver id bs)) := by
  cases hGet : server.sessions.get? id with
  | none =>
      rw [deliver_of_none hGet, h.stepsOf_of_none hGet,
        List.append_nil, Function.update_eq_self]
      rfl
  | some session =>
      rcases Wire.Frame.exists_divides (session.buffer ++ bs)
        with ⟨payloads, rest, last, hDivides⟩
      have hLine :
          (server.recorded sent).lines id =
            some (session.remote, session.peer) := by
        unfold recorded
        dsimp only
        rw [hGet]
        rfl
      have hDeliver := deliver_of_divides hGet hDivides
      dsimp only at hDeliver
      rw [hDeliver, h.stepsOf_of_divides hGet hDivides,
        Ledger.noteAll_append, Ledger.noteAll_frames hLine]
      -- the session as the frames have left it
      have hFrames :
          ∀ peer (c : Catalog) sent',
            recorded
                { catalog := c
                  sessions :=
                    server.sessions.insert id
                      { session with buffer := rest, peer } }
                sent' =
              { catalog := c
                lines :=
                  Function.update (server.recorded sent).lines
                    id (some (session.remote, peer))
                sent := sent' } := by
        intro peer c sent'
        unfold recorded
        dsimp only
        rw [lines_insert]
      dsimp only
      split
      · exact hFrames _ _ _
      · rw [recorded_endSession
            { session with buffer := rest, peer := _ }
            (Table.get?_insert_self _ _ _),
          hFrames]
        rfl

/- What a server has on record is what its log says. -/
theorem IsReachable.ledger_eq
    (h : IsReachable server events) :
    server.recorded (fun id => sentOn id events) =
      Ledger.blank.noteAll (log events) := by
  induction h with
  | start => rfl
  | @step server events e before can ih =>
      rw [log, Ledger.noteAll_append, ← ih]
      cases e with
      | connect id remote =>
          have hSent :
              (fun other =>
                  sentOn other (.connect id remote :: events)) =
                Function.update
                  (fun other => sentOn other events) id [] := by
            funext other
            rw [sentOn, Function.update_apply]
            simp only [eq_comm]
          rw [hSent]
          exact recorded_connect server id remote
      | deliver id bs =>
          have hSent :
              (fun other =>
                  sentOn other (.deliver id bs :: events)) =
                Function.update
                  (fun other => sentOn other events) id
                  (sentOn id events ++
                    (server.deliver id bs).1) := by
            funext other
            rw [sentOn, ← before.eq_afterAll,
              Function.update_apply]
            by_cases hOther : id = other
            · rw [if_pos hOther, if_pos hOther.symm, hOther]
            · rw [if_neg hOther, if_neg (Ne.symm hOther)]
          rw [hSent]
          exact recorded_deliver before id bs
      | hangUp id => exact recorded_hangUp server id
      | shutDown => exact recorded_shutDown before

end Server

end Tracker

end PeerShare

------------------------------------------------------------
-- Received Frames
------------------------------------------------------------

namespace PeerShare

namespace Tracker

/- The frames of a connection after one more step. -/
def receivedAfter
    (id : ConnectionId)
    (payloads : List Bytes) : Server.Step → List Bytes
  | .opened other _ => if other = id then [] else payloads
  | .frame other payload =>
      if other = id then payloads ++ [payload] else payloads
  | .ended _ => payloads
  | .shutDown => payloads

/-
  The payloads of the frames that came on a connection since
  it was opened.
-/
def received
    (id : ConnectionId)
    (steps : List Server.Step) : List Bytes :=
  steps.foldl (receivedAfter id) []

/- Whether a peer has introduced itself among some frames. -/
def isIntroduced
    (payloads : List Bytes) : Bool :=
  (messagesOf payloads).any (·.isInit)

theorem received_append_singleton
    (id : ConnectionId)
    (steps : List Server.Step)
    (step : Server.Step) :
    received id (steps ++ [step]) =
      receivedAfter id (received id steps) step := by
  unfold received
  rw [List.foldl_append]
  rfl

/- A session has a peer just if it has been introduced. -/
theorem isSome_peer_handleAll
    (remote : String)
    (messages : List Wire.Message)
    (s : Standing) :
    (handleAll remote messages s).2.peer.isSome =
      (s.peer.isSome || messages.any (·.isInit)) := by
  induction messages generalizing s with
  | nil => simp [handleAll]
  | cons m messages ih =>
      have hOne :
          (dispatch remote m s).2.peer.isSome =
            (s.peer.isSome || m.isInit) := by
        rcases s with ⟨peer, c⟩
        cases m with
        | init identity port =>
            simp [dispatch, introduce, Wire.Message.isInit]
        | _ =>
            cases peer <;>
              simp [dispatch, Standing.withCatalog,
                Wire.Message.isInit]
      rw [handleAll, List.any_cons]
      dsimp only
      rw [ih, hOne, Bool.or_assoc]

/- A frame that is handled introduces the peer or not. -/
theorem isSome_peer_replyTo
    (remote : String)
    (payload : Bytes)
    (s : Standing) :
    (replyTo remote payload s).2.peer.isSome =
      (s.peer.isSome || isIntroduced [payload]) := by
  rw [(replyTo_eq remote payload s).2, isSome_peer_handleAll]
  rfl

theorem isIntroduced_append
    (payloads later : List Bytes) :
    isIntroduced (payloads ++ later) =
      (isIntroduced payloads || isIntroduced later) := by
  unfold isIntroduced
  rw [messagesOf_append, List.any_append]

/-
  A connection has registered a peer just if one of the
  frames that came on it has been an introduction.
-/
theorem Ledger.isSome_peer
    {steps : List Server.Step}
    {id : ConnectionId}
    {remote : String}
    {peer : Option PeerId}
    (h :
      (blank.noteAll steps).lines id = some (remote, peer)) :
    peer.isSome = isIntroduced (received id steps) := by
  induction steps using List.reverseRecOn
    generalizing remote peer with
  | nil => cases h
  | append_singleton steps step ih =>
      rw [received_append_singleton]
      rw [noteAll_append] at h
      generalize hLedger : blank.noteAll steps = l at h ih
      change (l.note step).lines id = some (remote, peer) at h
      cases step with
      | opened other address =>
          rw [note] at h
          rw [receivedAfter]
          by_cases hOther : other = id
          · dsimp only at h
            rw [hOther, Function.update_self] at h
            cases h
            rw [if_pos hOther]
            rfl
          · dsimp only at h
            rw [Function.update_of_ne (Ne.symm hOther)] at h
            rw [if_neg hOther]
            exact ih h
      | frame other payload =>
          rw [note] at h
          rw [receivedAfter]
          by_cases hOther : other = id
          · subst hOther
            rw [if_pos rfl, isIntroduced_append]
            split at h
            · rename_i hLine
              rw [hLine] at h
              cases h
            · rename_i hLine
              dsimp only at h
              rw [Function.update_self] at h
              cases h
              rw [isSome_peer_replyTo, ih hLine]
          · rw [if_neg hOther]
            split at h
            · exact ih h
            · dsimp only at h
              rw [Function.update_of_ne (Ne.symm hOther)] at h
              exact ih h
      | ended other =>
          rw [note] at h
          rw [receivedAfter]
          split at h
          · exact ih h
          · dsimp only at h
            by_cases hOther : id = other
            · rw [hOther, Function.update_self] at h
              cases h
            · rw [Function.update_of_ne hOther] at h
              exact ih h
      | shutDown => cases h

end Tracker

end PeerShare
