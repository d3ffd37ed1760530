import Mathlib.Data.List.Forall2
import PeerShare.Proofs.Tracker.Logs
import PeerShare.Proofs.Tracker.Replies

/-
  What a tracker replies to, and what it pays no heed to.

  Once a peer has introduced itself, each of its requests is
  replied to, in order, by a message about the same file.
  Frames that are no message, messages that a tracker sends
  itself, and whatever comes before the introduction change
  nothing for anybody.

  Key definitions include:
    * `Tracker.RepliesTo`
    * `Tracker.requestsOf`
    * `Tracker.IsNoise`
    * `Tracker.Server.Padded`
    * `Tracker.Server.Inserts`

  Key theorems include:
    * `Tracker.Server.IsReachable.replies_match`
    * `Tracker.Ledger.noteAll_of_padded`
    * `Tracker.Server.IsReachable.of_inserts`
    * `Tracker.Server.ends_of_large`
    * `Tracker.Server.IsReachable.reply_discipline`
-/

------------------------------------------------------------
-- Requests and Replies
------------------------------------------------------------

namespace PeerShare

/- Whether a message asks for a reply. -/
def Wire.Message.isRequest : Wire.Message → Bool
  | .publish _ => true
  | .request _ => true
  | .refresh _ => true
  | .remove _ => true
  | _ => false

/- Whether a message is one that trackers send to nodes. -/
def Wire.Message.isFromTracker : Wire.Message → Bool
  | .success _ _ => true
  | .alreadyExists _ => true
  | .notFound _ => true
  | .answer _ _ => true
  | _ => false

namespace Tracker

/- Which replies there are to a request, file by file. -/
inductive RepliesTo :
    Wire.Message → Wire.Message → Prop where
  | published
      (file : FileRecord) :
      RepliesTo (.publish file) (.success file.name .publish)
  | taken
      (file : FileRecord) :
      RepliesTo (.publish file) (.alreadyExists file.name)
  | refused
      (file : FileRecord) :
      RepliesTo (.publish file) (.notFound file.name)
  | answered
      (file : FileRecord)
      (entries : List Wire.PeerEntry) :
      RepliesTo (.request file.name) (.answer file entries)
  | unknown
      (name : String) :
      RepliesTo (.request name) (.notFound name)
  | refreshed
      (file : FileRecord)
      (entries : List Wire.PeerEntry) :
      RepliesTo (.refresh file.name) (.answer file entries)
  | forgotten
      (name : String) :
      RepliesTo (.refresh name) (.notFound name)
  | removed
      (name : String) :
      RepliesTo (.remove name) (.success name .remove)
  | missing
      (name : String) :
      RepliesTo (.remove name) (.notFound name)

/- The requests that come after the first introduction. -/
def requestsOf
    (messages : List Wire.Message) : List Wire.Message :=
  (messages.dropWhile fun m => !m.isInit).filter (·.isRequest)

/- The requests among messages of a peer that may be known. -/
def requestsFrom
    (isKnown : Bool)
    (messages : List Wire.Message) : List Wire.Message :=
  if isKnown then messages.filter (·.isRequest)
  else requestsOf messages

theorem requestsFrom_cons
    (isKnown : Bool)
    (m : Wire.Message)
    (messages : List Wire.Message) :
    requestsFrom isKnown (m :: messages) =
      (if isKnown && m.isRequest then [m] else []) ++
        requestsFrom (isKnown || m.isInit) messages := by
  cases isKnown with
  | true =>
      cases hRequest : m.isRequest <;>
        simp [requestsFrom, hRequest]
  | false =>
      cases m <;>
        simp [requestsFrom, requestsOf, Wire.Message.isInit,
          Wire.Message.isRequest]

theorem requestsFrom_append
    (isKnown : Bool)
    (messages later : List Wire.Message) :
    requestsFrom isKnown (messages ++ later) =
      requestsFrom isKnown messages ++
        requestsFrom (isKnown || messages.any (·.isInit))
          later := by
  induction messages generalizing isKnown with
  | nil =>
      cases isKnown <;> simp [requestsFrom, requestsOf]
  | cons m messages ih =>
      rw [List.cons_append, requestsFrom_cons,
        requestsFrom_cons, ih, List.append_assoc,
        List.any_cons, Bool.or_assoc]

/- Messages that come later add requests of their own. -/
theorem requestsOf_append
    (payloads later : List Bytes) :
    requestsOf (messagesOf (payloads ++ later)) =
      requestsOf (messagesOf payloads) ++
        requestsFrom (isIntroduced payloads)
          (messagesOf later) := by
  rw [messagesOf_append]
  exact requestsFrom_append false _ _

namespace Catalog

variable {c : Catalog}
variable {seat : ConnectionId → Option Seat}
variable {id : ConnectionId}
variable {own : Option Seat}
variable {s : Standing}

/- An answer names the file that is asked for. -/
theorem IsFramed.answerTo_cases
    (h : c.IsFramed)
    (name : String) :
    c.answerTo name = .notFound name ∨
      ∃ file entries,
        file.name = name ∧
          c.answerTo name = .answer file entries := by
  unfold answerTo
  split
  · rename_i file entries hQuery
    refine Or.inr ⟨file, entries, ?_, rfl⟩
    unfold query at hQuery
    split at hQuery
    · cases hQuery
    · rename_i file' hGet
      cases hQuery
      exact (h name _ hGet).1
  · exact Or.inl rfl

/-
  A peer that has a seat is replied to if it makes a
  request, and nothing else is replied to.
-/
theorem Seated.replies_dispatch
    (h : s.catalog.Seated (Function.update seat id own))
    (hOwn : own.map Prod.fst = s.peer)
    (hFramed : s.catalog.IsFramed)
    (remote : String)
    (m : Wire.Message) :
    List.Forall₂ RepliesTo
      (if s.peer.isSome && m.isRequest then [m] else [])
      (sentReply?
        (Tracker.dispatch remote m s).1).toList := by
  rcases s with ⟨peer, c⟩
  dsimp only at h hOwn hFramed ⊢
  subst hOwn
  cases own with
  | none => cases m <;> exact .nil
  | some taken =>
      have hSeat :
          c.contacts.get? taken.1 = some taken.2 :=
        (h.contact_eq_iff _ _).mpr
          ⟨id, Function.update_self _ _ _⟩
      rcases exists_record_of_contacts hSeat with
        ⟨record, hGet⟩
      cases m with
      | publish file =>
          rcases serve_publish hGet file with
            ⟨reply, hReply, hKind⟩
          simp only [Tracker.dispatch, Option.map_some, hReply]
          refine .cons ?_ .nil
          rcases hKind with rfl | rfl | rfl
          · exact .published file
          · exact .taken file
          · exact .refused file
      | request name =>
          simp only [Tracker.dispatch, Option.map_some,
            serve_request]
          refine .cons ?_ .nil
          rcases hFramed.answerTo_cases name with
            hNone | ⟨file, entries, rfl, hSome⟩
          · rw [hNone]
            exact .unknown name
          · rw [hSome]
            exact .answered file entries
      | refresh name =>
          simp only [Tracker.dispatch, Option.map_some,
            serve_refresh]
          refine .cons ?_ .nil
          rcases hFramed.answerTo_cases name with
            hNone | ⟨file, entries, rfl, hSome⟩
          · rw [hNone]
            exact .forgotten name
          · rw [hSome]
            exact .refreshed file entries
      | remove name =>
          simp only [Tracker.dispatch, Option.map_some, serve]
          rcases c.remove name with ⟨outcome, c'⟩
          cases outcome with
          | removed => exact .cons (.removed name) .nil
          | notFound => exact .cons (.missing name) .nil
      | _ => exact .nil

/- The replies to messages match the requests among them. -/
theorem Seated.replies_handleAll
    (h : s.catalog.Seated (Function.update seat id own))
    (hOwn : own.map Prod.fst = s.peer)
    (hFramed : s.catalog.IsFramed)
    (remote : String)
    {messages : List Wire.Message}
    (hLength :
      ∀ m ∈ messages, m.payload.length ≤ Wire.maxFrame) :
    List.Forall₂ RepliesTo
      (requestsFrom s.peer.isSome messages)
      ((Tracker.handleAll remote messages s).1.filterMap
        sentReply?) := by
  induction messages generalizing s own with
  | nil =>
      cases s.peer <;> exact .nil
  | cons m messages ih =>
      rcases List.forall_mem_cons.mp hLength with
        ⟨hFirst, hLater⟩
      rcases h.dispatch hOwn remote m with
        ⟨next, hNext, hNextOwn, -⟩
      have hNextFramed :
          (Tracker.dispatch remote m s).2.catalog.IsFramed :=
        keeps_dispatch
          (fun _ _ hIsFramed hc => hc.perform hIsFramed)
          hFirst hFramed
      have hKnown :=
        isSome_peer_handleAll remote [m] s
      have hReply := h.replies_dispatch hOwn hFramed remote m
      have hRest := ih hNext hNextOwn hNextFramed hLater
      rw [List.any_cons, List.any_nil, Bool.or_false] at hKnown
      change (Tracker.dispatch remote m s).2.peer.isSome = _
        at hKnown
      rw [hKnown] at hRest
      have hReplies :
          (Tracker.handleAll remote (m :: messages)
              s).1.filterMap sentReply? =
            (sentReply?
                (Tracker.dispatch remote m s).1).toList ++
              (Tracker.handleAll remote messages
                (Tracker.dispatch remote m
                  s).2).1.filterMap sentReply? := by
        dsimp only [Tracker.handleAll]
        rw [List.filterMap_cons]
        split
        · rename_i hNone
          rw [hNone]
          rfl
        · rename_i reply hSome
          rw [hSome]
          rfl
      rw [requestsFrom_cons, hReplies]
      exact List.rel_append hReply hRest

end Catalog

end Tracker

end PeerShare

------------------------------------------------------------
-- Replies of a Server
------------------------------------------------------------

namespace PeerShare

namespace Tracker

namespace Server

variable {server : Server}
variable {events : List Event}
variable {id : ConnectionId}
variable {session : Session}

theorem received_frames
    (steps : List Step)
    (payloads : List Bytes)
    (id other : ConnectionId) :
    received id (steps ++ payloads.map (.frame other)) =
      if other = id then received id steps ++ payloads
      else received id steps := by
  induction payloads generalizing steps with
  | nil =>
      rw [List.map_nil, List.append_nil, List.append_nil,
        ite_self]
  | cons payload payloads ih =>
      rw [List.map_cons, ← List.singleton_append,
        ← List.append_assoc, ih, received_append_singleton,
        receivedAfter]
      split <;> simp

/- A session has a peer just if that was introduced. -/
theorem IsReachable.isSome_peer
    (h : IsReachable server events)
    (hGet : server.sessions.get? id = some session) :
    session.peer.isSome =
      isIntroduced (received id (log events)) := by
  have hLine :
      (Ledger.blank.noteAll (log events)).lines id =
        some (session.remote, session.peer) := by
    rw [← h.ledger_eq, recorded]
    dsimp only
    rw [hGet]
    rfl
  exact Ledger.isSome_peer hLine

/- The frames that come with some bytes are received. -/
theorem IsReachable.received_of_divides
    {bs rest : Bytes}
    {payloads : List Bytes}
    {last : Wire.ReceiveError}
    {other : ConnectionId}
    (h : IsReachable server events)
    (hGet : server.sessions.get? other = some session)
    (hDivides :
      Wire.Frame.Divides (session.buffer ++ bs) payloads rest
        last) :
    received id
        (log events ++ stepsOf events (.deliver other bs)) =
      if other = id then
        received id (log events) ++ payloads
      else received id (log events) := by
  rw [h.stepsOf_of_divides hGet hDivides,
    ← List.append_assoc]
  split
  · rw [List.append_nil, received_frames]
  · rw [received_append_singleton, receivedAfter,
      received_frames]

/- The requests that come with some bytes are replied to. -/
theorem IsReachable.replies_of_divides
    {bs rest : Bytes}
    {payloads : List Bytes}
    {last : Wire.ReceiveError}
    (h : IsReachable server events)
    (hGet : server.sessions.get? id = some session)
    (hDivides :
      Wire.Frame.Divides (session.buffer ++ bs) payloads rest
        last) :
    List.Forall₂ RepliesTo
      (requestsFrom session.peer.isSome (messagesOf payloads))
      ((handleAll session.remote (messagesOf payloads)
          (server.standing session)).1.filterMap
        sentReply?) := by
  rcases h.accounted with ⟨seat, hSeated, hStands⟩
  have hStand := hStands id
  rw [hGet] at hStand
  have hOwn :
      server.catalog.Seated
        (Function.update seat id (seat id)) :=
    (Function.update_eq_self id seat).symm ▸ hSeated
  have hFramed :=
    h.catalog_induction Catalog.isFramed_empty
      fun _ _ hIsFramed hc => hc.perform hIsFramed
  exact Catalog.Seated.replies_handleAll
    (s := server.standing session) hOwn hStand.peer_eq.symm
    hFramed session.remote
    fun m hm => length_payload_of_mem_messagesOf hDivides hm

/-
  The replies that were sent on a connection match, one by
  one, the requests that came on it once its peer had
  introduced itself.
-/
theorem IsReachable.replies_match
    (h : IsReachable server events)
    (id : ConnectionId) :
    List.Forall₂ RepliesTo
      (requestsOf (messagesOf (received id (log events))))
      (sentOn id events) := by
  induction h with
  | start => exact .nil
  | @step server events e before can ih =>
      cases e with
      | connect other remote =>
          rw [log, stepsOf, received_append_singleton,
            receivedAfter, sentOn]
          split
          · exact .nil
          · exact ih
      | hangUp other =>
          rw [log, stepsOf, received_append_singleton,
            receivedAfter, sentOn]
          exact ih
      | shutDown =>
          rw [log, stepsOf, received_append_singleton,
            receivedAfter, sentOn]
          exact ih
      | deliver other bs =>
          rw [log, sentOn, ← before.eq_afterAll]
          cases hGet : server.sessions.get? other with
          | none =>
              rw [before.stepsOf_of_none hGet, List.append_nil,
                deliver_of_none hGet]
              dsimp only
              rw [List.append_nil, ite_self]
              exact ih
          | some session =>
              rcases Wire.Frame.exists_divides
                (session.buffer ++ bs) with
                ⟨later, rest, last, hDivides⟩
              have hDeliver := deliver_of_divides hGet hDivides
              dsimp only at hDeliver
              rw [before.received_of_divides hGet hDivides,
                hDeliver]
              split
              · rename_i hOther
                subst hOther
                rw [requestsOf_append,
                  ← before.isSome_peer hGet]
                exact List.rel_append ih
                  (before.replies_of_divides hGet hDivides)
              · exact ih

end Server

end Tracker

end PeerShare

------------------------------------------------------------
-- Noise
------------------------------------------------------------

namespace PeerShare

namespace Tracker

/-
  Frames that a session pays no heed to: bytes that are no
  message, messages that trackers send, and, as long as the
  peer is not known, whatever is no introduction.
-/
inductive IsNoise
    (isKnown : Bool)
    (payload : Bytes) : Prop where
  | malformed
      {e : Wire.DecodeError}
      (h : Wire.Message.decode payload = .error e)
  | fromTracker
      {m : Wire.Message}
      (h : Wire.Message.decode payload = .ok m)
      (hKind : m.isFromTracker = true)
  | early
      {m : Wire.Message}
      (h : Wire.Message.decode payload = .ok m)
      (hInit : m.isInit = false)
      (hEarly : isKnown = false)

/- Noise is not replied to and changes nothing. -/
theorem replyTo_of_noise
    {payload : Bytes}
    {s : Standing}
    (h : IsNoise s.peer.isSome payload)
    (remote : String) :
    replyTo remote payload s = (none, s) := by
  rcases s with ⟨peer, c⟩
  unfold replyTo
  cases h with
  | malformed hDecode => rw [hDecode]
  | @fromTracker m hDecode hKind =>
      rw [hDecode]
      cases peer <;> cases m <;>
        first | rfl | cases hKind
  | @early m hDecode hInit hEarly =>
      rw [hDecode]
      cases peer with
      | some peer => cases hEarly
      | none =>
          cases m with
          | init identity port => cases hInit
          | _ => rfl

namespace Server

/-
  Whether a log is another one with noise put between its
  steps.  What is noise depends on what has come before.
-/
inductive Padded : List Step → List Step → Prop where
  | start : Padded [] []
  | both
      {steps steps' : List Step}
      (step : Step)
      (h : Padded steps steps') :
      Padded (steps ++ [step]) (steps' ++ [step])
  | noise
      {steps steps' : List Step}
      (id : ConnectionId)
      {payload : Bytes}
      (h : Padded steps steps')
      (hNoise :
        IsNoise (isIntroduced (received id steps')) payload) :
      Padded steps (steps' ++ [.frame id payload])

end Server

namespace Ledger

/- Noise leaves no trace on record. -/
theorem note_noise
    {steps : List Server.Step}
    {id : ConnectionId}
    {payload : Bytes}
    (h : IsNoise (isIntroduced (received id steps)) payload) :
    (blank.noteAll steps).note (.frame id payload) =
      blank.noteAll steps := by
  rw [note]
  split
  · rfl
  · rename_i remote peer hLine
    rw [← isSome_peer hLine] at h
    have hReply :=
      replyTo_of_noise
        (s := { peer, catalog := (blank.noteAll steps).catalog })
        h remote
    rw [hReply]
    dsimp only [Option.toList_none]
    rw [List.append_nil, Function.update_eq_self, ← hLine,
      Function.update_eq_self]

theorem noteAll_of_padded
    {steps steps' : List Server.Step}
    (h : Server.Padded steps steps') :
    blank.noteAll steps' = blank.noteAll steps := by
  induction h with
  | start => rfl
  | both step _ ih => rw [noteAll_append, noteAll_append, ih]
  | noise id _ hNoise ih =>
      rw [noteAll_append, ← ih]
      exact note_noise hNoise

end Ledger

end Tracker

end PeerShare

------------------------------------------------------------
-- Inserted Frames
------------------------------------------------------------

namespace PeerShare

namespace Tracker

/- A connection is in touch once an introduction has come. -/
theorem isSome_contact?
    (remote : String)
    (messages : List Wire.Message) :
    (contact? remote messages).isSome =
      messages.any (·.isInit) := by
  induction messages with
  | nil => rfl
  | cons m messages ih =>
      have hOne :
          (introduction? remote m).isSome = m.isInit := by
        cases m <;> rfl
      rw [← List.singleton_append, contact?_append,
        Option.isSome_or, ih, contact?_singleton, hOne,
        List.singleton_append, List.any_cons, Bool.or_comm]

/- Handling noise in between makes no difference. -/
theorem handleAll_noise
    (remote : String)
    {before : List Bytes}
    {payload : Bytes}
    {s : Standing}
    (h :
      IsNoise (s.peer.isSome || isIntroduced before) payload)
    (later : List Bytes) :
    (handleAll remote
          (messagesOf (before ++ payload :: later))
          s).1.filterMap sentReply? =
        (handleAll remote (messagesOf (before ++ later))
          s).1.filterMap sentReply? ∧
      (handleAll remote
          (messagesOf (before ++ payload :: later)) s).2 =
        (handleAll remote (messagesOf (before ++ later))
          s).2 := by
  rw [← List.singleton_append, messagesOf_append,
    messagesOf_append, messagesOf_append, handleAll_append,
    handleAll_append, handleAll_append]
  rw [isIntroduced, ← isSome_peer_handleAll remote] at h
  have hReply := replyTo_of_noise h remote
  rcases replyTo_eq remote payload
      (handleAll remote (messagesOf before) s).2 with
    ⟨hNone, hSame⟩
  rw [hReply] at hNone hSame
  dsimp only at hNone hSame ⊢
  rw [← hSame]
  refine ⟨?_, rfl⟩
  rw [List.filterMap_append, List.filterMap_append,
    ← hNone]
  simp

namespace Server

variable {server : Server}
variable {session : Session}
variable {events events' : List Event}
variable {id : ConnectionId}
variable {remote : String}
variable {bs front payload : Bytes}
variable {payloads : List Bytes}

/-
  Noise that is put at the end of a frame changes neither
  the replies nor the server.
-/
theorem IsReachable.deliver_noise
    (h : IsReachable server events)
    (hLine : line? id events = some (remote, bs))
    (hEnd :
      Wire.Frame.Divides (bs ++ front) payloads [] .closed)
    (hNoise : IsNoise (isIntroduced payloads) payload)
    (hLe : payload.length ≤ Wire.maxFrame)
    (back : Bytes) :
    server.deliver id
        (front ++ (Wire.Frame.encode payload ++ back)) =
      server.deliver id (front ++ back) := by
  rcases h.accounted with ⟨seat, -, hStands⟩
  have hStand := hStands id
  rw [hLine] at hStand
  generalize hGet : server.sessions.get? id = session
    at hStand
  generalize seat id = own at hStand
  cases hStand with
  | dropped divides =>
      cases (hEnd.unique
        (divides.append_of_frameTooLarge front)).2.2
  | @present _ _ rest before _ divides hContact =>
      rcases Wire.Frame.exists_divides (rest ++ front) with
        ⟨middle, rest', last, hMiddle⟩
      rcases hEnd.unique (divides.append hMiddle) with
        ⟨rfl, rfl, rfl⟩
      rcases Wire.Frame.exists_divides back with
        ⟨later, rest', last, hBack⟩
      have hPlain :
          Wire.Frame.Divides (rest ++ (front ++ back))
            (middle ++ later) rest' last := by
        rw [← List.append_assoc]
        exact hMiddle.append hBack
      have hPadded :
          Wire.Frame.Divides
            (rest ++
              (front ++ (Wire.Frame.encode payload ++ back)))
            (middle ++ payload :: later) rest' last := by
        rw [← List.append_assoc]
        exact hMiddle.append (hBack.cons hLe)
      have hKnown :
          (own.map Prod.fst).isSome = isIntroduced before := by
        rw [Option.isSome_map, isIntroduced,
          ← isSome_contact? remote, ← hContact,
          Option.isSome_map]
      rw [isIntroduced_append, ← hKnown] at hNoise
      have hSame :=
        handleAll_noise remote
          (s :=
            { peer := own.map Prod.fst
              catalog := server.catalog })
          hNoise later
      have hDeliver := deliver_of_divides hGet hPadded
      have hDeliver' := deliver_of_divides hGet hPlain
      dsimp only [standing] at hDeliver hDeliver'
      rw [hDeliver, hDeliver', hSame.1, hSame.2]

/- A frame that is too large ends its session. -/
theorem ends_of_large
    {m : Wire.Message}
    (hGet :
      (afterAll events).sessions.get? id = some session)
    (hBuffer : session.buffer = [])
    (hLarge : Wire.maxFrame < m.payload.length)
    (hShort : m.payload.length < 2 ^ 32) :
    sentOn id (.deliver id m.frame :: events) =
        sentOn id events ∧
      (afterAll
          (.deliver id m.frame :: events)).sessions.get? id =
        none := by
  have hDivides :
      Wire.Frame.Divides (session.buffer ++ m.frame) []
        m.frame (.frameTooLarge m.payload.length) :=
    ⟨by rw [hBuffer]; rfl, by simp,
      .tooLarge m.payload hLarge hShort⟩
  have hDeliver := deliver_of_divides hGet hDivides
  dsimp only at hDeliver
  rw [sentOn, if_pos rfl, afterAll, after, hDeliver]
  exact ⟨List.append_nil _, Table.get?_erase_self _ _⟩

/- A session that has ended sends nothing more. -/
theorem silent_of_none
    (hGet : (afterAll events).sessions.get? id = none)
    (bs : Bytes) :
    sentOn id (.deliver id bs :: events) =
        sentOn id events ∧
      afterAll (.deliver id bs :: events) =
        afterAll events := by
  rw [sentOn, if_pos rfl, afterAll, after,
    deliver_of_none hGet]
  exact ⟨List.append_nil _, rfl⟩

/- No bytes make no difference. -/
theorem IsReachable.deliver_nil
    (h : IsReachable server events)
    (id : ConnectionId) :
    server.deliver id [] = ([], server) := by
  rcases h.accounted with ⟨seat, -, hStands⟩
  have hStand := hStands id
  generalize hGet : server.sessions.get? id = session
    at hStand
  generalize line? id events = line at hStand
  generalize seat id = own at hStand
  cases hStand with
  | away => exact deliver_of_none hGet []
  | dropped => exact deliver_of_none hGet []
  | @present _ _ rest before _ divides hContact =>
      have hRest :
          Wire.Frame.Divides (rest ++ []) [] rest .closed :=
        ⟨by simp, by simp, divides.isEnd⟩
      have hDeliver := deliver_of_divides hGet hRest
      dsimp only at hDeliver
      rw [hDeliver, if_pos rfl]
      refine Prod.ext rfl ?_
      dsimp only [messagesOf, handleAll, standing,
        List.filterMap_nil]
      rw [Table.insert_of_get?_eq hGet]

/-
  Whether some events are others with a frame of noise put
  at the end of a frame, in the midst of the bytes that a
  connection brings at once or by itself.
-/
inductive Inserts
    (payload : Bytes) :
    List Event → List Event → Prop where
  | within
      {events : List Event}
      {id : ConnectionId}
      {remote : String}
      {bs : Bytes}
      {payloads : List Bytes}
      (front back : Bytes)
      (hLine : line? id events = some (remote, bs))
      (hEnd :
        Wire.Frame.Divides (bs ++ front) payloads [] .closed)
      (hNoise : IsNoise (isIntroduced payloads) payload)
      (hLe : payload.length ≤ Wire.maxFrame) :
      Inserts payload
        (.deliver id (front ++ back) :: events)
        (.deliver id
            (front ++ (Wire.Frame.encode payload ++ back)) ::
          events)
  | between
      {events : List Event}
      {id : ConnectionId}
      {remote : String}
      {bs : Bytes}
      {payloads : List Bytes}
      (hLine : line? id events = some (remote, bs))
      (hEnd : Wire.Frame.Divides bs payloads [] .closed)
      (hNoise : IsNoise (isIntroduced payloads) payload)
      (hLe : payload.length ≤ Wire.maxFrame) :
      Inserts payload events
        (.deliver id (Wire.Frame.encode payload) :: events)
  | before
      {events events' : List Event}
      (e : Event)
      (h : Inserts payload events events') :
      Inserts payload (e :: events) (e :: events')

/- The same server comes about, after the same replies. -/
theorem IsReachable.of_inserts
    (hInserts : Inserts payload events events')
    (h : IsReachable server events) :
    IsReachable server events' ∧
      ∀ id, sentOn id events' = sentOn id events := by
  induction hInserts generalizing server with
  | @within events id remote bs payloads front back hLine
      hEnd hNoise hLe =>
      cases h with
      | @step earlier _ _ hBefore can =>
          have hSame :=
            hBefore.deliver_noise hLine hEnd hNoise hLe back
          constructor
          · rw [after, ← hSame]
            exact hBefore.step
              (e :=
                .deliver id
                  (front ++
                    (Wire.Frame.encode payload ++ back)))
              rfl
          · intro other
            rw [sentOn, sentOn, ← hBefore.eq_afterAll, hSame]
  | @between events id remote bs payloads hLine hEnd hNoise
      hLe =>
      have hSame :
          server.deliver id (Wire.Frame.encode payload) =
            ([], server) := by
        have hWhole :
            Wire.Frame.Divides (bs ++ []) payloads []
              .closed := by
          rwa [List.append_nil]
        have hDeliver :=
          h.deliver_noise hLine hWhole hNoise hLe []
        rw [List.append_nil, List.nil_append,
          List.append_nil] at hDeliver
        rw [hDeliver, h.deliver_nil]
      constructor
      · have hStep :=
          h.step
            (e := .deliver id (Wire.Frame.encode payload)) rfl
        rw [after, hSame] at hStep
        exact hStep
      · intro other
        rw [sentOn, ← h.eq_afterAll, hSame, List.append_nil,
          ite_self]
  | @before events events' e _ ih =>
      cases h with
      | @step earlier _ _ hBefore can =>
          rcases ih hBefore with ⟨hAlso, hSent⟩
          refine ⟨hAlso.step can, ?_⟩
          intro other
          cases e with
          | connect => rw [sentOn, sentOn, hSent]
          | deliver =>
              rw [sentOn, sentOn, hSent,
                ← hBefore.eq_afterAll, ← hAlso.eq_afterAll]
          | hangUp => exact hSent other
          | shutDown => exact hSent other

/-
  Replies match requests, and noise changes nothing: neither
  a frame that is put between others, nor any number of them
  in another run of which the log is else the same.
-/
theorem IsReachable.reply_discipline
    (h : IsReachable server events) :
    (∀ id,
      List.Forall₂ RepliesTo
        (requestsOf (messagesOf (received id (log events))))
        (sentOn id events)) ∧
      (∀ payload events',
        Inserts payload events events' →
          IsReachable server events' ∧
            ∀ id, sentOn id events' = sentOn id events) ∧
      ∀ server' events',
        IsReachable server' events' →
          Padded (log events) (log events') →
            server'.catalog = server.catalog ∧
              ∀ id, sentOn id events' = sentOn id events := by
  refine ⟨h.replies_match,
    fun _ _ hInserts => h.of_inserts hInserts, ?_⟩
  intro server' events' h' hPadded
  have hSame :
      server'.recorded (fun id => sentOn id events') =
        server.recorded (fun id => sentOn id events) := by
    rw [h'.ledger_eq, h.ledger_eq,
      Ledger.noteAll_of_padded hPadded]
  exact ⟨congrArg Ledger.catalog hSame,
    fun id => congrFun (congrArg Ledger.sent hSame) id⟩

/- An unknown file is asked for, next to an empty frame. -/
theorem IsReachable.reply_discipline_of_unknown_file :
    ∃ server server' events events',
      IsReachable server events ∧
        IsReachable server' events' ∧
        Inserts [] events events' ∧
        Padded (log events) (log events') ∧
        requestsOf (messagesOf (received 0 (log events))) =
          [.request "a"] ∧
        List.Forall₂ RepliesTo [.request "a"]
          (sentOn 0 events) ∧
        sentOn 0 events' = sentOn 0 events ∧
        server'.catalog = server.catalog := by
  let introduced : List Event :=
    [.deliver 0 (Wire.Message.init "" 1).frame,
      .connect 0 "127.0.0.1"]
  let asked : Event :=
    .deliver 0 (Wire.Message.request "a").frame
  let opening : List Step :=
    [.opened 0 "127.0.0.1",
      .frame 0 (Wire.Message.init "" 1).payload]
  let request : Step :=
    .frame 0 (Wire.Message.request "a").payload
  have hReachable :
      IsReachable (afterAll (asked :: introduced))
        (asked :: introduced) :=
    ((IsReachable.start.step
          (e := .connect 0 "127.0.0.1") rfl).step
        (e := .deliver 0 (Wire.Message.init "" 1).frame)
          rfl).step (e := asked) rfl
  have hLine :
      line? 0 introduced =
        some
          ("127.0.0.1", (Wire.Message.init "" 1).frame) := by
    decide +kernel
  have hEnd :
      Wire.Frame.Divides (Wire.Message.init "" 1).frame
        [(Wire.Message.init "" 1).payload] [] .closed :=
    ⟨by simp [Wire.Message.frame],
      by simpa using payload_init_le 1,
      .cutHeader (by decide)⟩
  have hEmpty : ∀ isKnown, IsNoise isKnown [] := fun _ =>
    .malformed (e := .truncated .id 1) rfl
  have hInserts :
      Inserts [] (asked :: introduced)
        (asked :: .deliver 0 (Wire.Frame.encode []) ::
          introduced) :=
    .before asked (.between hLine hEnd (hEmpty _) (by decide))
  have hLog :
      log (asked :: introduced) = opening ++ [request] := by
    decide +kernel
  have hLog' :
      log
          (asked :: .deliver 0 (Wire.Frame.encode []) ::
            introduced) =
        opening ++ [.frame 0 []] ++ [request] := by
    decide +kernel
  have hOpening : Padded opening opening :=
    .both _ (.both _ .start)
  have hPadded :
      Padded (log (asked :: introduced))
        (log
          (asked :: .deliver 0 (Wire.Frame.encode []) ::
            introduced)) := by
    rw [hLog, hLog']
    exact .both request (.noise 0 hOpening (hEmpty _))
  have hRequests :
      requestsOf
          (messagesOf
            (received 0 (log (asked :: introduced)))) =
        [.request "a"] := by
    rw [hLog]
    decide +kernel
  rcases hReachable.reply_discipline with
    ⟨hMatch, hInserted, hSame⟩
  have hReplies := hMatch 0
  rw [hRequests] at hReplies
  rcases hInserted _ _ hInserts with ⟨hReachable', hSent⟩
  exact ⟨_, _, _, _, hReachable, hReachable', hInserts,
    hPadded, hRequests, hReplies, hSent 0,
    (hSame _ _ hReachable' hPadded).1⟩

/-
  Frames that are too large end the session that they come
  on: an answer after the introduction or a publication
  before it, and a request goes without its reply.
-/
theorem exists_large_frames_heeded :
    let file := crowdedFile 3355443
    let opened : List Event := [.connect 0 "127.0.0.1"]
    let introduced : Event :=
      .deliver 0 (Wire.Message.init "" 1).frame
    let asked : Event :=
      .deliver 0 (Wire.Message.request "a").frame
    let events := asked :: introduced :: opened
    let answered :=
      asked ::
        .deliver 0 (Wire.Message.answer file []).frame ::
          introduced :: opened
    let published :=
      asked :: introduced ::
        .deliver 0 (Wire.Message.publish file).frame ::
          opened
    (∀ m ∈ [Wire.Message.answer file [], .publish file],
        Wire.maxFrame < m.payload.length ∧
          Wire.Message.decode m.payload = .ok m) ∧
      (IsReachable (afterAll events) events ∧
        IsReachable (afterAll answered) answered ∧
        IsReachable (afterAll published) published) ∧
      sentOn 0 events = [.notFound "a"] ∧
      sentOn 0 answered = [] ∧
      sentOn 0 published = [] := by
  intro file opened introduced asked events answered published
  have hName : (Utf8.encode file.name).length = 1 := by
    decide
  have hPublish :
      (Wire.Message.publish file).payload.length =
        67108898 := by
    rw [Wire.Message.length_payload_publish, hName,
      chunkCount_crowdedFile]
  have hAnswer :
      (Wire.Message.answer file []).payload.length =
        67108902 := by
    rw [Wire.Message.length_payload_answer, hPublish]
    rfl
  have hLarge :
      ∀ m ∈ [Wire.Message.answer file [], .publish file],
        Wire.maxFrame < m.payload.length ∧
          m.payload.length < 2 ^ 32 := by
    simp only [List.forall_mem_cons, hAnswer, hPublish]
    exact ⟨by decide, by decide, List.forall_mem_nil _⟩
  rcases hLarge _ List.mem_cons_self with
    ⟨hLargeAnswer, hShortAnswer⟩
  rcases hLarge _ (List.mem_cons_of_mem _
    List.mem_cons_self) with ⟨hLargePublish, hShortPublish⟩
  have hOpened : IsReachable (afterAll opened) opened :=
    IsReachable.start.step
      (e := .connect 0 "127.0.0.1") rfl
  have hIntroduced := hOpened.step (e := introduced) rfl
  have hNew :
      (afterAll opened).sessions.get? 0 =
        some
          { remote := "127.0.0.1"
            buffer := []
            peer := none } := by
    decide +kernel
  have hKnown :
      (afterAll (introduced :: opened)).sessions.get? 0 =
        some
          { remote := "127.0.0.1"
            buffer := []
            peer := some 0 } := by
    decide +kernel
  rcases ends_of_large hKnown rfl hLargeAnswer
    hShortAnswer with ⟨hAnswered, hAway⟩
  rcases ends_of_large hNew rfl hLargePublish
    hShortPublish with ⟨hPublished, hGone⟩
  rcases silent_of_none hGone
    (Wire.Message.init "" 1).frame with ⟨hSilent, hSame⟩
  rw [← hSame] at hGone
  refine
    ⟨fun m hm =>
        ⟨(hLarge m hm).1,
          Wire.Message.decode_payload (hLarge m hm).2⟩,
      ⟨hIntroduced.step (e := asked) rfl,
        (hIntroduced.step
              (e :=
                .deliver 0
                  (Wire.Message.answer file []).frame)
              rfl).step
          (e := asked) rfl,
        ((hOpened.step
                (e :=
                  .deliver 0
                    (Wire.Message.publish file).frame)
                rfl).step
            (e := introduced) rfl).step
          (e := asked) rfl⟩,
      by decide +kernel, ?_, ?_⟩
  · have hNothing : sentOn 0 (introduced :: opened) = [] := by
      decide +kernel
    rw [(silent_of_none hAway _).1, hAnswered, hNothing]
  · rw [(silent_of_none hGone _).1, hSilent, hPublished]
    rfl

end Server

end Tracker

end PeerShare
