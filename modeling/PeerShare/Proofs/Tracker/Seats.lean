import Mathlib.Logic.Function.Basic
import PeerShare.Proofs.Tracker.Sessions

/-
  The peers that a server has registered are those of its
  sessions.

  A connection whose messages include an introduction has a
  seat in the catalog: the number and the contact it was
  registered with last.  No two connections share a number,
  and nobody else is registered, whichever messages come in
  which order and however a connection ends.

  Key definitions include:
    * `Tracker.contact?`
    * `Tracker.Catalog.Seated`
    * `Tracker.Server.Stands`
    * `Tracker.Server.Accounted`
    * `Tracker.Server.Matches`

  Key theorems include:
    * `Tracker.Catalog.Seated.handleAll`
    * `Tracker.Server.IsReachable.accounted`
    * `Tracker.Server.IsReachable.peers_match_sessions`
-/

------------------------------------------------------------
-- Contacts
------------------------------------------------------------

namespace PeerShare

namespace Tracker

/- Where a peer that introduces itself is reached. -/
def introduction?
    (remote : String) :
    Wire.Message → Option (String × UInt16)
  | .init identity port =>
      some
        (if identity.isEmpty then remote else identity, port)
  | _ => none

/- Where the last introduction says that a peer is. -/
def contact?
    (remote : String)
    (messages : List Wire.Message) :
    Option (String × UInt16) :=
  (messages.filterMap (introduction? remote)).getLast?

theorem contact?_append
    (remote : String)
    (messages later : List Wire.Message) :
    contact? remote (messages ++ later) =
      (contact? remote later).or (contact? remote messages) := by
  unfold contact?
  rw [List.filterMap_append, List.getLast?_append]

theorem contact?_singleton
    (remote : String)
    (m : Wire.Message) :
    contact? remote [m] = introduction? remote m := by
  unfold contact?
  cases h : introduction? remote m <;> simp [h]

namespace Catalog

/- Where each registered peer is reached. -/
def contacts
    (c : Catalog) : Table PeerId (String × UInt16) :=
  c.peers.mapValues (·.contact)

/- A registered peer is reached somewhere. -/
theorem get?_contacts
    {c : Catalog}
    {peer : PeerId}
    {record : PeerRecord}
    (h : c.peers.get? peer = some record) :
    c.contacts.get? peer = some record.contact := by
  unfold contacts
  rw [Table.get?_mapValues, h]
  rfl

/- Whoever is reached somewhere is registered. -/
theorem exists_record_of_contacts
    {c : Catalog}
    {peer : PeerId}
    {contact : String × UInt16}
    (h : c.contacts.get? peer = some contact) :
    ∃ record, c.peers.get? peer = some record := by
  rw [contacts, Table.get?_mapValues, Option.map_eq_some_iff]
    at h
  rcases h with ⟨record, hGet, -⟩
  exact ⟨record, hGet⟩

theorem contacts_register
    (c : Catalog)
    (identity : String)
    (port : UInt16) :
    (c.register identity port).2.contacts =
      c.contacts.insert c.nextPeer (identity, port) :=
  Table.mapValues_insert _ _ _ _

theorem contacts_unregister
    (c : Catalog)
    (peer : PeerId) :
    (c.unregister peer).contacts = c.contacts.erase peer :=
  Table.mapValues_erase _ _ _

/-
  Who is there and who is next changes just as peers are
  registered and unregistered.
-/
theorem contacts_perform
    {o : Operation}
    (hRegister : ∀ identity port, o ≠ .register identity port)
    (hUnregister : ∀ peer, o ≠ .unregister peer)
    (c : Catalog) :
    (c.perform o).2.contacts = c.contacts ∧
      (c.perform o).2.nextPeer = c.nextPeer := by
  have hEffect := c.effect_perform o
  generalize c.perform o = result at hEffect ⊢
  rcases result with ⟨reply, c'⟩
  cases hEffect with
  | register identity port => exact absurd rfl (hRegister _ _)
  | unregister peer => exact absurd rfl (hUnregister _)
  | publish registered free =>
      exact ⟨Table.mapValues_insert_of_eq registered rfl, rfl⟩
  | update tracked registered =>
      exact ⟨Table.mapValues_insert_of_eq registered rfl, rfl⟩
  | remove => exact ⟨Table.mapValues_mapValues _ _ _, rfl⟩
  | idle isIdle => exact ⟨rfl, rfl⟩

/- A request changes neither who is there nor who is next. -/
theorem contacts_serve
    (peer : PeerId)
    (m : Wire.Message)
    (c : Catalog) :
    (serve peer m c).2.contacts = c.contacts ∧
      (serve peer m c).2.nextPeer = c.nextPeer := by
  rw [serve_eq_run]
  cases hOperations : operations peer m with
  | nil => exact ⟨rfl, rfl⟩
  | cons o later =>
      have hLater : later = [] := by
        cases m <;> cases hOperations <;> rfl
      subst hLater
      apply contacts_perform
      · rintro identity port rfl
        cases m <;> cases hOperations
      · rintro peer' rfl
        cases m <;> cases hOperations

end Catalog

end Tracker

end PeerShare

------------------------------------------------------------
-- Seats
------------------------------------------------------------

namespace PeerShare

namespace Tracker

/- The number a peer is registered with, and its contact. -/
abbrev Seat :=
  PeerId × (String × UInt16)

namespace Catalog

/-
  Whether the peers of a catalog are those that have a seat,
  each of them one of its own.
-/
structure Seated
    (c : Catalog)
    (seat : ConnectionId → Option Seat) : Prop where
  contact_eq_iff :
    ∀ peer contact,
      c.contacts.get? peer = some contact ↔
        ∃ id, seat id = some (peer, contact)
  apart :
    ∀ id id' peer contact contact',
      seat id = some (peer, contact) →
        seat id' = some (peer, contact') → id = id'
  lt_nextPeer :
    ∀ id peer contact,
      seat id = some (peer, contact) → peer < c.nextPeer

variable {c c' : Catalog}
variable {seat : ConnectionId → Option Seat}
variable {id : ConnectionId}
variable {own : Option Seat}
variable {s : Standing}

theorem seated_empty :
    empty.Seated fun _ => none where
  contact_eq_iff := by
    intro peer contact
    constructor
    · intro hGet
      cases hGet
    · rintro ⟨id, hSeat⟩
      cases hSeat
  apart := by
    intro id id' peer contact contact' hSeat
    cases hSeat
  lt_nextPeer := by
    intro id peer contact hSeat
    cases hSeat

/- Only contacts and the next number matter. -/
theorem Seated.congr
    (h : c.Seated seat)
    (hContacts : c'.contacts = c.contacts)
    (hNext : c'.nextPeer = c.nextPeer) :
    c'.Seated seat where
  contact_eq_iff := by
    rw [hContacts]
    exact h.contact_eq_iff
  apart := h.apart
  lt_nextPeer := by
    rw [hNext]
    exact h.lt_nextPeer

/- Who leaves gives up the seat. -/
theorem Seated.leave
    (h : c.Seated (Function.update seat id own)) :
    Seated
      (match own.map Prod.fst with
        | none => c
        | some peer => c.unregister peer)
      (Function.update seat id none) := by
  cases own with
  | none => exact h
  | some taken =>
      rcases taken with ⟨peer, contact⟩
      have hOwn :
          Function.update seat id (some (peer, contact)) id =
            some (peer, contact) :=
        Function.update_self _ _ _
      -- a seat that remains is that of another connection
      have hKept :
          ∀ {id' e},
            Function.update seat id none id' = some e ↔
              id' ≠ id ∧
                Function.update seat id
                    (some (peer, contact)) id' =
                  some e := by
        intro id' e
        by_cases hId : id' = id
        · subst hId
          simp
        · rw [Function.update_of_ne hId,
            Function.update_of_ne hId]
          simp [hId]
      exact {
        contact_eq_iff := by
          intro peer' contact'
          dsimp only [Option.map_some]
          rw [contacts_unregister, Table.get?_erase]
          by_cases hPeer : peer' = peer
          · subst hPeer
            rw [if_pos (Table.sameKey_iff.mpr rfl)]
            constructor
            · intro hNone
              cases hNone
            · rintro ⟨id', hSeat⟩
              rcases hKept.mp hSeat with ⟨hNe, hSeat⟩
              exact absurd (h.apart _ _ _ _ _ hSeat hOwn) hNe
          · rw [if_neg fun hSame =>
                hPeer (Table.sameKey_iff.mp hSame),
              h.contact_eq_iff]
            constructor
            · rintro ⟨id', hSeat⟩
              refine ⟨id', hKept.mpr ⟨?_, hSeat⟩⟩
              rintro rfl
              rw [hOwn] at hSeat
              cases hSeat
              exact hPeer rfl
            · rintro ⟨id', hSeat⟩
              exact ⟨id', (hKept.mp hSeat).2⟩
        apart := fun _ _ _ _ _ hSeat hSeat' =>
          h.apart _ _ _ _ _ (hKept.mp hSeat).2
            (hKept.mp hSeat').2
        lt_nextPeer := fun _ _ _ hSeat =>
          h.lt_nextPeer _ _ _ (hKept.mp hSeat).2 }

/- Who registers takes a seat that nobody has had. -/
theorem Seated.register
    (h : c.Seated (Function.update seat id none))
    (identity : String)
    (port : UInt16) :
    (c.register identity port).2.Seated
      (Function.update seat id
        (some (c.nextPeer, (identity, port)))) := by
  have hTaken :
      ∀ {id' e},
        Function.update seat id
              (some (c.nextPeer, (identity, port))) id' =
            some e ↔
          id' = id ∧ e = (c.nextPeer, (identity, port)) ∨
            Function.update seat id none id' = some e := by
    intro id' e
    by_cases hId : id' = id
    · subst hId
      simp [eq_comm]
    · rw [Function.update_of_ne hId,
        Function.update_of_ne hId]
      simp [hId]
  exact {
    contact_eq_iff := by
      intro peer contact
      rw [contacts_register, Table.get?_insert]
      by_cases hPeer : peer = c.nextPeer
      · subst hPeer
        rw [if_pos (Table.sameKey_iff.mpr rfl)]
        constructor
        · intro hEq
          cases hEq
          exact ⟨id, hTaken.mpr (Or.inl ⟨rfl, rfl⟩)⟩
        · rintro ⟨id', hSeat⟩
          rcases hTaken.mp hSeat with ⟨-, hEq⟩ | hOld
          · cases hEq
            rfl
          · exact absurd (h.lt_nextPeer _ _ _ hOld)
              (Nat.lt_irrefl _)
      · rw [if_neg fun hSame =>
            hPeer (Table.sameKey_iff.mp hSame),
          h.contact_eq_iff]
        constructor
        · rintro ⟨id', hSeat⟩
          exact ⟨id', hTaken.mpr (Or.inr hSeat)⟩
        · rintro ⟨id', hSeat⟩
          rcases hTaken.mp hSeat with ⟨-, hEq⟩ | hOld
          · cases hEq
            exact absurd rfl hPeer
          · exact ⟨id', hOld⟩
    apart := by
      intro id' id'' peer contact contact' hSeat hSeat'
      rcases hTaken.mp hSeat with ⟨rfl, hEq⟩ | hOld <;>
        rcases hTaken.mp hSeat' with ⟨rfl, hEq'⟩ | hOld'
      · rfl
      · cases hEq
        exact absurd (h.lt_nextPeer _ _ _ hOld')
          (Nat.lt_irrefl _)
      · cases hEq'
        exact absurd (h.lt_nextPeer _ _ _ hOld)
          (Nat.lt_irrefl _)
      · exact h.apart _ _ _ _ _ hOld hOld'
    lt_nextPeer := by
      intro id' peer contact hSeat
      rcases hTaken.mp hSeat with ⟨-, hEq⟩ | hOld
      · cases hEq
        exact Nat.lt_succ_self _
      · exact Nat.lt_succ_of_lt (h.lt_nextPeer _ _ _ hOld) }

/-
  A message of a connection leaves every other seat as it
  is; an introduction gives the connection a new seat in
  place of the one it has.
-/
theorem Seated.dispatch
    (h : s.catalog.Seated (Function.update seat id own))
    (hOwn : own.map Prod.fst = s.peer)
    (remote : String)
    (m : Wire.Message) :
    ∃ own',
      (Tracker.dispatch remote m s).2.catalog.Seated
          (Function.update seat id own') ∧
        own'.map Prod.fst =
          (Tracker.dispatch remote m s).2.peer ∧
        own'.map Prod.snd =
          (introduction? remote m).or (own.map Prod.snd) := by
  rcases s with ⟨peer, c⟩
  dsimp only at h hOwn
  subst hOwn
  have hServe :
      ∀ peer,
        (serve peer m c).2.Seated
          (Function.update seat id own) := fun peer =>
    h.congr (contacts_serve peer m c).1
      (contacts_serve peer m c).2
  cases m with
  | init identity port =>
      exact ⟨_, h.leave.register _ port, rfl, rfl⟩
  | _ =>
      refine ⟨own, ?_, ?_, rfl⟩
      · cases own with
        | none => exact h
        | some taken => exact hServe taken.1
      · cases own <;> rfl

/- Who has a seat is not told to be unknown. -/
theorem Seated.outcome_ne
    (h : s.catalog.Seated (Function.update seat id own))
    (hOwn : own.map Prod.fst = s.peer)
    (remote : String)
    (m : Wire.Message)
    (peer : PeerId) :
    (Tracker.dispatch remote m s).1 ≠
      .error (.peerNotRegistered peer) := by
  rcases s with ⟨own', c⟩
  dsimp only at h hOwn
  subst hOwn
  cases own with
  | none => cases m <;> simp [Tracker.dispatch]
  | some taken =>
      have hSeat :
          c.contacts.get? taken.1 = some taken.2 :=
        (h.contact_eq_iff _ _).mpr
          ⟨id, Function.update_self _ _ _⟩
      rcases exists_record_of_contacts hSeat with
        ⟨record, hGet⟩
      cases m with
      | publish file =>
          rcases serve_publish hGet file with ⟨reply, hReply, -⟩
          simp only [Tracker.dispatch, Option.map_some, hReply]
          simp
      | request name =>
          simp only [Tracker.dispatch, Option.map_some, serve]
          split <;> simp
      | refresh name =>
          simp only [Tracker.dispatch, Option.map_some, serve]
          split <;> simp
      | remove name =>
          simp only [Tracker.dispatch, Option.map_some, serve]
          split <;> simp
      | _ => simp [Tracker.dispatch, serve]

/- The last introduction among messages settles the seat. -/
theorem Seated.handleAll
    (h : s.catalog.Seated (Function.update seat id own))
    (hOwn : own.map Prod.fst = s.peer)
    (remote : String)
    (messages : List Wire.Message) :
    (∃ own',
        (Tracker.handleAll remote messages
              s).2.catalog.Seated
            (Function.update seat id own') ∧
          own'.map Prod.fst =
            (Tracker.handleAll remote messages s).2.peer ∧
          own'.map Prod.snd =
            (contact? remote messages).or
              (own.map Prod.snd)) ∧
      ∀ outcome ∈ (Tracker.handleAll remote messages s).1,
        ∀ peer, outcome ≠ .error (.peerNotRegistered peer) := by
  induction messages generalizing s own with
  | nil => exact ⟨⟨own, h, hOwn, rfl⟩, by simp [Tracker.handleAll]⟩
  | cons m messages ih =>
      rcases h.dispatch hOwn remote m with
        ⟨next, hNext, hNextOwn, hNextContact⟩
      rcases ih hNext hNextOwn with
        ⟨⟨own', hSeated, hOwn', hContact⟩, hOutcomes⟩
      refine ⟨⟨own', hSeated, hOwn', ?_⟩, ?_⟩
      · rw [hContact, hNextContact,
          ← List.singleton_append (l := messages),
          contact?_append, contact?_singleton, Option.or_assoc]
      · intro outcome hMem
        rcases List.mem_cons.mp hMem with rfl | hMem
        · exact h.outcome_ne hOwn remote m
        · exact hOutcomes outcome hMem

end Catalog

end Tracker

end PeerShare

------------------------------------------------------------
-- Connections
------------------------------------------------------------

namespace PeerShare

namespace Tracker

namespace Server

/-
  How a connection stands: what it has brought, the session
  that serves it and the seat of its peer.
-/
inductive Stands :
    Option (String × Bytes) →
    Option Session → Option Seat → Prop where
  | away :
      Stands none none none
  /- The connection has brought a frame that is too large. -/
  | dropped
      {remote : String}
      {bs rest : Bytes}
      {payloads : List Bytes}
      {length : Nat}
      (divides :
        Wire.Frame.Divides bs payloads rest
          (.frameTooLarge length)) :
      Stands (some (remote, bs)) none none
  | present
      {remote : String}
      {bs rest : Bytes}
      {payloads : List Bytes}
      {own : Option Seat}
      (divides :
        Wire.Frame.Divides bs payloads rest .closed)
      (contact_eq :
        own.map Prod.snd =
          contact? remote (messagesOf payloads)) :
      Stands (some (remote, bs))
        (some
          { remote, buffer := rest, peer := own.map Prod.fst })
        own

/- Whether the seats of a catalog are those of the sessions. -/
def Accounted
    (server : Server)
    (events : List Event) : Prop :=
  ∃ seat : ConnectionId → Option Seat,
    server.catalog.Seated seat ∧
      ∀ id,
        Stands (line? id events) (server.sessions.get? id)
          (seat id)

variable {server : Server}
variable {events : List Event}
variable {id : ConnectionId}
variable {seat : ConnectionId → Option Seat}
variable {own : Option Seat}
variable {line line' : Option (String × Bytes)}

theorem accounted_start :
    start.Accounted [] :=
  ⟨fun _ => none, Catalog.seated_empty, fun _ => .away⟩

/- Nobody sits where no session is. -/
theorem Stands.seat_eq_none
    (h : Stands line none own) :
    own = none := by
  cases h <;> rfl

/-
  What happens to one connection leaves the others as they
  stand.
-/
theorem stands_update
    {sessions sessions' : Table ConnectionId Session}
    {events' : List Event}
    (h :
      ∀ id,
        Stands (line? id events) (sessions.get? id) (seat id))
    (hOwn :
      Stands (line? id events') (sessions'.get? id) own)
    (hLine :
      ∀ id', id' ≠ id → line? id' events' = line? id' events)
    (hSessions :
      ∀ id',
        id' ≠ id → sessions'.get? id' = sessions.get? id') :
    ∀ id',
      Stands (line? id' events') (sessions'.get? id')
        (Function.update seat id own id') := by
  intro id'
  by_cases hId : id' = id
  · subst hId
    rw [Function.update_self]
    exact hOwn
  · rw [Function.update_of_ne hId, hLine id' hId,
      hSessions id' hId]
    exact h id'

theorem Accounted.connect
    (h : server.Accounted events)
    (hNot : server.isConnected id = false)
    (remote : String) :
    (server.connect id remote).Accounted
      (.connect id remote :: events) := by
  rcases h with ⟨seat, hSeated, hStands⟩
  have hGet : server.sessions.get? id = none := by
    simpa [isConnected, Table.contains] using hNot
  have hNone : seat id = none :=
    Stands.seat_eq_none (hGet ▸ hStands id)
  have hSame : Function.update seat id none = seat :=
    hNone ▸ Function.update_eq_self id seat
  refine ⟨seat, hSeated, ?_⟩
  rw [← hSame]
  refine stands_update hStands ?_ ?_ ?_
  · rw [line?, if_pos rfl]
    unfold Server.connect
    dsimp only
    rw [Table.get?_insert_self]
    exact @Stands.present remote [] [] [] none
      ⟨rfl, by simp, .cutHeader (by decide)⟩ rfl
  · intro id' hId
    rw [line?, if_neg (Ne.symm hId)]
  · exact fun id' hId => Table.get?_insert_of_ne _ _ hId

theorem line?_deliver_of_ne
    {id' : ConnectionId}
    (h : id' ≠ id)
    (bs : Bytes)
    (events : List Event) :
    line? id' (.deliver id bs :: events) =
      line? id' events := by
  rw [line?]
  simp only [if_neg (Ne.symm h), Option.map_id']

theorem line?_deliver_self
    {remote : String}
    {bs : Bytes}
    (h : line? id events = some (remote, bs))
    (more : Bytes) :
    line? id (.deliver id more :: events) =
      some (remote, bs ++ more) := by
  rw [line?, h, Option.map_some, if_pos rfl]

/- Bytes for which no session is left are not handled. -/
theorem Stands.deliver_of_none
    (h : Stands (line? id events) none own)
    (bs : Bytes) :
    Stands (line? id (.deliver id bs :: events)) none own := by
  generalize hLine : line? id events = line at h
  cases h with
  | away =>
      rw [line?, hLine]
      exact .away
  | dropped divides =>
      rw [line?_deliver_self hLine]
      exact .dropped (divides.append_of_frameTooLarge bs)

/- What a session is brought settles how it stands then. -/
theorem Accounted.deliver_of_some
    {session : Session}
    (hSeated : server.catalog.Seated seat)
    (hStands :
      ∀ id,
        Stands (line? id events) (server.sessions.get? id)
          (seat id))
    (hGet : server.sessions.get? id = some session)
    (bs : Bytes) :
    (server.deliver id bs).2.Accounted
      (.deliver id bs :: events) := by
  have hSelf : Function.update seat id (seat id) = seat :=
    Function.update_eq_self id seat
  have hOthers := fun id' (hId : id' ≠ id) =>
    line?_deliver_of_ne hId bs events
  have hStand := hStands id
  rw [hGet] at hStand
  generalize hLine : line? id events = line at hStand
  generalize hSeat : seat id = own at hStand hSelf
  cases hStand with
  | @present remote brought rest payloads own divides hContact =>
      rcases Wire.Frame.exists_divides (rest ++ bs) with
        ⟨later, rest', last, hLater⟩
      have hWhole := divides.append hLater
      have hOwn :
          server.catalog.Seated
            (Function.update seat id own) :=
        hSelf.symm ▸ hSeated
      have hHandled :=
        Catalog.Seated.handleAll
          (s :=
            { peer := own.map Prod.fst
              catalog := server.catalog })
          hOwn rfl remote (messagesOf later)
      rcases hHandled.1 with ⟨own', hSeated', hOwn', hContact'⟩
      rw [hContact, ← contact?_append, ← messagesOf_append]
        at hContact'
      have hDeliver := deliver_of_divides hGet hLater
      dsimp only at hDeliver
      rw [hDeliver]
      dsimp only
      split
      · rename_i hLast
        subst hLast
        refine ⟨_, hSeated', ?_⟩
        refine stands_update hStands ?_ hOthers ?_
        · rw [line?_deliver_self hLine]
          dsimp only
          rw [Table.get?_insert_self]
          have hPresent := Stands.present hWhole hContact'
          rw [hOwn'] at hPresent
          exact hPresent
        · exact fun id' hId => Table.get?_insert_of_ne _ _ hId
      · rename_i hLast
        have hLeft := hSeated'.leave
        rw [hOwn'] at hLeft
        refine ⟨_, hLeft, ?_⟩
        refine stands_update hStands ?_ hOthers ?_
        · rw [line?_deliver_self hLine]
          unfold endSession
          dsimp only
          rw [Table.get?_erase_self]
          rcases Wire.Frame.next_of_isEnd hWhole.isEnd with
            ⟨rfl, -⟩ | ⟨length, rfl, -⟩
          · exact absurd rfl hLast
          · exact .dropped hWhole
        · intro id' hId
          exact (Table.get?_erase_of_ne _ hId).trans
            (Table.get?_insert_of_ne _ _ hId)

theorem Accounted.deliver
    (h : server.Accounted events)
    (id : ConnectionId)
    (bs : Bytes) :
    (server.deliver id bs).2.Accounted
      (.deliver id bs :: events) := by
  rcases h with ⟨seat, hSeated, hStands⟩
  cases hGet : server.sessions.get? id with
  | some session =>
      exact Accounted.deliver_of_some hSeated hStands hGet bs
  | none =>
      have hUnchanged : server.deliver id bs = ([], server) := by
        rw [Server.deliver, hGet]
      have hStand := hStands id
      rw [hGet] at hStand
      rw [hUnchanged]
      refine ⟨seat, hSeated, ?_⟩
      rw [← Function.update_eq_self id seat]
      exact stands_update hStands
        (hGet ▸ hStand.deliver_of_none bs)
        (fun id' hId => line?_deliver_of_ne hId bs events)
        fun _ _ => rfl

theorem Accounted.hangUp
    (h : server.Accounted events)
    (id : ConnectionId) :
    (server.hangUp id).Accounted (.hangUp id :: events) := by
  rcases h with ⟨seat, hSeated, hStands⟩
  have hSelf : Function.update seat id (seat id) = seat :=
    Function.update_eq_self id seat
  have hGone : line? id (.hangUp id :: events) = none := by
    rw [line?, if_pos rfl]
  have hOthers :
      ∀ id',
        id' ≠ id →
          line? id' (.hangUp id :: events) =
            line? id' events := by
    intro id' hId
    rw [line?, if_neg (Ne.symm hId)]
  have hStand := hStands id
  unfold Server.hangUp
  split
  · rename_i hGet
    rw [hGet] at hStand
    rw [hStand.seat_eq_none] at hSelf
    refine ⟨seat, hSeated, ?_⟩
    rw [← hSelf]
    refine stands_update hStands ?_ hOthers fun _ _ => rfl
    rw [hGone, hGet]
    exact .away
  · rename_i session hGet
    rw [hGet] at hStand
    have hLeft :=
      (show server.catalog.Seated
          (Function.update seat id (seat id)) from
        hSelf.symm ▸ hSeated).leave
    have hPeer : (seat id).map Prod.fst = session.peer := by
      generalize line? id events = line at hStand
      generalize seat id = own at hStand
      cases hStand
      rfl
    rw [hPeer] at hLeft
    refine ⟨_, hLeft, ?_⟩
    refine stands_update hStands ?_ hOthers ?_
    · rw [hGone]
      unfold endSession
      dsimp only
      rw [Table.get?_erase_self]
      exact .away
    · exact fun id' hId => Table.get?_erase_of_ne _ hId

theorem sessions_hangUp
    (server : Server)
    (id : ConnectionId) :
    (server.hangUp id).sessions = server.sessions.erase id := by
  unfold Server.hangUp
  split
  · rename_i hGet
    apply Table.eq_of_get?_eq
    intro id'
    rw [Table.get?_erase]
    split
    · rename_i hSame
      rw [Table.sameKey_iff.mp hSame, hGet]
    · rfl
  · rfl

/- Who hangs up has no session any more. -/
theorem sessions_foldl_hangUp
    (ids : List ConnectionId)
    (server : Server)
    {id : ConnectionId}
    (h : id ∈ ids ∨ server.sessions.get? id = none) :
    (ids.foldl Server.hangUp server).sessions.get? id =
      none := by
  induction ids generalizing server with
  | nil =>
      rcases h with hMem | hNone
      · cases hMem
      · exact hNone
  | cons first ids ih =>
      apply ih
      rw [sessions_hangUp, Table.get?_erase]
      rcases h with hMem | hNone
      · rcases List.mem_cons.mp hMem with rfl | hMem
        · exact Or.inr
            (if_pos (Table.sameKey_iff.mpr rfl))
        · exact Or.inl hMem
      · rw [hNone]
        exact Or.inr (ite_self none)

/- When everybody has hung up, nobody is there. -/
theorem Accounted.shutDown
    (h : server.Accounted events) :
    server.shutDown.Accounted (.shutDown :: events) := by
  have hFold :
      ∀ (ids : List ConnectionId) server events,
        Accounted server events →
          ∃ events',
            (ids.foldl Server.hangUp server).Accounted
              events' := by
    intro ids
    induction ids with
    | nil => exact fun _ events h => ⟨events, h⟩
    | cons first ids ih =>
        exact fun _ _ h => ih _ _ (h.hangUp first)
  rcases hFold server.sessions.keys server events h with
    ⟨events', seat, hSeated, hStands⟩
  refine ⟨seat, hSeated, ?_⟩
  intro id
  have hNone : server.shutDown.sessions.get? id = none := by
    apply sessions_foldl_hangUp
    cases hGet : server.sessions.get? id with
    | none => exact Or.inr rfl
    | some session =>
        exact Or.inl (Table.mem_keys_iff.mpr ⟨session, hGet⟩)
  have hStand := hStands id
  change Stands _ (server.shutDown.sessions.get? id) _
    at hStand
  rw [hNone] at hStand ⊢
  rw [hStand.seat_eq_none]
  exact .away

/- The seats of a server are always those of its sessions. -/
theorem IsReachable.accounted
    (h : IsReachable server events) :
    server.Accounted events := by
  induction h with
  | start => exact accounted_start
  | @step server events e before can ih =>
      cases e with
      | connect id remote =>
          exact ih.connect
            (by simpa [Event.canHappen] using can) remote
      | deliver id bs => exact ih.deliver id bs
      | hangUp id => exact ih.hangUp id
      | shutDown => exact ih.shutDown

end Server

end Tracker

end PeerShare

------------------------------------------------------------
-- One Peer for Each Session
------------------------------------------------------------

namespace PeerShare

namespace Tracker

namespace Server

/-
  Whether a connection is open: it comes from an address and
  has brought some messages and no frame that is too large.
-/
def IsOpen
    (events : List Event)
    (id : ConnectionId)
    (remote : String)
    (messages : List Wire.Message) : Prop :=
  ∃ bs payloads rest,
    line? id events = some (remote, bs) ∧
      Wire.Frame.Divides bs payloads rest .closed ∧
      messages = messagesOf payloads

/-
  Whether the registered peers are those of the connections
  that are open and have introduced themselves.
-/
structure Matches
    (server : Server)
    (events : List Event) : Prop where
  isConnected_iff :
    ∀ id,
      server.isConnected id = true ↔
        ∃ remote messages, IsOpen events id remote messages
  /- A session is registered as it last introduced itself. -/
  contact_eq :
    ∀ id remote messages session,
      IsOpen events id remote messages →
        server.sessions.get? id = some session →
          session.peer.map server.catalog.contacts.get? =
            (contact? remote messages).map some
  exists_session :
    ∀ peer record,
      server.catalog.peers.get? peer = some record →
        ∃ id session,
          server.sessions.get? id = some session ∧
            session.peer = some peer
  apart :
    ∀ id id' session session' peer,
      server.sessions.get? id = some session →
        server.sessions.get? id' = some session' →
          session.peer = some peer →
            session'.peer = some peer → id = id'
  /- Whatever comes next, nobody is told to be unknown. -/
  outcome_ne :
    ∀ id session bs payloads rest last,
      server.sessions.get? id = some session →
        Wire.Frame.Divides (session.buffer ++ bs) payloads
            rest last →
          ∀ outcome ∈
            (handleAll session.remote (messagesOf payloads)
              (server.standing session)).1,
          ∀ peer,
            outcome ≠ .error (.peerNotRegistered peer)
  nobody :
    (∀ id, server.isConnected id = false) →
      server.catalog.peers = Table.empty ∧
        ∀ name file entries,
          server.catalog.query name = some (file, entries) →
            entries = []

variable {server : Server}
variable {events : List Event}
variable {id : ConnectionId}
variable {line : Option (String × Bytes)}
variable {session : Session}
variable {own : Option Seat}

/- A session is registered just if its connection sits. -/
theorem Stands.peer_eq
    (h : Stands line (some session) own) :
    session.peer = own.map Prod.fst := by
  cases h
  rfl

/- A connection has a session just as long as it is open. -/
theorem Stands.isSome_iff
    {session : Option Session}
    (h : Stands (line? id events) session own) :
    session.isSome = true ↔
      ∃ remote messages,
        IsOpen events id remote messages := by
  unfold IsOpen
  generalize line? id events = line at h ⊢
  cases h with
  | away => simp
  | dropped divides =>
      constructor
      · intro hNone
        cases hNone
      · rintro ⟨remote, -, bs, payloads, rest, hLine, hOpen, -⟩
        cases hLine
        cases (hOpen.unique divides).2.2
  | present divides hContact =>
      exact iff_of_true rfl
        ⟨_, _, _, _, _, rfl, divides, rfl⟩

/- The seat of an open connection has its last contact. -/
theorem Stands.contact_of_isOpen
    {session : Option Session}
    (h : Stands (line? id events) session own)
    {remote : String}
    {messages : List Wire.Message}
    (hOpen : IsOpen events id remote messages) :
    own.map Prod.snd = contact? remote messages := by
  rcases hOpen with ⟨bs, payloads, rest, hLine, hDivides, rfl⟩
  rw [hLine] at h
  cases h with
  | dropped divides => cases (hDivides.unique divides).2.2
  | present divides hContact =>
      rw [(hDivides.unique divides).1]
      exact hContact

/- Whoever is registered has a session. -/
theorem exists_session_of_get?
    {seat : ConnectionId → Option Seat}
    (hSeated : server.catalog.Seated seat)
    (hStands :
      ∀ id,
        Stands (line? id events) (server.sessions.get? id)
          (seat id))
    {peer : PeerId}
    {record : PeerRecord}
    (hRecord : server.catalog.peers.get? peer = some record) :
    ∃ id session,
      server.sessions.get? id = some session ∧
        session.peer = some peer := by
  rcases (hSeated.contact_eq_iff _ _).mp
    (Catalog.get?_contacts hRecord) with ⟨id, hTaken⟩
  have hStand := hStands id
  cases hGet : server.sessions.get? id with
  | none =>
      rw [hGet] at hStand
      rw [hStand.seat_eq_none] at hTaken
      cases hTaken
  | some session =>
      rw [hGet] at hStand
      refine ⟨id, session, hGet, ?_⟩
      rw [hStand.peer_eq, hTaken]
      rfl

/- Sessions and registered peers correspond one to one. -/
theorem IsReachable.peers_match_sessions
    (h : IsReachable server events) :
    server.Matches events := by
  rcases h.accounted with ⟨seat, hSeated, hStands⟩
  have hSeat :
      ∀ {id session},
        server.sessions.get? id = some session →
          session.peer = (seat id).map Prod.fst :=
    fun {id session} hGet => Stands.peer_eq (hGet ▸ hStands id)
  exact {
    isConnected_iff := fun id => (hStands id).isSome_iff
    contact_eq := by
      intro id remote messages session hOpen hGet
      rw [hSeat hGet, ← (hStands id).contact_of_isOpen hOpen]
      cases hTaken : seat id with
      | none => rfl
      | some taken =>
          exact congrArg some
            ((hSeated.contact_eq_iff _ _).mpr ⟨id, hTaken⟩)
    exists_session := fun _ _ =>
      exists_session_of_get? hSeated hStands
    apart := by
      intro id id' session session' peer hGet hGet' hPeer hPeer'
      rw [hSeat hGet, Option.map_eq_some_iff] at hPeer
      rw [hSeat hGet', Option.map_eq_some_iff] at hPeer'
      rcases hPeer with ⟨⟨_, contact⟩, hTaken, rfl⟩
      rcases hPeer' with ⟨⟨_, contact'⟩, hTaken', rfl⟩
      exact hSeated.apart _ _ _ _ _ hTaken hTaken'
    outcome_ne := by
      intro id session bs payloads rest last hGet _
      have hOwn :
          server.catalog.Seated
            (Function.update seat id (seat id)) :=
        (Function.update_eq_self id seat).symm ▸ hSeated
      exact (Catalog.Seated.handleAll
        (s := server.standing session) hOwn
        (hSeat hGet).symm session.remote
        (messagesOf payloads)).2
    nobody := by
      intro hNobody
      have hPeers : server.catalog.peers = Table.empty := by
        apply Table.eq_of_get?_eq
        intro peer
        rw [Table.get?_empty, Option.eq_none_iff_forall_ne_some]
        intro record hRecord
        rcases exists_session_of_get? hSeated hStands hRecord
          with ⟨id, session, hGet, -⟩
        have hNot := hNobody id
        rw [isConnected, Table.contains, hGet] at hNot
        cases hNot
      refine ⟨hPeers, ?_⟩
      intro name file entries hQuery
      unfold Catalog.query at hQuery
      split at hQuery
      · cases hQuery
      · rw [hPeers] at hQuery
        cases hQuery
        rfl }

/-
  A peer that introduces itself anew gets another number,
  and bytes that are no message are skipped.
-/
theorem IsReachable.peers_match_sessions_of_reintroduction :
    ∃ server events,
      IsReachable server events ∧
        server.catalog.contacts.entries =
            [(1, ("b", 9)), (2, ("a", 8))] ∧
          server.Matches events := by
  have hFirst :=
    (IsReachable.start.step
        (e := .connect 0 "10.0.0.1") rfl).step
      (e := .deliver 0
        (Wire.Frame.encode
          (Wire.Message.init "" 7).payload)) rfl
  have hSecond :=
    (hFirst.step
        (e := .connect 1 "10.0.0.2") (by decide +kernel)).step
      (e := .deliver 1
        (Wire.Frame.encode [255] ++
          Wire.Frame.encode
            (Wire.Message.init "b" 9).payload)) rfl
  have hAnew :=
    hSecond.step
      (e := .deliver 0
        (Wire.Frame.encode
          (Wire.Message.init "a" 8).payload)) rfl
  exact ⟨_, _, hAnew, by decide +kernel,
    hAnew.peers_match_sessions⟩

end Server

end Tracker

end PeerShare
