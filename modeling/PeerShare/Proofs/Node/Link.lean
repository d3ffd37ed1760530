import PeerShare.Proofs.Node.Offering
import PeerShare.Proofs.Tracker.Seats

/-
  A node and the session that the tracker holds with it.

  Messages travel in order, both ways, and other peers use
  the catalog meanwhile.  The node takes a reply for the
  verdict on a publication by its name alone, although the
  tracker says of any unknown file that it is not found.

  What a reply does to the files that wait is counted, each
  name for itself.

  Key definitions include:
    * `Link`
    * `Link.Event`
    * `Link.Delivery`
    * `Link.IsReachable`
    * `Link.unanswered`
    * `Link.Honors`
    * `Tracker.Answers`
    * `Node.Sends`

  Key theorems include:
    * `Tracker.answers_serve`
    * `Node.exists_sends_of_tells`
    * `Node.exists_quiet_handleMessage`
    * `Node.servesFor_handleMessage`
    * `Link.Delivery.keeps_iff`
    * `Link.Delivery.balance`
-/

------------------------------------------------------------
-- Links
------------------------------------------------------------

namespace PeerShare

namespace Tracker

/- The registered peer that asks for an operation. -/
def Operation.requester? : Operation → Option PeerId
  | .register _ _ => none
  | .unregister peer => some peer
  | .publish publisher _ => some publisher
  | .query _ => none
  | .update peer _ _ => some peer
  | .remove requester _ => some requester

end Tracker

/- The file that a reply says to be accepted. -/
def Wire.Message.accepted? : Wire.Message → Option String
  | .success name .publish => some name
  | _ => none

theorem Wire.Message.eq_success_of_accepted?
    {m : Wire.Message}
    {name : String}
    (h : m.accepted? = some name) :
    m = .success name .publish := by
  unfold accepted? at h
  split at h
  · cases h
    rfl
  · cases h

/-
  A node, and the standing of its session.  The replies that
  have not arrived are kept with the messages they reply to.
-/
structure Link where
  node : Node
  standing : Tracker.Standing
  replies : List (Wire.Message × Wire.Message)
  /- The files of the catalog that the node has published. -/
  listed : List String
  deriving DecidableEq

namespace Link

/- What happens to a node or to the tracker. -/
inductive Event where
  /- Something happens to the node that is not a reply. -/
  | act (e : Node.Event)
  /- Another program changes the disk of the node. -/
  | outside (disk : Disk)
  /- The tracker handles the next message of the node. -/
  | serve
  /- The tracker performs an operation for another peer. -/
  | perform (o : Tracker.Operation)
  /- The next reply arrives at the node. -/
  | deliver (hosts : Hosts) (now : Moment)

/-
  The tracker keeps the session open and the node does not
  close it.  Others do not use the number of the node.
-/
def Event.CanHappen
    (link : Link) : Event → Prop
  | .act e => e.isLocal = true
  | .outside disk =>
      ∀ name,
        disk.lookUp (Path.join link.node.directory name) =
          link.node.disk.lookUp
            (Path.join link.node.directory name)
  | .perform o =>
      o.requester? = none ∨ o.requester? ≠ link.standing.peer
  | .serve => True
  | .deliver _ _ => True

/- Handle the next message of the node, if there is one. -/
def serve
    (remote : String)
    (link : Link) : Link :=
  match link.node.outbox with
  | [] => link
  | m :: rest =>
      match Tracker.dispatch remote m link.standing with
      | (outcome, standing) =>
          let sent := (Tracker.sentReply? outcome).toList
          { node := { link.node with outbox := rest }
            standing
            replies :=
              link.replies ++ sent.map fun reply => (m, reply)
            listed :=
              sent.filterMap (·.accepted?) ++
                link.listed.filter
                  standing.catalog.files.contains }

/- Perform an operation for another peer. -/
def perform
    (link : Link)
    (o : Tracker.Operation) : Link :=
  let catalog := (link.standing.catalog.perform o).2
  { link with
    standing := link.standing.withCatalog catalog
    listed := link.listed.filter catalog.files.contains }

/- The link after an event. -/
def after
    (remote : String)
    (link : Link) : Event → Link
  | .act e => { link with node := link.node.after e }
  | .outside disk =>
      { link with node := { link.node with disk } }
  | .serve => link.serve remote
  | .perform o => link.perform o
  | .deliver hosts now =>
      match link.replies with
      | [] => link
      | (_, reply) :: rest =>
          { link with
            node := link.node.handleMessage reply hosts now
            replies := rest }

/-
  A reply that has arrived: what it replies to, and the node
  before and after it.
-/
structure Delivery where
  request : Wire.Message
  reply : Wire.Message
  before : Node
  after : Node

/- The reply that arrives with an event, if one does. -/
def delivery?
    (link : Link) : Event → Option Delivery
  | .deliver hosts now =>
      link.replies.head?.map fun (request, reply) =>
        { request
          reply
          before := link.node
          after := link.node.handleMessage reply hosts now }
  | _ => none

/- The link of a node that has just started. -/
def start
    (node : Node)
    (catalog : Tracker.Catalog) : Link where
  node := node
  standing := { peer := none, catalog }
  replies := []
  listed := []

/-
  Whether a link comes about from the start of a node, with
  some deliveries, of which the last one stands first.
-/
inductive IsReachable
    (remote : String) : Link → List Delivery → Prop where
  | start
      (identity : Option String)
      (localAddress : IpAddress)
      (port : UInt16)
      (directory : String)
      (disk : Disk)
      (catalog : Tracker.Catalog) :
      IsReachable remote
        (Link.start
          (Node.start identity localAddress port directory
            disk)
          catalog) []
  | step
      {link : Link}
      {deliveries : List Delivery}
      {e : Event}
      (before : IsReachable remote link deliveries)
      (can : e.CanHappen link) :
      IsReachable remote (link.after remote e)
        ((link.delivery? e).toList ++ deliveries)

/- The link after some events, and the deliveries so far. -/
def run
    (remote : String)
    (link : Link)
    (deliveries : List Delivery)
    (events : List Event) : Link × List Delivery :=
  events.foldl
    (fun (link, deliveries) e =>
      (link.after remote e,
        (link.delivery? e).toList ++ deliveries))
    (link, deliveries)

/- Whether events can happen one after another. -/
def CanRun
    (remote : String) : Link → List Event → Prop
  | _, [] => True
  | link, e :: events =>
      e.CanHappen link ∧
        CanRun remote (link.after remote e) events

theorem IsReachable.run
    {remote : String}
    {link : Link}
    {deliveries : List Delivery}
    (h : IsReachable remote link deliveries)
    (events : List Event)
    (can : CanRun remote link events) :
    IsReachable remote
      (link.run remote deliveries events).1
      (link.run remote deliveries events).2 := by
  induction events generalizing link deliveries with
  | nil => exact h
  | cons e events ih => exact ih (h.step can.1) can.2

end Link

end PeerShare

------------------------------------------------------------
-- Counts
------------------------------------------------------------

namespace PeerShare

/- Whether a message publishes a file under a name. -/
def Wire.Message.publishes
    (name : String) : Wire.Message → Bool
  | .publish file => decide (file.name = name)
  | _ => false

theorem Wire.Message.isInit_eq_of_isQuiet
    {m : Wire.Message}
    (h : m.isQuiet = true) :
    m.isInit = false := by
  cases m with
  | init identity port => cases h
  | _ => rfl

theorem Wire.Message.countP_publishes_of_isQuiet
    {messages : List Wire.Message}
    (h : ∀ m ∈ messages, m.isQuiet = true)
    (name : String) :
    messages.countP (·.publishes name) = 0 := by
  apply List.countP_eq_zero.mpr
  intro m hm hPublishes
  have hQuiet := h m hm
  cases m with
  | publish file => cases hQuiet
  | _ => cases hPublishes

/-
  The file on which a node takes a message for the verdict
  of the tracker.
-/
def Wire.Message.verdictOn? : Wire.Message → Option String
  | .success name .publish => some name
  | .alreadyExists name => some name
  | .notFound name => some name
  | _ => none

namespace Node

/- The number of files of a name that wait: one or none. -/
def waiting
    (node : Node)
    (name : String) : Nat :=
  if node.offers.pending.contains name then 1 else 0

end Node

namespace Link

/- The publications of a name that the node waits to hear of. -/
def unanswered
    (link : Link)
    (name : String) : Nat :=
  link.node.outbox.countP (·.publishes name) +
    link.replies.countP fun pair => pair.1.publishes name

/-
  Whether the node serves a file, has asked the tracker to
  remove it, or is still to hear that it was accepted.
-/
def Honors
    (link : Link)
    (name : String) : Prop :=
  link.node.offers.published.contains name = true ∨
    .remove name ∈ link.node.outbox ∨
      ∃ pair ∈ link.replies, pair.2 = .success name .publish

namespace Delivery

/-
  Whether an acceptance of a publication, if this is one,
  finds the file waiting and has it served.
-/
def Keeps
    (name : String)
    (d : Delivery) : Prop :=
  d.reply = .success name .publish →
    ∃ file,
      d.before.offers.pending.get? name = some file ∧
        d.after.offers.published.get? name = some file

/- Whether an acceptance finds no file that waits. -/
def isLost
    (name : String)
    (d : Delivery) : Bool :=
  decide (d.reply = .success name .publish) &&
    !d.before.offers.pending.contains name

/-
  Whether the refusal of a publication finds no file that
  waits.
-/
def isVainRefusal
    (name : String)
    (d : Delivery) : Bool :=
  d.request.publishes name &&
    decide (d.reply ≠ .success name .publish) &&
    !d.before.offers.pending.contains name

/-
  Whether a file stops to wait although the reply is not to
  its publication.
-/
def isDrop
    (name : String)
    (d : Delivery) : Bool :=
  !d.request.publishes name &&
    decide (d.reply = .notFound name) &&
    d.before.offers.pending.contains name

end Delivery

end Link

end PeerShare

------------------------------------------------------------
-- Replies
------------------------------------------------------------

namespace PeerShare

namespace Tracker

/-
  How replies match requests.  Each publication is answered
  by a verdict on its file.  Of the verdicts, just one that
  says that the file is not found may answer another
  request.
-/
structure Answers
    (request reply : Wire.Message) : Prop where
  verdictOn?_eq :
    ∀ name,
      request.publishes name = true →
        reply.verdictOn? = some name
  publishes_of :
    ∀ name,
      reply.verdictOn? = some name →
        reply ≠ .notFound name →
          request.publishes name = true

variable {own : PeerId}
variable {record : PeerRecord}
variable {m reply : Wire.Message}
variable {c : Catalog}

/- Who asks for a file is not given a verdict on one. -/
theorem answers_answerTo
    (hOther : ∀ name, m.publishes name = false)
    (name : String) :
    Answers m (c.answerTo name) where
  verdictOn?_eq := by
    intro other hPublishes
    rw [hOther] at hPublishes
    cases hPublishes
  publishes_of := by
    intro other hVerdict hFound
    unfold Catalog.answerTo at hVerdict hFound
    cases hQuery : c.query name with
    | none =>
        rw [hQuery] at hVerdict hFound
        cases hVerdict
        exact absurd rfl hFound
    | some answer =>
        rw [hQuery] at hVerdict
        cases hVerdict

/- What a registered peer asks for is answered like that. -/
theorem answers_serve
    (hOwn : c.peers.get? own = some record)
    (hReply : (serve own m c).1 = .ok (some reply)) :
    Answers m reply := by
  cases m with
  | publish file =>
      rcases serve_publish hOwn file with
        ⟨reply', hReply', hOneOf⟩
      rw [hReply] at hReply'
      cases hReply'
      have hVerdict : reply.verdictOn? = some file.name := by
        rcases hOneOf with rfl | rfl | rfl <;> rfl
      constructor
      · intro name hPublishes
        rw [← of_decide_eq_true hPublishes]
        exact hVerdict
      · intro name hOther _
        rw [hVerdict] at hOther
        exact decide_eq_true (Option.some.inj hOther)
  | request name =>
      rw [serve_request] at hReply
      cases hReply
      exact answers_answerTo (fun _ => rfl) name
  | refresh name =>
      rw [serve_refresh] at hReply
      cases hReply
      exact answers_answerTo (fun _ => rfl) name
  | remove name =>
      simp only [serve] at hReply
      split at hReply
      · cases hReply
        constructor
        · intro other hPublishes
          cases hPublishes
        · intro other hVerdict _
          cases hVerdict
      · cases hReply
        constructor
        · intro other hPublishes
          cases hPublishes
        · intro other hVerdict hFound
          cases hVerdict
          exact absurd rfl hFound
  | _ => cases hReply

/- A file that is removed is not known. -/
theorem Catalog.contains_remove
    (c : Catalog)
    (name : String) :
    (c.remove name).2.files.contains name = false := by
  unfold remove
  split
  · exact Table.contains_eq_false_iff.mpr
      (Table.get?_erase_self _ _)
  · rename_i hUnknown
    exact Bool.not_eq_true _ ▸ hUnknown

/- Other peers do not take a registration away. -/
theorem exists_contact_perform
    {o : Operation}
    (hOther : o.requester? ≠ some own)
    (hOwn : ∃ contact, c.contacts.get? own = some contact) :
    ∃ contact,
      (c.perform o).2.contacts.get? own = some contact := by
  cases o with
  | register identity port =>
      have hContacts := c.contacts_register identity port
      unfold Catalog.perform
      dsimp only
      rw [hContacts, Table.get?_insert]
      split
      · exact ⟨_, rfl⟩
      · exact hOwn
  | unregister peer =>
      have hContacts := c.contacts_unregister peer
      have hPeer : own ≠ peer := by
        rintro rfl
        exact hOther rfl
      unfold Catalog.perform
      dsimp only
      rw [hContacts, Table.get?_erase_of_ne _ hPeer]
      exact hOwn
  | _ =>
      rw [(Catalog.contacts_perform (by simp) (by simp) c).1]
      exact hOwn

end Tracker

end PeerShare

------------------------------------------------------------
-- What a Node Says and Hears
------------------------------------------------------------

namespace PeerShare

namespace Node

variable {node node' : Node}

/-
  What a node has sent: no introduction, a publication for
  each file that has come to wait, and that a file is to be
  removed if it is served no longer.
-/
structure Sends
    (node node' : Node)
    (sent : List Wire.Message) : Prop where
  isConnected_eq : node'.isConnected = node.isConnected
  serves : node.ServesFor node'
  outbox_eq : node'.outbox = node.outbox ++ sent
  isInit_eq : ∀ m ∈ sent, m.isInit = false
  countP_add :
    ∀ name,
      sent.countP (·.publishes name) + node.waiting name =
        node'.waiting name

theorem waiting_eq
    (h : node'.offers.pending = node.offers.pending)
    (name : String) :
    node'.waiting name = node.waiting name := by
  unfold waiting
  rw [h]

/- As many publications are sent as files come to wait. -/
theorem Sends.countP_outbox
    {sent : List Wire.Message}
    (h : node.Sends node' sent)
    (name : String) :
    node'.outbox.countP (·.publishes name) +
        node.waiting name =
      node.outbox.countP (·.publishes name) +
        node'.waiting name := by
  rw [h.outbox_eq, List.countP_append, ← h.countP_add]
  omega

theorem waiting_of_get?_eq_none
    {name : String}
    (h : node.offers.pending.get? name = none) :
    node.waiting name = 0 := by
  unfold waiting Table.contains
  rw [h]
  rfl

/- A quiet step says nothing of files that wait. -/
theorem Quiet.exists_sends
    (h : node.Quiet node') :
    ∃ sent, node.Sends node' sent := by
  rcases h.exists_sent with ⟨sent, hOutbox, hSent⟩
  refine ⟨sent, h.isConnected_eq, h.serves, hOutbox,
    fun m hm => Wire.Message.isInit_eq_of_isQuiet (hSent m hm),
    fun name => ?_⟩
  rw [Wire.Message.countP_publishes_of_isQuiet hSent,
    Nat.zero_add, waiting_eq h.pending_eq]

/- A file that comes to wait is published. -/
theorem sends_publish
    {file : LocalFile}
    (hFree : node.offers.pending.get? file.record.name = none) :
    node.Sends
      { node with
        offers := node.offers.await file
        outbox := node.outbox ++ [.publish file.record] }
      [.publish file.record] where
  isConnected_eq := rfl
  serves := fun _ _ => Or.inl
  outbox_eq := rfl
  isInit_eq := List.forall_mem_singleton.mpr rfl
  countP_add := by
    intro name
    rw [List.countP_singleton]
    by_cases hName : name = file.record.name
    · subst hName
      have hAwaited :
          (node.offers.await file).pending.contains
              file.record.name =
            true :=
        Table.contains_iff.mpr
          ⟨file, Table.get?_insert_self _ _ _⟩
      rw [waiting_of_get?_eq_none hFree, waiting, hAwaited]
      simp [Wire.Message.publishes]
    · have hSame :
          (node.offers.await file).pending.contains name =
            node.offers.pending.contains name :=
        congrArg Option.isSome
          (Table.get?_insert_of_ne _ _ hName)
      rw [waiting, waiting, hSame]
      simp [Wire.Message.publishes, Ne.symm hName]

/- A step of a node keeps files that wait apart. -/
theorem Tells.isApart
    (h : node.Tells node')
    (hApart : node.IsApart) :
    node'.IsApart := by
  intro name
  cases h with
  | quiet h =>
      rw [h.pending_eq]
      exact (hApart name).imp_left (h.isWithin name)
  | publishes file hFree =>
      by_cases hName : name = file.record.name
      · subst hName
        exact Or.inl (get?_of_tracks_eq_false hFree).2
      · exact (hApart name).imp_right
          (Table.get?_insert_of_ne _ _ hName).trans
  | requests requested now hFree =>
      by_cases hName : name = requested
      · subst hName
        exact Or.inr (get?_of_contains_eq_false hFree)
      · exact (hApart name).imp_left
          (Table.get?_insert_of_ne _ _ hName).trans

theorem Tells.exists_sends
    (h : node.Tells node') :
    ∃ sent, node.Sends node' sent := by
  cases h with
  | quiet h => exact h.exists_sends
  | publishes file hFree =>
      exact ⟨_,
        sends_publish (get?_of_tracks_eq_false hFree).1⟩
  | requests name now hFree =>
      exact ⟨[.request name], rfl, fun _ _ => Or.inl, rfl,
        List.forall_mem_singleton.mpr rfl,
        fun _ => Nat.zero_add _⟩

/- What is said in a row of steps is said in their order. -/
theorem exists_sends_of_tells
    (h : Relation.ReflTransGen Tells node node')
    (hApart : node.IsApart) :
    node'.IsApart ∧ ∃ sent, node.Sends node' sent := by
  induction h with
  | refl =>
      exact ⟨hApart, [], rfl, fun _ _ => Or.inl,
        (List.append_nil _).symm, by simp,
        fun _ => Nat.zero_add _⟩
  | tail _ hStep ih =>
      rcases ih with ⟨hMiddle, sent, hSent⟩
      rcases hStep.exists_sends with ⟨sent', hSent'⟩
      refine ⟨hStep.isApart hMiddle, sent ++ sent',
        hSent'.isConnected_eq.trans hSent.isConnected_eq, ?_,
        ?_, ?_, ?_⟩
      · apply hSent.serves.trans hSent'.serves
          hSent.isConnected_eq
        rw [hSent'.outbox_eq]
        exact List.subset_append_left _ _
      · rw [hSent'.outbox_eq, hSent.outbox_eq,
          List.append_assoc]
      · exact List.forall_mem_append.mpr
          ⟨hSent.isInit_eq, hSent'.isInit_eq⟩
      · intro name
        rw [List.countP_append, ← hSent'.countP_add,
          ← hSent.countP_add]
        omega

/-
  A message of the tracker ends the wait of the file that it
  is taken for a verdict on.  Else it is quiet, and what is
  served is served on.
-/
theorem exists_quiet_handleMessage
    (node : Node)
    (m : Wire.Message)
    (hosts : Hosts)
    (now : Moment) :
    ∃ offers : Offers,
      Quiet { node with offers }
          (node.handleMessage m hosts now) ∧
        (∀ name,
          offers.pending.get? name =
            if m.verdictOn? = some name then none
            else node.offers.pending.get? name) ∧
        ∀ name,
          node.offers.published.contains name = true →
            offers.published.contains name = true := by
  have hErase :
      ∀ verdict name,
        (node.offers.pending.erase verdict).get? name =
          if some verdict = some name then none
          else node.offers.pending.get? name := by
    intro verdict name
    by_cases hName : name = verdict
    · rw [hName, Table.get?_erase_self, if_pos rfl]
    · rw [Table.get?_erase_of_ne _ hName,
        if_neg fun h => hName (Option.some.inj h).symm]
  cases m with
  | success verdict kind =>
      cases kind with
      | remove =>
          exact ⟨node.offers, .refl _, fun _ => rfl,
            fun _ => id⟩
      | publish =>
          refine ⟨_, .refl _, fun name => ?_, fun name h => ?_⟩
          · unfold Offers.confirm
            split
            · rename_i hNone
              rw [Wire.Message.verdictOn?]
              split
              · rename_i hName
                rw [← Option.some.inj hName, hNone]
              · rfl
            · exact hErase verdict name
          · unfold Offers.confirm
            split
            · exact h
            · exact Table.contains_insert_of_contains h _ _
  | alreadyExists verdict =>
      exact ⟨_, .refl _, hErase _, fun _ => id⟩
  | notFound verdict =>
      exact ⟨_, quiet_discard _ _, hErase _, fun _ => id⟩
  | answer file entries =>
      exact ⟨node.offers, quiet_handleAnswer _ _ _ _ _,
        fun _ => rfl, fun _ => id⟩
  | _ => exact ⟨node.offers, .refl _, fun _ => rfl, fun _ => id⟩

/- The message may describe a file. -/
theorem IsBacked.exists_handleMessage
    {described : List FileRecord}
    (h : node.IsBacked described)
    (m : Wire.Message)
    (hosts : Hosts)
    (now : Moment) :
    ∃ described,
      (node.handleMessage m hosts now).IsBacked described := by
  cases m with
  | answer file entries =>
      have hMore : node.IsBacked ([file] ++ described) :=
        Downloads.Backed.append h _
      refine ⟨_, hMore.handleMessage ?_ hosts now⟩
      rintro file' entries' hEq
      cases hEq
      exact List.mem_cons_self
  | _ =>
      refine ⟨described, h.handleMessage ?_ hosts now⟩
      rintro file' entries' hEq
      cases hEq

theorem IsApart.handleMessage
    (h : node.IsApart)
    (m : Wire.Message)
    (hosts : Hosts)
    (now : Moment) :
    (node.handleMessage m hosts now).IsApart := by
  rcases node.exists_quiet_handleMessage m hosts now with
    ⟨offers, hQuiet, hPending, -⟩
  intro name
  rw [hQuiet.pending_eq, hPending]
  refine (h name).imp (hQuiet.isWithin name) ?_
  intro hNone
  rw [hNone]
  exact ite_self none

theorem waiting_handleMessage
    (node : Node)
    (m : Wire.Message)
    (hosts : Hosts)
    (now : Moment)
    (name : String) :
    (node.handleMessage m hosts now).waiting name =
      if m.verdictOn? = some name then 0
      else node.waiting name := by
  rcases node.exists_quiet_handleMessage m hosts now with
    ⟨offers, hQuiet, hPending, -⟩
  rw [waiting_eq hQuiet.pending_eq]
  unfold waiting Table.contains
  rw [hPending]
  split <;> rfl

/- What a node says to a message is quiet. -/
theorem exists_sent_handleMessage
    (node : Node)
    (m : Wire.Message)
    (hosts : Hosts)
    (now : Moment) :
    (node.handleMessage m hosts now).isConnected =
        node.isConnected ∧
      ∃ sent,
        (node.handleMessage m hosts now).outbox =
            node.outbox ++ sent ∧
          ∀ m ∈ sent, m.isQuiet = true := by
  rcases node.exists_quiet_handleMessage m hosts now with
    ⟨offers, hQuiet, -⟩
  exact ⟨hQuiet.isConnected_eq, hQuiet.exists_sent⟩

theorem servesFor_handleMessage
    (node : Node)
    (m : Wire.Message)
    (hosts : Hosts)
    (now : Moment) :
    node.ServesFor (node.handleMessage m hosts now) := by
  rcases node.exists_quiet_handleMessage m hosts now with
    ⟨offers, hQuiet, -, hPublished⟩
  intro hOpen name hServed
  exact hQuiet.serves hOpen name (hPublished name hServed)

/- A file that waits is served once it is accepted. -/
theorem published_handleMessage_success
    {name : String}
    {file : LocalFile}
    (hWaits : node.offers.pending.get? name = some file)
    (hosts : Hosts)
    (now : Moment) :
    (node.handleMessage (.success name .publish) hosts
        now).offers.published.get? name =
      some file := by
  unfold handleMessage
  dsimp only [Offers.confirm]
  rw [hWaits]
  exact Table.get?_insert_self _ _ _

end Node

namespace Link.Delivery

variable {d : Delivery}

/- An acceptance is lost just if nothing waits. -/
theorem keeps_iff
    {hosts : Hosts}
    {now : Moment}
    (hAfter :
      d.after = d.before.handleMessage d.reply hosts now)
    (name : String) :
    d.Keeps name ↔ ¬ d.isLost name = true := by
  unfold Keeps isLost
  rw [hAfter]
  by_cases hReply : d.reply = .success name .publish
  · rw [hReply]
    cases hWaits : d.before.offers.pending.get? name with
    | none => simp [Table.contains, hWaits]
    | some file =>
        have hServed :=
          Node.published_handleMessage_success hWaits hosts now
        simp [Table.contains, hWaits, hServed]
  · simp [hReply]

/-
  A verdict that arrives.  It was due to a publication or
  drops a file, and it ends a wait or finds that nothing
  waits.
-/
theorem balance
    (hAnswers : Tracker.Answers d.request d.reply)
    {hosts : Hosts}
    {now : Moment}
    (hAfter :
      d.after = d.before.handleMessage d.reply hosts now)
    (name : String) :
    (if d.isLost name then 1 else 0) +
          (if d.isVainRefusal name then 1 else 0) +
        d.before.waiting name =
      (if d.request.publishes name then 1 else 0) +
          (if d.isDrop name then 1 else 0) +
        d.after.waiting name := by
  rw [hAfter, Node.waiting_handleMessage]
  unfold isLost isVainRefusal isDrop Node.waiting
  cases hPublishes : d.request.publishes name with
  | true =>
      -- the verdict on a publication of the file
      rw [hAnswers.verdictOn?_eq name hPublishes, if_pos rfl]
      by_cases hSuccess : d.reply = .success name .publish <;>
        cases d.before.offers.pending.contains name <;>
          simp [hSuccess]
  | false =>
      -- of the verdicts, just one may come in this case
      have hRefused : d.reply ≠ .success name .publish := by
        intro hSuccess
        have hOwn :=
          hAnswers.publishes_of name
            (by rw [hSuccess]; rfl) (by rw [hSuccess]; simp)
        rw [hPublishes] at hOwn
        cases hOwn
      by_cases hNotFound : d.reply = .notFound name
      · rw [hNotFound]
        cases d.before.offers.pending.contains name <;>
          simp [Wire.Message.verdictOn?]
      · have hOther : d.reply.verdictOn? ≠ some name := by
          intro hVerdict
          have hOwn :=
            hAnswers.publishes_of name hVerdict hNotFound
          rw [hPublishes] at hOwn
          cases hOwn
        rw [if_neg hOther]
        simp [hRefused, hNotFound]

end Link.Delivery

end PeerShare
