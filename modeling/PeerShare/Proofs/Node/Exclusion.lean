import PeerShare.Proofs.Node.Refreshing
import PeerShare.Proofs.Tracker.Seats

/-
  A node and its own entry in an answer of the tracker.

  The tracker lists a peer under the contact it registered
  with, which stays as it is for as long as the peer is
  registered.  A node leaves out the entries with the
  identity and port that it has introduced itself with, and
  those never change.  The two agree but for an empty
  identity, in place of which the tracker registers the
  address that it sees.

  Key definitions include:
    * `Node.contact`
    * `Tracker.Catalog.KeepsContacts`

  Key theorems include:
    * `IpAddress.render_ne_empty`
    * `Tracker.Catalog.keepsContacts_run`
    * `Node.contact_run`
    * `Node.own_entry_kept_iff`
-/

------------------------------------------------------------
-- Texts of Addresses
------------------------------------------------------------

namespace PeerShare

/- Two texts with something between them are some text. -/
theorem intercalate_ne_empty
    {separator : String}
    (h : separator ≠ "")
    {texts : List String}
    (hTwo : 2 ≤ texts.length) :
    separator.intercalate texts ≠ "" := by
  rcases texts with _ | ⟨first, _ | ⟨second, others⟩⟩
  · cases hTwo
  · exact absurd hTwo (by simp)
  · rw [String.intercalate_cons_cons]
    simp [h]

namespace IpAddress

theorem renderV6_ne_empty
    (groups : Vector UInt16 8) :
    renderV6 groups.toList ≠ "" := by
  unfold renderV6
  split
  · simp
  · dsimp only
    split
    · simp
    · exact intercalate_ne_empty (by decide) (by simp)

/- No address is written as an empty text. -/
theorem render_ne_empty
    (a : IpAddress) :
    a.render ≠ "" := by
  cases a with
  | v4 octets =>
      exact intercalate_ne_empty (by decide) (by simp)
  | v6 groups => exact renderV6_ne_empty groups

end IpAddress

end PeerShare

------------------------------------------------------------
-- Contacts at the Tracker
------------------------------------------------------------

namespace PeerShare

namespace Tracker

/- A peer is listed under its contact. -/
theorem PeerRecord.contact_of_listing?
    {record : PeerRecord}
    {name : String}
    {entry : Wire.PeerEntry}
    (h : record.listing? name = some entry) :
    (entry.identity, entry.port) = record.contact := by
  unfold listing? at h
  split at h
  · cases h
  · split at h
    · cases h
    · cases h
      rfl

namespace Catalog

/-
  Whether the numbers that were given in a catalog stand for
  the same contacts in another one, or for none.
-/
structure KeepsContacts
    (c c' : Catalog) : Prop where
  nextPeer_le : c.nextPeer ≤ c'.nextPeer
  contact_eq :
    ∀ peer contact,
      peer < c.nextPeer →
        c'.contacts.get? peer = some contact →
          c.contacts.get? peer = some contact

variable {c c' c'' : Catalog}

theorem KeepsContacts.of_eq
    (h :
      c'.contacts = c.contacts ∧ c'.nextPeer = c.nextPeer) :
    c.KeepsContacts c' where
  nextPeer_le := Nat.le_of_eq h.2.symm
  contact_eq peer contact _ hGet := by
    rwa [h.1] at hGet

theorem KeepsContacts.refl
    (c : Catalog) :
    c.KeepsContacts c :=
  .of_eq ⟨rfl, rfl⟩

theorem KeepsContacts.trans
    (h : c.KeepsContacts c')
    (h' : c'.KeepsContacts c'') :
    c.KeepsContacts c'' where
  nextPeer_le := h.nextPeer_le.trans h'.nextPeer_le
  contact_eq peer contact hGiven hGet :=
    h.contact_eq peer contact hGiven
      (h'.contact_eq peer contact
        (hGiven.trans_le h.nextPeer_le) hGet)

/- New peers get new numbers. -/
theorem keepsContacts_perform
    (c : Catalog)
    (o : Operation) :
    c.KeepsContacts (c.perform o).2 := by
  cases o with
  | register identity port =>
      refine ⟨Nat.le_succ _, ?_⟩
      intro peer contact hGiven hGet
      simp only [perform, contacts_register] at hGet
      rwa [Table.get?_insert_of_ne _ _ (Nat.ne_of_lt hGiven)]
        at hGet
  | unregister peer =>
      refine ⟨Nat.le_refl _, ?_⟩
      intro other contact _ hGet
      simp only [perform, contacts_unregister] at hGet
      rw [Table.get?_erase] at hGet
      split at hGet
      · cases hGet
      · exact hGet
  | _ =>
      apply KeepsContacts.of_eq
      apply contacts_perform <;> simp

theorem keepsContacts_run
    (c : Catalog)
    (operations : List Operation) :
    c.KeepsContacts (c.run operations) := by
  induction operations generalizing c with
  | nil => exact .refl c
  | cons o operations ih =>
      exact (c.keepsContacts_perform o).trans (ih _)

end Catalog

/-
  Whatever comes after the introduction of a peer, the peer
  is registered as it was introduced.
-/
theorem introduction?_eq_of_dispatch_init
    {remote identity : String}
    {port : UInt16}
    {s : Standing}
    {own : PeerId}
    {operations : List Operation}
    {record : PeerRecord}
    (hOwn :
      (dispatch remote (.init identity port) s).2.peer =
        some own)
    (hRecord :
      ((dispatch remote (.init identity port)
        s).2.catalog.run operations).peers.get? own =
        some record) :
    introduction? remote (.init identity port) =
      some record.contact := by
  cases hOwn
  have hKept :=
    (Catalog.keepsContacts_run _ operations).contact_eq _ _
      (Nat.lt_succ_self _) (Catalog.get?_contacts hRecord)
  rw [← hKept]
  simp only [dispatch, introduce, Catalog.contacts_register]
  exact (Table.get?_insert_self _ _ _).symm

end Tracker

end PeerShare

------------------------------------------------------------
-- The Contact of a Node
------------------------------------------------------------

namespace PeerShare

namespace Node

/- The identity and port that a node is known by. -/
def contact
    (node : Node) : String × UInt16 :=
  (node.identity, node.port)

@[simp] theorem contact_send
    (node : Node)
    (m : Wire.Message) :
    (node.send m).2.contact = node.contact := by
  unfold send
  split <;> rfl

theorem contact_of_send
    {node node' : Node}
    {m : Wire.Message}
    {isSent : Bool}
    (h : node.send m = (isSent, node')) :
    node'.contact = node.contact := by
  have hSend := node.contact_send m
  rwa [h] at hSend

@[simp] theorem contact_sendAll
    (node : Node)
    (messages : List Wire.Message) :
    (node.sendAll messages).contact = node.contact := by
  induction messages generalizing node with
  | nil => rfl
  | cons m messages ih =>
      unfold sendAll
      split <;> rename_i hSent
      · exact (ih _).trans (contact_of_send hSent)
      · exact contact_of_send hSent

@[simp] theorem contact_stopWriter
    (node : Node)
    (name : String)
    (w : ChunkWriter) :
    (node.stopWriter name w).contact = node.contact :=
  rfl

@[simp] theorem contact_stopWriter?
    (node : Node)
    (name : String)
    (w : Option ChunkWriter) :
    (node.stopWriter? name w).contact = node.contact := by
  cases w <;> rfl

@[simp] theorem contact_discard
    (node : Node)
    (name : String) :
    (node.discard name).contact = node.contact := by
  unfold discard
  split
  · rfl
  · exact contact_stopWriter? _ _ _

@[simp] theorem contact_beginTransfer
    (node : Node)
    (file : FileRecord)
    (path : String)
    (peers : List (Endpoint × Bytes))
    (now : Moment) :
    (node.beginTransfer file path peers now).contact =
      node.contact := by
  unfold beginTransfer
  split
  · exact contact_discard _ _
  · dsimp only
    split <;> rfl

@[simp] theorem contact_handleAnswer
    (node : Node)
    (file : FileRecord)
    (entries : List Wire.PeerEntry)
    (hosts : Hosts)
    (now : Moment) :
    (node.handleAnswer file entries hosts now).contact =
      node.contact := by
  unfold handleAnswer
  dsimp only
  split
  · split
    · split
      · exact contact_discard _ _
      · exact contact_beginTransfer _ _ _ _ _
    · exact contact_discard _ _
  · rfl

@[simp] theorem contact_handleMessage
    (node : Node)
    (m : Wire.Message)
    (hosts : Hosts)
    (now : Moment) :
    (node.handleMessage m hosts now).contact =
      node.contact := by
  cases m with
  | success name kind => cases kind <;> rfl
  | notFound name => exact contact_discard _ _
  | answer file entries =>
      exact contact_handleAnswer _ _ _ _ _
  | _ => rfl

@[simp] theorem contact_receive
    (node : Node)
    (payload : Bytes)
    (hosts : Hosts)
    (now : Moment) :
    (node.receive payload hosts now).contact =
      node.contact := by
  unfold receive
  split
  · split
    · rfl
    · exact contact_handleMessage _ _ _ _
  · rfl

@[simp] theorem contact_publishFile
    (node : Node)
    (path : String) :
    (node.publishFile path).2.contact = node.contact := by
  unfold publishFile
  split
  · rfl
  · split
    · rfl
    · split
      · rfl
      · dsimp only
        split
        all_goals
          rename_i hSent
          have hSame := contact_of_send hSent
          exact hSame

@[simp] theorem contact_publishAll
    (node : Node)
    (paths : List String) :
    (node.publishAll paths).2.contact = node.contact := by
  induction paths generalizing node with
  | nil => rfl
  | cons path paths ih =>
      have hFile := node.contact_publishFile path
      unfold publishAll
      split <;> rename_i hPublished <;> rw [hPublished] at hFile
      · exact (ih _).trans hFile
      · exact (ih _).trans hFile

@[simp] theorem contact_publish
    (node : Node)
    (path : String) :
    (node.publish path).2.contact = node.contact := by
  have hFile := node.contact_publishFile path
  unfold publish
  split
  · rfl
  · split <;> rename_i hPublished <;> rw [hPublished] at hFile
    · exact hFile
    · exact hFile
  · split
    · rfl
    · exact contact_publishAll _ _

@[simp] theorem contact_request
    (node : Node)
    (name : String)
    (now : Moment) :
    (node.request name now).2.contact = node.contact := by
  unfold request
  split
  · rfl
  · split
    · rfl
    · split
      all_goals
        rename_i hSent
        have hSame := contact_of_send hSent
        exact hSame

@[simp] theorem contact_remove
    (node : Node)
    (name : String) :
    (node.remove name).2.contact = node.contact := by
  unfold remove
  split
  · rfl
  · split
    all_goals
      rename_i hSent
      have hSame := contact_of_send hSent
      exact hSame

@[simp] theorem contact_serve
    (node : Node)
    (name : String)
    (indices : List UInt16) :
    (node.serve name indices).2.contact = node.contact := by
  induction indices generalizing node with
  | nil => rfl
  | cons index indices ih =>
      unfold serve
      split
      · exact ih node
      · exact ih _

@[simp] theorem contact_takeChunk
    (node : Node)
    (name : String)
    (index : UInt16)
    (data : Bytes)
    (sender : Endpoint)
    (now : Moment) :
    (node.takeChunk name index data sender now).contact =
      node.contact := by
  unfold takeChunk
  split
  · split <;> rfl
  · rfl

@[simp] theorem contact_handleDatagram
    (node : Node)
    (sender : Endpoint)
    (bs : Bytes)
    (now : Moment) :
    (node.handleDatagram sender bs now).2.contact =
      node.contact := by
  unfold handleDatagram
  split
  · split
    · rfl
    · exact contact_takeChunk _ _ _ _ _ _
    · exact contact_serve _ _ _
  · rfl

@[simp] theorem contact_performWrite
    (node : Node)
    (name : String)
    (position : Nat) :
    (node.performWrite name position).contact =
      node.contact := by
  unfold performWrite
  split <;> rfl

@[simp] theorem contact_foldl_finish
    (closes : Completed → Bool)
    (node : Node)
    (completed : List Completed) :
    (completed.foldl (finish closes) node).contact =
      node.contact := by
  induction completed generalizing node with
  | nil => rfl
  | cons c completed ih =>
      have hStopped :=
        node.contact_stopWriter? c.file.record.name c.writer
      rw [List.foldl_cons, ih]
      unfold finish
      dsimp only
      split <;> exact hStopped

@[simp] theorem contact_tick
    (node : Node)
    (closes : Completed → Bool)
    (now : Moment) :
    (node.tick closes now).2.contact = node.contact := by
  unfold tick
  split
  · dsimp only
    rw [contact_sendAll, contact_foldl_finish]
    rfl
  · rfl

/- No event changes who a node is. -/
theorem contact_after
    (node : Node)
    (e : Event) :
    (node.after e).contact = node.contact := by
  cases e with
  | failWrite | stopListening | disconnect | shutDown => rfl
  | _ => simp [after]

theorem contact_run
    (node : Node)
    (events : List Event) :
    (node.run events).contact = node.contact := by
  induction events generalizing node with
  | nil => rfl
  | cons e events ih => exact (ih _).trans (contact_after node e)

end Node

end PeerShare

------------------------------------------------------------
-- Own Entries
------------------------------------------------------------

namespace PeerShare

/- Only the entries with a contact of its own are left out. -/
theorem mem_otherPeers_iff
    {entries : List Wire.PeerEntry}
    {identity : String}
    {port : UInt16}
    {entry : Wire.PeerEntry} :
    entry ∈ otherPeers entries identity port ↔
      entry ∈ entries ∧
        (entry.identity, entry.port) ≠ (identity, port) := by
  unfold otherPeers
  rw [List.mem_filter, Bool.not_eq_true', Bool.and_eq_false_iff,
    ne_eq, Prod.mk.injEq, not_and_or]
  simp

/- Whoever holds some of a file is among its peers. -/
theorem Tracker.Catalog.mem_of_query
    {c : Catalog}
    {own : PeerId}
    {record : PeerRecord}
    {name : String}
    {file : FileRecord}
    {entries : List Wire.PeerEntry}
    {entry : Wire.PeerEntry}
    (hRecord : c.peers.get? own = some record)
    (hListed : record.listing? name = some entry)
    (hQuery : c.query name = some (file, entries)) :
    entry ∈ entries := by
  unfold query at hQuery
  split at hQuery
  · cases hQuery
  · cases hQuery
    exact List.mem_filterMap.mpr
      ⟨record, Table.mem_values_iff.mpr ⟨own, hRecord⟩,
        hListed⟩

/-
  The tracker registers another identity than the one it is
  told just if that is empty.
-/
theorem Tracker.introduction?_ne_iff
    {remote : IpAddress}
    {identity : String}
    {port : UInt16} :
    introduction? remote.render (.init identity port) ≠
        some (identity, port) ↔
      identity = "" := by
  by_cases hEmpty : identity = ""
  · subst hEmpty
    simp [introduction?, remote.render_ne_empty]
  · simp [introduction?, hEmpty]

namespace Node

/- Without an identity of its own a node has an address. -/
theorem identity_start_eq_empty_iff
    {identity : Option String}
    {localAddress : IpAddress}
    {port : UInt16}
    {directory : String}
    {disk : Disk} :
    (start identity localAddress port directory
        disk).identity = "" ↔
      identity = some "" := by
  unfold start
  cases identity <;> simp [localAddress.render_ne_empty]

/-
  A fresh node introduces itself to the tracker, whatever the
  tracker has registered before and does later.  When the
  tracker lists the node in an answer, the node leaves its
  own entry out, unless it was given an empty identity.
-/
theorem own_entry_kept_iff
    {identity : Option String}
    {localAddress remote : IpAddress}
    {port : UInt16}
    {directory : String}
    {disk : Disk}
    {m : Wire.Message}
    {s : Tracker.Standing}
    {own : Tracker.PeerId}
    {operations : List Tracker.Operation}
    {record : Tracker.PeerRecord}
    {name : String}
    {file : FileRecord}
    {entries : List Wire.PeerEntry}
    {entry : Wire.PeerEntry}
    (hSent :
      m ∈ (start identity localAddress port directory
        disk).outbox)
    (hOwn :
      (Tracker.dispatch remote.render m s).2.peer = some own)
    (hRecord :
      ((Tracker.dispatch remote.render m s).2.catalog.run
        operations).peers.get? own = some record)
    (hListed : record.listing? name = some entry)
    (hQuery :
      ((Tracker.dispatch remote.render m s).2.catalog.run
        operations).query name = some (file, entries))
    (events : List Event) :
    let node :=
      (start identity localAddress port directory disk).run
        events
    entry ∈ entries ∧
      (entry ∈ otherPeers entries node.identity node.port ↔
        identity = some "") := by
  intro node
  have hMem :=
    Tracker.Catalog.mem_of_query hRecord hListed hQuery
  have hContact :=
    Tracker.PeerRecord.contact_of_listing? hListed
  have hSame := contact_run
    (start identity localAddress port directory disk) events
  cases List.mem_singleton.mp hSent
  have hRegistered :=
    Tracker.introduction?_eq_of_dispatch_init hOwn hRecord
  refine ⟨hMem, ?_⟩
  calc
    entry ∈ otherPeers entries node.identity node.port
      ↔ (entry.identity, entry.port) ≠ node.contact :=
        mem_otherPeers_iff.trans (and_iff_right hMem)
    _ ↔ some record.contact ≠ some node.contact := by
        rw [hContact, ne_eq, ne_eq, Option.some_inj]
    _ ↔ (start identity localAddress port directory
            disk).identity = "" := by
        rw [← hRegistered, hSame]
        exact Tracker.introduction?_ne_iff
    _ ↔ identity = some "" := identity_start_eq_empty_iff

/- The entries of a publisher, and of a node with a chunk. -/
def publisherEntry : Wire.PeerEntry where
  identity := "10.0.0.1"
  port := 4
  bitfield := [192]

def ownEntry : Wire.PeerEntry where
  identity := "127.0.0.1"
  port := 1
  bitfield := [64]

/- A session at a tracker of the file of two chunks. -/
def strangers : Tracker.Standing where
  peer := none
  catalog :=
    let c := (Tracker.Catalog.empty.register "10.0.0.1" 4).2
    (c.publish 0 twoChunks).2

/- A node that tells the tracker of its first chunk. -/
def telling
    (identity : Option String) : Node :=
  (start identity .loopback 1 "d" Disk.empty).run
    [.request "a" 0,
      .receive
        (Wire.Message.answer twoChunks
          [publisherEntry]).payload noHosts 0,
      .handleDatagram ⟨.v4 #v[10, 0, 0, 1], 4⟩
        (Wire.Datagram.chunk "a" 1 [7]).encode 0,
      .performWrite "a" 0,
      .tick (fun _ => true) (Span.ofSeconds 6)]

/- A node without an identity knows itself by its address. -/
theorem own_entry_kept_iff_of_local_address :
    let node := telling none
    let m : Wire.Message := .init "127.0.0.1" 1
    let s :=
      (Tracker.dispatch IpAddress.loopback.render m strangers).2
    let c := s.catalog.run [.update 1 "a" [64]]
    let entries := [publisherEntry, ownEntry]
    (s.peer = some 1 ∧
        (c.peers.get? 1).bind (·.listing? "a") =
          some ownEntry ∧
        c.query "a" = some (twoChunks, entries)) ∧
      ownEntry ∉
        otherPeers entries node.identity node.port := by
  intro node m s c entries
  have hRun :
      s.peer = some 1 ∧
        (c.peers.get? 1).bind (·.listing? "a") =
          some ownEntry ∧
        c.query "a" = some (twoChunks, entries) := by
    decide +kernel
  refine ⟨hRun, ?_⟩
  rcases hRun with ⟨hOwn, hListed, hQuery⟩
  rcases Option.bind_eq_some_iff.mp hListed with
    ⟨record, hRecord, hListed⟩
  have hSent :
      m ∈ (start none .loopback 1 "d" Disk.empty).outbox :=
    List.mem_singleton.mpr rfl
  have hKept :
      ownEntry ∈ otherPeers entries node.identity node.port ↔
        none = some "" :=
    (own_entry_kept_iff hSent hOwn hRecord hListed hQuery _).2
  simpa using hKept.not

/-
  A node with an empty identity fetches a file and tells of
  its first chunk.  The tracker lists it under its address,
  and the node becomes a peer of its own download.
-/
theorem exists_own_entry_kept :
    let node := telling (some "")
    let served :=
      Tracker.handleAll IpAddress.loopback.render node.outbox
        strangers
    let entries := [publisherEntry, ownEntry]
    let node' :=
      node.receive
        (Wire.Message.answer twoChunks entries).payload noHosts
        (Span.ofSeconds 6)
    node.outbox =
        [.init "" 1, .request "a", .holdings "a" [64],
          .refresh "a"] ∧
      served.1.getLast?.bind Tracker.sentReply? =
        some (.answer twoChunks entries) ∧
      (served.2.peer.bind served.2.catalog.peers.get?).bind
          (·.listing? "a") =
        some ownEntry ∧
      otherPeers entries node.identity node.port = entries ∧
      ((node'.downloads.transfer? "a").bind fun t =>
          t.peers.get? ⟨.loopback, 1⟩).map (·.held) =
        some [1] := by
  intro node served entries node'
  decide +kernel

end Node

end PeerShare
