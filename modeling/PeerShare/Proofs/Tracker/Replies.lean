import Mathlib.Algebra.GroupWithZero.Nat
import PeerShare.Proofs.Tracker.Sessions
import PeerShare.Proofs.Wire.Codec

/-
  Which replies of a server can be received.

  A reply goes out in a frame of any size, while a receiver
  accepts frames up to a largest one.  All replies are short
  enough but answers: an answer grows with the number of the
  peers that hold the file, and nothing bounds their number.

  Key definitions include:
    * `Wire.PeerEntry.size`
    * `Wire.Message.AnswerFits`
    * `Tracker.Catalog.IsFramed`
    * `Tracker.Server.Crowd`

  Key theorems include:
    * `Wire.Message.receive_frame_eq_ok_iff`
    * `Tracker.Catalog.IsFramed.answerFits_iff`
    * `Tracker.Server.IsReachable.reply_received_iff`
    * `Tracker.Server.exists_crowd`
-/

------------------------------------------------------------
-- Sizes
------------------------------------------------------------

namespace PeerShare

namespace Wire

/- The number of bytes that an answer spends on a peer. -/
def PeerEntry.size
    (e : PeerEntry) : Nat :=
  (Utf8.encode e.identity).length + e.bitfield.length + 10

namespace Message

/-
  Whether a message is no answer, or an answer that fits
  into a frame: what it takes to publish the file, the
  number of the entries and the entries.
-/
def AnswerFits : Message → Prop
  | answer file entries =>
      (publish file).payload.length + 4 +
          (entries.map PeerEntry.size).sum ≤
        maxFrame
  | _ => True

theorem length_write_name
    (name : String) :
    (Layout.name.write name).length =
      (Utf8.encode name).length + 4 := by
  simp only [Layout.name, Layout.text, Layout.refine,
    Layout.block, Layout.count, Layout.number,
    List.length_append, Bytes.length_ofNat]
  omega

theorem length_payload_publish
    (file : FileRecord) :
    (publish file).payload.length =
      (Utf8.encode file.name).length + 37 +
        20 * file.chunkCount := by
  have hDigests :
      (file.chunkDigests.flatMap Digest.bytes).length =
        file.chunkDigests.length * 20 :=
    Bytes.length_flatMap_of_width Digest.length_bytes
      file.chunkDigests
  simp only [payload, fields, Layout.fileRecord,
    Layout.convert, Layout.seq, Layout.text, Layout.refine,
    Layout.block, Layout.count, Layout.uint64, Layout.number,
    Layout.digest, Layout.digests, Layout.table,
    List.length_cons, List.length_append, Bytes.length_ofNat,
    file.digest.length_bytes, hDigests, FileRecord.chunkCount]
  omega

theorem length_write_peerEntry
    (e : PeerEntry) :
    (Layout.peerEntry.write e).length = e.size := by
  simp only [Layout.peerEntry, Layout.convert, Layout.seq,
    Layout.text, Layout.refine, Layout.block, Layout.count,
    Layout.uint16, Layout.number, List.length_append,
    Bytes.length_ofNat, PeerEntry.size]
  omega

theorem length_payload_answer
    (file : FileRecord)
    (entries : List PeerEntry) :
    (answer file entries).payload.length =
      (publish file).payload.length + 4 +
        (entries.map PeerEntry.size).sum := by
  have hEntries :
      (entries.flatMap Layout.peerEntry.write).length =
        (entries.map PeerEntry.size).sum := by
    rw [List.length_flatMap]
    exact congrArg List.sum
      (List.map_congr_left fun e _ =>
        length_write_peerEntry e)
  simp only [payload, fields, Layout.answer, Layout.seq,
    Layout.list, Layout.count, Layout.number,
    List.length_cons, List.length_append, Bytes.length_ofNat,
    hEntries]
  omega

end Message

end Wire

end PeerShare

------------------------------------------------------------
-- Receiving One Frame
------------------------------------------------------------

namespace PeerShare

namespace Wire

namespace Message

/- What is received from a stream that brings one frame. -/
theorem receive_frame_eq
    (m : Message) :
    (Receiver.start [.bytes m.frame]).receive.1 =
      (receiveFrom m.frame []).1 := by
  have hEmpty : Frame.next [] = .incomplete :=
    Frame.next_eq_incomplete_iff.mpr (.cutHeader (by decide))
  have hFrame : m.frame ≠ [] := by
    intro hNil
    have hLength := congrArg List.length hNil
    rw [frame, Frame.encode, List.length_append,
      Bytes.length_ofNat, List.length_nil] at hLength
    omega
  unfold Receiver.receive Receiver.start
  dsimp only
  rw [receiveFrom.eq_def, hEmpty]
  cases hEq : m.frame with
  | nil => exact absurd hEq hFrame
  | cons b bs => rfl

/- A message is received just if a frame may hold it. -/
theorem receive_frame_eq_ok_iff
    (m : Message) :
    (Receiver.start [.bytes m.frame]).receive.1 = .ok m ↔
      m.payload.length ≤ maxFrame := by
  rw [receive_frame_eq, receiveFrom.eq_def]
  constructor
  · intro h
    split at h
    · rename_i payload rest hNext
      have hLe := (Frame.next_eq_frame_iff.mp hNext).1
      dsimp only [received] at h
      split at h
      · rename_i m' hDecode
        cases h
        rwa [(decode_eq_ok_iff.mp hDecode).2]
      · cases h
    · cases h
    · cases h
  · intro h
    have hNext := Frame.next_encode h []
    rw [List.append_nil] at hNext
    rw [frame, hNext]
    dsimp only [received]
    rw [decode_payload (Frame.lt_of_le_maxFrame h)]

/- The frame of a message that is too long is refused. -/
theorem receive_frame_of_lt
    {m : Message}
    (hLarge : maxFrame < m.payload.length)
    (hFits : m.payload.length < 2 ^ 32) :
    (Receiver.start [.bytes m.frame]).receive.1 =
      .error (.frameTooLarge m.payload.length) := by
  have hNext : Frame.next m.frame = .tooLarge m.payload.length :=
    Frame.next_eq_tooLarge_iff.mpr
      (.tooLarge m.payload hLarge hFits)
  rw [receive_frame_eq, receiveFrom.eq_def, hNext]

end Message

end Wire

end PeerShare

------------------------------------------------------------
-- Replies
------------------------------------------------------------

namespace PeerShare

namespace Tracker

/- Whether every file of a catalog has come in a frame. -/
def Catalog.IsFramed
    (c : Catalog) : Prop :=
  ∀ name file,
    c.files.get? name = some file →
      file.name = name ∧
        (Wire.Message.publish file).payload.length ≤
          Wire.maxFrame

namespace Catalog

variable {c : Catalog}
variable {peer : PeerId}
variable {m r : Wire.Message}

theorem isFramed_empty :
    empty.IsFramed := by
  intro name file hGet
  cases hGet

theorem IsFramed.perform
    (h : c.IsFramed)
    {o : Operation}
    (hFramed : o.IsFramed) :
    (c.perform o).2.IsFramed := by
  have hEffect := c.effect_perform o
  generalize c.perform o = result at hEffect ⊢
  rcases result with ⟨reply, c'⟩
  cases hEffect with
  | @publish publisher file record registered free =>
      intro name file' hGet
      dsimp only at hGet
      rw [Table.get?_insert] at hGet
      split at hGet
      · rename_i hSame
        cases hGet
        exact ⟨(Table.sameKey_iff.mp hSame).symm, hFramed⟩
      · exact h name file' hGet
  | remove =>
      intro name file hGet
      dsimp only at hGet
      rw [Table.get?_erase] at hGet
      split at hGet
      · cases hGet
      · exact h name file hGet
  | _ => exact h

/- A reply that only names a file is short. -/
theorem length_payload_notFound
    (name : String) :
    (Wire.Message.notFound name).payload.length =
      (Utf8.encode name).length + 5 := by
  rw [Wire.Message.payload, List.length_cons,
    Wire.Message.fields, Wire.Message.length_write_name]

theorem length_payload_alreadyExists
    (name : String) :
    (Wire.Message.alreadyExists name).payload.length =
      (Utf8.encode name).length + 5 := by
  rw [Wire.Message.payload, List.length_cons,
    Wire.Message.fields, Wire.Message.length_write_name]

theorem length_payload_success
    (name : String)
    (kind : Wire.Success) :
    (Wire.Message.success name kind).payload.length =
      (Utf8.encode name).length + 6 := by
  have hKind :
      (Wire.Layout.successKind.write kind).length = 1 :=
    Bytes.length_ofNat 1 _
  have hName := Wire.Message.length_write_name name
  rw [Wire.Layout.name] at hName
  rw [Wire.Message.payload, List.length_cons,
    Wire.Message.fields, Wire.Layout.success,
    Wire.Layout.seq, List.length_append, hName, hKind]

/-
  The reply to a request that came in a frame fits into a
  frame just if it is no answer that is too long.
-/
theorem IsFramed.answerFits_iff
    (h : c.IsFramed)
    (hLength : m.payload.length ≤ Wire.maxFrame)
    (hReply : (serve peer m c).1 = .ok (some r)) :
    r.AnswerFits ↔ r.payload.length ≤ Wire.maxFrame := by
  have hName :
      ∀ name,
        Wire.Message.notFound name = r →
          (Utf8.encode name).length + 5 ≤ Wire.maxFrame →
            (r.AnswerFits ↔
              r.payload.length ≤ Wire.maxFrame) := by
    rintro name rfl hLe
    rw [length_payload_notFound]
    exact iff_of_true trivial hLe
  have hAnswer :
      ∀ name,
        c.answerTo name = r →
          (Utf8.encode name).length + 5 ≤ Wire.maxFrame →
            (r.AnswerFits ↔
              r.payload.length ≤ Wire.maxFrame) := by
    intro name hEq hLe
    unfold answerTo at hEq
    split at hEq
    · subst hEq
      rw [Wire.Message.length_payload_answer]
      exact Iff.rfl
    · exact hName name hEq hLe
  cases m with
  | publish file =>
      have hFile := Wire.Message.length_payload_publish file
      simp only [serve] at hReply
      split at hReply
      · cases hReply
        rw [length_payload_success]
        exact iff_of_true trivial (by omega)
      · cases hReply
        rw [length_payload_alreadyExists]
        exact iff_of_true trivial (by omega)
      · cases hReply
        exact hName _ rfl (by omega)
      · cases hReply
  | request name =>
      rw [Wire.Message.payload, List.length_cons,
        Wire.Message.fields, Wire.Message.length_write_name]
        at hLength
      rw [serve_request] at hReply
      cases hReply
      exact hAnswer name rfl hLength
  | refresh name =>
      rw [Wire.Message.payload, List.length_cons,
        Wire.Message.fields, Wire.Message.length_write_name]
        at hLength
      rw [serve_refresh] at hReply
      cases hReply
      exact hAnswer name rfl hLength
  | remove name =>
      rw [Wire.Message.payload, List.length_cons,
        Wire.Message.fields, Wire.Message.length_write_name]
        at hLength
      simp only [serve, Catalog.remove] at hReply
      cases hFile : c.files.get? name with
      | none =>
          simp only [Table.contains, hFile] at hReply
          cases hReply
          exact hName _ rfl hLength
      | some file =>
          simp only [Table.contains, hFile] at hReply
          cases hReply
          -- the acknowledgement is longer than the request,
          -- but not than the publication of the file
          rcases h name file hFile with ⟨rfl, hLe⟩
          have hLonger :=
            Wire.Message.length_payload_publish file
          rw [length_payload_success]
          exact iff_of_true trivial (by omega)
  | _ => cases hReply

end Catalog

namespace Server

variable {server : Server}
variable {events : List Event}
variable {id : ConnectionId}
variable {bs : Bytes}
variable {r : Wire.Message}

/- A reply answers a message that came in a frame. -/
theorem IsReachable.exists_request
    (h : IsReachable server events)
    (hReply : r ∈ (server.deliver id bs).1) :
    ∃ (m : Wire.Message) (peer : PeerId) (c : Catalog),
      m.payload.length ≤ Wire.maxFrame ∧
        c.IsFramed ∧ (serve peer m c).1 = .ok (some r) := by
  cases hGet : server.sessions.get? id with
  | none =>
      rw [deliver, hGet] at hReply
      cases hReply
  | some session =>
      rcases Wire.Frame.exists_divides
        (session.buffer ++ bs) with
        ⟨payloads, rest, last, hDivides⟩
      have hDeliver := deliver_of_divides hGet hDivides
      dsimp only at hDeliver
      rw [hDeliver] at hReply
      rcases List.mem_filterMap.mp hReply with
        ⟨outcome, hOutcome, hSent⟩
      have hStart :=
        h.catalog_induction Catalog.isFramed_empty
          fun _ _ hFramed hc => hc.perform hFramed
      rcases (handleAll_induction
          (fun s => s.catalog.IsFramed) session.remote
          (s := server.standing session)
          (fun m hMem s hs =>
            keeps_dispatch
              (fun _ _ hFramed hc => hc.perform hFramed)
              (length_payload_of_mem_messagesOf hDivides hMem)
              hs)
          hStart).2 outcome hOutcome with
        ⟨m, hMessage, s, hs, rfl⟩
      have hLength :=
        length_payload_of_mem_messagesOf hDivides hMessage
      rcases s with ⟨own, c⟩
      cases own with
      | none =>
          cases m <;> cases hSent
      | some peer =>
          refine ⟨m, peer, c, hLength, hs, ?_⟩
          cases m with
          | init identity port => cases hSent
          | _ => exact sentReply?_eq_some_iff.mp hSent

/-
  A reply of a server is received just if it is no answer or
  an answer whose file and entries fit into a frame; any
  other reply is refused by who receives it.
-/
theorem IsReachable.reply_received_iff
    (h : IsReachable server events)
    (hReply : r ∈ (server.deliver id bs).1) :
    (r.payload.length ≤ Wire.maxFrame ↔ r.AnswerFits) ∧
      ((Wire.Receiver.start [.bytes r.frame]).receive.1 =
          .ok r ↔
        r.AnswerFits) ∧
      (¬ r.AnswerFits →
        r.payload.length < 2 ^ 32 →
          (Wire.Receiver.start [.bytes r.frame]).receive.1 =
            .error (.frameTooLarge r.payload.length)) := by
  rcases h.exists_request hReply with
    ⟨m, peer, c, hLength, hc, hServe⟩
  have hFits := hc.answerFits_iff hLength hServe
  refine ⟨hFits.symm,
    (Wire.Message.receive_frame_eq_ok_iff r).trans hFits.symm,
    ?_⟩
  intro hNot hShort
  rw [hFits] at hNot
  exact Wire.Message.receive_frame_of_lt
    (Nat.lt_of_not_le hNot) hShort

/- A file that is not known is asked for. -/
theorem IsReachable.reply_received_iff_of_unknown_file :
    ∃ server events bs,
      IsReachable server events ∧
        Wire.Message.notFound "a" ∈ (server.deliver 0 bs).1 ∧
          (Wire.Receiver.start
                [.bytes (Wire.Message.notFound "a").frame]
              ).receive.1 =
            .ok (.notFound "a") := by
  have hReachable :=
    (IsReachable.start.step
        (e := .connect 0 "127.0.0.1") rfl).step
      (e := .deliver 0 (Wire.Message.init "" 1).frame) rfl
  have hReplies :
      (((Server.start.connect 0 "127.0.0.1").deliver 0
              (Wire.Message.init "" 1).frame).2.deliver 0
            (Wire.Message.request "a").frame).1 =
        [.notFound "a"] := by
    decide +kernel
  have hReply := hReplies.symm ▸ List.mem_singleton_self _
  exact ⟨_, _, _, hReachable, hReply,
    (hReachable.reply_received_iff hReply).2.1.mpr trivial⟩

end Server

end Tracker

end PeerShare

------------------------------------------------------------
-- Crowds
------------------------------------------------------------

namespace PeerShare

namespace Tracker

namespace Server

variable {server : Server}
variable {events : List Event}
variable {remote : String}
variable {port : UInt16}
variable {file : FileRecord}
variable {n : Nat}

/- What a peer registers that tells no identity. -/
theorem payload_init_le
    (port : UInt16) :
    (Wire.Message.init "" port).payload.length ≤
      Wire.maxFrame := by
  simp only [Wire.Message.payload, Wire.Message.fields,
    Wire.Layout.introduction, Wire.Layout.seq,
    Wire.Layout.uint16, Wire.Layout.convert,
    Wire.Layout.text, Wire.Layout.refine, Wire.Layout.block,
    Wire.Layout.count, Wire.Layout.number, List.length_cons,
    List.length_append, Bytes.length_ofNat]
  decide

/- Whole messages are handled one after another. -/
theorem deliver_frames
    {id : ConnectionId}
    {peer : Option PeerId}
    (hGet :
      server.sessions.get? id =
        some { remote, buffer := [], peer })
    (messages : List Wire.Message)
    (hLength :
      ∀ m ∈ messages, m.payload.length ≤ Wire.maxFrame) :
    server.deliver id (messages.flatMap Wire.Message.frame) =
      let handled :=
        handleAll remote messages
          { peer, catalog := server.catalog }
      (handled.1.filterMap sentReply?,
        { catalog := handled.2.catalog
          sessions :=
            server.sessions.insert id
              { remote
                buffer := []
                peer := handled.2.peer } }) := by
  have hDivides :
      Wire.Frame.Divides
        ([] ++ messages.flatMap Wire.Message.frame)
        (messages.map Wire.Message.payload) [] .closed :=
    { eq_append := by
        rw [List.nil_append, List.append_nil,
          List.flatMap_map]
        rfl
      le_maxFrame := by
        intro payload hMem
        rcases List.mem_map.mp hMem with ⟨m, hMessage, rfl⟩
        exact hLength m hMessage
      isEnd := .cutHeader (by decide) }
  have hMessages :
      messagesOf (messages.map Wire.Message.payload) =
        messages := by
    clear hDivides
    unfold messagesOf
    rw [List.filterMap_map]
    induction messages with
    | nil => rfl
    | cons m messages ih =>
        rcases List.forall_mem_cons.mp hLength with
          ⟨hFirst, hLater⟩
        have hDecode := Wire.Message.decode_payload
          (Wire.Frame.lt_of_le_maxFrame hFirst)
        rw [List.filterMap_cons, ih hLater]
        simp only [Function.comp_apply, hDecode,
          Except.toOption]
  have hDeliver := deliver_of_divides hGet hDivides
  rw [hMessages] at hDeliver
  exact hDeliver.trans (by rw [if_pos rfl]; rfl)

/-
  Somebody connects, introduces itself and sends a request.
-/
theorem exists_arrival
    (h : IsReachable server events)
    (id : ConnectionId)
    {m : Wire.Message}
    (hFree : server.sessions.get? id = none)
    (hRequest : ∀ identity port, m ≠ .init identity port)
    (hLength : m.payload.length ≤ Wire.maxFrame)
    (remote : String)
    (port : UInt16) :
    ∃ events',
      IsReachable
        { catalog :=
            (serve server.catalog.nextPeer m
              (server.catalog.register remote port).2).2
          sessions :=
            server.sessions.insert id
              { remote
                buffer := []
                peer := some server.catalog.nextPeer } }
        events' := by
  have hConnected :=
    h.step (e := .connect id remote)
      (by
        simp [Event.canHappen, isConnected, Table.contains,
          hFree])
  have hBrought :=
    hConnected.step
      (e := .deliver id
        ([Wire.Message.init "" port, m].flatMap
          Wire.Message.frame)) rfl
  have hGet :
      (server.connect id remote).sessions.get? id =
        some { remote, buffer := [], peer := none } :=
    Table.get?_insert_self _ _ _
  have hDeliver := deliver_frames hGet [.init "" port, m]
    (by simp [payload_init_le, hLength])
  simp only [after, hDeliver] at hBrought
  cases m with
  | init identity port => exact absurd rfl (hRequest _ _)
  | _ =>
      simp only [connect, Table.insert_insert_self]
        at hBrought
      exact ⟨_, hBrought⟩

/- A peer that holds every chunk of a file, and of no other. -/
def fullHolder
    (remote : String)
    (port : UInt16)
    (file : FileRecord) : PeerRecord where
  identity := remote
  port := port
  holdings :=
    Table.empty.insert file.name
      (ChunkSet.full file.chunkCount)

/- The entry of such a peer in an answer. -/
def fullEntry
    (remote : String)
    (port : UInt16)
    (file : FileRecord) : Wire.PeerEntry where
  identity := remote
  port := port
  bitfield := (ChunkSet.full file.chunkCount).toWire

/-
  Whether a number of peers hold all of a file, and the
  first of them is still connected.
-/
structure Crowd
    (server : Server)
    (remote : String)
    (port : UInt16)
    (file : FileRecord)
    (n : Nat) : Prop where
  file_eq :
    server.catalog.files.get? file.name = some file
  entries_eq :
    server.catalog.peers.entries =
      (List.range n).map fun peer =>
        (peer, fullHolder remote port file)
  nextPeer_eq : server.catalog.nextPeer = n
  session_eq :
    server.sessions.get? 0 =
      some { remote, buffer := [], peer := some 0 }
  free :
    ∀ id, n ≤ id → server.sessions.get? id = none

/- The file is published by the first of the crowd. -/
theorem exists_crowd_of_one
    (hConsistent : file.IsConsistent)
    (hPublish :
      (Wire.Message.publish file).payload.length ≤
        Wire.maxFrame)
    (remote : String)
    (port : UInt16) :
    ∃ server events,
      IsReachable server events ∧
        server.Crowd remote port file 1 := by
  rcases exists_arrival .start 0 rfl (by simp) hPublish
    remote port with ⟨events, hReachable⟩
  have hServe :
      (serve 0 (.publish file)
            (Catalog.empty.register remote port).2).2 =
        { files := Table.empty.insert file.name file
          peers :=
            Table.empty.insert 0 (fullHolder remote port file)
          nextPeer := 1 } := by
    have hFault := fileFault?_eq_none_iff.mpr hConsistent
    simp only [serve, Catalog.register, Catalog.publish,
      hFault, Catalog.empty, Table.get?_insert_self,
      Table.contains, Table.get?_empty, Option.isSome_none,
      Table.insert_insert_self]
    rfl
  refine ⟨_, events, hReachable, ?_⟩
  simp only [start, show Catalog.empty.nextPeer = 0 from rfl,
    hServe]
  exact {
    file_eq := Table.get?_insert_self _ _ _
    entries_eq := rfl
    nextPeer_eq := rfl
    session_eq := Table.get?_insert_self _ _ _
    free := fun id hLe =>
      Table.get?_insert_of_ne _ _ (Nat.ne_of_gt hLe) }

/- Whoever joins the crowd says that it holds all chunks. -/
theorem exists_crowd_succ
    (h : IsReachable server events)
    (hCrowd : server.Crowd remote port file n)
    (hPos : 0 < n)
    (hHoldings :
      (Wire.Message.holdings file.name
          (ChunkSet.full file.chunkCount).toWire
            ).payload.length ≤
        Wire.maxFrame) :
    ∃ server' events',
      IsReachable server' events' ∧
        server'.Crowd remote port file (n + 1) := by
  rcases exists_arrival h n
    (hCrowd.free n (Nat.le_refl n)) (by simp) hHoldings remote
    port with ⟨events', hReachable⟩
  have hFull :
      ChunkSet.ofBytes (ChunkSet.full file.chunkCount).toWire
          file.chunkCount =
        ChunkSet.full file.chunkCount := by
    have hWire := ChunkSet.ofBytes_toWire
      (ChunkSet.full file.chunkCount)
    rwa [ChunkSet.chunkCount_full] at hWire
  have hServe :
      (serve n
            (.holdings file.name
              (ChunkSet.full file.chunkCount).toWire)
            (server.catalog.register remote port).2).2 =
        { files := server.catalog.files
          peers :=
            server.catalog.peers.insert n
              (fullHolder remote port file)
          nextPeer := n + 1 } := by
    simp only [serve, Catalog.register, Catalog.update,
      hCrowd.file_eq, hCrowd.nextPeer_eq, hFull,
      Table.get?_insert_self, Table.insert_insert_self]
    rfl
  have hBefore :
      ∀ e ∈ server.catalog.peers.entries,
        Keyed.before e.1 n = true := by
    intro e hMem
    rw [hCrowd.entries_eq, List.mem_map] at hMem
    rcases hMem with ⟨peer, hPeer, rfl⟩
    simpa [Keyed.before, Keyed.code, codeLt] using hPeer
  refine ⟨_, events', hReachable, ?_⟩
  rw [hCrowd.nextPeer_eq, hServe]
  exact {
    file_eq := hCrowd.file_eq
    entries_eq := by
      rw [Table.entries_insert_of_before _ hBefore,
        hCrowd.entries_eq, List.range_succ, List.map_append]
      rfl
    nextPeer_eq := rfl
    session_eq :=
      (Table.get?_insert_of_ne _ _ (Nat.ne_of_lt hPos)).trans
        hCrowd.session_eq
    free := fun id hLe =>
      (Table.get?_insert_of_ne _ _ (Nat.ne_of_gt hLe)).trans
        (hCrowd.free id (Nat.le_of_succ_le hLe)) }

/- A crowd grows to any size. -/
theorem exists_crowd
    (hConsistent : file.IsConsistent)
    (hPublish :
      (Wire.Message.publish file).payload.length ≤
        Wire.maxFrame)
    (hHoldings :
      (Wire.Message.holdings file.name
          (ChunkSet.full file.chunkCount).toWire
            ).payload.length ≤
        Wire.maxFrame)
    (remote : String)
    (port : UInt16)
    (n : Nat) :
    ∃ server events,
      IsReachable server events ∧
        server.Crowd remote port file (n + 1) := by
  induction n with
  | zero =>
      exact exists_crowd_of_one hConsistent hPublish remote port
  | succ n ih =>
      rcases ih with ⟨server, events, hReachable, hCrowd⟩
      exact exists_crowd_succ hReachable hCrowd
        (Nat.succ_pos n) hHoldings

/- Who asks is answered with everybody in the crowd. -/
theorem Crowd.deliver_request
    (h : server.Crowd remote port file n)
    (hChunks : 0 < file.chunkCount)
    (hLength :
      (Wire.Message.request file.name).payload.length ≤
        Wire.maxFrame) :
    (server.deliver 0
        (Wire.Message.request file.name).frame).1 =
      [.answer file
        (List.replicate n (fullEntry remote port file))] := by
  have hListing :
      (fullHolder remote port file).listing? file.name =
        some (fullEntry remote port file) := by
    have hHolding :
        (fullHolder remote port file).holding? file.name =
          some (ChunkSet.full file.chunkCount) :=
      Table.get?_insert_self _ _ _
    have hSome :
        (ChunkSet.full file.chunkCount).isEmpty = false := by
      obtain ⟨k, hk⟩ := Nat.exists_eq_succ_of_ne_zero
        (Nat.ne_of_gt hChunks)
      rw [hk]
      simp [ChunkSet.isEmpty, ChunkSet.full]
    unfold PeerRecord.listing?
    rw [hHolding]
    simp only [hSome]
    rfl
  have hEntries :
      server.catalog.peers.values.filterMap
          (·.listing? file.name) =
        List.replicate n (fullEntry remote port file) := by
    rw [Table.values, h.entries_eq, List.map_map,
      List.filterMap_map]
    have hConst :
        (PeerRecord.listing? · file.name) ∘
            (Prod.snd ∘ fun peer : PeerId =>
              (peer, fullHolder remote port file)) =
          fun _ => some (fullEntry remote port file) :=
      funext fun _ => hListing
    rw [hConst]
    simp [List.map_const']
  have hAnswer :
      server.catalog.answerTo file.name =
        .answer file
          (List.replicate n (fullEntry remote port file)) := by
    simp only [Catalog.answerTo, Catalog.query, h.file_eq,
      hEntries]
  have hDeliver := deliver_frames h.session_eq
    [.request file.name] (by simpa using hLength)
  rw [List.flatMap_singleton] at hDeliver
  rw [hDeliver]
  simp only [handleAll, dispatch, serve_request, hAnswer]
  rfl

/- A large file with the digests of some chunks. -/
def crowdedFile
    (chunkCount : Nat) : FileRecord where
  name := "a"
  size := 1048576000
  digest := Digest.ofBytes []
  chunkDigests :=
    List.replicate chunkCount (Digest.ofBytes [])

theorem chunkCount_crowdedFile
    (n : Nat) :
    (crowdedFile n).chunkCount = n :=
  List.length_replicate

/-
  The answer that lists all of 8014 peers is refused by who
  has asked for it.
-/
theorem exists_answer_too_large :
    let file := crowdedFile 65536
    ∃ server events,
      let r : Wire.Message :=
        .answer file
          (List.replicate 8014
            (fullEntry "127.0.0.1" 1 file))
      IsReachable server events ∧
        (server.deliver 0
            (Wire.Message.request "a").frame).1 = [r] ∧
        r.payload.length = 67113716 ∧
        (Wire.Receiver.start [.bytes r.frame]).receive.1 =
          .error (.frameTooLarge 67113716) := by
  intro file
  have hName : (Utf8.encode file.name).length = 1 := by
    decide
  have hConsistent : file.IsConsistent := by
    refine ⟨(by decide : (1048576000 : UInt64) ≠ 0), ?_⟩
    rw [chunkCount_crowdedFile]
    exact (by decide :
      65536 =
        Chunking.chunkCount (1048576000 : UInt64).toNat)
  have hPublish :
      (Wire.Message.publish file).payload.length =
        1310758 := by
    rw [Wire.Message.length_payload_publish, hName,
      chunkCount_crowdedFile]
  have hWire :
      (ChunkSet.full file.chunkCount).toWire.length =
        8192 := by
    rw [chunkCount_crowdedFile,
      ChunkSet.length_toWire_full (by decide)]
  have hHoldings :
      (Wire.Message.holdings file.name
          (ChunkSet.full file.chunkCount).toWire
            ).payload.length ≤
        Wire.maxFrame := by
    simp only [Wire.Message.payload, Wire.Message.fields,
      Wire.Layout.holdings, Wire.Layout.seq,
      Wire.Layout.text, Wire.Layout.refine,
      Wire.Layout.block, Wire.Layout.count,
      Wire.Layout.number, List.length_cons,
      List.length_append, Bytes.length_ofNat, hName, hWire]
    decide
  have hSize :
      (fullEntry "127.0.0.1" 1 file).size = 8211 := by
    have hIdentity :
        (Utf8.encode "127.0.0.1").length = 9 := by
      decide
    simp only [Wire.PeerEntry.size, fullEntry, hWire,
      hIdentity]
  have hAnswer :
      (Wire.Message.answer file
          (List.replicate 8014
            (fullEntry "127.0.0.1" 1 file))
              ).payload.length =
        67113716 := by
    rw [Wire.Message.length_payload_answer, hPublish,
      List.map_replicate, List.sum_replicate_nat, hSize]
  rcases exists_crowd hConsistent (by rw [hPublish]; decide)
    hHoldings "127.0.0.1" 1 8013 with
    ⟨server, events, hReachable, hCrowd⟩
  have hReply := hCrowd.deliver_request
    (by rw [chunkCount_crowdedFile]; decide) (by decide)
  refine ⟨server, events, hReachable, hReply, hAnswer, ?_⟩
  have hRefused :=
    Wire.Message.receive_frame_of_lt
      (m :=
        .answer file
          (List.replicate 8014 (fullEntry "127.0.0.1" 1 file)))
      (by rw [hAnswer]; decide) (by rw [hAnswer]; decide)
  rwa [hAnswer] at hRefused

end Server

end Tracker

end PeerShare
