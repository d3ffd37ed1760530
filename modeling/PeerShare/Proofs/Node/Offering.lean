import Mathlib.Logic.Relation
import PeerShare.Proofs.Node.Sharing

/-
  What a node does to the files that wait for the tracker,
  and what it tells the tracker.

  A file waits from the moment its publication is sent.  No
  other event makes a file wait or lets it wait no longer,
  since a file that waits is not fetched.

  Key definitions include:
    * `Downloads.IsWithin`
    * `Node.Quiet`
    * `Node.IsApart`
    * `Node.Tells`
    * `Node.Event.isLocal`

  Key theorems include:
    * `Node.quiet_handleAnswer`
    * `Node.quiet_tick`
    * `Node.tells_after`
-/

------------------------------------------------------------
-- Files That Are Fetched
------------------------------------------------------------

namespace PeerShare

namespace Downloads

/- Whether no file is fetched that was not fetched before. -/
def IsWithin
    (d' d : Downloads) : Prop :=
  ∀ name,
    d.files.get? name = none → d'.files.get? name = none

namespace IsWithin

variable {d d' d'' : Downloads}

theorem refl
    (d : Downloads) :
    d.IsWithin d :=
  fun _ h => h

theorem trans
    (h : d''.IsWithin d')
    (h' : d'.IsWithin d) :
    d''.IsWithin d :=
  fun name hNone => h name (h' name hNone)

/- The entry of a file that is fetched may be another. -/
theorem set
    {name : String}
    {t t' : Transfer}
    (h : d.transfer? name = some t) :
    (d.set name t').IsWithin d := by
  intro other hNone
  have hOther : other ≠ name := by
    rintro rfl
    rw [transfer?_eq_some_iff.mp h] at hNone
    cases hNone
  exact (Table.get?_insert_of_ne _ _ hOther).trans hNone

theorem discard
    (d : Downloads)
    (name : String) :
    (d.discard name).2.IsWithin d := by
  intro other hNone
  unfold Downloads.discard
  dsimp only
  rw [Table.get?_erase, hNone]
  exact ite_self none

theorem applyPeers
    (d : Downloads)
    (name : String)
    (peers : List (Endpoint × Bytes)) :
    (d.applyPeers name peers).2.IsWithin d := by
  unfold Downloads.applyPeers
  split
  · exact refl d
  · rename_i t hGet
    exact set hGet

/- A transfer starts just if its file was requested. -/
theorem start
    (d : Downloads)
    (t : Transfer) :
    (d.start t).2.IsWithin d := by
  unfold Downloads.start
  split
  · rename_i hAwaiting
    intro other hNone
    have hOther : other ≠ t.name := by
      rintro rfl
      rw [isAwaiting, hNone] at hAwaiting
      cases hAwaiting
    exact (Table.get?_insert_of_ne _ _ hOther).trans hNone
  · exact refl d

theorem accept
    (d : Downloads)
    (name : String)
    (index : UInt16)
    (data : Bytes)
    (sender : Endpoint)
    (now : Moment)
    (log : TransferLog) :
    (d.accept name index data sender now log).2.1.IsWithin
      d := by
  cases hGet : d.transfer? name with
  | none =>
      rw [accept_eq_unknown hGet]
      exact refl d
  | some t =>
      rw [accept_eq hGet]
      exact set hGet

theorem enqueue
    {name : String}
    {index : UInt16}
    {data : Bytes}
    (h : d.enqueue name index data = .ok d') :
    d'.IsWithin d := by
  unfold Downloads.enqueue at h
  split at h
  · cases h
    exact refl d
  · rename_i t hGet
    split at h
    · cases h
    · cases h
      exact set hGet

theorem foldl_markPersisted
    (d : Downloads)
    (name : String)
    (indices : List UInt16) :
    (indices.foldl
        (fun d index => d.markPersisted name index)
        d).IsWithin d := by
  induction indices generalizing d with
  | nil => exact refl d
  | cons index indices ih =>
      refine (ih _).trans ?_
      dsimp only
      unfold markPersisted
      split
      · exact refl d
      · rename_i t hGet
        exact set hGet

theorem perform
    {name : String}
    {position : Nat}
    {index : UInt16}
    {disk disk' : Disk}
    (h : d.perform name position disk = some (index, d', disk')) :
    d'.IsWithin d := by
  rcases perform_eq_some_iff.mp h with
    ⟨t, w, w', hGet, -, -, rfl⟩
  exact set hGet

theorem failWrite
    (d : Downloads)
    (name : String)
    (position written : Nat)
    (disk : Disk) :
    (d.failWrite name position written disk).1.IsWithin d := by
  unfold Downloads.failWrite
  split
  · exact refl d
  · rename_i t hGet
    split
    · exact refl d
    · split
      · exact refl d
      · exact set hGet

theorem tick
    (d : Downloads)
    (now : Moment)
    (log : TransferLog) :
    (d.tick now log).2.IsWithin d := by
  intro name hNone
  rw [get?_tick, hNone]
  rfl

end IsWithin

end Downloads

end PeerShare

------------------------------------------------------------
-- Quiet Events
------------------------------------------------------------

namespace PeerShare

/- Whether a message neither publishes nor introduces. -/
def Wire.Message.isQuiet : Wire.Message → Bool
  | .init _ _ => false
  | .publish _ => false
  | _ => true

namespace Node

variable {node node' node'' : Node}
variable {described : List FileRecord}

theorem send_of_isConnected
    (h : node.isConnected = true)
    (m : Wire.Message) :
    node.send m =
      (true, { node with outbox := node.outbox ++ [m] }) :=
  if_pos h

theorem send_of_not_isConnected
    (h : ¬ node.isConnected = true)
    (m : Wire.Message) :
    node.send m = (false, node) :=
  if_neg h

/-
  Whether a node serves what another state of it serves,
  unless it has asked the tracker to remove the file.
-/
def ServesFor
    (node node' : Node) : Prop :=
  node.isConnected = true →
    ∀ name,
      node.offers.published.contains name = true →
        node'.offers.published.contains name = true ∨
          .remove name ∈ node'.outbox

theorem ServesFor.trans
    (h : node.ServesFor node')
    (h' : node'.ServesFor node'')
    (hConnected : node'.isConnected = node.isConnected)
    (hOutbox : node'.outbox ⊆ node''.outbox) :
    node.ServesFor node'' := by
  intro hOpen name hServed
  rcases h hOpen name hServed with hServed' | hRemoved
  · exact h' (hConnected.trans hOpen) name hServed'
  · exact Or.inr (hOutbox hRemoved)

/-
  Whether nothing comes to wait for the tracker or to be
  fetched, nothing stops to wait, and nothing is published.
  What is served no longer is removed at the tracker.
-/
structure Quiet
    (node node' : Node) : Prop where
  isConnected_eq : node'.isConnected = node.isConnected
  pending_eq : node'.offers.pending = node.offers.pending
  serves : node.ServesFor node'
  exists_sent :
    ∃ sent,
      node'.outbox = node.outbox ++ sent ∧
        ∀ m ∈ sent, m.isQuiet = true
  isWithin : node'.downloads.IsWithin node.downloads

namespace Quiet

theorem of_downloads
    (hConnected : node'.isConnected = node.isConnected)
    (hOffers : node'.offers = node.offers)
    (hOutbox : node'.outbox = node.outbox)
    (hWithin : node'.downloads.IsWithin node.downloads) :
    node.Quiet node' where
  isConnected_eq := hConnected
  pending_eq := congrArg Offers.pending hOffers
  serves := fun _ _ hServed => Or.inl (hOffers ▸ hServed)
  exists_sent := ⟨[], by rw [hOutbox, List.append_nil], by simp⟩
  isWithin := hWithin

theorem refl
    (node : Node) :
    node.Quiet node :=
  of_downloads rfl rfl rfl (.refl _)

theorem trans
    (h : node.Quiet node')
    (h' : node'.Quiet node'') :
    node.Quiet node'' where
  isConnected_eq := h'.isConnected_eq.trans h.isConnected_eq
  pending_eq := h'.pending_eq.trans h.pending_eq
  serves := by
    apply h.serves.trans h'.serves h.isConnected_eq
    rcases h'.exists_sent with ⟨sent', hOutbox', -⟩
    rw [hOutbox']
    exact List.subset_append_left _ _
  exists_sent := by
    rcases h.exists_sent with ⟨sent, hOutbox, hSent⟩
    rcases h'.exists_sent with ⟨sent', hOutbox', hSent'⟩
    refine ⟨sent ++ sent', ?_,
      List.forall_mem_append.mpr ⟨hSent, hSent'⟩⟩
    rw [hOutbox', hOutbox, List.append_assoc]
  isWithin := h'.isWithin.trans h.isWithin

/- Quiet messages may be sent. -/
theorem send
    (node : Node)
    {m : Wire.Message}
    (hQuiet : m.isQuiet = true) :
    node.Quiet (node.send m).2 := by
  unfold Node.send
  split
  · exact ⟨rfl, rfl, fun _ _ => Or.inl,
      ⟨[m], rfl, by simpa using hQuiet⟩, .refl _⟩
  · exact refl node

theorem sendAll
    (node : Node)
    {messages : List Wire.Message}
    (hQuiet : ∀ m ∈ messages, m.isQuiet = true) :
    node.Quiet (node.sendAll messages) := by
  induction messages generalizing node with
  | nil => exact refl node
  | cons m messages ih =>
      rcases List.forall_mem_cons.mp hQuiet with
        ⟨hFirst, hLater⟩
      have hSend := send node hFirst
      unfold Node.sendAll
      split
      · rename_i node' hSent
        rw [hSent] at hSend
        exact hSend.trans (ih node' hLater)
      · rename_i node' hSent
        rw [hSent] at hSend
        exact hSend

end Quiet

theorem quiet_stopWriter
    (node : Node)
    (name : String)
    (w : ChunkWriter) :
    node.Quiet (node.stopWriter name w) :=
  .of_downloads rfl rfl rfl (.foldl_markPersisted _ _ _)

theorem quiet_stopWriter?
    (node : Node)
    (name : String)
    (w : Option ChunkWriter) :
    node.Quiet (node.stopWriter? name w) := by
  cases w with
  | none => exact .refl node
  | some w => exact quiet_stopWriter node name w

theorem quiet_discard
    (node : Node)
    (name : String) :
    node.Quiet (node.discard name) := by
  have hWithin := Downloads.IsWithin.discard node.downloads name
  unfold discard
  split
  · exact .refl node
  · rename_i download downloads hDiscard
    rw [hDiscard] at hWithin
    have hDropped : node.Quiet { node with downloads } :=
      .of_downloads rfl rfl rfl hWithin
    exact hDropped.trans (quiet_stopWriter? _ _ _)

theorem quiet_beginTransfer
    (node : Node)
    (file : FileRecord)
    (path : String)
    (peers : List (Endpoint × Bytes))
    (now : Moment) :
    node.Quiet (node.beginTransfer file path peers now) := by
  unfold beginTransfer
  split
  · rename_i e disk hCreate
    have hDisk : node.Quiet { node with disk } :=
      .of_downloads rfl rfl rfl (.refl _)
    exact hDisk.trans (quiet_discard _ _)
  · rename_i w disk hCreate
    dsimp only
    generalize ((Transfer.start file path now).withWriter
      w).applyPeers peers = t
    have hWithin := Downloads.IsWithin.start node.downloads t
    split
    · rename_i downloads hStart
      rw [hStart] at hWithin
      exact .of_downloads rfl rfl rfl hWithin
    · rename_i downloads hStart
      rw [hStart] at hWithin
      have hKept : node.Quiet { node with disk, downloads } :=
        .of_downloads rfl rfl rfl hWithin
      exact hKept.trans (quiet_stopWriter _ _ _)

/- An answer concerns just the files that are fetched. -/
theorem quiet_handleAnswer
    (node : Node)
    (file : FileRecord)
    (entries : List Wire.PeerEntry)
    (hosts : Hosts)
    (now : Moment) :
    node.Quiet (node.handleAnswer file entries hosts now) := by
  unfold handleAnswer
  dsimp only
  split
  · split
    · split
      · exact quiet_discard node _
      · exact quiet_beginTransfer node _ _ _ _
    · exact quiet_discard node _
  · exact .of_downloads rfl rfl rfl (.applyPeers _ _ _)

theorem quiet_takeChunk
    (node : Node)
    (name : String)
    (index : UInt16)
    (data : Bytes)
    (sender : Endpoint)
    (now : Moment) :
    node.Quiet (node.takeChunk name index data sender now) := by
  have hAccept :=
    Downloads.IsWithin.accept node.downloads name index data
      sender now node.log
  unfold takeChunk
  split
  · rename_i downloads log hAccepted
    rw [hAccepted] at hAccept
    split
    · rename_i downloads' hEnqueue
      exact .of_downloads rfl rfl rfl
        ((Downloads.IsWithin.enqueue hEnqueue).trans hAccept)
    · exact .of_downloads rfl rfl rfl hAccept
  · rename_i verdict downloads log _ hAccepted
    rw [hAccepted] at hAccept
    exact .of_downloads rfl rfl rfl hAccept

theorem quiet_serve
    (node : Node)
    (name : String)
    (indices : List UInt16) :
    node.Quiet (node.serve name indices).2 := by
  induction indices generalizing node with
  | nil => exact .refl node
  | cons index indices ih =>
      unfold serve
      split
      · exact ih node
      · rename_i datagram length hChunk
        have hLog :
            node.Quiet
              { node with log := node.log.recordUpload length } :=
          .of_downloads rfl rfl rfl (.refl _)
        exact hLog.trans (ih _)

theorem quiet_handleDatagram
    (node : Node)
    (sender : Endpoint)
    (bs : Bytes)
    (now : Moment) :
    node.Quiet (node.handleDatagram sender bs now).2 := by
  unfold handleDatagram
  split
  · split
    · exact .refl node
    · exact quiet_takeChunk node _ _ _ _ _
    · exact quiet_serve node _ _
  · exact .refl node

theorem quiet_performWrite
    (node : Node)
    (name : String)
    (position : Nat) :
    node.Quiet (node.performWrite name position) := by
  unfold performWrite
  split
  · exact .refl node
  · rename_i index downloads disk hPerform
    exact .of_downloads rfl rfl rfl
      ((Downloads.IsWithin.foldl_markPersisted _ _ _).trans
        (Downloads.IsWithin.perform hPerform))

theorem quiet_failWrite
    (node : Node)
    (name : String)
    (position written : Nat) :
    node.Quiet (node.failWrite name position written) :=
  .of_downloads rfl rfl rfl (.failWrite _ _ _ _ _)

/- The tracker is asked to remove the file, if it can be. -/
theorem quiet_remove
    (node : Node)
    (name : String) :
    node.Quiet (node.remove name).2 := by
  unfold remove
  cases hWithdraw : node.offers.withdraw? name with
  | none => exact .refl node
  | some offers =>
      unfold Offers.withdraw? at hWithdraw
      split at hWithdraw
      · cases hWithdraw
        let withdrawn : Node :=
          { node with
            offers :=
              { node.offers with
                published := node.offers.published.erase name } }
        by_cases hConnected : node.isConnected = true
        · have hSend :=
            @send_of_isConnected withdrawn hConnected
              (.remove name)
          dsimp only
          rw [hSend]
          refine ⟨rfl, rfl, ?_,
            ⟨[.remove name], rfl, by simp [Wire.Message.isQuiet]⟩,
            .refl _⟩
          intro _ other hServed
          by_cases hOther : other = name
          · subst hOther
            exact Or.inr
              (List.mem_append_right _ List.mem_cons_self)
          · refine Or.inl ?_
            dsimp only [withdrawn]
            rw [Table.contains, Table.get?_erase_of_ne _ hOther]
            exact hServed
        · have hSend :=
            @send_of_not_isConnected withdrawn hConnected
              (.remove name)
          dsimp only
          rw [hSend]
          exact ⟨rfl, rfl, fun h => absurd h hConnected,
            ⟨[], (List.append_nil _).symm, by simp⟩, .refl _⟩
      · cases hWithdraw

/-
  Whether every file that waits for the tracker is a file
  that is not fetched.
-/
def IsApart
    (node : Node) : Prop :=
  ∀ name,
    node.downloads.files.get? name = none ∨
      node.offers.pending.get? name = none

/- A complete file that does not wait comes to be served. -/
theorem quiet_finish
    (closes : Completed → Bool)
    {c : Completed}
    (hFree :
      node.offers.pending.get? c.file.record.name = none) :
    node.Quiet (finish closes node c) := by
  have hStop :=
    quiet_stopWriter? node c.file.record.name c.writer
  have hOffers :
      (node.offers.publish c.file).pending =
        node.offers.pending :=
    Table.erase_of_get?_eq_none hFree
  have hSame :
      (node.stopWriter? c.file.record.name c.writer).offers =
        node.offers := by
    cases c.writer <;> rfl
  unfold finish
  dsimp only
  split
  · refine hStop.trans
      ⟨rfl, ?_, ?_, ⟨[], by simp, by simp⟩, .refl _⟩
    · dsimp only
      rw [hSame, hOffers]
    · intro _ name hServed
      exact Or.inl
        (Table.contains_insert_of_contains hServed _ _)
  · exact hStop

theorem quiet_foldl_finish
    (closes : Completed → Bool)
    {completed : List Completed}
    (hFree :
      ∀ c ∈ completed,
        node.offers.pending.get? c.file.record.name = none) :
    node.Quiet (completed.foldl (finish closes) node) := by
  induction completed generalizing node with
  | nil => exact .refl node
  | cons c completed ih =>
      rcases List.forall_mem_cons.mp hFree with
        ⟨hFirst, hLater⟩
      have hFinish := quiet_finish closes hFirst
      apply hFinish.trans
      apply ih
      rw [hFinish.pending_eq]
      exact hLater

theorem isQuiet_of_mem_withdrawals
    {closes : Completed → Bool}
    {completed : List Completed}
    {m : Wire.Message}
    (h : m ∈ completed.filterMap (withdrawal? closes)) :
    m.isQuiet = true := by
  rcases List.mem_filterMap.mp h with ⟨c, -, hWithdrawal⟩
  unfold withdrawal? at hWithdrawal
  split at hWithdrawal
  · cases hWithdrawal
  · cases hWithdrawal
    rfl

/-
  A pass sends no publication, and a file that is complete
  has not been waiting.
-/
theorem quiet_tick
    (hBacked : node.IsBacked described)
    (hApart : node.IsApart)
    (closes : Completed → Bool)
    (now : Moment) :
    node.Quiet (node.tick closes now).2 := by
  have hWithin :=
    Downloads.IsWithin.tick node.downloads now node.log
  have hFree :
      ∀ c ∈ (node.downloads.tick now node.log).1.completed,
        node.offers.pending.get? c.file.record.name = none := by
    intro c hc
    rcases Downloads.Backed.of_mem_completed hBacked hc with
      ⟨name, t, hGet, rfl, -, -⟩
    rw [Downloads.transfer?_eq_some_iff] at hGet
    -- it has been fetched, so it has not been waiting
    exact (hApart _).resolve_left (by simp [hGet])
  have hMessages :
      ∀ m ∈ (node.downloads.tick now node.log).1.messages,
        m.isQuiet = true := by
    intro m hm
    rcases Downloads.exists_of_mem_messages_tick hm with
      ⟨name, t, -, hMem⟩
    have hRefresh := Transfer.mem_messages_tick hMem
    unfold Transfer.refreshMessages at hRefresh
    rcases List.mem_cons.mp hRefresh with rfl | hLast
    · rfl
    · rw [List.mem_singleton.mp hLast]
      rfl
  unfold tick
  split
  · split
    rename_i pass downloads hTick
    rw [hTick] at hWithin hFree hMessages
    have hPassed : node.Quiet { node with downloads } :=
      .of_downloads rfl rfl rfl hWithin
    have hFinish :=
      @quiet_foldl_finish { node with downloads } closes
        pass.completed hFree
    have hAll :
        ∀ m ∈
            pass.messages ++
              pass.completed.filterMap (withdrawal? closes),
          m.isQuiet = true :=
      List.forall_mem_append.mpr
        ⟨hMessages, fun _ => isQuiet_of_mem_withdrawals⟩
    exact (hPassed.trans hFinish).trans (.sendAll _ hAll)
  · exact .refl node

end Node

end PeerShare

------------------------------------------------------------
-- Local Events
------------------------------------------------------------

namespace PeerShare

namespace Node

/-
  What a node does of itself: something quiet; a file that
  it does not track comes to wait for the tracker, which is
  told; or a file that it does not offer is requested.
-/
inductive Tells : Node → Node → Prop where
  | quiet
      {node node' : Node}
      (h : node.Quiet node') :
      Tells node node'
  | publishes
      {node : Node}
      (file : LocalFile)
      (hFree : node.tracks file.record.name = false) :
      Tells node
        { node with
          offers := node.offers.await file
          outbox := node.outbox ++ [.publish file.record] }
  | requests
      {node : Node}
      (name : String)
      (now : Moment)
      (hFree : node.offers.contains name = false) :
      Tells node
        { node with
          downloads :=
            { files :=
                node.downloads.files.insert name
                  (.awaiting now) }
          outbox := node.outbox ++ [.request name] }

/-
  The events that come neither from the tracker nor from who
  stops the node.
-/
def Event.isLocal : Event → Bool
  | .receive _ _ _ => false
  | .stopListening => false
  | .disconnect => false
  | .shutDown => false
  | _ => true

variable {node : Node}
variable {described : List FileRecord}

theorem name_of_describeFile
    {name path : String}
    {record : FileRecord}
    (h : node.describeFile name path = .ok record) :
    record.name = name := by
  unfold describeFile at h
  split at h
  · cases h
  · dsimp only at h
    split at h
    · cases h
    · split at h
      · cases h
      · cases h
        rfl

theorem get?_of_contains_eq_false
    {name : String}
    (h : node.offers.contains name = false) :
    node.offers.pending.get? name = none := by
  rw [Offers.contains, Bool.or_eq_false_iff] at h
  exact Table.contains_eq_false_iff.mp h.1

theorem get?_of_tracks_eq_false
    {name : String}
    (h : node.tracks name = false) :
    node.offers.pending.get? name = none ∧
      node.downloads.files.get? name = none := by
  rw [tracks, Bool.or_eq_false_iff] at h
  exact ⟨get?_of_contains_eq_false h.1,
    Table.contains_eq_false_iff.mp h.2⟩

/- A file that the tracker is not told of does not wait. -/
theorem tells_publishFile
    (node : Node)
    (path : String) :
    Relation.ReflTransGen Tells node
      (node.publishFile path).2 := by
  unfold publishFile
  split
  · exact .refl
  · rename_i name hName
    split
    · exact .refl
    · rename_i hFree
      split
      · exact .refl
      · rename_i record hRecord
        rw [Bool.not_eq_true] at hFree
        rw [← name_of_describeFile hRecord] at hFree ⊢
        dsimp only
        let file : LocalFile := { record, path }
        let waiting : Node :=
          { node with offers := node.offers.await file }
        by_cases hConnected : node.isConnected = true
        · have hSend :=
            @send_of_isConnected waiting hConnected
              (.publish record)
          rw [hSend]
          exact .single (.publishes file hFree)
        · have hSend :=
            @send_of_not_isConnected waiting hConnected
              (.publish record)
          rw [hSend]
          apply Relation.ReflTransGen.single
          apply Tells.quiet
          refine
            ⟨rfl, ?_, fun h => absurd h hConnected,
              ⟨[], (List.append_nil _).symm, by simp⟩, .refl _⟩
          exact
            Table.erase_insert_of_get?_eq_none
              (get?_of_tracks_eq_false hFree).1 _

theorem tells_publishAll
    (node : Node)
    (paths : List String) :
    Relation.ReflTransGen Tells node
      (node.publishAll paths).2 := by
  induction paths generalizing node with
  | nil => exact .refl
  | cons path paths ih =>
      have hFile := node.tells_publishFile path
      unfold publishAll
      split
      · rename_i node' hPublished
        rw [hPublished] at hFile
        exact hFile.trans (ih node')
      · rename_i name node' hPublished
        rw [hPublished] at hFile
        exact hFile.trans (ih node')

theorem tells_publish
    (node : Node)
    (path : String) :
    Relation.ReflTransGen Tells node (node.publish path).2 := by
  have hFile := node.tells_publishFile path
  unfold publish
  split
  · exact .refl
  · split
    · rename_i hPublished
      rw [hPublished] at hFile
      exact hFile
    · rename_i hPublished
      rw [hPublished] at hFile
      exact hFile
  · split
    · exact .refl
    · exact node.tells_publishAll _

/- A request that is not sent is dropped. -/
theorem tells_request
    (node : Node)
    (name : String)
    (now : Moment) :
    Relation.ReflTransGen Tells node
      (node.request name now).2 := by
  unfold request
  split
  · exact .refl
  · rename_i hFree
    rw [Bool.not_eq_true] at hFree
    split
    · exact .refl
    · rename_i downloads hRequest
      unfold Downloads.request at hRequest
      split at hRequest
      · cases hRequest
      · cases hRequest
        let asking : Node :=
          { node with
            downloads :=
              { files :=
                  node.downloads.files.insert name
                    (.awaiting now) } }
        by_cases hConnected : node.isConnected = true
        · have hSend :=
            @send_of_isConnected asking hConnected
              (.request name)
          rw [hSend]
          exact .single (.requests name now hFree)
        · have hSend :=
            @send_of_not_isConnected asking hConnected
              (.request name)
          rw [hSend]
          apply Relation.ReflTransGen.single
          apply Tells.quiet
          dsimp only
          refine .of_downloads rfl rfl rfl ?_
          intro other hNone
          unfold Downloads.discard
          dsimp only
          rw [Table.get?_erase, Table.get?_insert, hNone]
          split <;> rfl

/-
  A local event is a row of such steps, as long as no file
  both waits and is fetched.
-/
theorem tells_after
    (hBacked : node.IsBacked described)
    (hApart : node.IsApart)
    {e : Event}
    (hLocal : e.isLocal = true) :
    Relation.ReflTransGen Tells node (node.after e) := by
  cases e with
  | publish path => exact node.tells_publish path
  | request name now => exact node.tells_request name now
  | remove name => exact .single (.quiet (quiet_remove _ _))
  | receive payload hosts now => cases hLocal
  | handleDatagram sender bs now =>
      exact .single (.quiet (quiet_handleDatagram _ _ _ _))
  | performWrite name position =>
      exact .single (.quiet (quiet_performWrite _ _ _))
  | failWrite name position written =>
      exact .single (.quiet (quiet_failWrite _ _ _ _))
  | tick closes now =>
      exact .single
        (.quiet (quiet_tick hBacked hApart closes now))
  | stopListening => cases hLocal
  | disconnect => cases hLocal
  | shutDown => cases hLocal

end Node

end PeerShare
