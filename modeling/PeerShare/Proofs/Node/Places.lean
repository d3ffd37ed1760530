import PeerShare.Proofs.Node.Offering

/-
  A file is in at most one place at a node.

  A file that waits for the tracker, a file that is served
  and a file that is fetched are three places for a name.
  Whatever happens to a node is a row of small moves, each
  of which puts a name into a place only when it is in no
  other, or takes it out of one place into another.

  Key definitions include:
    * `Downloads.IsNamed`
    * `Arranged`
    * `Node.Moves`
    * `Node.IsPossible`

  Key theorems include:
    * `Arranged.of_moves`
    * `Node.moves_tick`
    * `Node.moves_after`
    * `Node.IsPossible.arranged`
-/

------------------------------------------------------------
-- Names of Transfers
------------------------------------------------------------

namespace PeerShare

namespace Downloads

/- Whether every transfer is found under its own name. -/
def IsNamed
    (d : Downloads) : Prop :=
  ∀ name t, d.transfer? name = some t → t.name = name

namespace IsNamed

variable {d d' : Downloads}
variable {name : String}

theorem empty :
    Downloads.empty.IsNamed := by
  intro name t hGet
  cases hGet

/- Transfers may go on under their names. -/
theorem of_before
    (h : d.IsNamed)
    (hBefore :
      ∀ name t',
        d'.transfer? name = some t' →
          ∃ t, d.transfer? name = some t ∧ t'.name = t.name) :
    d'.IsNamed := by
  intro name t' hGet
  rcases hBefore name t' hGet with ⟨t, hOld, hName⟩
  exact hName.trans (h name t hOld)

theorem set
    {t : Transfer}
    (h : d.IsNamed)
    (hName : t.name = name) :
    (d.set name t).IsNamed := by
  intro other t' hGet
  rw [transfer?_set] at hGet
  split at hGet
  · rename_i hOther
    cases hGet
    exact hName.trans hOther.symm
  · exact h other t' hGet

theorem request
    (h : d.IsNamed)
    (name : String)
    (now : Moment) :
    (d.request name now).2.IsNamed := by
  intro other t hGet
  rw [transfer?_request] at hGet
  exact h other t hGet

theorem discard
    (h : d.IsNamed)
    (name : String) :
    (d.discard name).2.IsNamed := by
  intro other t hGet
  rw [transfer?_discard] at hGet
  split at hGet
  · cases hGet
  · exact h other t hGet

theorem start
    (h : d.IsNamed)
    (t : Transfer) :
    (d.start t).2.IsNamed := by
  intro other t' hGet
  rw [transfer?_start] at hGet
  split at hGet
  · rename_i hStarts
    cases hGet
    exact hStarts.1.symm
  · exact h other t' hGet

theorem applyPeers
    (h : d.IsNamed)
    (name : String)
    (peers : List (Endpoint × Bytes)) :
    (d.applyPeers name peers).2.IsNamed := by
  apply h.of_before
  intro other t' hGet
  rcases exists_before_applyPeers hGet with ⟨t, hOld, hSame⟩
  exact ⟨t, hOld, hSame.name_eq⟩

theorem arrive
    (h : d.IsNamed)
    (name : String)
    (index : UInt16)
    (data : Bytes)
    (sender : Endpoint)
    (now : Moment)
    (log : TransferLog) :
    (d.arrive name index data sender now log).IsNamed := by
  apply h.of_before
  intro other t' hGet
  rcases exists_before_arrive hGet with
    ⟨t, hOld, rfl | hArrives⟩
  · exact ⟨t', hOld, rfl⟩
  · exact ⟨t, hOld,
      congrArg FileRecord.name
        (Transfer.Continues.of_arrives hArrives).record_eq⟩

theorem foldl_markPersisted
    (h : d.IsNamed)
    (name : String)
    (indices : List UInt16) :
    (indices.foldl
        (fun d index => d.markPersisted name index)
        d).IsNamed := by
  induction indices generalizing d with
  | nil => exact h
  | cons index indices ih =>
      apply ih
      apply h.of_before
      intro other t' hGet
      rcases exists_before_markPersisted hGet with
        ⟨t, hOld, rfl | rfl⟩
      · exact ⟨t', hOld, rfl⟩
      · exact ⟨t, hOld,
          congrArg FileRecord.name
            (Transfer.Continues.markPersisted t index).record_eq⟩

theorem perform
    {position : Nat}
    {index : UInt16}
    {disk disk' : Disk}
    (h : d.IsNamed)
    (hPerform :
      d.perform name position disk = some (index, d', disk')) :
    d'.IsNamed := by
  rcases perform_eq_some_iff.mp hPerform with
    ⟨t, w, w', hGet, -, -, rfl⟩
  exact h.set (h name t hGet)

theorem failWrite
    (h : d.IsNamed)
    (name : String)
    (position written : Nat)
    (disk : Disk) :
    (d.failWrite name position written disk).1.IsNamed := by
  unfold Downloads.failWrite
  split
  · exact h
  · rename_i t hGet
    split
    · exact h
    · split
      · exact h
      · exact h.set (h name t hGet)

theorem tick
    (h : d.IsNamed)
    (now : Moment)
    (log : TransferLog) :
    (d.tick now log).2.IsNamed := by
  apply h.of_before
  intro name t' hGet
  rcases exists_before_tick hGet with ⟨t, hOld, -, hSame⟩
  exact ⟨t, hOld, hSame.name_eq⟩

/- A complete file is fetched no longer. -/
theorem get?_of_mem_completed
    {now : Moment}
    {log : TransferLog}
    {c : Completed}
    (h : d.IsNamed)
    (hCompleted : c ∈ (d.tick now log).1.completed) :
    (d.tick now log).2.files.get? c.file.record.name =
      none := by
  rcases exists_of_mem_completed_tick hCompleted with
    ⟨name, t, hGet, hMem⟩
  rcases Transfer.mem_completed_tick hMem with
    ⟨hComplete, hFile, -⟩
  have hName : c.file.record.name = name := by
    rw [hFile]
    exact h name t hGet
  rw [hName, get?_tick, transfer?_eq_some_iff.mp hGet,
    Option.bind_some, Download.tick,
    Transfer.tick_of_isComplete hComplete]
  rfl

end IsNamed

end Downloads

end PeerShare

------------------------------------------------------------
-- Places
------------------------------------------------------------

namespace PeerShare

/-
  Whether no name is in two places, and every entry is found
  under the name of its own file.
-/
structure Arranged
    (o : Offers)
    (d : Downloads) : Prop where
  pending_or_published :
    ∀ name,
      o.pending.get? name = none ∨
        o.published.get? name = none
  fetched_or_pending :
    ∀ name,
      d.files.get? name = none ∨ o.pending.get? name = none
  fetched_or_published :
    ∀ name,
      d.files.get? name = none ∨
        o.published.get? name = none
  name_of_pending :
    ∀ name file,
      o.pending.get? name = some file →
        file.record.name = name
  name_of_published :
    ∀ name file,
      o.published.get? name = some file →
        file.record.name = name
  isNamed : d.IsNamed

namespace Node

/-
  Small moves of a node, which concern the places alone.
  Log, disk and messages may be any.
-/
inductive Moves
    (node node' : Node) : Prop where
  /- Nothing but the files that are fetched changes. -/
  | fetches
      (hOffers : node'.offers = node.offers)
      (hWithin : node'.downloads.IsWithin node.downloads)
      (hNamed :
        node.downloads.IsNamed → node'.downloads.IsNamed)
  | requests
      (name : String)
      (now : Moment)
      (hFree : node.offers.contains name = false)
      (hOffers : node'.offers = node.offers)
      (hDownloads :
        node'.downloads = (node.downloads.request name now).2)
  | awaits
      (file : LocalFile)
      (hFree : node.tracks file.record.name = false)
      (hOffers : node'.offers = node.offers.await file)
      (hDownloads : node'.downloads = node.downloads)
  | confirms
      (name : String)
      (hOffers : node'.offers = node.offers.confirm name)
      (hDownloads : node'.downloads = node.downloads)
  | rejects
      (name : String)
      (hOffers : node'.offers = node.offers.reject name)
      (hDownloads : node'.downloads = node.downloads)
  | withdraws
      (name : String)
      (hOffers :
        node.offers.withdraw? name = some node'.offers)
      (hDownloads : node'.downloads = node.downloads)
  | serves
      (file : LocalFile)
      (hFree :
        node.downloads.files.get? file.record.name = none)
      (hOffers : node'.offers = node.offers.publish file)
      (hDownloads : node'.downloads = node.downloads)

end Node

namespace Arranged

variable {o : Offers}
variable {d d' : Downloads}

theorem empty :
    Arranged Offers.empty Downloads.empty where
  pending_or_published _ := Or.inl rfl
  fetched_or_pending _ := Or.inl rfl
  fetched_or_published _ := Or.inl rfl
  name_of_pending _ _ hGet := by cases hGet
  name_of_published _ _ hGet := by cases hGet
  isNamed := .empty

theorem of_isWithin
    (h : Arranged o d)
    (hWithin : d'.IsWithin d)
    (hNamed : d'.IsNamed) :
    Arranged o d' where
  pending_or_published := h.pending_or_published
  fetched_or_pending name :=
    (h.fetched_or_pending name).imp_left (hWithin name)
  fetched_or_published name :=
    (h.fetched_or_published name).imp_left (hWithin name)
  name_of_pending := h.name_of_pending
  name_of_published := h.name_of_published
  isNamed := hNamed

/- A file that is not offered may be requested. -/
theorem request
    {name : String}
    (h : Arranged o d)
    (hFree : o.contains name = false)
    (now : Moment) :
    Arranged o (d.request name now).2 := by
  rw [Offers.contains, Bool.or_eq_false_iff,
    Table.contains_eq_false_iff,
    Table.contains_eq_false_iff] at hFree
  have hOther :
      ∀ other,
        other ≠ name →
          (d.request name now).2.files.get? other =
            d.files.get? other := by
    intro other hNe
    unfold Downloads.request
    split
    · rfl
    · exact Table.get?_insert_of_ne _ _ hNe
  refine
    { h with
      fetched_or_pending := ?_
      fetched_or_published := ?_
      isNamed := h.isNamed.request name now }
  · intro other
    by_cases hNe : other = name
    · exact Or.inr (hNe ▸ hFree.1)
    · rw [hOther other hNe]
      exact h.fetched_or_pending other
  · intro other
    by_cases hNe : other = name
    · exact Or.inr (hNe ▸ hFree.2)
    · rw [hOther other hNe]
      exact h.fetched_or_published other

/- A file that is in no place may wait for the tracker. -/
theorem await
    {file : LocalFile}
    (h : Arranged o d)
    (hPublished :
      o.published.get? file.record.name = none)
    (hFetched : d.files.get? file.record.name = none) :
    Arranged (o.await file) d := by
  refine
    { h with
      pending_or_published := ?_
      fetched_or_pending := ?_
      name_of_pending := ?_ }
  · intro name
    by_cases hName : name = file.record.name
    · exact Or.inr (hName ▸ hPublished)
    · unfold Offers.await
      rw [Table.get?_insert_of_ne _ _ hName]
      exact h.pending_or_published name
  · intro name
    by_cases hName : name = file.record.name
    · exact Or.inl (hName ▸ hFetched)
    · unfold Offers.await
      rw [Table.get?_insert_of_ne _ _ hName]
      exact h.fetched_or_pending name
  · intro name file' hGet
    unfold Offers.await at hGet
    rw [Table.get?_insert] at hGet
    split at hGet
    · rename_i hName
      cases hGet
      exact (Table.sameKey_iff.mp hName).symm
    · exact h.name_of_pending name file' hGet

/- A file may wait no longer. -/
theorem reject
    (h : Arranged o d)
    (name : String) :
    Arranged (o.reject name) d := by
  have hErase :
      ∀ other,
        o.pending.get? other = none →
          (o.reject name).pending.get? other = none := by
    intro other hNone
    unfold Offers.reject
    rw [Table.get?_erase, hNone]
    exact ite_self none
  refine
    { h with
      pending_or_published := fun other =>
        (h.pending_or_published other).imp_left (hErase other)
      fetched_or_pending := fun other =>
        (h.fetched_or_pending other).imp_right (hErase other)
      name_of_pending := ?_ }
  intro other file hGet
  unfold Offers.reject at hGet
  rw [Table.get?_erase] at hGet
  split at hGet
  · cases hGet
  · exact h.name_of_pending other file hGet

/- A file may be served no longer. -/
theorem withdraw
    {o' : Offers}
    {name : String}
    (h : Arranged o d)
    (hWithdraw : o.withdraw? name = some o') :
    Arranged o' d := by
  unfold Offers.withdraw? at hWithdraw
  split at hWithdraw
  · cases hWithdraw
    have hErase :
        ∀ other,
          o.published.get? other = none →
            (o.published.erase name).get? other = none := by
      intro other hNone
      rw [Table.get?_erase, hNone]
      exact ite_self none
    refine
      { h with
        pending_or_published := fun other =>
          (h.pending_or_published other).imp_right
            (hErase other)
        fetched_or_published := fun other =>
          (h.fetched_or_published other).imp_right
            (hErase other)
        name_of_published := ?_ }
    intro other file hGet
    rw [Table.get?_erase] at hGet
    split at hGet
    · cases hGet
    · exact h.name_of_published other file hGet
  · cases hWithdraw

/-
  A file that is not fetched may be served, and waits no
  longer then.
-/
theorem publish
    {file : LocalFile}
    (h : Arranged o d)
    (hFetched : d.files.get? file.record.name = none) :
    Arranged (o.publish file) d := by
  have hRest := h.reject file.record.name
  refine
    { hRest with
      pending_or_published := ?_
      fetched_or_published := ?_
      name_of_published := ?_ }
  · intro name
    by_cases hName : name = file.record.name
    · rw [hName]
      exact Or.inl (Table.get?_erase_self _ _)
    · unfold Offers.publish
      rw [Table.get?_insert_of_ne _ _ hName]
      exact hRest.pending_or_published name
  · intro name
    by_cases hName : name = file.record.name
    · exact Or.inl (hName ▸ hFetched)
    · unfold Offers.publish
      rw [Table.get?_insert_of_ne _ _ hName]
      exact h.fetched_or_published name
  · intro name file' hGet
    unfold Offers.publish at hGet
    rw [Table.get?_insert] at hGet
    split at hGet
    · rename_i hName
      cases hGet
      exact (Table.sameKey_iff.mp hName).symm
    · exact h.name_of_published name file' hGet

/- Confirming a file that waits is serving it. -/
theorem confirm
    (h : Arranged o d)
    (name : String) :
    Arranged (o.confirm name) d := by
  unfold Offers.confirm
  split
  · exact h
  · rename_i file hGet
    have hName := h.name_of_pending name file hGet
    have hFetched : d.files.get? file.record.name = none := by
      rw [hName]
      exact (h.fetched_or_pending name).resolve_right
        (by simp [hGet])
    have hPublish := h.publish hFetched
    rw [Offers.publish, hName] at hPublish
    exact hPublish

/- Every small move keeps the places in order. -/
theorem of_moves
    {node node' : Node}
    (h : Arranged node.offers node.downloads)
    (hMoves : node.Moves node') :
    Arranged node'.offers node'.downloads := by
  cases hMoves with
  | fetches hOffers hWithin hNamed =>
      rw [hOffers]
      exact h.of_isWithin hWithin (hNamed h.isNamed)
  | requests name now hFree hOffers hDownloads =>
      rw [hOffers, hDownloads]
      exact h.request hFree now
  | awaits file hFree hOffers hDownloads =>
      rw [Node.tracks, Offers.contains, Bool.or_eq_false_iff,
        Bool.or_eq_false_iff] at hFree
      rcases hFree with ⟨⟨-, hPublished⟩, hFetched⟩
      rw [hOffers, hDownloads]
      exact h.await (Table.contains_eq_false_iff.mp hPublished)
        (Table.contains_eq_false_iff.mp hFetched)
  | confirms name hOffers hDownloads =>
      rw [hOffers, hDownloads]
      exact h.confirm name
  | rejects name hOffers hDownloads =>
      rw [hOffers, hDownloads]
      exact h.reject name
  | withdraws name hOffers hDownloads =>
      rw [hDownloads]
      exact h.withdraw hOffers
  | serves file hFree hOffers hDownloads =>
      rw [hOffers, hDownloads]
      exact h.publish hFree

theorem of_row
    {node node' : Node}
    (h : Arranged node.offers node.downloads)
    (hRow : Relation.ReflTransGen Node.Moves node node') :
    Arranged node'.offers node'.downloads := by
  induction hRow with
  | refl => exact h
  | tail _ hLast ih => exact ih.of_moves hLast

end Arranged

end PeerShare

------------------------------------------------------------
-- Moves That Only Fetch
------------------------------------------------------------

namespace PeerShare

namespace Node

variable {node node' : Node}

theorem Moves.of_sameFiles
    (hSame : node.SameFiles node')
    (hOffers : node'.offers = node.offers) :
    node.Moves node' := by
  have hDownloads := hSame.downloads_eq
  refine .fetches hOffers ?_ ?_
  · rw [hDownloads]
    exact .refl _
  · rw [hDownloads]
    exact id

theorem offers_send
    (node : Node)
    (m : Wire.Message) :
    (node.send m).2.offers = node.offers := by
  unfold send
  split <;> rfl

theorem offers_sendAll
    (node : Node)
    (messages : List Wire.Message) :
    (node.sendAll messages).offers = node.offers := by
  induction messages generalizing node with
  | nil => rfl
  | cons m messages ih =>
      have hSend := node.offers_send m
      unfold sendAll
      split
      · rename_i node' hSent
        rw [hSent] at hSend
        exact (ih node').trans hSend
      · rename_i node' hSent
        rw [hSent] at hSend
        exact hSend

theorem moves_stopWriter
    (node : Node)
    (name : String)
    (w : ChunkWriter) :
    node.Moves (node.stopWriter name w) :=
  .fetches rfl (.foldl_markPersisted _ _ _)
    fun h => h.foldl_markPersisted _ _

theorem moves_stopWriter?
    (node : Node)
    (name : String)
    (w : Option ChunkWriter) :
    node.Moves (node.stopWriter? name w) := by
  cases w with
  | none => exact .of_sameFiles (.refl node) rfl
  | some w => exact node.moves_stopWriter name w

theorem moves_discard
    (node : Node)
    (name : String) :
    Relation.ReflTransGen Moves node (node.discard name) := by
  unfold discard
  split
  · exact .refl
  · rename_i download downloads hDiscard
    have hWithin :=
      Downloads.IsWithin.discard node.downloads name
    have hNamed :
        node.downloads.IsNamed →
          (node.downloads.discard name).2.IsNamed :=
      fun h => h.discard name
    rw [hDiscard] at hWithin hNamed
    have hDropped : node.Moves { node with downloads } :=
      .fetches rfl hWithin hNamed
    exact (Relation.ReflTransGen.single hDropped).tail
      (moves_stopWriter? _ _ _)

theorem moves_beginTransfer
    (node : Node)
    (file : FileRecord)
    (path : String)
    (peers : List (Endpoint × Bytes))
    (now : Moment) :
    Relation.ReflTransGen Moves node
      (node.beginTransfer file path peers now) := by
  unfold beginTransfer
  split
  · rename_i e disk hCreate
    have hDisk : node.Moves { node with disk } :=
      .fetches rfl (.refl _) id
    exact (Relation.ReflTransGen.single hDisk).trans
      (moves_discard _ _)
  · rename_i w disk hCreate
    dsimp only
    generalize ((Transfer.start file path now).withWriter
      w).applyPeers peers = t
    have hWithin := Downloads.IsWithin.start node.downloads t
    have hNamed :
        node.downloads.IsNamed →
          (node.downloads.start t).2.IsNamed :=
      fun h => h.start t
    split
    · rename_i downloads hStart
      rw [hStart] at hWithin hNamed
      exact .single (.fetches rfl hWithin hNamed)
    · rename_i downloads hStart
      rw [hStart] at hWithin hNamed
      have hKept : node.Moves { node with disk, downloads } :=
        .fetches rfl hWithin hNamed
      exact (Relation.ReflTransGen.single hKept).tail
        (moves_stopWriter _ _ _)

theorem moves_handleAnswer
    (node : Node)
    (file : FileRecord)
    (entries : List Wire.PeerEntry)
    (hosts : Hosts)
    (now : Moment) :
    Relation.ReflTransGen Moves node
      (node.handleAnswer file entries hosts now) := by
  unfold handleAnswer
  dsimp only
  split
  · split
    · split
      · exact node.moves_discard _
      · exact node.moves_beginTransfer _ _ _ _
    · exact node.moves_discard _
  · exact .single
      (.fetches rfl (.applyPeers _ _ _)
        fun h => h.applyPeers _ _)

theorem moves_takeChunk
    (node : Node)
    (name : String)
    (index : UInt16)
    (data : Bytes)
    (sender : Endpoint)
    (now : Moment) :
    node.Moves (node.takeChunk name index data sender now) := by
  have hSame :=
    node.sameFiles_takeChunk name index data sender now
  have hOffers :
      (node.takeChunk name index data sender now).offers =
        node.offers := by
    unfold takeChunk
    split
    · split <;> rfl
    · rfl
  refine .fetches hOffers
    (node.quiet_takeChunk name index data sender now).isWithin
    ?_
  rw [hSame.downloads_eq]
  exact fun h => h.arrive _ _ _ _ _ _

theorem offers_serve
    (node : Node)
    (name : String)
    (indices : List UInt16) :
    (node.serve name indices).2.offers = node.offers := by
  induction indices generalizing node with
  | nil => rfl
  | cons index indices ih =>
      unfold serve
      split
      · exact ih node
      · exact ih _

theorem moves_handleDatagram
    (node : Node)
    (sender : Endpoint)
    (bs : Bytes)
    (now : Moment) :
    node.Moves (node.handleDatagram sender bs now).2 := by
  unfold handleDatagram
  split
  · split
    · exact .of_sameFiles (.refl node) rfl
    · exact node.moves_takeChunk _ _ _ _ _
    · exact .of_sameFiles (node.sameFiles_serve _ _)
        (node.offers_serve _ _)
  · exact .of_sameFiles (.refl node) rfl

theorem moves_performWrite
    (node : Node)
    (name : String)
    (position : Nat) :
    node.Moves (node.performWrite name position) := by
  unfold performWrite
  split
  · exact .of_sameFiles (.refl node) rfl
  · rename_i index downloads disk hPerform
    exact .fetches rfl
      ((Downloads.IsWithin.foldl_markPersisted _ _ _).trans
        (Downloads.IsWithin.perform hPerform))
      fun h => (h.perform hPerform).foldl_markPersisted _ _

end Node

end PeerShare

------------------------------------------------------------
-- Moves of Offers
------------------------------------------------------------

namespace PeerShare

namespace Node

/- Messages of the tracker, whether expected or not. -/
theorem moves_handleMessage
    (node : Node)
    (m : Wire.Message)
    (hosts : Hosts)
    (now : Moment) :
    Relation.ReflTransGen Moves node
      (node.handleMessage m hosts now) := by
  unfold handleMessage
  split
  · exact .single (.confirms _ rfl rfl)
  · exact .refl
  · exact .single (.rejects _ rfl rfl)
  · rename_i name
    have hReject :
        node.Moves
          { node with offers := node.offers.reject name } :=
      .rejects name rfl rfl
    exact (Relation.ReflTransGen.single hReject).trans
      (moves_discard _ _)
  · exact node.moves_handleAnswer _ _ _ _
  · exact .refl

theorem moves_receive
    (node : Node)
    (payload : Bytes)
    (hosts : Hosts)
    (now : Moment) :
    Relation.ReflTransGen Moves node
      (node.receive payload hosts now) := by
  unfold receive
  split
  · split
    · exact .refl
    · exact node.moves_handleMessage _ _ _
  · exact .refl

/- A file that the tracker cannot be told of is taken back. -/
theorem moves_publishFile
    (node : Node)
    (path : String) :
    Relation.ReflTransGen Moves node
      (node.publishFile path).2 := by
  unfold publishFile
  split
  · exact .refl
  · rename_i name hName
    split
    · exact .refl
    · rename_i hFree
      split
      · exact .refl
      · rename_i record hRecord
        rw [Bool.not_eq_true] at hFree
        rw [← name_of_describeFile hRecord] at hFree ⊢
        dsimp only
        let file : LocalFile := { record, path }
        let waiting : Node :=
          { node with offers := node.offers.await file }
        have hAwait : node.Moves waiting :=
          .awaits file hFree rfl rfl
        have hSend :=
          sameFiles_send waiting (.publish record)
        have hOffers := offers_send waiting (.publish record)
        split
        · rename_i node' hSent
          rw [hSent] at hSend hOffers
          exact (Relation.ReflTransGen.single hAwait).tail
            (.of_sameFiles hSend hOffers)
        · rename_i node' hSent
          rw [hSent] at hSend hOffers
          exact ((Relation.ReflTransGen.single hAwait).tail
            (.of_sameFiles hSend hOffers)).tail
              (.rejects _ rfl rfl)

theorem moves_publishAll
    (node : Node)
    (paths : List String) :
    Relation.ReflTransGen Moves node
      (node.publishAll paths).2 := by
  induction paths generalizing node with
  | nil => exact .refl
  | cons path paths ih =>
      have hFile := node.moves_publishFile path
      unfold publishAll
      split
      · rename_i node' hPublished
        rw [hPublished] at hFile
        exact hFile.trans (ih node')
      · rename_i name node' hPublished
        rw [hPublished] at hFile
        exact hFile.trans (ih node')

theorem moves_publish
    (node : Node)
    (path : String) :
    Relation.ReflTransGen Moves node (node.publish path).2 := by
  have hFile := node.moves_publishFile path
  unfold publish
  split
  · exact .refl
  · split
    · rename_i hPublished
      rw [hPublished] at hFile
      exact hFile
    · rename_i hPublished
      rw [hPublished] at hFile
      exact hFile
  · split
    · exact .refl
    · exact node.moves_publishAll _

/- A request that is not sent is dropped. -/
theorem moves_request
    (node : Node)
    (name : String)
    (now : Moment) :
    Relation.ReflTransGen Moves node
      (node.request name now).2 := by
  unfold request
  split
  · exact .refl
  · rename_i hFree
    rw [Bool.not_eq_true] at hFree
    split
    · exact .refl
    · rename_i downloads hRequest
      let asking : Node := { node with downloads }
      have hAsk : node.Moves asking := by
        refine .requests name now hFree rfl ?_
        rw [hRequest]
      have hSend := sameFiles_send asking (.request name)
      have hOffers := offers_send asking (.request name)
      split
      · rename_i node' hSent
        rw [hSent] at hSend hOffers
        exact (Relation.ReflTransGen.single hAsk).tail
          (.of_sameFiles hSend hOffers)
      · rename_i node' hSent
        rw [hSent] at hSend hOffers
        exact ((Relation.ReflTransGen.single hAsk).tail
          (.of_sameFiles hSend hOffers)).tail
            (.fetches rfl (.discard _ _)
              fun h => h.discard name)

theorem moves_remove
    (node : Node)
    (name : String) :
    Relation.ReflTransGen Moves node (node.remove name).2 := by
  unfold remove
  split
  · exact .refl
  · rename_i offers hWithdraw
    let withdrawn : Node := { node with offers }
    have hMove : node.Moves withdrawn :=
      .withdraws name hWithdraw rfl
    have hSend := sameFiles_send withdrawn (.remove name)
    have hOffers := offers_send withdrawn (.remove name)
    split
    · rename_i node' hSent
      rw [hSent] at hSend hOffers
      exact (Relation.ReflTransGen.single hMove).tail
        (.of_sameFiles hSend hOffers)
    · rename_i node' hSent
      rw [hSent] at hSend hOffers
      exact (Relation.ReflTransGen.single hMove).tail
        (.of_sameFiles hSend hOffers)

end Node

end PeerShare

------------------------------------------------------------
-- Passes
------------------------------------------------------------

namespace PeerShare

namespace Node

variable {node : Node}

/- Complete files, which are fetched no longer, are served. -/
theorem moves_foldl_finish
    {closes : Completed → Bool}
    {completed : List Completed}
    (hGone :
      ∀ c ∈ completed,
        node.downloads.files.get? c.file.record.name = none) :
    Relation.ReflTransGen Moves node
      (completed.foldl (finish closes) node) := by
  induction completed generalizing node with
  | nil => exact .refl
  | cons c completed ih =>
      rcases List.forall_mem_cons.mp hGone with
        ⟨hFirst, hLater⟩
      have hStop :=
        node.moves_stopWriter? c.file.record.name c.writer
      have hWithin :=
        (node.quiet_stopWriter? c.file.record.name
          c.writer).isWithin
      rw [List.foldl_cons]
      have hOne :
          Relation.ReflTransGen Moves node
            (finish closes node c) := by
        unfold finish
        dsimp only
        split
        · exact (Relation.ReflTransGen.single hStop).tail
            (.serves c.file (hWithin _ hFirst) rfl rfl)
        · exact .single hStop
      have hSame :
          (finish closes node c).downloads =
            (node.stopWriter? c.file.record.name
              c.writer).downloads := by
        unfold finish
        dsimp only
        split <;> rfl
      apply hOne.trans
      apply ih
      intro c' hc'
      rw [hSame]
      exact hWithin _ (hLater c' hc')

theorem moves_tick
    (h : node.downloads.IsNamed)
    (closes : Completed → Bool)
    (now : Moment) :
    Relation.ReflTransGen Moves node
      (node.tick closes now).2 := by
  have hWithin :=
    Downloads.IsWithin.tick node.downloads now node.log
  have hNamed := h.tick now node.log
  have hGone :
      ∀ c ∈ (node.downloads.tick now node.log).1.completed,
        (node.downloads.tick now node.log).2.files.get?
            c.file.record.name = none :=
    fun c hc => h.get?_of_mem_completed hc
  unfold tick
  split
  · split
    rename_i pass downloads hTick
    rw [hTick] at hWithin hNamed hGone
    have hPassed : node.Moves { node with downloads } :=
      .fetches rfl hWithin fun _ => hNamed
    have hFinish :=
      @moves_foldl_finish { node with downloads } closes
        pass.completed hGone
    exact ((Relation.ReflTransGen.single hPassed).trans
      hFinish).tail
        (.of_sameFiles (sameFiles_sendAll _ _)
          (offers_sendAll _ _))
  · exact .refl

/- Every event is a row of small moves. -/
theorem moves_after
    (h : node.downloads.IsNamed)
    (e : Event) :
    Relation.ReflTransGen Moves node (node.after e) := by
  cases e with
  | publish path => exact node.moves_publish path
  | request name now => exact node.moves_request name now
  | remove name => exact node.moves_remove name
  | receive payload hosts now =>
      exact node.moves_receive payload hosts now
  | handleDatagram sender bs now =>
      exact .single (node.moves_handleDatagram sender bs now)
  | performWrite name position =>
      exact .single (node.moves_performWrite name position)
  | failWrite name position written =>
      exact .single
        (.fetches rfl (.failWrite _ _ _ _ _)
          fun h => h.failWrite _ _ _ _)
  | tick closes now => exact moves_tick h closes now
  | stopListening =>
      exact .single (.fetches rfl (.refl _) id)
  | disconnect => exact .single (.fetches rfl (.refl _) id)
  | shutDown =>
      exact .single
        (.fetches rfl (fun _ _ => rfl) fun _ => .empty)

end Node

end PeerShare

------------------------------------------------------------
-- Runs
------------------------------------------------------------

namespace PeerShare

namespace Node

/-
  A node that may come about.  Other programs may change the
  disk as they like.
-/
inductive IsPossible : Node → Prop where
  | start
      (identity : Option String)
      (localAddress : IpAddress)
      (port : UInt16)
      (directory : String)
      (disk : Disk) :
      IsPossible
        (Node.start identity localAddress port directory disk)
  | after
      {node : Node}
      (e : Event)
      (h : IsPossible node) :
      IsPossible (node.after e)
  | outside
      {node : Node}
      (disk : Disk)
      (h : IsPossible node) :
      IsPossible { node with disk }

variable {node : Node}

theorem IsPossible.run
    (h : node.IsPossible)
    (events : List Event) :
    (node.run events).IsPossible := by
  induction events generalizing node with
  | nil => exact h
  | cons e events ih => exact ih (h.after e)

/-
  No name is ever in two places, and every entry is found
  under its own name.
-/
theorem IsPossible.arranged
    (h : node.IsPossible) :
    Arranged node.offers node.downloads := by
  induction h with
  | start => exact .empty
  | after e _ ih => exact ih.of_row (moves_after ih.isNamed e)
  | outside _ _ ih => exact ih

/-
  The small node after it has fetched a file of one byte and
  requested another file.
-/
def afterOneByte : Node :=
  small.run
    [.request "a" 0,
      .receive
        (Wire.Message.answer (.describe "a" [7]) []).payload
        noHosts 0,
      .handleDatagram ⟨.loopback, 1⟩
        (Wire.Datagram.chunk "a" 0 [7]).encode 0,
      .tick (fun _ => true) 0,
      .request "b" 0]

theorem arranged_of_one_byte :
    afterOneByte.IsPossible ∧
      afterOneByte.offers.published.contains "a" = true ∧
      afterOneByte.downloads.contains "b" = true ∧
      Arranged afterOneByte.offers afterOneByte.downloads := by
  have hPossible : afterOneByte.IsPossible :=
    (IsPossible.start (some "n") .loopback 1 "d"
      Disk.empty).run _
  have hPlaces :
      afterOneByte.offers.published.contains "a" = true ∧
        afterOneByte.downloads.contains "b" = true := by
    decide +kernel
  exact ⟨hPossible, hPlaces.1, hPlaces.2, hPossible.arranged⟩

end Node

end PeerShare
