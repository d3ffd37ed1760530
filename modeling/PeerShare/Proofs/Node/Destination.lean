import PeerShare.Proofs.Disk.Opening
import PeerShare.Proofs.Node.Refreshing

/-
  Where an answer of the tracker may write.

  The tracker chooses the name in an answer.  A file is
  opened for writing only if the name was asked for, the
  description is consistent, and the name is plain; and the
  file is then the entry of that name in the directory of
  the node.  Any other answer leaves the disk as it is.

  Key definitions include:
    * `Node.Admits`
    * `Node.withTransfer`
    * `Node.withoutDownload`

  Key theorems include:
    * `Downloads.exists_of_mem_writers`
    * `Node.beginTransfer_of_isAwaiting`
    * `Node.handleMessage_answer_of_admits`
    * `Node.handleMessage_answer_of_not_admits`
    * `Node.answer_confined`
-/

------------------------------------------------------------
-- Writers of Downloads
------------------------------------------------------------

namespace PeerShare

namespace Downloads

variable {d d' : Downloads}
variable {name : String}

/- A writer belongs to a transfer. -/
theorem exists_of_mem_writers
    {w : ChunkWriter}
    (h : w ∈ d.writers) :
    ∃ name t,
      d.transfer? name = some t ∧ t.writer = some w := by
  unfold writers at h
  rcases List.mem_filterMap.mp h with
    ⟨download, hMem, hWriter⟩
  rcases Table.mem_values_iff.mp hMem with ⟨name, hGet⟩
  cases download with
  | awaiting => cases hWriter
  | fetching t =>
      exact ⟨name, t, transfer?_eq_some_iff.mpr hGet, hWriter⟩

/- Downloads whose transfers go on open no file. -/
theorem mem_writers_of_before
    (hBefore :
      ∀ name t',
        d'.transfer? name = some t' →
          ∃ t, d.transfer? name = some t ∧ t'.writer = t.writer)
    {w : ChunkWriter}
    (h : w ∈ d'.writers) :
    w ∈ d.writers := by
  rcases exists_of_mem_writers h with
    ⟨name, t', hGet, hWriter⟩
  rcases hBefore name t' hGet with ⟨t, hOld, hSame⟩
  exact mem_writers hOld (hSame ▸ hWriter)

theorem mem_writers_discard
    {w : ChunkWriter}
    (h : w ∈ (d.discard name).2.writers) :
    w ∈ d.writers := by
  refine mem_writers_of_before ?_ h
  intro other t hGet
  rw [transfer?_discard] at hGet
  split at hGet
  · cases hGet
  · exact ⟨t, hGet, rfl⟩

/- A transfer that is set adds its own writer at most. -/
theorem mem_writers_set
    {t : Transfer}
    {w : ChunkWriter}
    (h : w ∈ (d.set name t).writers) :
    t.writer = some w ∨ w ∈ d.writers := by
  rcases exists_of_mem_writers h with
    ⟨other, t', hGet, hWriter⟩
  rw [transfer?_set] at hGet
  split at hGet
  · cases hGet
    exact Or.inl hWriter
  · exact Or.inr (mem_writers hGet hWriter)

end Downloads

end PeerShare

------------------------------------------------------------
-- Admitted Answers
------------------------------------------------------------

namespace PeerShare

namespace Node

/- Whether a file that the tracker describes is opened. -/
structure Admits
    (node : Node)
    (file : FileRecord) : Prop where
  isAwaiting : node.downloads.isAwaiting file.name = true
  isConsistent : file.IsConsistent
  isPlain : Path.IsPlain file.name

/- The node once a file is fetched with a writer. -/
def withTransfer
    (node : Node)
    (file : FileRecord)
    (path : String)
    (peers : List (Endpoint × Bytes))
    (now : Moment)
    (w : ChunkWriter)
    (disk : Disk) : Node :=
  let t := (Transfer.start file path now).withWriter w
  { node with
    disk
    downloads :=
      node.downloads.set file.name (t.applyPeers peers) }

/- The node without a file that it asked for. -/
def withoutDownload
    (node : Node)
    (name : String) : Node :=
  { node with downloads := (node.downloads.discard name).2 }

variable {node : Node}
variable {file : FileRecord}
variable {name : String}

/- A file that is awaited has no writer to be stopped. -/
theorem discard_of_isAwaiting
    (h : node.downloads.isAwaiting name = true) :
    node.discard name = node.withoutDownload name := by
  unfold Downloads.isAwaiting at h
  split at h
  · rename_i requested hGet
    unfold discard withoutDownload Downloads.discard
    rw [hGet]
    rfl
  · cases h

/- A file that is awaited is fetched if it can be opened. -/
theorem beginTransfer_of_isAwaiting
    (h : node.downloads.isAwaiting file.name = true)
    (path : String)
    (peers : List (Endpoint × Bytes))
    (now : Moment) :
    node.beginTransfer file path peers now =
      match
        ChunkWriter.create node.disk path file.size.toNat with
      | (.error _, disk) =>
          { node with disk }.withoutDownload file.name
      | (.ok w, disk) =>
          node.withTransfer file path peers now w disk := by
  unfold beginTransfer
  cases ChunkWriter.create node.disk path file.size.toNat with
  | mk created disk =>
      cases created with
      | error e =>
          have hAwaiting :
              { node with disk }.downloads.isAwaiting file.name =
                true := h
          exact discard_of_isAwaiting hAwaiting
      | ok w =>
          let t := (Transfer.start file path now).withWriter w
          have hName : (t.applyPeers peers).name = file.name :=
            (t.sameProgress_applyPeers peers).name_eq
          have hStart :
              node.downloads.start (t.applyPeers peers) =
                (true,
                  node.downloads.set file.name
                    (t.applyPeers peers)) := by
            unfold Downloads.start
            rw [hName, if_pos h]
          dsimp only
          rw [hStart]
          rfl

/- An answer that is admitted starts a transfer. -/
theorem handleMessage_answer_of_admits
    (h : node.Admits file)
    (entries : List Wire.PeerEntry)
    (hosts : Hosts)
    (now : Moment) :
    let path := Path.join node.directory file.name
    node.handleMessage (.answer file entries) hosts now =
      match
        ChunkWriter.create node.disk path file.size.toNat with
      | (.error _, disk) =>
          { node with disk }.withoutDownload file.name
      | (.ok w, disk) =>
          node.withTransfer file path
            (node.listedPeers entries hosts) now w disk := by
  intro path
  rw [← beginTransfer_of_isAwaiting h.isAwaiting]
  have hPath : node.downloadPath? file.name = some path :=
    downloadPath?_eq_some_iff.mpr
      ⟨Path.fileName?_eq_self_iff.mpr h.isPlain, rfl⟩
  simp only [handleMessage, handleAnswer, h.isAwaiting,
    h.isConsistent, if_true, hPath]

/- An answer that is not admitted ends the wait. -/
theorem handleMessage_answer_of_not_admits
    (hAwaiting : node.downloads.isAwaiting file.name = true)
    (h : ¬ node.Admits file)
    (entries : List Wire.PeerEntry)
    (hosts : Hosts)
    (now : Moment) :
    node.handleMessage (.answer file entries) hosts now =
      node.withoutDownload file.name := by
  rw [← discard_of_isAwaiting hAwaiting]
  simp only [handleMessage, handleAnswer, hAwaiting, if_true]
  split
  · rename_i hConsistent
    split
    · rfl
    · rename_i path hPath
      have hPlain := (downloadPath?_eq_some_iff.mp hPath).1
      exact absurd
        ⟨hAwaiting, hConsistent,
          Path.fileName?_eq_self_iff.mp hPlain⟩ h
  · rfl

end Node

end PeerShare

------------------------------------------------------------
-- Files That Answers Open
------------------------------------------------------------

namespace PeerShare

namespace Node

variable {node : Node}
variable {file : FileRecord}

/- What an answer that is admitted changes on disk. -/
theorem disk_answer_of_admits
    (h : node.Admits file)
    (entries : List Wire.PeerEntry)
    (hosts : Hosts)
    (now : Moment) :
    node.disk.ChangesOnly
      (node.handleMessage (.answer file entries) hosts now).disk
      (Path.LeadsThrough node.directory)
      (· = (Path.place node.directory).child file.name) := by
  have hChanges :=
    ChunkWriter.create_changesOnly node.disk node.directory
      (Path.fileName?_eq_self_iff.mpr h.isPlain)
      file.size.toNat
  rw [handleMessage_answer_of_admits h entries hosts now]
  split
  · rename_i e disk hCreate
    rw [hCreate] at hChanges
    exact hChanges
  · rename_i w disk hCreate
    rw [hCreate] at hChanges
    exact hChanges

/- Which writer an answer that is admitted makes. -/
theorem writers_answer_of_admits
    (h : node.Admits file)
    (entries : List Wire.PeerEntry)
    (hosts : Hosts)
    (now : Moment)
    {w : ChunkWriter}
    (hWriter :
      w ∈
        (node.handleMessage (.answer file entries) hosts
          now).downloads.writers) :
    w ∈ node.downloads.writers ∨
      (w.path = Path.join node.directory file.name ∧
        w.file.place =
          (Path.place node.directory).child file.name) := by
  rw [handleMessage_answer_of_admits h entries hosts now]
    at hWriter
  split at hWriter
  · exact Or.inl (Downloads.mem_writers_discard hWriter)
  · rename_i w' disk hCreate
    rcases Downloads.mem_writers_set hWriter with hOwn | hOld
    · right
      have hPeers :=
        ((Transfer.start file
              (Path.join node.directory file.name)
              now).withWriter w').sameProgress_applyPeers
          (node.listedPeers entries hosts)
      rw [hPeers.writer_eq] at hOwn
      cases hOwn
      refine ⟨(ChunkWriter.create_eq_ok hCreate).1, ?_⟩
      rw [← Path.place_join node.directory
        (Path.fileName?_eq_self_iff.mpr h.isPlain)]
      exact ChunkWriter.place_of_create hCreate
    · exact Or.inl hOld

end Node

end PeerShare

------------------------------------------------------------
-- Answers under Any Name
------------------------------------------------------------

namespace PeerShare

namespace Node

variable {node : Node}
variable {file : FileRecord}

theorem isAwaiting_of_contains_eq_false
    {name : String}
    (h : node.downloads.contains name = false) :
    node.downloads.isAwaiting name = false := by
  unfold Downloads.isAwaiting
  rw [Table.contains_eq_false_iff.mp h]

/- No file is opened by an answer that is not admitted. -/
theorem answer_of_not_admits
    (h : ¬ node.Admits file)
    (entries : List Wire.PeerEntry)
    (hosts : Hosts)
    (now : Moment) :
    let node' :=
      node.handleMessage (.answer file entries) hosts now
    node'.disk = node.disk ∧
      ∀ w ∈ node'.downloads.writers,
        w ∈ node.downloads.writers := by
  intro node'
  by_cases hAwaiting :
      node.downloads.isAwaiting file.name = true
  · have hAfter : node' = node.withoutDownload file.name :=
      handleMessage_answer_of_not_admits hAwaiting h entries
        hosts now
    rw [hAfter]
    exact ⟨rfl, fun _ => Downloads.mem_writers_discard⟩
  · let peers := node.listedPeers entries hosts
    let noted := (node.downloads.applyPeers file.name peers).2
    have hAfter : node' = { node with downloads := noted } :=
      handleMessage_answer_of_not_awaiting
        (Bool.eq_false_iff.mpr hAwaiting) entries hosts now
    rw [hAfter]
    refine ⟨rfl, fun w => ?_⟩
    apply Downloads.mem_writers_of_before
    intro name t' hGet
    rcases Downloads.exists_before_applyPeers hGet with
      ⟨t, hOld, hSame⟩
    exact ⟨t, hOld, hSame.writer_eq⟩

/- An answer under an unknown name is of no interest. -/
theorem answer_of_unknown
    (h : node.downloads.contains file.name = false)
    (entries : List Wire.PeerEntry)
    (hosts : Hosts)
    (now : Moment) :
    node.handleMessage (.answer file entries) hosts now =
      node := by
  rw [handleMessage_answer_of_not_awaiting
    (isAwaiting_of_contains_eq_false h)]
  unfold Downloads.applyPeers Downloads.transfer?
  rw [Table.contains_eq_false_iff.mp h]

/- A file of two chunks under another name. -/
def named
    (name : String) : FileRecord :=
  { twoChunks with name }

/- The small node once it has asked for two files. -/
def askingForTwo : Node :=
  small.run [.request "a" 0, .request "../a" 0]

end Node

end PeerShare
