import PeerShare.Proofs.Node.Run

/-
  The downloads of a node are backed by its disk, whatever
  happens to the node.

  Files that are complete leave the downloads in a pass, and
  their writers are stopped then, with the disk still backing
  those downloads that stay.

  Key definitions include:
    * `Node.IsBacked`

  Key theorems include:
    * `Node.IsBacked.handleAnswer`
    * `Node.backed_foldl_finish`
    * `Node.IsBacked.tick`
    * `Node.IsBacked.after`
    * `Node.IsReachable.isBacked`
-/

------------------------------------------------------------
-- Backed Nodes
------------------------------------------------------------

namespace PeerShare

namespace Node

/- All downloads of a node are backed by its disk. -/
def IsBacked
    (node : Node)
    (described : List FileRecord) : Prop :=
  node.downloads.Backed node.directory node.disk described

namespace IsBacked

variable {node node' : Node}
variable {described : List FileRecord}
variable {name : String}

theorem of_sameFiles
    (h : node.IsBacked described)
    (hSame : node.SameFiles node') :
    node'.IsBacked described := by
  unfold IsBacked
  rw [hSame.directory_eq, hSame.downloads_eq, hSame.disk_eq]
  exact h

theorem request
    (h : node.IsBacked described)
    (name : String)
    (now : Moment) :
    (node.request name now).2.IsBacked described := by
  have hRequest := Downloads.Backed.request h name now
  unfold Node.request
  split
  · exact h
  · split
    · exact h
    · rename_i downloads hRequested
      rw [hRequested] at hRequest
      have hAsked : { node with downloads }.IsBacked described :=
        hRequest
      have hSend :=
        sameFiles_send { node with downloads } (.request name)
      split
      · rename_i node' hSent
        rw [hSent] at hSend
        exact hAsked.of_sameFiles hSend
      · rename_i node' hSent
        rw [hSent] at hSend
        exact Downloads.Backed.discard
          (hAsked.of_sameFiles hSend) name

/- The writer of a dropped file is stopped. -/
theorem stopWriter
    (hDrop : node.downloads.transfer? name = none)
    {w : ChunkWriter}
    (h :
      node.downloads.Backed node.directory
        (w.drain node.disk).2 described) :
    (node.stopWriter name w).IsBacked described := by
  rw [stopWriter_of_none hDrop]
  exact h

/- A download is dropped; its writer writes what waits. -/
theorem discard
    (h : node.IsBacked described)
    (name : String) :
    (node.discard name).IsBacked described := by
  have hPair :
      node.downloads.discard name =
        (node.downloads.files.get? name,
          (node.downloads.discard name).2) := rfl
  unfold Node.discard
  rw [hPair]
  cases hGet : node.downloads.files.get? name with
  | none => exact h
  | some download =>
      cases download with
      | awaiting requested =>
          exact Downloads.Backed.discard h name
      | fetching t =>
          have hOld := Downloads.transfer?_eq_some_iff.mpr hGet
          rcases (h name t hOld).lookUp_eq with
            ⟨w, -, hWriter, -⟩
          have hDrain := Downloads.Backed.drain h hOld hWriter
          dsimp only [Download.writer?]
          rw [hWriter]
          apply stopWriter
          · dsimp only
            rw [Downloads.transfer?_discard, if_pos rfl]
          · exact hDrain.discard name

/- A file that is awaited is fetched from now on. -/
theorem beginTransfer
    (h : node.IsBacked described)
    {file : FileRecord}
    {path : String}
    (hAwaiting : node.downloads.isAwaiting file.name = true)
    (hPath : node.downloadPath? file.name = some path)
    (hDescribed : file ∈ described)
    (peers : List (Endpoint × Bytes))
    (now : Moment) :
    (node.beginTransfer file path peers now).IsBacked
      described := by
  rcases downloadPath?_eq_some_iff.mp hPath with
    ⟨hPlain, rfl⟩
  unfold Node.beginTransfer
  cases hCreate :
      ChunkWriter.create node.disk
        (Path.join node.directory file.name)
        file.size.toNat with
  | mk created disk =>
      cases created with
      | error e =>
          have hExtends := ChunkWriter.create_eq_error hCreate
          have hMore : { node with disk }.IsBacked described :=
            Downloads.Backed.of_extends h hExtends
          exact hMore.discard file.name
      | ok w =>
          have hNone :=
            Downloads.transfer?_of_isAwaiting hAwaiting
          have hOthers :=
            Downloads.Backed.create h hNone hPlain hCreate
          have hOwn :=
            (Transfer.Backed.start hPlain hDescribed hCreate
              now).of_sameProgress
              (Transfer.sameProgress_applyPeers _ peers)
          dsimp only
          generalize Transfer.applyPeers _ peers = t at hOwn ⊢
          have hName : t.name = file.name := hOwn.name_eq
          have hStarts :
              node.downloads.start t =
                (true, (node.downloads.start t).2) := by
            unfold Downloads.start
            rw [hName, hAwaiting]
            rfl
          rw [← hName] at hOwn
          rw [hStarts]
          exact hOthers.start hOwn

/- Peers of a file come, or its description. -/
theorem handleAnswer
    (h : node.IsBacked described)
    {file : FileRecord}
    (hDescribed : file ∈ described)
    (entries : List Wire.PeerEntry)
    (hosts : Hosts)
    (now : Moment) :
    (node.handleAnswer file entries hosts now).IsBacked
      described := by
  unfold Node.handleAnswer
  dsimp only
  split
  · rename_i hAwaiting
    split
    · split
      · exact h.discard file.name
      · rename_i path hPath
        exact h.beginTransfer hAwaiting hPath hDescribed _ now
    · exact h.discard file.name
  · exact Downloads.Backed.applyPeers h file.name _

/- A message of the tracker may describe a file. -/
theorem handleMessage
    (h : node.IsBacked described)
    {m : Wire.Message}
    (hDescribed :
      ∀ file entries,
        m = .answer file entries → file ∈ described)
    (hosts : Hosts)
    (now : Moment) :
    (node.handleMessage m hosts now).IsBacked described := by
  unfold Node.handleMessage
  split
  · exact h.of_sameFiles (.of_offers node _)
  · exact h
  · exact h.of_sameFiles (.of_offers node _)
  · exact (h.of_sameFiles (.of_offers node _)).discard _
  · rename_i file entries
    exact h.handleAnswer (hDescribed file entries rfl) entries
      hosts now
  · exact h

/- A payload of the tracker describes a file, if any. -/
theorem receive
    (h : node.IsBacked described)
    (payload : Bytes)
    (hosts : Hosts)
    (now : Moment) :
    (node.receive payload hosts now).IsBacked
      ((Event.receive payload hosts now).described ++
        described) := by
  have hMore :
      node.IsBacked
        ((Event.receive payload hosts now).described ++
          described) :=
    Downloads.Backed.append h _
  unfold Node.receive
  split
  · cases hDecode : Wire.Message.decode payload with
    | error e => exact hMore
    | ok m =>
        apply hMore.handleMessage
        rintro file entries rfl
        unfold Event.described
        dsimp only
        rw [hDecode]
        exact List.mem_cons_self
  · exact hMore

/- A datagram asks for chunks or brings one. -/
theorem handleDatagram
    (h : node.IsBacked described)
    (sender : Endpoint)
    (bs : Bytes)
    (now : Moment) :
    (node.handleDatagram sender bs now).2.IsBacked
      described := by
  unfold Node.handleDatagram
  split
  · cases Wire.Datagram.decode bs with
    | error e => exact h
    | ok datagram =>
        cases datagram with
        | chunk name index data =>
            have hArrive :
                IsBacked
                  { node with
                    downloads :=
                      node.downloads.arrive name index data
                        sender now node.log }
                  described :=
              Downloads.Backed.arrive h name index data sender
                now node.log
            exact hArrive.of_sameFiles
              (node.sameFiles_takeChunk name index data sender
                now)
        | request name indices =>
            exact h.of_sameFiles
              (node.sameFiles_serve name indices)
  · exact h

/- A chunk that waits is written and noted. -/
theorem performWrite
    (h : node.IsBacked described)
    (name : String)
    (position : Nat) :
    (node.performWrite name position).IsBacked described := by
  unfold Node.performWrite
  split
  · exact h
  · rename_i index downloads disk hPerform
    exact Downloads.Backed.perform h hPerform

end IsBacked

end Node

end PeerShare

------------------------------------------------------------
-- Passes
------------------------------------------------------------

namespace PeerShare

/-
  A complete file has left the downloads, and its writer is
  that of the transfer it has been.
-/
theorem Downloads.Backed.of_mem_completed
    {d : Downloads}
    {directory : String}
    {disk : Disk}
    {described : List FileRecord}
    {now : Moment}
    {log : TransferLog}
    {c : Completed}
    (h : d.Backed directory disk described)
    (hCompleted : c ∈ (d.tick now log).1.completed) :
    ∃ name t,
      d.transfer? name = some t ∧
        c.file.record.name = name ∧
        c.writer = t.writer ∧
        (d.tick now log).2.transfer? name = none := by
  rcases exists_of_mem_completed_tick hCompleted with
    ⟨name, t, hGet, hMem⟩
  rcases Transfer.mem_completed_tick hMem with
    ⟨hComplete, hFile, hWriter⟩
  refine ⟨name, t, hGet, ?_, hWriter, ?_⟩
  · rw [hFile]
    exact (h name t hGet).name_eq
  · rw [transfer?_tick, hGet, Option.bind_some,
      Transfer.tick_of_isComplete hComplete]

namespace Node

/-
  Complete files are finished one after another.  The
  downloads `d` from before the pass are backed throughout,
  with those that are complete.
-/
theorem backed_foldl_finish
    {closes : Completed → Bool}
    {d : Downloads}
    {described : List FileRecord}
    {completed : List Completed}
    {node : Node}
    (hCompleted :
      ∀ c ∈ completed,
        ∃ name t,
          d.transfer? name = some t ∧
            c.file.record.name = name ∧
            c.writer = t.writer ∧
            node.downloads.transfer? name = none)
    (h : d.Backed node.directory node.disk described) :
    (completed.foldl (finish closes) node).directory =
        node.directory ∧
      (completed.foldl (finish closes) node).downloads =
        node.downloads ∧
      d.Backed node.directory
        (completed.foldl (finish closes) node).disk
        described := by
  induction completed generalizing node with
  | nil => exact ⟨rfl, rfl, h⟩
  | cons c completed ih =>
      rcases hCompleted c List.mem_cons_self with
        ⟨name, t, hGet, hName, hWriter, hGone⟩
      rcases (h name t hGet).lookUp_eq with ⟨w, -, hOld, -⟩
      have hFinish :
          ∃ offers,
            finish closes node c =
              { node with
                disk := (w.drain node.disk).2
                offers } := by
        unfold finish
        dsimp only
        rw [hName, hWriter, hOld]
        unfold stopWriter?
        dsimp only
        rw [stopWriter_of_none hGone]
        split
        · exact ⟨_, rfl⟩
        · exact ⟨node.offers, rfl⟩
      rcases hFinish with ⟨offers, hFinish⟩
      rw [List.foldl_cons, hFinish]
      have hRest :
          ∀ c ∈ completed,
            ∃ name t,
              d.transfer? name = some t ∧
                c.file.record.name = name ∧
                c.writer = t.writer ∧
                node.downloads.transfer? name = none :=
        fun c' hc' =>
          hCompleted c' (List.mem_cons_of_mem c hc')
      exact
        @ih
          { node with
            disk := (w.drain node.disk).2
            offers }
          hRest (h.drain hGet hOld)

namespace IsBacked

variable {node : Node}
variable {described : List FileRecord}

/-
  A pass leaves the downloads backed, those that it drops
  and those that stay.
-/
theorem tick
    (h : node.IsBacked described)
    (closes : Completed → Bool)
    (now : Moment) :
    node.downloads.Backed node.directory
        (node.tick closes now).2.disk described ∧
      (node.tick closes now).2.IsBacked described := by
  unfold Node.tick
  split
  · cases hTick : node.downloads.tick now node.log with
    | mk pass downloads =>
        have hCompleted :
            ∀ c ∈ pass.completed,
              ∃ name t,
                node.downloads.transfer? name = some t ∧
                  c.file.record.name = name ∧
                  c.writer = t.writer ∧
                  downloads.transfer? name = none := by
          intro c hc
          have hMem :
              c ∈
                (node.downloads.tick now
                  node.log).1.completed := by
            rw [hTick]
            exact hc
          have hOwn :=
            Downloads.Backed.of_mem_completed h hMem
          rw [hTick] at hOwn
          exact hOwn
        rcases
          @backed_foldl_finish closes node.downloads described
            pass.completed { node with downloads } hCompleted h
          with ⟨hDirectory, hDownloads, hBacked⟩
        have hSend :=
          (pass.completed.foldl (finish closes)
            { node with downloads }).sameFiles_sendAll
            (pass.messages ++
              pass.completed.filterMap (withdrawal? closes))
        have hRest :=
          Downloads.Backed.tick hBacked now node.log
        rw [hTick] at hRest
        dsimp only at hDirectory hDownloads hRest ⊢
        rw [hSend.disk_eq]
        refine ⟨hBacked, ?_⟩
        apply of_sameFiles ?_ hSend
        unfold IsBacked
        rw [hDirectory, hDownloads]
        exact hRest
  · exact ⟨h, h⟩

/- No event takes the backing away. -/
theorem after
    (h : node.IsBacked described)
    (e : Event) :
    (node.after e).IsBacked (e.described ++ described) := by
  cases e with
  | publish path => exact h.of_sameFiles (node.sameFiles_publish path)
  | request name now => exact h.request name now
  | remove name => exact h.of_sameFiles (node.sameFiles_remove name)
  | receive payload hosts now =>
      exact h.receive payload hosts now
  | handleDatagram sender bs now =>
      exact h.handleDatagram sender bs now
  | performWrite name position =>
      exact h.performWrite name position
  | failWrite name position written =>
      exact Downloads.Backed.failWrite h name position written
  | tick closes now => exact (h.tick closes now).2
  | stopListening => exact h
  | disconnect => exact h
  | shutDown => exact Downloads.Backed.empty _ _ _

end IsBacked

/- All downloads are backed, whatever has happened. -/
theorem IsReachable.isBacked
    {node : Node}
    {described : List FileRecord}
    (h : node.IsReachable described) :
    node.IsBacked described := by
  induction h with
  | start identity localAddress port directory disk =>
      exact Downloads.Backed.empty _ _ _
  | after e _ ih => exact ih.after e
  | outside disk _ hKept ih =>
      exact Downloads.Backed.of_lookUp_eq ih hKept

end Node

end PeerShare
