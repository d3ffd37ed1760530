import PeerShare.Node.Answers
import PeerShare.Node.Commands
import PeerShare.Node.Peers
import PeerShare.Proofs.Fetch.Backing

/-
  Runs of a node.

  Each event is handled to its end before the next one.  The
  workers of a writer are events of their own: a worker
  takes any chunk that waits, and writes it or fails to.
  Other programs may change the disk at any time, except in
  the directory that files are downloaded into.

  Key definitions include:
    * `Node.Event`
    * `Node.after`
    * `Node.run`
    * `Node.IsReachable`
    * `Node.SameFiles`

  Key theorems include:
    * `Node.sameFiles_publish`
    * `Node.sameFiles_remove`
    * `Node.sameFiles_serve`
    * `Node.sameFiles_takeChunk`
    * `Node.stopWriter_of_none`
    * `Node.downloadPath?_eq_some_iff`
-/

------------------------------------------------------------
-- Events
------------------------------------------------------------

namespace PeerShare

namespace Node

/- What may happen to a node. -/
inductive Event where
  | publish (path : String)
  | request (name : String) (now : Moment)
  | remove (name : String)
  /- A payload of the tracker arrives. -/
  | receive
      (payload : Bytes)
      (hosts : Hosts)
      (now : Moment)
  /- A datagram of a peer arrives. -/
  | handleDatagram
      (sender : Endpoint)
      (bs : Bytes)
      (now : Moment)
  /- A worker writes a chunk, or fails after some bytes. -/
  | performWrite (name : String) (position : Nat)
  | failWrite (name : String) (position written : Nat)
  /- A pass, in which some writers may fail to close. -/
  | tick (closes : Completed → Bool) (now : Moment)
  | stopListening
  | disconnect
  | shutDown

/- A worker fails to write a chunk of a file. -/
def failWrite
    (node : Node)
    (name : String)
    (position written : Nat) : Node :=
  match node.downloads.failWrite name position written
      node.disk with
  | (downloads, disk) => { node with downloads, disk }

/- The node after an event. -/
def after
    (node : Node) : Event → Node
  | .publish path => (node.publish path).2
  | .request name now => (node.request name now).2
  | .remove name => (node.remove name).2
  | .receive payload hosts now =>
      node.receive payload hosts now
  | .handleDatagram sender bs now =>
      (node.handleDatagram sender bs now).2
  | .performWrite name position => node.performWrite name position
  | .failWrite name position written =>
      node.failWrite name position written
  | .tick closes now => (node.tick closes now).2
  | .stopListening => node.stopListening
  | .disconnect => node.disconnect
  | .shutDown => node.shutDown

/- The node after some events, one after another. -/
def run
    (node : Node)
    (events : List Event) : Node :=
  events.foldl after node

/- The description of a file in a message of the tracker. -/
def Event.described : Event → List FileRecord
  | .receive payload _ _ =>
      match Wire.Message.decode payload with
      | .ok (.answer file _) => [file]
      | _ => []
  | _ => []

/-
  A node that comes about from its start, and the files that
  the tracker has described to it, the last first.
-/
inductive IsReachable : Node → List FileRecord → Prop where
  | start
      (identity : Option String)
      (localAddress : IpAddress)
      (port : UInt16)
      (directory : String)
      (disk : Disk) :
      IsReachable
        (Node.start identity localAddress port directory disk) []
  | after
      {node : Node}
      {described : List FileRecord}
      (e : Event)
      (h : IsReachable node described) :
      IsReachable (node.after e) (e.described ++ described)
  /- Another program changes the disk. -/
  | outside
      {node : Node}
      {described : List FileRecord}
      (disk : Disk)
      (h : IsReachable node described)
      (hKept :
        ∀ name,
          disk.lookUp (Path.join node.directory name) =
            node.disk.lookUp
              (Path.join node.directory name)) :
      IsReachable { node with disk } described

theorem IsReachable.run
    {node : Node}
    {described : List FileRecord}
    (h : node.IsReachable described)
    (events : List Event) :
    (node.run events).IsReachable
      (events.reverse.flatMap Event.described ++ described) := by
  induction events generalizing node described with
  | nil => exact h
  | cons e events ih =>
      have hRest := ih (h.after e)
      rw [List.reverse_cons, List.flatMap_append,
        List.append_assoc, List.flatMap_singleton]
      exact hRest

end Node

end PeerShare

------------------------------------------------------------
-- What Stays
------------------------------------------------------------

namespace PeerShare

namespace Node

/- Two states with the same downloads and the same disk. -/
structure SameFiles
    (node node' : Node) : Prop where
  directory_eq : node'.directory = node.directory
  downloads_eq : node'.downloads = node.downloads
  disk_eq : node'.disk = node.disk

namespace SameFiles

variable {node node' node'' : Node}

theorem refl
    (node : Node) :
    node.SameFiles node :=
  ⟨rfl, rfl, rfl⟩

theorem trans
    (h : node.SameFiles node')
    (h' : node'.SameFiles node'') :
    node.SameFiles node'' where
  directory_eq := h'.directory_eq.trans h.directory_eq
  downloads_eq := h'.downloads_eq.trans h.downloads_eq
  disk_eq := h'.disk_eq.trans h.disk_eq

/- Offers, log and messages may be others. -/
theorem of_offers
    (node : Node)
    (offers : Offers) :
    node.SameFiles { node with offers } :=
  ⟨rfl, rfl, rfl⟩

theorem of_log
    (node : Node)
    (log : TransferLog) :
    node.SameFiles { node with log } :=
  ⟨rfl, rfl, rfl⟩

end SameFiles

theorem sameFiles_send
    (node : Node)
    (m : Wire.Message) :
    node.SameFiles (node.send m).2 := by
  unfold send
  split
  · exact ⟨rfl, rfl, rfl⟩
  · exact .refl node

theorem sameFiles_sendAll
    (node : Node)
    (messages : List Wire.Message) :
    node.SameFiles (node.sendAll messages) := by
  induction messages generalizing node with
  | nil => exact .refl node
  | cons m messages ih =>
      have hSend := node.sameFiles_send m
      unfold sendAll
      split
      · rename_i node' hSent
        rw [hSent] at hSend
        exact hSend.trans (ih node')
      · rename_i node' hSent
        rw [hSent] at hSend
        exact hSend

theorem sameFiles_publishFile
    (node : Node)
    (path : String) :
    node.SameFiles (node.publishFile path).2 := by
  unfold publishFile
  cases Path.fileName? path with
  | none => exact .refl node
  | some name =>
      dsimp only
      split
      · exact .refl node
      · cases node.describeFile name path with
        | error e => exact .refl node
        | ok record =>
            dsimp only
            have hAwait :=
              SameFiles.of_offers node
                (node.offers.await { record, path })
            have hSend :=
              sameFiles_send
                { node with
                  offers := node.offers.await { record, path } }
                (.publish record)
            split
            · rename_i node' hSent
              rw [hSent] at hSend
              exact hAwait.trans hSend
            · rename_i node' hSent
              rw [hSent] at hSend
              exact (hAwait.trans hSend).trans (.of_offers _ _)

theorem sameFiles_publishAll
    (node : Node)
    (paths : List String) :
    node.SameFiles (node.publishAll paths).2 := by
  induction paths generalizing node with
  | nil => exact .refl node
  | cons path paths ih =>
      have hFile := node.sameFiles_publishFile path
      unfold publishAll
      split
      · rename_i node' hPublished
        rw [hPublished] at hFile
        exact hFile.trans (ih node')
      · rename_i name node' hPublished
        rw [hPublished] at hFile
        exact hFile.trans (ih node')

/- Publishing reads the disk and does not write to it. -/
theorem sameFiles_publish
    (node : Node)
    (path : String) :
    node.SameFiles (node.publish path).2 := by
  have hFile := node.sameFiles_publishFile path
  unfold publish
  split
  · exact .refl node
  · split
    · rename_i hPublished
      rw [hPublished] at hFile
      exact hFile
    · rename_i hPublished
      rw [hPublished] at hFile
      exact hFile
  · split
    · exact .refl node
    · exact node.sameFiles_publishAll _

theorem sameFiles_remove
    (node : Node)
    (name : String) :
    node.SameFiles (node.remove name).2 := by
  unfold remove
  cases node.offers.withdraw? name with
  | none => exact .refl node
  | some offers =>
      have hOffers := SameFiles.of_offers node offers
      have hSend := sameFiles_send { node with offers } (.remove name)
      dsimp only
      split
      · rename_i node' hSent
        rw [hSent] at hSend
        exact hOffers.trans hSend
      · rename_i node' hSent
        rw [hSent] at hSend
        exact hOffers.trans hSend

theorem sameFiles_serve
    (node : Node)
    (name : String)
    (indices : List UInt16) :
    node.SameFiles (node.serve name indices).2 := by
  induction indices generalizing node with
  | nil => exact .refl node
  | cons index indices ih =>
      unfold serve
      split
      · exact ih node
      · rename_i datagram length _
        have hLog :=
          SameFiles.of_log node (node.log.recordUpload length)
        exact hLog.trans (ih _)

end Node

end PeerShare

------------------------------------------------------------
-- What Changes
------------------------------------------------------------

namespace PeerShare

namespace Downloads

/- Nothing is noted of a file that is not fetched. -/
theorem foldl_markPersisted_of_none
    {d : Downloads}
    {name : String}
    (h : d.transfer? name = none)
    (indices : List UInt16) :
    indices.foldl (fun d index => d.markPersisted name index)
      d = d := by
  induction indices with
  | nil => rfl
  | cons index indices ih =>
      have hSame : d.markPersisted name index = d := by
        unfold markPersisted
        rw [h]
      rw [List.foldl_cons, hSame]
      exact ih

end Downloads

namespace Node

variable {node : Node}
variable {name : String}

/- Stopping the writer of a dropped file only writes. -/
theorem stopWriter_of_none
    (h : node.downloads.transfer? name = none)
    (w : ChunkWriter) :
    node.stopWriter name w =
      { node with disk := (w.drain node.disk).2 } := by
  unfold stopWriter markPersisted
  dsimp only
  rw [Downloads.foldl_markPersisted_of_none h]

/- A chunk is taken in by the downloads alone. -/
theorem sameFiles_takeChunk
    (node : Node)
    (name : String)
    (index : UInt16)
    (data : Bytes)
    (sender : Endpoint)
    (now : Moment) :
    SameFiles
      { node with
        downloads :=
          node.downloads.arrive name index data sender now
            node.log }
      (node.takeChunk name index data sender now) := by
  unfold takeChunk Downloads.arrive
  rcases node.downloads.accept name index data sender now
      node.log with
    ⟨verdict, downloads, log⟩
  cases verdict with
  | accepted hasWriter =>
      cases hasWriter with
      | true =>
          dsimp only
          cases downloads.enqueue name index data with
          | ok => exact ⟨rfl, rfl, rfl⟩
          | error => exact ⟨rfl, rfl, rfl⟩
      | false => exact ⟨rfl, rfl, rfl⟩
  | duplicate => exact ⟨rfl, rfl, rfl⟩
  | corrupt => exact ⟨rfl, rfl, rfl⟩
  | unknown => exact ⟨rfl, rfl, rfl⟩

/- Only plain names are downloaded, to their own paths. -/
theorem downloadPath?_eq_some_iff
    {path : String} :
    node.downloadPath? name = some path ↔
      Path.fileName? name = some name ∧
        path = Path.join node.directory name := by
  unfold downloadPath?
  cases hName : Path.fileName? name with
  | none => simp
  | some last =>
      dsimp only
      by_cases hLast : last = name
      · rw [if_pos hLast, hLast]
        simp [eq_comm]
      · rw [if_neg hLast]
        simp [hLast]

end Node

end PeerShare

------------------------------------------------------------
-- A Small Node
------------------------------------------------------------

namespace PeerShare

namespace Node

/- A look-up that knows the name of no host. -/
def noHosts : Hosts :=
  fun _ _ => none

/- A node that downloads into a directory of an empty disk. -/
def small : Node :=
  start (some "n") .loopback 1 "d" Disk.empty

theorem isReachable_small :
    small.IsReachable [] :=
  .start (some "n") .loopback 1 "d" Disk.empty

end Node

end PeerShare
