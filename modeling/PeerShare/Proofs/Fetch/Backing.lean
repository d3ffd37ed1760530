import PeerShare.Proofs.Disk.Names
import PeerShare.Proofs.Fetch.Downloads

/-
  What is noted to be on disk is on disk.

  A chunk that waits for its writer has arrived with the
  announced digest, and is not yet noted to be on disk.  So
  writing it, in whole or in part, spoils no chunk that is,
  and it may be noted once it has been written in whole.

  Key definitions include:
    * `Transfer.Backs`
    * `Transfer.Backed`
    * `Downloads.Backed`

  Key theorems include:
    * `Transfer.Backs.put`
    * `Transfer.Backs.perform`
    * `Transfer.Backs.of_arrives`
    * `Downloads.Backed.put`
    * `Downloads.Backed.create`
    * `Downloads.Backed.perform`
-/

------------------------------------------------------------
-- Writers and What Is Noted
------------------------------------------------------------

namespace PeerShare

namespace Transfer

/-
  A writer of the file of a transfer, and the content of the
  file.  Chunks that are noted to be on disk are in the
  content, with the announced digests.
-/
structure Backs
    (t : Transfer)
    (w : ChunkWriter)
    (disk : Disk)
    (content : Content) : Prop
    extends w.WritesTo disk content where
  path_eq : w.path = t.path
  size_eq : w.size = t.size.toNat
  nodup_queue : (w.queue.map (·.index)).Nodup
  queued :
    ∀ q ∈ w.queue,
      ∃ chunk,
        t.chunks[q.index.toNat]? = some chunk ∧
          chunk.downloaded = true ∧
          chunk.persisted = false ∧
          Digest.of q.data = chunk.digest
  noted :
    ∀ (i : Nat) (chunk : ChunkEntry),
      t.chunks[i]? = some chunk →
        chunk.persisted = true →
          chunk.downloaded = true ∧
            i < Chunking.chunkCount w.size ∧
            Digest.of (content.chunk w.size i) = chunk.digest

namespace Backs

variable {t t' : Transfer}
variable {w w' : ChunkWriter}
variable {disk disk' : Disk}
variable {content : Content}
variable {index : UInt16}
variable {data : Bytes}

/- Nothing is noted of a new transfer. -/
theorem start
    {file : FileRecord}
    {path : String}
    {now : Moment}
    (h : w.WritesTo disk content)
    (hPath : w.path = path)
    (hSize : w.size = file.size.toNat)
    (hQueue : w.queue = []) :
    ((Transfer.start file path now).withWriter w).Backs w disk
      content where
  toWritesTo := h
  path_eq := hPath
  size_eq := hSize
  nodup_queue := by
    rw [hQueue]
    exact List.nodup_nil
  queued := by
    rw [hQueue]
    intro q hq
    cases hq
  noted := by
    intro i chunk hChunk hNoted
    unfold withWriter Transfer.start at hChunk
    dsimp only at hChunk
    rw [getElem?_freshChunks, Option.map_eq_some_iff] at hChunk
    rcases hChunk with ⟨digest, -, rfl⟩
    cases hNoted

theorem of_sameProgress
    (h : t.Backs w disk content)
    (hSame : t.SameProgress t') :
    t'.Backs w disk content where
  toWritesTo := h.toWritesTo
  path_eq := h.path_eq.trans hSame.path_eq.symm
  size_eq := by
    rw [hSame.size_eq]
    exact h.size_eq
  nodup_queue := h.nodup_queue
  queued := by
    rw [hSame.chunks_eq]
    exact h.queued
  noted := by
    rw [hSame.chunks_eq]
    exact h.noted

theorem of_lookUp_eq
    (h : t.Backs w disk content)
    (hSame : disk'.lookUp w.path = disk.lookUp w.path) :
    t.Backs w disk' content :=
  { h with toWritesTo := h.toWritesTo.of_lookUp_eq hSame }

/-
  Bytes are written to a chunk that waits.  The chunk is not
  noted, and chunks that are noted stay as they are.
-/
theorem put
    (h : t.Backs w disk content)
    {q q' : QueuedChunk}
    (hq : q ∈ w.queue)
    (hIndex : q'.index = q.index)
    (hFits : q'.Fits w.size) :
    t.Backs w (w.put q' disk)
      (content.withChunk w.size q') := by
  refine { h with toWritesTo := h.toWritesTo.put hFits, noted := ?_ }
  intro i chunk hChunk hNoted
  rcases h.noted i chunk hChunk hNoted with
    ⟨hArrived, hRange, hDigest⟩
  have hOther : i ≠ q'.index.toNat := by
    intro hEq
    rcases h.queued q hq with ⟨waiting, hWaiting, -, hNew, -⟩
    rw [hEq, hIndex, hWaiting] at hChunk
    cases hChunk
    rw [hNew] at hNoted
    cases hNoted
  refine ⟨hArrived, hRange, ?_⟩
  rw [Content.chunk_withChunk_of_ne hFits h.length_eq hOther]
  exact hDigest

/- A chunk is taken out of the queue. -/
theorem dequeue
    (h : t.Backs w disk content)
    (position : Nat) :
    (t.withWriter
        { w with queue := w.queue.eraseIdx position }).Backs
      { w with queue := w.queue.eraseIdx position } disk
      content where
  toWritesTo := h.toWritesTo.dequeue position
  path_eq := h.path_eq
  size_eq := h.size_eq
  nodup_queue := by
    have hSublist :
        ((w.queue.eraseIdx position).map (·.index)).Sublist
          (w.queue.map (·.index)) :=
      (List.eraseIdx_sublist w.queue position).map _
    exact hSublist.nodup h.nodup_queue
  queued q hq :=
    h.queued q (List.mem_of_mem_eraseIdx hq)
  noted := h.noted

/- A chunk that is on disk, and does not wait, is noted. -/
theorem markPersisted
    (h : t.Backs w disk content)
    {chunk : ChunkEntry}
    (hGet : t.chunks[index.toNat]? = some chunk)
    (hArrived : chunk.downloaded = true)
    (hRange : index.toNat < Chunking.chunkCount w.size)
    (hDigest :
      Digest.of (content.chunk w.size index.toNat) =
        chunk.digest)
    (hGone : ∀ q ∈ w.queue, q.index ≠ index) :
    (t.markPersisted index).Backs w disk content := by
  have hSet :
      t.markPersisted index =
        t.setChunk index.toNat
          { chunk with persisted := true } := by
    unfold Transfer.markPersisted
    rw [hGet]
  rw [hSet]
  refine { h with
    path_eq := h.path_eq
    size_eq := h.size_eq
    queued := ?_
    noted := ?_ }
  · intro q hq
    rcases h.queued q hq with ⟨waiting, hWaiting, hRest⟩
    refine ⟨waiting, ?_, hRest⟩
    rw [getElem?_setChunk _ hGet, if_neg]
    · exact hWaiting
    · intro hEq
      exact hGone q hq (UInt16.toNat_inj.mp hEq)
  · intro i entry hEntry hNoted
    rw [getElem?_setChunk _ hGet] at hEntry
    by_cases hEq : i = index.toNat
    · rw [if_pos hEq] at hEntry
      cases hEntry
      rw [hEq]
      exact ⟨hArrived, hRange, hDigest⟩
    · rw [if_neg hEq] at hEntry
      exact h.noted i entry hEntry hNoted

/- A chunk that waits is written and noted. -/
theorem perform
    (h : t.Backs w disk content)
    {position : Nat}
    {q : QueuedChunk}
    (hGet : w.queue[position]? = some q) :
    ((t.withWriter
          { w with
            queue := w.queue.eraseIdx position }).markPersisted
        q.index).Backs
      { w with queue := w.queue.eraseIdx position }
      (w.put q disk) (content.withChunk w.size q) := by
  have hq : q ∈ w.queue := List.mem_of_getElem? hGet
  have hCheck := h.check_queue q hq
  have hFits := QueuedChunk.fits_of_check hCheck
  rcases h.queued q hq with
    ⟨chunk, hChunk, hArrived, -, hDigest⟩
  apply ((h.put hq rfl hFits).dequeue position).markPersisted
    hChunk hArrived hFits.1
  · rw [Content.chunk_withChunk hCheck h.length_eq, if_pos rfl]
    exact hDigest
  · -- No other chunk with this number waits.
    intro q' hq' hIndex
    rcases List.mem_eraseIdx_iff_getElem?.mp hq' with
      ⟨i, hNe, hGet'⟩
    rcases List.getElem?_eq_some_iff.mp hGet' with ⟨hLt, hAt⟩
    have hSame :
        (w.queue.map (·.index))[i]? =
          (w.queue.map (·.index))[position]? := by
      rw [List.getElem?_map, List.getElem?_map, hGet', hGet,
        Option.map_some, Option.map_some, hIndex]
    have hBound : i < (w.queue.map (·.index)).length := by
      rw [List.length_map]
      exact hLt
    exact hNe
      ((List.getElem?_inj hBound h.nodup_queue).mp hSame)

/- A chunk that has not arrived is not noted. -/
theorem persisted_of_fresh
    (h : t.Backs w disk content)
    {i : Nat}
    {chunk : ChunkEntry}
    (hGet : t.chunks[i]? = some chunk)
    (hFresh : chunk.downloaded = false) :
    chunk.persisted = false := by
  cases hNoted : chunk.persisted with
  | false => rfl
  | true =>
      rcases h.noted i chunk hGet hNoted with ⟨hArrived, -⟩
      rw [hFresh] at hArrived
      cases hArrived

/- Nor does it wait. -/
theorem ne_of_fresh
    (h : t.Backs w disk content)
    {i : Nat}
    {chunk : ChunkEntry}
    (hGet : t.chunks[i]? = some chunk)
    (hFresh : chunk.downloaded = false) :
    ∀ q ∈ w.queue, q.index.toNat ≠ i := by
  intro q hq hEq
  rcases h.queued q hq with ⟨waiting, hWaiting, hArrived, -⟩
  rw [hEq, hGet] at hWaiting
  cases hWaiting
  rw [hFresh] at hArrived
  cases hArrived

/- An arrived chunk is judged; if it is new, it is noted so. -/
theorem of_judged
    (h : t.Backs w disk content)
    {verdict : Verdict}
    (hJudged : t.Judged index data verdict t') :
    t'.Backs w disk content := by
  cases hJudged with
  | refused => exact h
  | @accepted chunk _ hGet hFresh hDigest hSame =>
      apply of_sameProgress ?_ hSame
      refine { h with
        path_eq := h.path_eq
        size_eq := h.size_eq
        queued := ?_
        noted := ?_ }
      · intro q hq
        rcases h.queued q hq with
          ⟨waiting, hWaiting, hArrived, hRest⟩
        refine ⟨waiting, ?_, hArrived, hRest⟩
        unfold withDownloaded
        dsimp only
        rw [getElem?_setChunk _ hGet,
          if_neg (h.ne_of_fresh hGet hFresh q hq)]
        exact hWaiting
      · intro i entry hEntry hNoted
        unfold withDownloaded at hEntry
        dsimp only at hEntry
        rw [getElem?_setChunk _ hGet] at hEntry
        by_cases hEq : i = index.toNat
        · rw [if_pos hEq] at hEntry
          cases hEntry
          have hNew := h.persisted_of_fresh hGet hFresh
          rw [hNew] at hNoted
          cases hNoted
        · rw [if_neg hEq] at hEntry
          exact h.noted i entry hEntry hNoted

/- A chunk that was accepted may wait for the writer. -/
theorem enqueue
    (h : t.Backs w disk content)
    {hasWriter : Bool}
    (hJudged : t.Judged index data (.accepted hasWriter) t')
    (hEnqueue : w.enqueue index data = .ok w') :
    (t'.withWriter w').Backs w' disk content := by
  have hAfter := h.of_judged hJudged
  have hWrites := h.toWritesTo.enqueue hEnqueue
  rcases ChunkWriter.enqueue_eq_ok_iff.mp hEnqueue with ⟨-, rfl⟩
  cases hJudged with
  | refused hRefused => exact absurd rfl (hRefused hasWriter)
  | @accepted chunk _ hGet hFresh hDigest hSame =>
      have hChunk :
          t'.chunks[index.toNat]? =
            some { chunk with downloaded := true } := by
        rw [hSame.chunks_eq]
        unfold withDownloaded
        dsimp only
        rw [getElem?_setChunk _ hGet, if_pos rfl]
      refine { hAfter with
        toWritesTo := hWrites
        path_eq := hAfter.path_eq
        size_eq := hAfter.size_eq
        nodup_queue := ?_
        queued := ?_ }
      · dsimp only
        rw [List.map_append, List.map_singleton,
          List.nodup_append]
        refine ⟨h.nodup_queue, List.nodup_singleton index, ?_⟩
        intro i hi j hj
        rcases List.mem_map.mp hi with ⟨q, hq, rfl⟩
        rw [List.mem_singleton.mp hj]
        intro hEq
        exact h.ne_of_fresh hGet hFresh q hq
          (congrArg UInt16.toNat hEq)
      · intro q hq
        rcases List.mem_append.mp hq with hq | hq
        · exact hAfter.queued q hq
        · rw [List.mem_singleton.mp hq]
          have hNew := h.persisted_of_fresh hGet hFresh
          exact ⟨_, hChunk, rfl, hNew, hDigest⟩

end Backs

end Transfer

end PeerShare

------------------------------------------------------------
-- Transfers
------------------------------------------------------------

namespace PeerShare

namespace Transfer

/-
  The transfer of a file that the tracker has described.
  Its writer writes to the path of its name in a directory,
  and what is noted is in that file.
-/
structure Backed
    (t : Transfer)
    (directory name : String)
    (disk : Disk)
    (answers : List FileRecord) : Prop where
  isPlain : Path.fileName? name = some name
  name_eq : t.record.name = name
  path_eq : t.path = Path.join directory name
  mem_answers : t.record ∈ answers
  wellFormed : t.WellFormed
  backs :
    ∃ w content, t.writer = some w ∧ t.Backs w disk content

namespace Backed

variable {t t' : Transfer}
variable {directory name : String}
variable {disk disk' : Disk}
variable {answers : List FileRecord}

/- A new transfer whose writer could be made. -/
theorem start
    {file : FileRecord}
    {w : ChunkWriter}
    (hPlain : Path.fileName? file.name = some file.name)
    (hDescribed : file ∈ answers)
    (hCreate :
      ChunkWriter.create disk (Path.join directory file.name)
          file.size.toNat = (.ok w, disk'))
    (now : Moment) :
    ((Transfer.start file (Path.join directory file.name)
        now).withWriter w).Backed directory file.name disk'
      answers := by
  have hRecord :
      ((Transfer.start file (Path.join directory file.name)
        now).withWriter w).record = file :=
    record_start file (Path.join directory file.name) now
  have hFormed :=
    wellFormed_start file (Path.join directory file.name) now
  rcases ChunkWriter.create_eq_ok hCreate with
    ⟨hPath, hSize, hQueue, -, content, -, -, -, hWrites⟩
  refine ⟨hPlain, rfl, rfl, ?_, ?_, w, _, rfl,
    .start hWrites hPath hSize hQueue⟩
  · rw [hRecord]
    exact hDescribed
  · exact ⟨hFormed.index_eq, hFormed.apart⟩

/- A later state needs a writer only. -/
theorem of_continues
    (h : t.Backed directory name disk answers)
    (hContinues : t.Continues t')
    (hBacks :
      ∃ w content,
        t'.writer = some w ∧ t'.Backs w disk' content) :
    t'.Backed directory name disk' answers where
  isPlain := h.isPlain
  name_eq := by
    rw [hContinues.record_eq]
    exact h.name_eq
  path_eq := hContinues.path_eq.trans h.path_eq
  mem_answers := by
    rw [hContinues.record_eq]
    exact h.mem_answers
  wellFormed := hContinues.keeps_wellFormed h.wellFormed
  backs := hBacks

theorem of_sameProgress
    (h : t.Backed directory name disk answers)
    (hSame : t.SameProgress t') :
    t'.Backed directory name disk answers := by
  rcases h.backs with ⟨w, content, hWriter, hBacks⟩
  apply h.of_continues (.of_sameProgress hSame)
  exact ⟨w, content, hSame.writer_eq.trans hWriter,
    hBacks.of_sameProgress hSame⟩

/- Only the file at the path of the name matters. -/
theorem of_lookUp_eq
    (h : t.Backed directory name disk answers)
    (hSame :
      disk'.lookUp (Path.join directory name) =
        disk.lookUp (Path.join directory name)) :
    t.Backed directory name disk' answers := by
  rcases h.backs with ⟨w, content, hWriter, hBacks⟩
  rw [← h.path_eq, ← hBacks.path_eq] at hSame
  apply h.of_continues (.refl t)
  exact ⟨w, content, hWriter, hBacks.of_lookUp_eq hSame⟩

/- What is noted is backed by the one writer that it has. -/
theorem exists_backs
    (h : t.Backed directory name disk answers)
    {w : ChunkWriter}
    (hWriter : t.writer = some w) :
    ∃ content, t.Backs w disk content := by
  rcases h.backs with ⟨v, content, hSame, hBacks⟩
  rw [hWriter] at hSame
  cases hSame
  exact ⟨content, hBacks⟩

/- The writer has a file at the path of the name. -/
theorem lookUp_eq
    (h : t.Backed directory name disk answers) :
    ∃ w content,
      t.writer = some w ∧
        disk.lookUp (Path.join directory name) =
          .ok (w.file.place, .file w.file.serial content) := by
  rcases h.backs with ⟨w, content, hWriter, hBacks⟩
  rw [← h.path_eq, ← hBacks.path_eq]
  exact ⟨w, content, hWriter, hBacks.lookUp_eq⟩

/- Changes of the file of another name do not matter. -/
theorem update_of_ne
    (h : t.Backed directory name disk answers)
    {other : String}
    {file : Disk.FileId}
    {content : Content}
    (f : Content → Content)
    (hPlain : Path.fileName? other = some other)
    (hNe : name ≠ other)
    (hFile :
      disk.lookUp (Path.join directory other) =
        .ok (file.place, .file file.serial content)) :
    t.Backed directory name (disk.update file f) answers := by
  rcases h.lookUp_eq with ⟨w, own, -, hOwn⟩
  have hApart :=
    Disk.file_ne_of_lookUp_join h.isPlain hPlain hNe hOwn hFile
  apply h.of_lookUp_eq
  rw [Disk.lookUp_update_of_ne f hApart hOwn, hOwn]

theorem of_arrives
    (h : t.Backed directory name disk answers)
    {index : UInt16}
    {data : Bytes}
    {verdict : Verdict}
    (hArrives : t.Arrives index data verdict t') :
    t'.Backed directory name disk answers := by
  apply h.of_continues (.of_arrives hArrives)
  rcases h.backs with ⟨w, content, hWriter, hBacks⟩
  cases hArrives with
  | judged hJudged =>
      exact ⟨w, content, hJudged.writer_eq.trans hWriter,
        hBacks.of_judged hJudged⟩
  | refused hJudged =>
      exact ⟨w, content, hJudged.writer_eq.trans hWriter,
        hBacks.of_judged hJudged⟩
  | @taken _ v w' hJudged hJudgedWriter hEnqueue =>
      rw [hJudged.writer_eq, hWriter] at hJudgedWriter
      cases hJudgedWriter
      exact ⟨w', content, rfl,
        hBacks.enqueue hJudged hEnqueue⟩

end Backed

end Transfer

end PeerShare

------------------------------------------------------------
-- Downloads
------------------------------------------------------------

namespace PeerShare

namespace Downloads

/- Every transfer is backed by the disk. -/
def Backed
    (d : Downloads)
    (directory : String)
    (disk : Disk)
    (answers : List FileRecord) : Prop :=
  ∀ (name : String) (t : Transfer),
    d.transfer? name = some t →
      t.Backed directory name disk answers

namespace Backed

variable {d d' : Downloads}
variable {directory name : String}
variable {disk disk' : Disk}
variable {answers : List FileRecord}
variable {t : Transfer}
variable {w : ChunkWriter}

theorem empty
    (directory : String)
    (disk : Disk)
    (answers : List FileRecord) :
    Downloads.empty.Backed directory disk answers := by
  intro name t hGet
  cases hGet

/- More files may be described. -/
theorem append
    (h : d.Backed directory disk answers)
    (more : List FileRecord) :
    d.Backed directory disk (more ++ answers) := by
  intro name t hGet
  have hOwn := h name t hGet
  exact { hOwn with
    mem_answers := List.mem_append_right more hOwn.mem_answers }

/- Some of the transfers may be dropped. -/
theorem of_imp
    (h : d.Backed directory disk answers)
    (hSome :
      ∀ name t,
        d'.transfer? name = some t →
          d.transfer? name = some t) :
    d'.Backed directory disk answers :=
  fun name t hGet => h name t (hSome name t hGet)

/- Each transfer may go on by itself. -/
theorem of_sameProgress
    (h : d.Backed directory disk answers)
    (hBefore :
      ∀ name t',
        d'.transfer? name = some t' →
          ∃ t,
            d.transfer? name = some t ∧ t.SameProgress t') :
    d'.Backed directory disk answers := by
  intro name t' hGet
  rcases hBefore name t' hGet with ⟨t, hOld, hSame⟩
  exact (h name t hOld).of_sameProgress hSame

theorem of_lookUp_eq
    (h : d.Backed directory disk answers)
    (hSame :
      ∀ name,
        disk'.lookUp (Path.join directory name) =
          disk.lookUp (Path.join directory name)) :
    d.Backed directory disk' answers :=
  fun name t hGet => (h name t hGet).of_lookUp_eq (hSame name)

/- Entries may be added to the disk. -/
theorem of_extends
    (h : d.Backed directory disk answers)
    (hExtends : disk.Extends disk') :
    d.Backed directory disk' answers := by
  intro name t hGet
  have hOwn := h name t hGet
  rcases hOwn.lookUp_eq with ⟨w, content, -, hLookUp⟩
  apply hOwn.of_lookUp_eq
  rw [Disk.lookUp_of_extends hExtends hLookUp, hLookUp]

theorem set
    (h : d.Backed directory disk answers)
    (hOwn : t.Backed directory name disk answers) :
    (d.set name t).Backed directory disk answers := by
  intro other t' hGet
  rw [transfer?_set] at hGet
  by_cases hOther : other = name
  · rw [if_pos hOther] at hGet
    cases hGet
    rw [hOther]
    exact hOwn
  · rw [if_neg hOther] at hGet
    exact h other t' hGet

end Backed

end Downloads

end PeerShare

------------------------------------------------------------
-- Operations on Downloads
------------------------------------------------------------

namespace PeerShare

namespace Downloads

namespace Backed

variable {d d' : Downloads}
variable {directory name : String}
variable {disk disk' : Disk}
variable {answers : List FileRecord}
variable {t : Transfer}
variable {w : ChunkWriter}

theorem request
    (h : d.Backed directory disk answers)
    (name : String)
    (now : Moment) :
    (d.request name now).2.Backed directory disk answers := by
  apply h.of_imp
  intro other t hGet
  rw [transfer?_request] at hGet
  exact hGet

theorem discard
    (h : d.Backed directory disk answers)
    (name : String) :
    (d.discard name).2.Backed directory disk answers := by
  apply h.of_imp
  intro other t hGet
  rw [transfer?_discard] at hGet
  split at hGet
  · cases hGet
  · exact hGet

theorem start
    (h : d.Backed directory disk answers)
    (hOwn : t.Backed directory t.name disk answers) :
    (d.start t).2.Backed directory disk answers := by
  intro other t' hGet
  rw [transfer?_start] at hGet
  split at hGet
  · rename_i hStarts
    cases hGet
    rw [hStarts.1]
    exact hOwn
  · exact h other t' hGet

theorem applyPeers
    (h : d.Backed directory disk answers)
    (name : String)
    (peers : List (Endpoint × Bytes)) :
    (d.applyPeers name peers).2.Backed directory disk
      answers := by
  apply h.of_sameProgress
  intro other t' hGet
  exact exists_before_applyPeers hGet

theorem arrive
    (h : d.Backed directory disk answers)
    (name : String)
    (index : UInt16)
    (data : Bytes)
    (sender : Endpoint)
    (now : Moment)
    (log : TransferLog) :
    (d.arrive name index data sender now log).Backed directory
      disk answers := by
  intro other t' hGet
  rcases exists_before_arrive hGet with ⟨t, hOld, hSame | hArrives⟩
  · rw [hSame]
    exact h other t hOld
  · exact (h other t hOld).of_arrives hArrives

theorem tick
    (h : d.Backed directory disk answers)
    (now : Moment)
    (log : TransferLog) :
    (d.tick now log).2.Backed directory disk answers := by
  apply h.of_sameProgress
  intro name t' hGet
  rcases exists_before_tick hGet with ⟨t, hOld, -, hSame⟩
  exact ⟨t, hOld, hSame⟩

end Backed

end Downloads

end PeerShare

------------------------------------------------------------
-- Changes of the Disk
------------------------------------------------------------

namespace PeerShare

namespace Downloads

namespace Backed

variable {d d' : Downloads}
variable {directory name : String}
variable {disk disk' : Disk}
variable {answers : List FileRecord}
variable {t : Transfer}
variable {w : ChunkWriter}

/- Bytes are written to a chunk that waits. -/
theorem put
    (h : d.Backed directory disk answers)
    (hGet : d.transfer? name = some t)
    (hWriter : t.writer = some w)
    {q q' : QueuedChunk}
    (hq : q ∈ w.queue)
    (hIndex : q'.index = q.index)
    (hFits : q'.Fits w.size) :
    d.Backed directory (w.put q' disk) answers := by
  have hOwn := h name t hGet
  rcases hOwn.exists_backs hWriter with ⟨content, hBacks⟩
  intro other t' hGet'
  by_cases hOther : other = name
  · rw [hOther, hGet] at hGet'
    cases hGet'
    rw [hOther]
    apply hOwn.of_continues (.refl t)
    exact ⟨w, _, hWriter, hBacks.put hq hIndex hFits⟩
  · have hFile := hBacks.lookUp_eq
    rw [hBacks.path_eq, hOwn.path_eq] at hFile
    exact (h other t' hGet').update_of_ne
      (Content.withChunk w.size q') hOwn.isPlain hOther hFile

/- Some of the chunks that wait are written, in order. -/
theorem foldl_put
    (h : d.Backed directory disk answers)
    (hGet : d.transfer? name = some t)
    (hWriter : t.writer = some w)
    {queue : List QueuedChunk}
    (hQueue : ∀ q ∈ queue, q ∈ w.queue) :
    d.Backed directory
      (queue.foldl (fun disk q => w.put q disk) disk)
      answers := by
  induction queue generalizing disk with
  | nil => exact h
  | cons q queue ih =>
      rcases (h name t hGet).exists_backs hWriter with
        ⟨content, hBacks⟩
      have hq := hQueue q List.mem_cons_self
      have hFits :=
        QueuedChunk.fits_of_check (hBacks.check_queue q hq)
      have hRest : ∀ q' ∈ queue, q' ∈ w.queue :=
        fun q' hq' => hQueue q' (List.mem_cons_of_mem q hq')
      exact ih (h.put hGet hWriter hq rfl hFits) hRest

/-
  The writer of a transfer is stopped.  This holds whether
  or not the transfer is dropped then.
-/
theorem drain
    (h : d.Backed directory disk answers)
    (hGet : d.transfer? name = some t)
    (hWriter : t.writer = some w) :
    d.Backed directory (w.drain disk).2 answers :=
  h.foldl_put hGet hWriter fun _ hq => hq

/- A writer is made for a file that is not yet fetched. -/
theorem create
    (h : d.Backed directory disk answers)
    (hNone : d.transfer? name = none)
    (hPlain : Path.fileName? name = some name)
    {size : Nat}
    (hCreate :
      ChunkWriter.create disk (Path.join directory name) size =
        (.ok w, disk')) :
    d.Backed directory disk' answers := by
  rcases ChunkWriter.create_eq_ok hCreate with
    ⟨-, -, -, added, content, hExtends, hFile, rfl, -⟩
  intro other t hGet
  have hOther : other ≠ name := by
    intro hEq
    rw [hEq, hNone] at hGet
    cases hGet
  exact (h.of_extends hExtends other t hGet).update_of_ne _
    hPlain hOther hFile

/- A chunk that waits is written and noted. -/
theorem perform
    (h : d.Backed directory disk answers)
    {position : Nat}
    {index : UInt16}
    (hPerform :
      d.perform name position disk = some (index, d', disk')) :
    (d'.markPersisted name index).Backed directory disk'
      answers := by
  rcases perform_eq_some_iff.mp hPerform with
    ⟨t, w, w', hGet, hWriter, hWrite, rfl⟩
  rcases ChunkWriter.perform_eq_some_iff.mp hWrite with
    ⟨q, hQueued, rfl, rfl, rfl⟩
  rcases (h name t hGet).exists_backs hWriter with
    ⟨content, hBacks⟩
  have hq : q ∈ w.queue := List.mem_of_getElem? hQueued
  have hFits :=
    QueuedChunk.fits_of_check (hBacks.check_queue q hq)
  have hPut := h.put hGet hWriter hq rfl hFits
  have hAfter :
      ((t.withWriter
            { w with
              queue :=
                w.queue.eraseIdx position }).markPersisted
          q.index).Backed directory name (w.put q disk)
        answers := by
    have hContinues :
        t.Continues
          (t.withWriter
            { w with queue := w.queue.eraseIdx position }) :=
      .withWriter hWriter rfl
    apply (hPut name t hGet).of_continues
    · exact hContinues.trans (.markPersisted _ q.index)
    · refine ⟨_, _, ?_, hBacks.perform hQueued⟩
      rw [Transfer.writer_markPersisted]
      rfl
  have hTwice := hPut.set hAfter
  intro other t' hGet'
  apply hTwice other t'
  rw [transfer?_markPersisted, transfer?_set, transfer?_set,
    if_pos rfl] at hGet'
  rw [transfer?_set]
  split
  · rename_i hOther
    rw [if_pos hOther] at hGet'
    exact hGet'
  · rename_i hOther
    rw [if_neg hOther, if_neg hOther] at hGet'
    exact hGet'

end Backed

/-
  A worker fails to write a chunk.  The chunk has left the
  queue, some of its first bytes may be on disk, and it is
  not noted.
-/
def failWrite
    (d : Downloads)
    (name : String)
    (position written : Nat)
    (disk : Disk) :
    Downloads × Disk :=
  match d.transfer? name with
  | none => (d, disk)
  | some t =>
      match t.writer with
      | none => (d, disk)
      | some w =>
          match w.queue[position]? with
          | none => (d, disk)
          | some q =>
              (d.set name
                (t.withWriter
                  { w with
                    queue := w.queue.eraseIdx position }),
                w.put (q.part written) disk)

theorem Backed.failWrite
    {d : Downloads}
    {directory : String}
    {disk : Disk}
    {answers : List FileRecord}
    (h : d.Backed directory disk answers)
    (name : String)
    (position written : Nat) :
    (d.failWrite name position written disk).1.Backed directory
      (d.failWrite name position written disk).2 answers := by
  unfold Downloads.failWrite
  cases hGet : d.transfer? name with
  | none => exact h
  | some t =>
      dsimp only
      cases hWriter : t.writer with
      | none => exact h
      | some w =>
          dsimp only
          cases hQueued : w.queue[position]? with
          | none => exact h
          | some q =>
              dsimp only
              rcases (h name t hGet).exists_backs hWriter with
                ⟨content, hBacks⟩
              have hq : q ∈ w.queue :=
                List.mem_of_getElem? hQueued
              have hFits :=
                (QueuedChunk.fits_of_check
                  (hBacks.check_queue q hq)).part written
              have hIndex := q.index_part written
              have hPut := h.put hGet hWriter hq hIndex hFits
              apply hPut.set
              apply (hPut name t hGet).of_continues
              · exact .withWriter hWriter rfl
              · exact ⟨_, _, rfl,
                  (hBacks.put hq hIndex hFits).dequeue
                    position⟩

end Downloads

end PeerShare
