import Mathlib.Algebra.Group.Nat.Defs
import PeerShare.Proofs.Fetch.Session

/-
  What is on disk when a file is complete.

  A chunk is accepted by its digest alone, and its writer
  then refuses it if its length is not that of the chunk.
  So a complete file is on disk in full just if all accepted
  chunks had the right length.  They have it if the file
  was described by its content, and no chunk that arrives
  shares its digest with another one.

  Key definitions include:
    * `Transfer.Fetches`
    * `Session.Fetches`

  Key theorems include:
    * `Session.Fetches.after`
    * `Session.Fetches.run`
    * `Session.Fetches.of_completed`
    * `Session.stored_eq_content`
    * `Session.stored_chunks_iff`
-/

------------------------------------------------------------
-- One File
------------------------------------------------------------

namespace PeerShare

namespace Transfer

/-
  A transfer of the described file, which writes to the
  given path and was handed the given chunks.
-/
structure Fetches
    (t : Transfer)
    (file : FileRecord)
    (path : String)
    (target : Disk.FileId)
    (disk : Disk)
    (handed : List QueuedChunk) : Prop where
  record_eq : t.record = file
  path_eq : t.path = path
  received : t.Received handed
  carries :
    ∃ w content,
      t.writer = some w ∧ w.path = path ∧
        w.size = file.size.toNat ∧ w.file = target ∧
        w.Carries disk content handed

namespace Fetches

variable {t t' : Transfer}
variable {file : FileRecord}
variable {path : String}
variable {target : Disk.FileId}
variable {disk disk' : Disk}
variable {handed : List QueuedChunk}

theorem of_sameProgress
    (h : t.Fetches file path target disk handed)
    (hSame : t.SameProgress t') :
    t'.Fetches file path target disk handed where
  record_eq := hSame.record_eq.trans h.record_eq
  path_eq := hSame.path_eq.trans h.path_eq
  received := h.received.of_sameProgress hSame
  carries := by
    rw [hSame.writer_eq]
    exact h.carries

theorem markPersisted
    (h : t.Fetches file path target disk handed)
    (index : UInt16) :
    (t.markPersisted index).Fetches file path target disk
      handed where
  record_eq := (record_markPersisted t index).trans h.record_eq
  path_eq := (Continues.markPersisted t index).path_eq.trans
    h.path_eq
  received := h.received.markPersisted index
  carries := by
    rw [writer_markPersisted]
    exact h.carries

/- Changes of other files do not matter. -/
theorem update_of_ne
    (h : t.Fetches file path target disk handed)
    {changed : Disk.FileId}
    (f : Content → Content)
    (hNe : changed ≠ target) :
    t.Fetches file path target (disk.update changed f)
      handed := by
  rcases h with ⟨hRecord, hPath, hReceived, hCarries⟩
  rcases hCarries with
    ⟨w, content, hWriter, hWPath, hSize, hTarget, hCarries⟩
  refine ⟨hRecord, hPath, hReceived, w, content, hWriter,
    hWPath, hSize, hTarget, ?_, hCarries.mem_queue,
    hCarries.waits_or_stands⟩
  apply hCarries.toWritesTo.update_of_ne
  rw [hTarget]
  exact hNe.symm

/- A chunk arrives; if it is accepted, it is handed over. -/
theorem of_arrives
    (h : t.Fetches file path target disk handed)
    {index : UInt16}
    {data : Bytes}
    {verdict : Verdict}
    (hArrives : t.Arrives index data verdict t') :
    t'.Fetches file path target disk
      (verdict.chunk index data ++ handed) := by
  have hContinues := Continues.of_arrives hArrives
  have hRecord := hContinues.record_eq.trans h.record_eq
  have hPath := hContinues.path_eq.trans h.path_eq
  rcases h.carries with
    ⟨w, content, hWriter, hWPath, hSize, hTarget, hCarries⟩
  cases hArrives with
  | @judged verdict _ hJudged hVerdict =>
      cases verdict with
      | accepted hasWriter =>
          -- There is a writer, so the verdict says so.
          have hSome := hJudged.isSome_writer rfl
          rw [hWriter, Option.isSome_some] at hSome
          rw [← hSome] at hVerdict
          exact absurd rfl hVerdict
      | duplicate =>
          cases hJudged
          exact h
      | corrupt =>
          cases hJudged
          exact h
      | unknown =>
          cases hJudged
          exact h
  | @taken judged v v' hJudged hJudgedWriter hEnqueue =>
      rw [hJudged.writer_eq, hWriter] at hJudgedWriter
      cases hJudgedWriter
      have hTaken := hCarries.enqueue hEnqueue
      rcases ChunkWriter.enqueue_eq_ok_iff.mp hEnqueue with
        ⟨-, rfl⟩
      exact ⟨hRecord, hPath,
        (h.received.of_judged hJudged).withWriter _, _,
        content, rfl, hWPath, hSize, hTarget, hTaken⟩
  | @refused _ v e hJudged hJudgedWriter hEnqueue =>
      have hSame := hJudgedWriter
      rw [hJudged.writer_eq, hWriter] at hSame
      cases hSame
      exact ⟨hRecord, hPath, h.received.of_judged hJudged, w,
        content, hJudgedWriter, hWPath, hSize, hTarget,
        hCarries.refuse hEnqueue⟩

/- A chunk that waits is written. -/
theorem perform
    (h : t.Fetches file path target disk handed)
    {w w' : ChunkWriter}
    {position : Nat}
    {index : UInt16}
    (hWriter : t.writer = some w)
    (hPerform : w.perform position disk = some (index, w', disk')) :
    (t.withWriter w').Fetches file path target disk'
      handed := by
  rcases h.carries with
    ⟨v, content, hSame, hWPath, hSize, hTarget, hCarries⟩
  rw [hWriter] at hSame
  cases hSame
  rcases ChunkWriter.perform_eq_some_iff.mp hPerform with
    ⟨q, hGet, -, rfl, rfl⟩
  exact ⟨h.record_eq, h.path_eq, h.received.withWriter _, _, _,
    rfl, hWPath, hSize, hTarget,
    hCarries.perform h.received.nodup hGet⟩

end Fetches

end Transfer

end PeerShare

------------------------------------------------------------
-- Runs
------------------------------------------------------------

namespace PeerShare

namespace Session

/-
  A file is fetched, or was, and was handed the given
  chunks.  No other download writes to the same file.
-/
structure Fetches
    (s : Session)
    (file : FileRecord)
    (path : String)
    (target : Disk.FileId)
    (handed : List QueuedChunk) : Prop where
  others :
    ∀ (name : String) (t : Transfer) (w : ChunkWriter),
      name ≠ file.name →
        s.downloads.transfer? name = some t →
          t.writer = some w → w.file ≠ target
  own :
    ∀ t,
      s.downloads.transfer? file.name = some t →
        t.Fetches file path target s.disk handed

namespace Fetches

variable {s : Session}
variable {file : FileRecord}
variable {path : String}
variable {target : Disk.FileId}
variable {handed : List QueuedChunk}

/- The other downloads go on with their own files. -/
theorem others_after
    (h : s.Fetches file path target handed)
    {e : Event}
    (hOngoing : e.isOngoing = true) :
    ∀ (name : String) (t : Transfer) (w : ChunkWriter),
      name ≠ file.name →
        (s.after e).downloads.transfer? name = some t →
          t.writer = some w → w.file ≠ target := by
  intro name t' w' hName hGet hWriter
  rcases exists_before hOngoing hGet with
    ⟨t, hBefore, hContinues⟩
  rcases hContinues.exists_writer hWriter with
    ⟨w, hOld, hFile⟩
  rw [← hFile]
  exact h.others name t w hName hBefore hOld

/- What a chunk that arrives does to the file. -/
theorem own_arrive
    (h : s.Fetches file path target handed)
    (name : String)
    (index : UInt16)
    (data : Bytes)
    (sender : Endpoint)
    (now : Moment)
    (log : TransferLog)
    {t' : Transfer}
    (hGet :
      (s.after
          (.arrive name index data sender now
            log)).downloads.transfer? file.name = some t') :
    t'.Fetches file path target s.disk
      (s.acceptedBy file.name
          (.arrive name index data sender now log) ++
        handed) := by
  unfold Session.after at hGet
  unfold acceptedBy
  dsimp only at hGet ⊢
  cases hBefore : s.downloads.transfer? name with
  | none =>
      rw [Downloads.arrive_of_none hBefore] at hGet
      rw [Downloads.accept_eq_unknown hBefore]
      have hNothing :
          (if name = file.name then
              Verdict.unknown.chunk index data
            else []) = [] := ite_self _
      rw [hNothing]
      exact h.own t' hGet
  | some t =>
      rcases Downloads.exists_arrives hBefore index data sender
          now log with
        ⟨t'', hArrives, hAll⟩
      rw [hAll] at hGet
      rw [Downloads.accept_eq hBefore]
      dsimp only
      by_cases hName : file.name = name
      · rw [if_pos hName] at hGet
        cases hGet
        rw [hName.symm] at hBefore
        rw [if_pos hName.symm]
        exact (h.own t hBefore).of_arrives hArrives
      · rw [if_neg hName] at hGet
        rw [if_neg (Ne.symm hName)]
        exact h.own t' hGet

/- What a worker does to the file, its own or another. -/
theorem own_write
    (h : s.Fetches file path target handed)
    (name : String)
    (position : Nat)
    {t' : Transfer}
    (hGet :
      (s.after (.write name position)).downloads.transfer?
          file.name = some t') :
    t'.Fetches file path target
      (s.after (.write name position)).disk handed := by
  unfold Session.after write at hGet ⊢
  dsimp only at hGet ⊢
  split at hGet
  · exact h.own t' hGet
  · rename_i hPerform
    rcases Downloads.perform_eq_some_iff.mp hPerform with
      ⟨t, w, w', hBefore, hWriter, hWrite, rfl⟩
    dsimp only at hGet ⊢
    rw [Downloads.transfer?_set] at hGet
    by_cases hName : file.name = name
    · rw [if_pos hName] at hGet
      cases hGet
      rw [hName.symm] at hBefore
      exact (h.own t hBefore).perform hWriter hWrite
    · rw [if_neg hName] at hGet
      have hOther :=
        h.others name t w (Ne.symm hName) hBefore hWriter
      rcases ChunkWriter.perform_eq_some_iff.mp hWrite with
        ⟨q, -, -, -, rfl⟩
      exact (h.own t' hGet).update_of_ne _ hOther

/- One event hands over the chunk that it accepts. -/
theorem after
    (h : s.Fetches file path target handed)
    {e : Event}
    (hOngoing : e.isOngoing = true) :
    (s.after e).Fetches file path target
      (s.acceptedBy file.name e ++ handed) := by
  refine ⟨h.others_after hOngoing, ?_⟩
  intro t' hGet
  cases e with
  | request => cases hOngoing
  | start => cases hOngoing
  | discard => cases hOngoing
  | applyPeers name peers =>
      rcases Downloads.exists_before_applyPeers hGet with
        ⟨t, hBefore, hPeers⟩
      exact (h.own t hBefore).of_sameProgress hPeers
  | arrive name index data sender now log =>
      exact h.own_arrive name index data sender now log hGet
  | markPersisted name index =>
      rcases Downloads.exists_before_markPersisted hGet with
        ⟨t, hBefore, hEq | hNoted⟩
      · rw [hEq]
        exact h.own t hBefore
      · rw [hNoted]
        exact (h.own t hBefore).markPersisted index
  | write name position => exact h.own_write name position hGet
  | tick now log =>
      rcases Downloads.exists_before_tick hGet with
        ⟨t, hBefore, -, hTick⟩
      exact (h.own t hBefore).of_sameProgress hTick

/- A run hands over the chunks that it accepts. -/
theorem run
    (h : s.Fetches file path target handed)
    {events : List Event}
    (hOngoing : ∀ e ∈ events, e.isOngoing = true) :
    (s.run events).Fetches file path target
      (s.accepted file.name events ++ handed) := by
  induction events generalizing s handed with
  | nil => exact h
  | cons e events ih =>
      have hHead := hOngoing e List.mem_cons_self
      have hTail :
          ∀ e' ∈ events, e'.isOngoing = true :=
        fun e' he' => hOngoing e' (List.mem_cons_of_mem _ he')
      have hRun := ih (h.after hHead) hTail
      unfold accepted
      rw [List.append_assoc]
      exact hRun

end Fetches

end Session

end PeerShare

------------------------------------------------------------
-- Beginning and End
------------------------------------------------------------

namespace PeerShare

theorem Downloads.mem_writers
    {d : Downloads}
    {name : String}
    {t : Transfer}
    {w : ChunkWriter}
    (hGet : d.transfer? name = some t)
    (hWriter : t.writer = some w) :
    w ∈ d.writers := by
  unfold writers
  apply List.mem_filterMap.mpr
  refine ⟨.fetching t, ?_, hWriter⟩
  exact Table.mem_values_iff.mpr
    ⟨name, transfer?_eq_some_iff.mp hGet⟩

namespace Session

variable {s : Session}
variable {file : FileRecord}
variable {path : String}
variable {peers : List (Endpoint × Bytes)}
variable {begun now : Moment}
variable {w : ChunkWriter}
variable {disk : Disk}

/- A transfer that starts was handed no chunk. -/
theorem fetches_start
    (hAwaiting : s.downloads.isAwaiting file.name = true)
    (hCreate :
      ChunkWriter.create s.disk path file.size.toNat =
        (.ok w, disk))
    (hApart : ∀ v ∈ s.downloads.writers, v.file ≠ w.file) :
    (s.after (.start file path true peers begun)).Fetches file
      path w.file [] := by
  rcases ChunkWriter.create_eq_ok hCreate with
    ⟨hPath, hSize, hQueue, -, content, -, -, -, hWrites⟩
  have hPeers :=
    ((Transfer.start file path begun).withWriter
      w).sameProgress_applyPeers peers
  have hName := hPeers.name_eq
  unfold after start
  dsimp only
  rw [if_pos rfl, hCreate]
  dsimp only
  constructor
  · intro name t v hOther hGet hWriter
    rw [Downloads.transfer?_start, if_neg] at hGet
    · exact hApart v (Downloads.mem_writers hGet hWriter)
    · intro hBoth
      rw [hName] at hBoth
      exact hOther hBoth.1
  · intro t hGet
    dsimp only at hGet
    rw [Downloads.transfer?_start, hName,
      if_pos ⟨rfl, hAwaiting⟩] at hGet
    cases hGet
    apply Transfer.Fetches.of_sameProgress ?_ hPeers
    exact ⟨Transfer.record_start file path begun, rfl,
      (Transfer.Received.start file path begun).withWriter w,
      w, _, rfl, hPath, hSize, rfl, .nil hWrites hQueue⟩

/- The session after a file has been fetched for a while. -/
def fetch
    (s : Session)
    (file : FileRecord)
    (path : String)
    (peers : List (Endpoint × Bytes))
    (begun : Moment)
    (events : List Event) : Session :=
  (s.after (.start file path true peers begun)).run events

/- The chunks of the file that were accepted meanwhile. -/
def fetched
    (s : Session)
    (file : FileRecord)
    (path : String)
    (peers : List (Endpoint × Bytes))
    (begun : Moment)
    (events : List Event) : List QueuedChunk :=
  (s.after (.start file path true peers begun)).accepted
    file.name events

/-
  A complete file has a writer that was handed one chunk
  with the right digest for each number.
-/
theorem Fetches.of_completed
    {target : Disk.FileId}
    {handed : List QueuedChunk}
    {log : TransferLog}
    {c : Completed}
    (h : s.Fetches file path target handed)
    (hReachable : s.IsReachable)
    (hCompleted : c ∈ (s.downloads.tick now log).1.completed)
    (hName : c.file.record.name = file.name) :
    c.file = { record := file, path } ∧
      (handed.map (·.index)).Nodup ∧
      (∀ i < file.chunkCount, ∃ q ∈ handed, q.index.toNat = i) ∧
      (∀ q ∈ handed,
        file.chunkDigests[q.index.toNat]? =
          some (Digest.of q.data)) ∧
      ∃ w content,
        c.writer = some w ∧ w.path = path ∧
          w.size = file.size.toNat ∧
          w.Carries s.disk content handed := by
  rcases Downloads.exists_of_mem_completed_tick hCompleted with
    ⟨name, t, hGet, hMem⟩
  rcases Transfer.mem_completed_tick hMem with
    ⟨hComplete, hFile, hWriter⟩
  have hKey : name = file.name := by
    rw [← (hReachable.wellFormed hGet).1, ← hName, hFile]
  rw [hKey] at hGet
  have hOwn := h.own t hGet
  rcases hOwn.carries with
    ⟨w, content, hOwnWriter, hPath, hSize, -, hCarries⟩
  refine ⟨?_, hOwn.received.nodup, ?_, ?_, w, content, ?_,
    hPath, hSize, hCarries⟩
  · rw [hFile, hOwn.record_eq, hOwn.path_eq]
  · intro i hi
    apply hOwn.received.exists_of_isComplete hComplete
    rw [← hOwn.record_eq] at hi
    unfold FileRecord.chunkCount Transfer.record at hi
    rw [List.length_map] at hi
    exact hi
  · rw [← hOwn.record_eq]
    exact hOwn.received.digest_eq
  · rw [hWriter, hOwnWriter]

end Session

end PeerShare

------------------------------------------------------------
-- Files Described by Their Content
------------------------------------------------------------

namespace PeerShare

namespace Session

variable {s : Session}
variable {path : String}
variable {peers : List (Endpoint × Bytes)}
variable {begun now : Moment}
variable {w : ChunkWriter}
variable {disk : Disk}
variable {events : List Event}
variable {log : TransferLog}
variable {c : Completed}

/- What a run has accepted, it was given. -/
theorem exists_arrive_of_mem_accepted
    {name : String}
    {q : QueuedChunk}
    (h : q ∈ s.accepted name events) :
    ∃ sender now log,
      .arrive name q.index q.data sender now log ∈ events := by
  induction events generalizing s with
  | nil => cases h
  | cons e events ih =>
      unfold accepted at h
      rcases List.mem_append.mp h with hLater | hNow
      · rcases ih hLater with ⟨sender, now, log, hMem⟩
        exact ⟨sender, now, log, List.mem_cons_of_mem _ hMem⟩
      · cases e with
        | arrive other index data sender now log =>
            unfold acceptedBy at hNow
            dsimp only at hNow
            by_cases hName : other = name
            · rw [if_pos hName] at hNow
              unfold Verdict.chunk at hNow
              split at hNow
              · rw [List.mem_singleton.mp hNow, hName]
                exact ⟨sender, now, log, List.mem_cons_self⟩
              · cases hNow
            · rw [if_neg hName] at hNow
              cases hNow
        | request => cases hNow
        | start => cases hNow
        | applyPeers => cases hNow
        | markPersisted => cases hNow
        | write => cases hNow
        | discard => cases hNow
        | tick => cases hNow

/-
  A complete file has a writer that was handed the accepted
  chunks, one with the right digest for each number.
-/
theorem carries_of_completed
    {file : FileRecord}
    (hReachable : s.IsReachable)
    (hAwaiting : s.downloads.isAwaiting file.name = true)
    (hCreate :
      ChunkWriter.create s.disk path file.size.toNat =
        (.ok w, disk))
    (hApart : ∀ v ∈ s.downloads.writers, v.file ≠ w.file)
    (hOngoing : ∀ e ∈ events, e.isOngoing = true)
    (hCompleted :
      c ∈
        ((s.fetch file path peers begun events).downloads.tick
          now log).1.completed)
    (hName : c.file.record.name = file.name) :
    let accepted := s.fetched file path peers begun events
    c.file = { record := file, path } ∧
      (accepted.map (·.index)).Nodup ∧
      (∀ i < file.chunkCount,
        ∃ q ∈ accepted, q.index.toNat = i) ∧
      (∀ q ∈ accepted,
        file.chunkDigests[q.index.toNat]? =
          some (Digest.of q.data)) ∧
      ∃ w' content,
        c.writer = some w' ∧ w'.path = path ∧
          w'.size = file.size.toNat ∧
          w'.Carries (s.fetch file path peers begun events).disk
            content accepted := by
  have hStart :
      (s.after (.start file path true peers begun)).Fetches file
        path w.file [] :=
    fetches_start hAwaiting hCreate hApart
  have hRun := hStart.run hOngoing
  rw [List.append_nil] at hRun
  exact hRun.of_completed ((hReachable.after _).run events)
    hCompleted hName

/-
  A file that is described by its content is on disk, byte
  for byte, once it is complete and its writer is stopped.
  Of the digests it is assumed that no chunk that arrives
  has that of another chunk which belongs in its place.
-/
theorem stored_eq_content
    {name : String}
    {content : Bytes}
    (hReachable : s.IsReachable)
    (hAwaiting : s.downloads.isAwaiting name = true)
    (hLength : content.length < 2 ^ 64)
    (hCreate :
      ChunkWriter.create s.disk path content.length =
        (.ok w, disk))
    (hApart : ∀ v ∈ s.downloads.writers, v.file ≠ w.file)
    (hOngoing : ∀ e ∈ events, e.isOngoing = true)
    (hCollision :
      ∀ index data sender now log,
        .arrive name index data sender now log ∈ events →
          ∀ chunk,
            (FileRecord.chunksOf content)[index.toNat]? =
                some chunk →
              Digest.of data = Digest.of chunk →
                data = chunk)
    (hCompleted :
      c ∈
        ((s.fetch (.describe name content) path peers begun
          events).downloads.tick now log).1.completed)
    (hName : c.file.record.name = name) :
    c.file = { record := .describe name content, path } ∧
      ∃ w',
        c.writer = some w' ∧
          ∀ disk',
            w'.Drains
                (s.fetch (.describe name content) path peers
                  begun events).disk
                disk' →
              ∃ stored,
                disk'.read path = .ok stored ∧
                  stored.toBytes = content := by
  have hSize :
      (FileRecord.describe name content).size.toNat =
        content.length :=
    UInt64.toNat_ofNat_of_lt' hLength
  rw [← hSize] at hCreate
  rcases carries_of_completed hReachable hAwaiting hCreate
      hApart hOngoing hCompleted hName with
    ⟨hFile, hDistinct, hAll, hDigests, w', old, hWriter,
      hPath, hWSize, hCarries⟩
  refine ⟨hFile, w', hWriter, ?_⟩
  intro disk' hDrains
  rcases hCarries.of_drains hDistinct hDrains with
    ⟨stored, hRead, hStored, hPlaces⟩
  rw [hPath] at hRead
  rw [hWSize, hSize] at hStored hPlaces
  refine ⟨stored, hRead, ?_⟩
  have hSame : stored.toBytes.length = content.length := by
    rw [← Content.length_eq, hStored]
  apply Chunking.eq_of_chunks_eq hSame
  intro i hi
  rw [hSame] at hi
  have hChunk := FileRecord.getElem?_chunksOf hi
  have hCount :
      (FileRecord.describe name content).chunkCount =
        Chunking.chunkCount content.length := by
    unfold FileRecord.chunkCount FileRecord.describe
    rw [List.length_map, FileRecord.length_chunksOf]
  rcases hAll i (by rwa [hCount]) with ⟨q, hq, rfl⟩
  -- What was accepted for this chunk is the chunk.
  have hDigest := hDigests q hq
  unfold FileRecord.describe at hDigest
  dsimp only at hDigest
  rw [List.getElem?_map, hChunk, Option.map_some,
    Option.some.injEq] at hDigest
  rcases exists_arrive_of_mem_accepted hq with
    ⟨sender, moment, entries, hArrive⟩
  have hData :=
    hCollision q.index q.data sender moment entries hArrive _
      hChunk hDigest.symm
  have hCheck :
      ChunkWriter.check content.length q.index q.data =
        .ok () := by
    apply ChunkWriter.check_eq_ok_iff.mpr
    rw [hData]
    exact ⟨hi, Chunking.length_chunkOf hi⟩
  calc
    Chunking.chunkOf stored.toBytes q.index.toNat =
        stored.chunk content.length q.index.toNat :=
      (Content.chunk_eq_chunkOf hStored _).symm
    _ = q.data := hPlaces q hq hCheck
    _ = Chunking.chunkOf content q.index.toNat := hData

/- A damaged chunk arrives first, and then the chunk. -/
theorem stored_eq_content_of_one_byte :
    let ended :=
      (awaiting "a").fetch (.describe "a" [7]) "d/a" [] 0
        (arrivals "a" [[8], [7], [7]])
    ∃ c ∈ (ended.downloads.tick 0
        (TransferLog.start TransferLog.defaultWindow)).1.completed,
      ∃ w,
        c.writer = some w ∧ w.queue.length = 1 ∧
          ∃ stored,
            (w.drain ended.disk).2.read "d/a" = .ok stored ∧
              stored.toBytes = [7] := by
  have hCreate :
      ChunkWriter.create (awaiting "a").disk "d/a"
          ([7] : Bytes).length =
        (.ok ⟨"d/a", ⟨⟨["d", "a"]⟩, 0⟩, 1, []⟩,
          (ChunkWriter.create Disk.empty "d/a" 1).2) := by
    rfl
  have hCompleted :
      (⟨⟨.describe "a" [7], "d/a"⟩, 0,
          some
            ⟨"d/a", ⟨⟨["d", "a"]⟩, 0⟩, 1, [⟨0, [7]⟩]⟩⟩ :
          Completed) ∈
        (((awaiting "a").fetch (.describe "a" [7]) "d/a" [] 0
          (arrivals "a" [[8], [7], [7]])).downloads.tick 0
            (TransferLog.start
              TransferLog.defaultWindow)).1.completed := by
    decide +kernel
  have hCollision :
      ∀ index data sender now log,
        .arrive "a" index data sender now log ∈
            arrivals "a" [[8], [7], [7]] →
          ∀ chunk,
            (FileRecord.chunksOf [7])[index.toNat]? =
                some chunk →
              Digest.of data = Digest.of chunk →
                data = chunk := by
    have hDamaged : Digest.of [8] ≠ Digest.of [7] := by
      decide +kernel
    intro index data sender now log hMem chunk hChunk hDigest
    rcases List.mem_map.mp hMem with ⟨payload, hPayload, hEq⟩
    cases hEq
    cases hChunk
    simp only [List.mem_cons, List.not_mem_nil, or_false]
      at hPayload
    rcases hPayload with rfl | rfl | rfl
    · exact absurd hDigest hDamaged
    · rfl
    · rfl
  rcases stored_eq_content (isReachable_awaiting "a")
      (by decide) (by decide) hCreate (by decide) (by decide)
      hCollision hCompleted rfl with
    ⟨-, w, hWriter, hStored⟩
  refine ⟨_, hCompleted, w, hWriter, ?_,
    hStored _ (w.drains_drain _)⟩
  cases hWriter
  rfl

end Session

end PeerShare

------------------------------------------------------------
-- Files Described by Anything
------------------------------------------------------------

namespace PeerShare

namespace Session

variable {s : Session}
variable {file : FileRecord}
variable {path : String}
variable {peers : List (Endpoint × Bytes)}
variable {begun now : Moment}
variable {w : ChunkWriter}
variable {disk : Disk}
variable {events : List Event}
variable {log : TransferLog}
variable {c : Completed}

/-
  The digests of a description may be those of anything.  A
  complete file then has all its chunks on disk just if all
  accepted chunks had the right length: the others were
  refused by the writer, and left a hole.
-/
theorem stored_chunks_iff
    (hReachable : s.IsReachable)
    (hAwaiting : s.downloads.isAwaiting file.name = true)
    (hConsistent : file.IsConsistent)
    (hCreate :
      ChunkWriter.create s.disk path file.size.toNat =
        (.ok w, disk))
    (hApart : ∀ v ∈ s.downloads.writers, v.file ≠ w.file)
    (hOngoing : ∀ e ∈ events, e.isOngoing = true)
    (hCompleted :
      c ∈
        ((s.fetch file path peers begun events).downloads.tick
          now log).1.completed)
    (hName : c.file.record.name = file.name) :
    let accepted := s.fetched file path peers begun events
    let size := file.size.toNat
    ∃ w',
      c.writer = some w' ∧
        ∀ disk',
          w'.Drains
              (s.fetch file path peers begun events).disk
              disk' →
            ∃ stored,
              disk'.read path = .ok stored ∧
                ((∀ i < file.chunkCount,
                    (∃ q ∈ accepted,
                      q.index.toNat = i ∧
                        ChunkWriter.check size q.index q.data =
                          .ok ()) ∧
                      file.chunkDigests[i]? =
                        some
                          (Digest.of (stored.chunk size i))) ↔
                  ∀ q ∈ accepted,
                    q.data.length =
                      Chunking.chunkLength size
                        q.index.toNat) := by
  intro accepted size
  rcases carries_of_completed hReachable hAwaiting hCreate
      hApart hOngoing hCompleted hName with
    ⟨-, hDistinct, hAll, hDigests, w', old, hWriter, hPath,
      hSize, hCarries⟩
  refine ⟨w', hWriter, ?_⟩
  intro disk' hDrains
  rcases hCarries.of_drains hDistinct hDrains with
    ⟨stored, hRead, -, hPlaces⟩
  rw [hPath] at hRead
  rw [hSize] at hPlaces
  refine ⟨stored, hRead, ?_, ?_⟩
  · intro hStored q hq
    have hIndex : q.index.toNat < file.chunkCount := by
      rcases List.getElem?_eq_some_iff.mp (hDigests q hq) with
        ⟨hLt, -⟩
      exact hLt
    rcases (hStored q.index.toNat hIndex).1 with
      ⟨q', hq', hSame, hCheck⟩
    -- Only one chunk was accepted for each number.
    have hEq : q' = q :=
      List.inj_on_of_nodup_map hDistinct hq' hq
        (UInt16.toNat_inj.mp hSame)
    rw [hEq] at hCheck
    exact (ChunkWriter.check_eq_ok_iff.mp hCheck).2
  · intro hLengths i hi
    rcases hAll i hi with ⟨q, hq, rfl⟩
    have hCheck :
        ChunkWriter.check size q.index q.data = .ok () := by
      apply ChunkWriter.check_eq_ok_iff.mpr
      rw [hConsistent.2] at hi
      exact ⟨hi, hLengths q hq⟩
    refine ⟨⟨q, hq, rfl, hCheck⟩, ?_⟩
    rw [hPlaces q hq hCheck]
    exact hDigests q hq

/- The chunk is accepted and has the right length. -/
theorem stored_chunks_of_one_byte :
    let file : FileRecord :=
      ⟨"a", 1, .ofBytes [], [Digest.of [7]]⟩
    let ended :=
      (awaiting "a").fetch file "d/a" [] 0
        (arrivals "a" [[8], [7]])
    ∃ c ∈ (ended.downloads.tick 0
        (TransferLog.start TransferLog.defaultWindow)).1.completed,
      ∃ w,
        c.writer = some w ∧
          ∃ stored,
            (w.drain ended.disk).2.read "d/a" = .ok stored ∧
              Digest.of (stored.chunk 1 0) = Digest.of [7] := by
  have hCreate :
      ChunkWriter.create (awaiting "a").disk "d/a"
          (1 : UInt64).toNat =
        (.ok ⟨"d/a", ⟨⟨["d", "a"]⟩, 0⟩, 1, []⟩,
          (ChunkWriter.create Disk.empty "d/a" 1).2) := by
    rfl
  have hCompleted :
      (⟨⟨⟨"a", 1, .ofBytes [], [Digest.of [7]]⟩, "d/a"⟩, 0,
          some
            ⟨"d/a", ⟨⟨["d", "a"]⟩, 0⟩, 1, [⟨0, [7]⟩]⟩⟩ :
          Completed) ∈
        (((awaiting "a").fetch
          ⟨"a", 1, .ofBytes [], [Digest.of [7]]⟩ "d/a" [] 0
          (arrivals "a" [[8], [7]])).downloads.tick 0
            (TransferLog.start
              TransferLog.defaultWindow)).1.completed := by
    decide +kernel
  have hAccepted :
      (awaiting "a").fetched
          ⟨"a", 1, .ofBytes [], [Digest.of [7]]⟩ "d/a" [] 0
          (arrivals "a" [[8], [7]]) =
        [⟨0, [7]⟩] := by
    decide +kernel
  rcases stored_chunks_iff (isReachable_awaiting "a")
      (by decide) (by decide) hCreate (by decide) (by decide)
      hCompleted rfl with
    ⟨w, hWriter, hStored⟩
  rcases hStored _ (w.drains_drain _) with
    ⟨stored, hRead, hIff⟩
  rw [hAccepted] at hIff
  have hAll := hIff.mpr (by decide)
  refine ⟨_, hCompleted, w, hWriter, stored, hRead, ?_⟩
  exact (Option.some.inj (hAll 0 (by decide)).2).symm

/-
  One chunk of two bytes is accepted for a file of one byte,
  whose description has the digest of the two.  The file is
  handed out as complete; the writer took nothing, and the
  file holds a zero.
-/
theorem exists_hole_of_wrong_length :
    let file : FileRecord :=
      ⟨"a", 1, .ofBytes [], [Digest.of [7, 7]]⟩
    let events := arrivals "a" [[7, 7]]
    let ended := (awaiting "a").fetch file "d/a" [] 0 events
    file.IsConsistent ∧
      (∀ q ∈ (awaiting "a").fetched file "d/a" [] 0 events,
        ChunkWriter.check 1 q.index q.data ≠ .ok ()) ∧
      ∃ c ∈ (ended.downloads.tick 0
          (TransferLog.start
            TransferLog.defaultWindow)).1.completed,
        ∃ w,
          c.writer = some w ∧
            ∃ stored,
              (w.drain ended.disk).2.read "d/a" = .ok stored ∧
                stored.toBytes = [0] ∧
                file.chunkDigests[0]? ≠
                  some (Digest.of (stored.chunk 1 0)) := by
  intro file events ended
  have hAccepted :
      (awaiting "a").fetched file "d/a" [] 0 events =
        [⟨0, [7, 7]⟩] := by
    decide +kernel
  have hCompleted :
      (⟨⟨file, "d/a"⟩, 0,
          some ⟨"d/a", ⟨⟨["d", "a"]⟩, 0⟩, 1, []⟩⟩ :
          Completed) ∈
        (ended.downloads.tick 0
          (TransferLog.start
            TransferLog.defaultWindow)).1.completed := by
    decide +kernel
  have hChunk :
      Digest.of [7, 7] ≠
        Digest.of
          (Content.chunk ⟨[.bytes [], .zeros 1]⟩ 1 0) := by
    decide +kernel
  refine ⟨by decide, ?_, _, hCompleted, _, rfl,
    ⟨[.bytes [], .zeros 1]⟩, ?_, by decide, ?_⟩
  · intro q hq
    rw [hAccepted] at hq
    rw [List.mem_singleton.mp hq]
    intro hCheck
    have hLength := (ChunkWriter.check_eq_ok_iff.mp hCheck).2
    revert hLength
    decide
  · rfl
  · intro hEq
    exact hChunk (Option.some.inj hEq)

end Session

end PeerShare
