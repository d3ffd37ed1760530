import Mathlib.Data.Finset.Card
import Mathlib.Data.Finset.Range
import PeerShare.Fetch.Downloads

/-
  What the operations on a transfer change.

  Most operations deal with the peers of a file and leave
  the file alone.  A chunk that arrives is noted once, when
  its digest is right, so the count of arrived chunks tells
  whether all of them have come.

  Key definitions include:
    * `Transfer.SameProgress`
    * `Transfer.WellFormed`
    * `Transfer.Judged`
    * `Transfer.Continues`
    * `Transfer.Received`

  Key theorems include:
    * `Transfer.sameProgress_tick`
    * `Transfer.judged_accept`
    * `Transfer.Received.of_judged`
    * `Transfer.Received.exists_of_isComplete`
-/

------------------------------------------------------------
-- Peers
------------------------------------------------------------

namespace PeerShare

namespace Transfer

/- No peer is evicted and a peer at the same time. -/
def Apart
    (t : Transfer) : Prop :=
  ∀ peer,
    t.peers.get? peer = none ∨ t.evicted.get? peer = none

/-
  Two states of a transfer that differ in peers and in the
  time of the last message to the tracker only.
-/
structure SameProgress
    (t t' : Transfer) : Prop where
  name_eq : t'.name = t.name
  path_eq : t'.path = t.path
  size_eq : t'.size = t.size
  digest_eq : t'.digest = t.digest
  chunks_eq : t'.chunks = t.chunks
  downloaded_eq : t'.downloaded = t.downloaded
  writer_eq : t'.writer = t.writer
  keeps_apart : t.Apart → t'.Apart

namespace SameProgress

variable {t t' t'' : Transfer}

theorem refl
    (t : Transfer) :
    t.SameProgress t where
  name_eq := rfl
  path_eq := rfl
  size_eq := rfl
  digest_eq := rfl
  chunks_eq := rfl
  downloaded_eq := rfl
  writer_eq := rfl
  keeps_apart := id

theorem trans
    (h : t.SameProgress t')
    (h' : t'.SameProgress t'') :
    t.SameProgress t'' where
  name_eq := h'.name_eq.trans h.name_eq
  path_eq := h'.path_eq.trans h.path_eq
  size_eq := h'.size_eq.trans h.size_eq
  digest_eq := h'.digest_eq.trans h.digest_eq
  chunks_eq := h'.chunks_eq.trans h.chunks_eq
  downloaded_eq := h'.downloaded_eq.trans h.downloaded_eq
  writer_eq := h'.writer_eq.trans h.writer_eq
  keeps_apart := h'.keeps_apart ∘ h.keeps_apart

theorem record_eq
    (h : t.SameProgress t') :
    t'.record = t.record := by
  unfold record
  rw [h.name_eq, h.size_eq, h.digest_eq, h.chunks_eq]

theorem chunkCount_eq
    (h : t.SameProgress t') :
    t'.chunkCount = t.chunkCount := by
  unfold chunkCount
  rw [h.chunks_eq]

theorem isComplete_eq
    (h : t.SameProgress t') :
    t'.isComplete = t.isComplete := by
  unfold isComplete
  rw [h.downloaded_eq, h.chunkCount_eq]

end SameProgress

/- A peer that is not evicted may be added. -/
theorem Apart.insert_peer
    {t : Transfer}
    (h : t.Apart)
    {peer : Endpoint}
    (holder : Holder)
    (hPeer : t.evicted.get? peer = none) :
    Apart { t with peers := t.peers.insert peer holder } := by
  intro other
  by_cases hOther : other = peer
  · rw [hOther]
    exact Or.inr hPeer
  · rcases h other with hNone | hNone
    · left
      rw [Table.get?_insert_of_ne _ _ hOther]
      exact hNone
    · exact Or.inr hNone

/- A peer may get another record. -/
theorem Apart.update_peer
    {t : Transfer}
    (h : t.Apart)
    {peer : Endpoint}
    {old : Holder}
    (holder : Holder)
    (hPeer : t.peers.get? peer = some old) :
    Apart { t with peers := t.peers.insert peer holder } := by
  apply h.insert_peer holder
  rcases h peer with hNone | hNone
  · rw [hPeer] at hNone
    cases hNone
  · exact hNone

/- A peer that is removed may be evicted. -/
theorem apart_evict
    {t : Transfer}
    (h : t.Apart)
    (peer : Endpoint) :
    (t.evict peer).Apart := by
  intro other
  unfold evict
  by_cases hOther : other = peer
  · left
    rw [hOther]
    exact Table.get?_erase_self _ _
  · rcases h other with hNone | hNone
    · left
      dsimp only
      rw [Table.get?_erase_of_ne _ hOther]
      exact hNone
    · right
      dsimp only
      rw [Table.get?_insert_of_ne _ _ hOther]
      exact hNone

theorem sameProgress_evict
    (t : Transfer)
    (peer : Endpoint) :
    t.SameProgress (t.evict peer) where
  name_eq := rfl
  path_eq := rfl
  size_eq := rfl
  digest_eq := rfl
  chunks_eq := rfl
  downloaded_eq := rfl
  writer_eq := rfl
  keeps_apart h := apart_evict h peer

/- A peer may be set where this keeps peers apart. -/
theorem sameProgress_insert_peer
    (t : Transfer)
    (peer : Endpoint)
    (holder : Holder)
    (h :
      t.Apart →
        Apart { t with peers := t.peers.insert peer holder }) :
    t.SameProgress
      { t with peers := t.peers.insert peer holder } where
  name_eq := rfl
  path_eq := rfl
  size_eq := rfl
  digest_eq := rfl
  chunks_eq := rfl
  downloaded_eq := rfl
  writer_eq := rfl
  keeps_apart := h

theorem sameProgress_forget
    (t : Transfer)
    (peer : Endpoint) :
    t.SameProgress
      { t with evicted := t.evicted.erase peer } where
  name_eq := rfl
  path_eq := rfl
  size_eq := rfl
  digest_eq := rfl
  chunks_eq := rfl
  downloaded_eq := rfl
  writer_eq := rfl
  keeps_apart h := by
    intro other
    rcases h other with hNone | hNone
    · exact Or.inl hNone
    · right
      dsimp only
      rw [Table.get?_erase, hNone, ite_self]

theorem sameProgress_applyPeer
    (t : Transfer)
    (peer : Endpoint)
    (bitfield : Bytes) :
    t.SameProgress (t.applyPeer peer bitfield) := by
  unfold applyPeer
  dsimp only
  split
  · rename_i hNone
    unfold reportPeer
    apply sameProgress_insert_peer
    intro h
    exact h.insert_peer _ hNone
  · split
    · exact SameProgress.refl t
    · apply (sameProgress_forget t peer).trans
      unfold reportPeer
      apply sameProgress_insert_peer
      intro h
      exact h.insert_peer _ (Table.get?_erase_self _ _)

theorem sameProgress_applyPeers
    (t : Transfer)
    (peers : List (Endpoint × Bytes)) :
    t.SameProgress (t.applyPeers peers) := by
  unfold applyPeers
  induction peers generalizing t with
  | nil => exact SameProgress.refl t
  | cons entry peers ih =>
      exact (sameProgress_applyPeer t _ _).trans (ih _)

theorem sameProgress_credit
    (t : Transfer)
    (index bytes : Nat)
    (sender : Endpoint)
    (now : Moment)
    (log : TransferLog) :
    t.SameProgress
      (t.credit index bytes sender now log).1 := by
  unfold credit
  cases hPeer : t.peers.get? sender with
  | none => exact SameProgress.refl t
  | some holder =>
      have hInsert :
          t.SameProgress
            { t with
              peers := t.peers.insert sender holder.forgive } := by
        apply sameProgress_insert_peer
        intro h
        exact h.update_peer _ hPeer
      dsimp only
      split
      · exact hInsert
      · exact hInsert

theorem sameProgress_visit
    (now : Moment)
    (ranks : Array Nat)
    (s : Schedule)
    (peer : Endpoint) :
    s.transfer.SameProgress
      (s.visit now ranks peer).transfer := by
  unfold Schedule.visit
  cases hPeer : s.transfer.peers.get? peer with
  | none => exact SameProgress.refl s.transfer
  | some holder =>
      dsimp only
      split
      · exact sameProgress_evict s.transfer peer
      · apply sameProgress_insert_peer
        intro h
        exact h.update_peer _ hPeer

theorem sameProgress_foldl_visit
    (now : Moment)
    (ranks : Array Nat)
    (s : Schedule)
    (peers : List Endpoint) :
    s.transfer.SameProgress
      (peers.foldl (Schedule.visit now ranks) s).transfer := by
  induction peers generalizing s with
  | nil => exact SameProgress.refl s.transfer
  | cons peer peers ih =>
      exact (sameProgress_visit now ranks s peer).trans (ih _)

theorem sameProgress_schedule
    (t : Transfer)
    (now : Moment)
    (log : TransferLog) :
    t.SameProgress (t.schedule now log).2 :=
  sameProgress_foldl_visit now _ ⟨t, _, _⟩ _

theorem sameProgress_refreshed
    (t : Transfer)
    (now : Moment) :
    t.SameProgress { t with refreshed := now } where
  name_eq := rfl
  path_eq := rfl
  size_eq := rfl
  digest_eq := rfl
  chunks_eq := rfl
  downloaded_eq := rfl
  writer_eq := rfl
  keeps_apart := id

end Transfer

end PeerShare

------------------------------------------------------------
-- Passes over One Transfer
------------------------------------------------------------

namespace PeerShare

namespace Transfer

variable {t t' : Transfer}
variable {now : Moment}
variable {log : TransferLog}

/- The state that a pass hands to the schedule. -/
theorem tick_of_not_isComplete
    (h : t.isComplete = false) :
    ∃ refreshed,
      t.SameProgress refreshed ∧
        refreshed.peers = t.peers ∧
        refreshed.evicted = t.evicted ∧
        (t.tick now log).1.requests =
          (refreshed.schedule now log).1.map
            (fun (peer, indices) =>
              { peer, name := t.name, indices }) ∧
        (t.tick now log).1.completed = [] ∧
        (t.tick now log).2 =
          some (refreshed.schedule now log).2 := by
  unfold tick
  rw [h]
  dsimp only
  by_cases hDue : t.isRefreshDue now
  · rw [hDue]
    exact ⟨_, sameProgress_refreshed t now, rfl, rfl, rfl,
      rfl, rfl⟩
  · rw [Bool.not_eq_true] at hDue
    rw [hDue]
    exact ⟨_, SameProgress.refl t, rfl, rfl, rfl, rfl, rfl⟩

/- What a pass over a complete file decides. -/
theorem tick_of_isComplete
    (h : t.isComplete = true) :
    t.tick now log =
      ({ messages := t.refreshMessages
         requests := []
         completed :=
           [{ t with refreshed := now }.complete now] },
        none) := by
  unfold tick
  rw [h]
  rfl

/- Only a transfer that is not complete outlasts a pass. -/
theorem sameProgress_tick
    (h : (t.tick now log).2 = some t') :
    t.isComplete = false ∧ t.SameProgress t' := by
  cases hComplete : t.isComplete with
  | true =>
      rw [tick_of_isComplete hComplete] at h
      cases h
  | false =>
      rcases @tick_of_not_isComplete t now log hComplete with
        ⟨refreshed, hSame, -, -, -, -, hRest⟩
      rw [hRest] at h
      cases h
      exact ⟨rfl,
        hSame.trans (sameProgress_schedule refreshed now log)⟩

/- What a pass hands out is a complete transfer. -/
theorem mem_completed_tick
    {c : Completed}
    (h : c ∈ (t.tick now log).1.completed) :
    t.isComplete = true ∧
      c.file = { record := t.record, path := t.path } ∧
      c.writer = t.writer := by
  cases hComplete : t.isComplete with
  | true =>
      rw [tick_of_isComplete hComplete] at h
      rw [List.mem_singleton.mp h]
      exact ⟨rfl, rfl, rfl⟩
  | false =>
      rcases @tick_of_not_isComplete t now log hComplete with
        ⟨refreshed, -, -, -, -, hNone, -⟩
      rw [hNone] at h
      cases h

end Transfer

end PeerShare

------------------------------------------------------------
-- Chunks
------------------------------------------------------------

namespace PeerShare

namespace Transfer

/- Every chunk stands at its number, and peers are apart. -/
structure WellFormed
    (t : Transfer) : Prop where
  index_eq :
    ∀ (i : Nat) (chunk : ChunkEntry),
      t.chunks[i]? = some chunk → chunk.index = i
  apart : t.Apart

theorem getElem?_freshChunks
    (digests : List Digest)
    (i : Nat) :
    (freshChunks digests)[i]? =
      digests[i]?.map fun digest =>
        { index := i, digest, downloaded := false,
          persisted := false } := by
  unfold freshChunks
  rw [List.getElem?_toArray, List.getElem?_map,
    List.getElem?_zipIdx, Option.map_map]
  cases digests[i]? with
  | none => rfl
  | some digest => simp

theorem wellFormed_start
    (file : FileRecord)
    (path : String)
    (now : Moment) :
    (start file path now).WellFormed where
  index_eq i chunk h := by
    unfold start at h
    dsimp only at h
    rw [getElem?_freshChunks, Option.map_eq_some_iff] at h
    rcases h with ⟨digest, -, rfl⟩
    rfl
  apart peer := Or.inl rfl

/- A new transfer is described as the file is. -/
theorem record_start
    (file : FileRecord)
    (path : String)
    (now : Moment) :
    (start file path now).record = file := by
  rcases file with ⟨name, size, digest, digests⟩
  unfold record start freshChunks
  dsimp only
  congr 1
  apply List.ext_getElem?
  intro i
  rw [List.getElem?_map, List.getElem?_map,
    List.getElem?_zipIdx, Option.map_map, Option.map_map]
  cases digests[i]? with
  | none => rfl
  | some digest => rfl

/- The digest of a chunk is the one in the description. -/
theorem getElem?_chunkDigests
    (t : Transfer)
    (i : Nat) :
    t.record.chunkDigests[i]? =
      t.chunks[i]?.map (·.digest) := by
  unfold record
  rw [List.getElem?_map, Array.getElem?_toList]

theorem WellFormed.of_sameProgress
    {t t' : Transfer}
    (h : t.WellFormed)
    (hSame : t.SameProgress t') :
    t'.WellFormed where
  index_eq := by
    rw [hSame.chunks_eq]
    exact h.index_eq
  apart := hSame.keeps_apart h.apart

/- A transfer after a chunk has got another entry. -/
theorem getElem?_setChunk
    {t : Transfer}
    {index : Nat}
    {old : ChunkEntry}
    (new : ChunkEntry)
    (h : t.chunks[index]? = some old)
    (i : Nat) :
    (t.setChunk index new).chunks[i]? =
      if i = index then some new else t.chunks[i]? := by
  rcases Array.getElem?_eq_some_iff.mp h with ⟨hLt, -⟩
  unfold setChunk
  dsimp only
  rw [Array.getElem?_setIfInBounds]
  by_cases hEq : index = i
  · rw [if_pos hEq, if_pos hLt, if_pos hEq.symm]
  · rw [if_neg hEq, if_neg (Ne.symm hEq)]

theorem WellFormed.setChunk
    {t : Transfer}
    (h : t.WellFormed)
    {index : Nat}
    {old new : ChunkEntry}
    (hGet : t.chunks[index]? = some old)
    (hIndex : new.index = old.index) :
    (t.setChunk index new).WellFormed where
  index_eq := by
    intro i chunk hChunk
    rw [getElem?_setChunk new hGet] at hChunk
    split at hChunk
    · rename_i hEq
      cases hChunk
      rw [hIndex, hEq]
      exact h.index_eq index old hGet
    · exact h.index_eq i chunk hChunk
  apart := h.apart

/- An entry with the same digest changes no description. -/
theorem record_setChunk
    {t : Transfer}
    {index : Nat}
    {old new : ChunkEntry}
    (hGet : t.chunks[index]? = some old)
    (hDigest : new.digest = old.digest) :
    (t.setChunk index new).record = t.record := by
  have hDigests :
      (t.setChunk index new).record.chunkDigests =
        t.record.chunkDigests := by
    apply List.ext_getElem?
    intro i
    rw [getElem?_chunkDigests, getElem?_chunkDigests,
      getElem?_setChunk new hGet]
    split
    · rename_i hEq
      rw [hEq, hGet, Option.map_some, Option.map_some, hDigest]
    · rfl
  unfold record at hDigests ⊢
  dsimp only at hDigests
  rw [hDigests]
  rfl

end Transfer

end PeerShare

------------------------------------------------------------
-- Arrived Chunks
------------------------------------------------------------

namespace PeerShare

/- The chunk that a verdict is about, if it accepts it. -/
def Verdict.chunk
    (verdict : Verdict)
    (index : UInt16)
    (data : Bytes) : List QueuedChunk :=
  match verdict with
  | .accepted _ => [{ index, data }]
  | _ => []

namespace Transfer

/- The transfer with one more chunk noted as arrived. -/
def withDownloaded
    (t : Transfer)
    (index : Nat)
    (chunk : ChunkEntry) : Transfer :=
  { t.setChunk index { chunk with downloaded := true } with
    downloaded := t.downloaded + 1 }

/-
  How a chunk that arrives is judged.  It is noted when its
  bytes have the digest of a chunk that has not yet arrived,
  and else nothing happens.
-/
inductive Judged
    (t : Transfer)
    (index : UInt16)
    (data : Bytes) :
    Verdict → Transfer → Prop where
  | refused
      {verdict : Verdict}
      (h : ∀ hasWriter, verdict ≠ .accepted hasWriter) :
      Judged t index data verdict t
  | accepted
      {chunk : ChunkEntry}
      {t' : Transfer}
      (hGet : t.chunks[index.toNat]? = some chunk)
      (hFresh : chunk.downloaded = false)
      (hDigest : Digest.of data = chunk.digest)
      (hSame :
        (t.withDownloaded index.toNat chunk).SameProgress t') :
      Judged t index data (.accepted t.writer.isSome) t'

theorem judged_accept
    (t : Transfer)
    (index : UInt16)
    (data : Bytes)
    (sender : Endpoint)
    (now : Moment)
    (log : TransferLog) :
    t.Judged index data
      (t.accept index data sender now log).1
      (t.accept index data sender now log).2.1 := by
  unfold accept
  cases hGet : t.chunks[index.toNat]? with
  | none => exact .refused (fun _ hEq => nomatch hEq)
  | some chunk =>
      dsimp only
      cases hFresh : chunk.downloaded with
      | true => exact .refused (fun _ hEq => nomatch hEq)
      | false =>
          rw [if_neg Bool.false_ne_true]
          by_cases hDigest : Digest.of data = chunk.digest
          · rw [if_neg (not_not_intro hDigest)]
            exact .accepted hGet hFresh hDigest
              (sameProgress_credit
                (t.withDownloaded index.toNat chunk) _ _ _ _ _)
          · rw [if_pos hDigest]
            exact .refused (fun _ hEq => nomatch hEq)

theorem Judged.wellFormed
    {t t' : Transfer}
    {index : UInt16}
    {data : Bytes}
    {verdict : Verdict}
    (hJudged : t.Judged index data verdict t')
    (h : t.WellFormed) :
    t'.WellFormed := by
  cases hJudged with
  | refused => exact h
  | @accepted chunk _ hGet hFresh hDigest hSame =>
      apply WellFormed.of_sameProgress ?_ hSame
      have hSet :
          (t.setChunk index.toNat
            { chunk with downloaded := true }).WellFormed :=
        h.setChunk hGet rfl
      exact ⟨hSet.index_eq, hSet.apart⟩

/- A judgement leaves the writer as it is. -/
theorem Judged.writer_eq
    {t t' : Transfer}
    {index : UInt16}
    {data : Bytes}
    {verdict : Verdict}
    (h : t.Judged index data verdict t') :
    t'.writer = t.writer := by
  cases h with
  | refused => rfl
  | accepted _ _ _ hSame => exact hSame.writer_eq

/- The verdict tells whether there is a writer. -/
theorem Judged.isSome_writer
    {t t' : Transfer}
    {index : UInt16}
    {data : Bytes}
    {verdict : Verdict}
    {hasWriter : Bool}
    (h : t.Judged index data verdict t')
    (hVerdict : verdict = .accepted hasWriter) :
    t.writer.isSome = hasWriter := by
  cases h with
  | refused hRefused => exact absurd hVerdict (hRefused _)
  | accepted => exact Verdict.accepted.inj hVerdict

theorem Judged.record_eq
    {t t' : Transfer}
    {index : UInt16}
    {data : Bytes}
    {verdict : Verdict}
    (hJudged : t.Judged index data verdict t') :
    t'.record = t.record := by
  cases hJudged with
  | refused => rfl
  | accepted hGet hFresh hDigest hSame =>
      rw [hSame.record_eq]
      exact record_setChunk hGet rfl

/- Noting that a chunk is on disk changes only that. -/
theorem markPersisted_eq
    (t : Transfer)
    (index : UInt16) :
    t.markPersisted index = t ∨
      ∃ chunk,
        t.chunks[index.toNat]? = some chunk ∧
          t.markPersisted index =
            t.setChunk index.toNat
              { chunk with persisted := true } := by
  unfold markPersisted
  cases hGet : t.chunks[index.toNat]? with
  | none => exact Or.inl rfl
  | some chunk => exact Or.inr ⟨chunk, rfl, rfl⟩

theorem WellFormed.markPersisted
    {t : Transfer}
    (h : t.WellFormed)
    (index : UInt16) :
    (t.markPersisted index).WellFormed := by
  rcases t.markPersisted_eq index with hSame | hSet
  · rw [hSame]
    exact h
  · rcases hSet with ⟨chunk, hGet, hSet⟩
    rw [hSet]
    exact h.setChunk hGet rfl

theorem record_markPersisted
    (t : Transfer)
    (index : UInt16) :
    (t.markPersisted index).record = t.record := by
  rcases t.markPersisted_eq index with hSame | hSet
  · rw [hSame]
  · rcases hSet with ⟨chunk, hGet, hSet⟩
    rw [hSet]
    exact record_setChunk hGet rfl

theorem writer_markPersisted
    (t : Transfer)
    (index : UInt16) :
    (t.markPersisted index).writer = t.writer := by
  rcases t.markPersisted_eq index with hSame | hSet
  · rw [hSame]
  · rcases hSet with ⟨chunk, -, hSet⟩
    rw [hSet]
    rfl

end Transfer

end PeerShare

------------------------------------------------------------
-- Later States
------------------------------------------------------------

namespace PeerShare

namespace Transfer

/-
  What all later states of a transfer share with it: the
  description and path of the file, and the file that its
  writer writes to.
-/
structure Continues
    (t t' : Transfer) : Prop where
  record_eq : t'.record = t.record
  path_eq : t'.path = t.path
  file_eq : t'.writer.map (·.file) = t.writer.map (·.file)
  keeps_wellFormed : t.WellFormed → t'.WellFormed

namespace Continues

variable {t t' t'' : Transfer}

theorem trans
    (h : t.Continues t')
    (h' : t'.Continues t'') :
    t.Continues t'' where
  record_eq := h'.record_eq.trans h.record_eq
  path_eq := h'.path_eq.trans h.path_eq
  file_eq := h'.file_eq.trans h.file_eq
  keeps_wellFormed := h'.keeps_wellFormed ∘ h.keeps_wellFormed

theorem of_sameProgress
    (h : t.SameProgress t') :
    t.Continues t' where
  record_eq := h.record_eq
  path_eq := h.path_eq
  file_eq := by rw [h.writer_eq]
  keeps_wellFormed hFormed := hFormed.of_sameProgress h

theorem refl
    (t : Transfer) :
    t.Continues t :=
  of_sameProgress (SameProgress.refl t)

theorem of_judged
    {index : UInt16}
    {data : Bytes}
    {verdict : Verdict}
    (h : t.Judged index data verdict t') :
    t.Continues t' where
  record_eq := h.record_eq
  path_eq := by
    cases h with
    | refused => rfl
    | accepted _ _ _ hSame => exact hSame.path_eq
  file_eq := by rw [h.writer_eq]
  keeps_wellFormed := h.wellFormed

theorem markPersisted
    (t : Transfer)
    (index : UInt16) :
    t.Continues (t.markPersisted index) where
  record_eq := record_markPersisted t index
  path_eq := by
    rcases t.markPersisted_eq index with hSame | hSet
    · rw [hSame]
    · rcases hSet with ⟨chunk, -, hSet⟩
      rw [hSet]
      rfl
  file_eq := by rw [writer_markPersisted]
  keeps_wellFormed h := h.markPersisted index

theorem withWriter
    {w w' : ChunkWriter}
    (hWriter : t.writer = some w)
    (hFile : w'.file = w.file) :
    t.Continues (t.withWriter w') where
  record_eq := rfl
  path_eq := rfl
  file_eq := by
    unfold Transfer.withWriter
    rw [hWriter, Option.map_some, Option.map_some, hFile]
  keeps_wellFormed h := ⟨h.index_eq, h.apart⟩

/- A writer that is there has been there before. -/
theorem exists_writer
    (h : t.Continues t')
    {w' : ChunkWriter}
    (hWriter : t'.writer = some w') :
    ∃ w, t.writer = some w ∧ w.file = w'.file := by
  have hFile := h.file_eq
  rw [hWriter, Option.map_some, eq_comm,
    Option.map_eq_some_iff] at hFile
  exact hFile

end Continues

end Transfer

end PeerShare

------------------------------------------------------------
-- The Count of Arrived Chunks
------------------------------------------------------------

namespace PeerShare

namespace Transfer

/-
  The chunks that a transfer has accepted: one for each
  entry that is noted as arrived, with the right digest.
-/
structure Received
    (t : Transfer)
    (accepted : List QueuedChunk) : Prop where
  nodup : (accepted.map (·.index)).Nodup
  downloaded_eq : t.downloaded = accepted.length
  downloaded_iff :
    ∀ (i : Nat) (chunk : ChunkEntry),
      t.chunks[i]? = some chunk →
        (chunk.downloaded = true ↔
          ∃ q ∈ accepted, q.index.toNat = i)
  digest_eq :
    ∀ q ∈ accepted,
      t.record.chunkDigests[q.index.toNat]? =
        some (Digest.of q.data)

namespace Received

variable {t t' : Transfer}
variable {accepted : List QueuedChunk}

theorem start
    (file : FileRecord)
    (path : String)
    (now : Moment) :
    (Transfer.start file path now).Received [] where
  nodup := List.nodup_nil
  downloaded_eq := rfl
  downloaded_iff i chunk h := by
    unfold Transfer.start at h
    dsimp only at h
    rw [getElem?_freshChunks, Option.map_eq_some_iff] at h
    rcases h with ⟨digest, -, rfl⟩
    simp
  digest_eq q hq := by cases hq

theorem of_sameProgress
    (h : t.Received accepted)
    (hSame : t.SameProgress t') :
    t'.Received accepted where
  nodup := h.nodup
  downloaded_eq := hSame.downloaded_eq.trans h.downloaded_eq
  downloaded_iff := by
    rw [hSame.chunks_eq]
    exact h.downloaded_iff
  digest_eq := by
    rw [hSame.record_eq]
    exact h.digest_eq

theorem markPersisted
    (h : t.Received accepted)
    (index : UInt16) :
    (t.markPersisted index).Received accepted := by
  rcases t.markPersisted_eq index with hSame | hSet
  · rw [hSame]
    exact h
  · rcases hSet with ⟨chunk, hGet, hSet⟩
    refine ⟨h.nodup, ?_, ?_, ?_⟩
    · rw [hSet]
      exact h.downloaded_eq
    · intro i entry hEntry
      rw [hSet, getElem?_setChunk _ hGet] at hEntry
      split at hEntry
      · rename_i hEq
        cases hEntry
        rw [hEq]
        exact h.downloaded_iff _ chunk hGet
      · exact h.downloaded_iff i entry hEntry
    · rw [record_markPersisted]
      exact h.digest_eq

theorem withWriter
    (h : t.Received accepted)
    (w : ChunkWriter) :
    (t.withWriter w).Received accepted :=
  ⟨h.nodup, h.downloaded_eq, h.downloaded_iff, h.digest_eq⟩

/- A chunk that is accepted has not been accepted before. -/
theorem of_judged
    (h : t.Received accepted)
    {index : UInt16}
    {data : Bytes}
    {hasWriter : Bool}
    (hJudged :
      t.Judged index data (.accepted hasWriter) t') :
    t'.Received (⟨index, data⟩ :: accepted) := by
  cases hJudged with
  | refused hRefused => exact absurd rfl (hRefused hasWriter)
  | @accepted chunk _ hGet hFresh hDigest hSame =>
      apply of_sameProgress ?_ hSame
      refine ⟨?_, ?_, ?_, ?_⟩
      · rw [List.map_cons, List.nodup_cons]
        refine ⟨?_, h.nodup⟩
        intro hMem
        rcases List.mem_map.mp hMem with ⟨q, hq, hIndex⟩
        have hBefore :=
          (h.downloaded_iff _ chunk hGet).mpr
            ⟨q, hq, congrArg UInt16.toNat hIndex⟩
        rw [hFresh] at hBefore
        cases hBefore
      · exact congrArg (· + 1) h.downloaded_eq
      · intro i entry hEntry
        unfold withDownloaded at hEntry
        dsimp only at hEntry
        rw [getElem?_setChunk _ hGet] at hEntry
        split at hEntry
        · rename_i hEq
          cases hEntry
          simp [hEq]
        · rename_i hNe
          rw [h.downloaded_iff i entry hEntry]
          simp [Ne.symm hNe]
      · have hRecord :
            (t.withDownloaded index.toNat chunk).record =
              t.record :=
          record_setChunk hGet rfl
        rw [hRecord]
        intro q hq
        rcases List.mem_cons.mp hq with rfl | hq
        · rw [getElem?_chunkDigests, hGet, Option.map_some,
            hDigest]
        · exact h.digest_eq q hq

/- In a complete transfer every chunk has arrived. -/
theorem exists_of_isComplete
    (h : t.Received accepted)
    (hComplete : t.isComplete = true)
    {i : Nat}
    (hi : i < t.chunkCount) :
    ∃ q ∈ accepted, q.index.toNat = i := by
  have hCount : accepted.length = t.chunkCount := by
    rw [← h.downloaded_eq]
    exact beq_iff_eq.mp hComplete
  have hNodup :
      (accepted.map (·.index.toNat)).Nodup := by
    have hMap :
        accepted.map (·.index.toNat) =
          (accepted.map (·.index)).map UInt16.toNat := by
      rw [List.map_map]
      rfl
    rw [hMap]
    apply h.nodup.map
    intro a b hEq
    exact UInt16.toNat_inj.mp hEq
  -- As many different numbers as there are chunks.
  have hSubset :
      (accepted.map (·.index.toNat)).toFinset ⊆
        Finset.range t.chunkCount := by
    intro k hk
    rcases List.mem_map.mp (List.mem_toFinset.mp hk) with
      ⟨q, hq, rfl⟩
    have hDigest := h.digest_eq q hq
    rw [getElem?_chunkDigests, Option.map_eq_some_iff]
      at hDigest
    rcases hDigest with ⟨chunk, hGet, -⟩
    rcases Array.getElem?_eq_some_iff.mp hGet with ⟨hLt, -⟩
    exact Finset.mem_range.mpr hLt
  have hCard :
      (Finset.range t.chunkCount).card ≤
        (accepted.map (·.index.toNat)).toFinset.card := by
    rw [List.toFinset_card_of_nodup hNodup, List.length_map,
      hCount, Finset.card_range]
  have hAll := Finset.eq_of_subset_of_card_le hSubset hCard
  have hMem : i ∈ (accepted.map (·.index.toNat)).toFinset := by
    rw [hAll]
    exact Finset.mem_range.mpr hi
  exact List.mem_map.mp (List.mem_toFinset.mp hMem)

end Received

end Transfer

end PeerShare
