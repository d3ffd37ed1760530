import PeerShare.Proofs.Tracker.Mirror

/-
  Whatever a tracker was asked to do, the files and the
  peers of its catalog fit together.

  That a file is stored under its name and that a peer holds
  chunks of no other files is told by the log that a catalog
  mirrors.  What is added here is told by the replies: which
  descriptions are accepted, and which numbers are given to
  the peers.

  Key definitions include:
    * `Tracker.IsTrackable`
    * `Tracker.issued`
    * `Tracker.Catalog.IsCoherent`

  Key theorems include:
    * `Tracker.Catalog.isConsistent_of_mem_history`
    * `Tracker.Catalog.issued_history`
    * `Tracker.Catalog.isCoherent_run`
-/

------------------------------------------------------------
-- Accepted Files
------------------------------------------------------------

namespace PeerShare

namespace Tracker

/-
  Whether a description may stand under a name: it is that
  of a file that is not empty, with one digest for each of
  its chunks, of which there are not too many.
-/
structure IsTrackable
    (name : String)
    (file : FileRecord) : Prop where
  name_eq : file.name = name
  size_pos : 0 < file.size
  chunkCount_eq :
    file.chunkCount = Chunking.chunkCount file.size.toNat
  chunkCount_le : file.chunkCount ≤ 65536

theorem isTrackable_of_isConsistent
    {file : FileRecord}
    (h : file.IsConsistent) :
    IsTrackable file.name file where
  name_eq := rfl
  size_pos := UInt64.pos_iff_ne_zero.mpr h.1
  chunkCount_eq := h.2
  chunkCount_le := by
    rw [h.2]
    exact Chunking.chunkCount_le _

namespace Catalog

variable {c : Catalog}
variable {publisher : PeerId}
variable {file : FileRecord}

theorem isConsistent_of_publish
    (h : (c.publish publisher file).1 = .ok .accepted) :
    file.IsConsistent := by
  unfold publish at h
  split at h
  · cases h
  · rename_i hFault
    exact fileFault?_eq_none_iff.mp hFault

/- Every description that was accepted is consistent. -/
theorem isConsistent_of_mem_history
    {operations : List Operation}
    (h : publication publisher file ∈ c.history operations) :
    file.IsConsistent := by
  induction operations generalizing c with
  | nil => cases h
  | cons o operations ih =>
      rcases List.mem_cons.mp h with hHead | hTail
      · rw [publication, Prod.mk.injEq] at hHead
        rcases hHead with ⟨rfl, hReply⟩
        exact isConsistent_of_publish
          (Reply.published.inj hReply).symm
      · exact ih hTail

end Catalog

end Tracker

end PeerShare

------------------------------------------------------------
-- Issued Numbers
------------------------------------------------------------

namespace PeerShare

namespace Tracker

/- The numbers that were given to peers, in order. -/
def issued
    (log : List Entry) : List PeerId :=
  (log.filterMap registration?).map Registration.peer

theorem issued_concat
    (log : List Entry)
    (e : Entry) :
    issued (log ++ [e]) =
      issued log ++
        (registration? e).toList.map Registration.peer := by
  unfold issued
  rw [List.filterMap_append, List.map_append,
    List.filterMap_cons, List.filterMap_nil]
  cases registration? e <;> rfl

theorem registration?_of_isIdle
    {e : Entry}
    (h : e.2.isIdle = true) :
    registration? e = none := by
  unfold registration?
  split
  · cases h
  · rfl

namespace Catalog

/-
  The numbers zero, one, two and so on are given to the
  peers, in the order of their registrations.
-/
theorem issued_history
    (operations : List Operation) :
    issued (empty.history operations) =
      List.range (empty.run operations).nextPeer := by
  induction operations using List.reverseRecOn with
  | nil => rfl
  | append_singleton operations o ih =>
      have hEffect := (empty.run operations).effect_perform o
      rw [history_concat, run_concat, issued_concat, ih]
      generalize (empty.run operations).perform o = result
        at hEffect ⊢
      rcases result with ⟨reply, c'⟩
      cases hEffect with
      | register identity port => exact List.range_succ.symm
      | idle isIdle =>
          rw [registration?_of_isIdle isIdle]
          exact List.append_nil _
      | _ => exact List.append_nil _

theorem length_history
    (c : Catalog)
    (operations : List Operation) :
    (c.history operations).length = operations.length := by
  induction operations generalizing c with
  | nil => rfl
  | cons o operations ih =>
      rw [history, List.length_cons, List.length_cons, ih]

theorem nextPeer_le
    (operations : List Operation) :
    (empty.run operations).nextPeer ≤ operations.length := by
  have hIssued := congrArg List.length
    (issued_history operations)
  rw [List.length_range, issued, List.length_map] at hIssued
  rw [← hIssued, ← empty.length_history operations]
  exact List.length_filterMap_le _ _

end Catalog

end Tracker

end PeerShare

------------------------------------------------------------
-- Coherence
------------------------------------------------------------

namespace PeerShare

namespace Tracker

namespace Catalog

/-
  Whether the parts of a catalog fit together: descriptions
  may stand where they do, peers hold chunks of tracked
  files only, and no number in use is still to be given.
-/
structure IsCoherent
    (c : Catalog) : Prop where
  isTrackable :
    ∀ name file,
      c.files.get? name = some file → IsTrackable name file
  isCanonical :
    ∀ peer record name chunks,
      c.peers.get? peer = some record →
        record.holding? name = some chunks →
          ∃ file,
            c.files.get? name = some file ∧
              chunks.IsCanonical file.chunkCount
  lt_nextPeer :
    ∀ peer record,
      c.peers.get? peer = some record → peer < c.nextPeer

/-
  After any operations, the catalog of a tracker fits
  together and no number was given to two peers.  There are
  no more numbers than operations, so that a counter of
  bounded width runs over only after as many of them.
-/
theorem isCoherent_run
    (operations : List Operation) :
    (empty.run operations).IsCoherent ∧
      (issued (empty.history operations)).Nodup ∧
      (empty.run operations).nextPeer ≤
        operations.length := by
  have hMirrors := mirrors_run operations
  refine ⟨{
    isTrackable := ?_
    isCanonical := ?_
    lt_nextPeer := hMirrors.lt_nextPeer }, ?_,
    nextPeer_le operations⟩
  · intro name file hFile
    cases hMirrors.reflects name with
    | gone untracked isGone holding_eq =>
        rw [hFile] at untracked
        cases untracked
    | alive tracked isLife holding_eq =>
        cases hFile.symm.trans tracked
        have hConsistent := isConsistent_of_mem_history
          (isLife.published.subset List.mem_cons_self)
        exact isLife.name_eq ▸
          isTrackable_of_isConsistent hConsistent
  · intro peer record name chunks hGet hHolding
    cases hMirrors.reflects name with
    | gone untracked isGone holding_eq =>
        rw [holding_eq peer record hGet] at hHolding
        cases hHolding
    | @alive publisher file later tracked isLife isNoted =>
        refine ⟨file, tracked, ?_⟩
        exact ChunkSet.isCanonical_of_chunkCount_eq
          ((isNoted peer record hGet).chunkCount_eq chunks
            hHolding)
  · rw [issued_history]
    exact List.nodup_range

end Catalog

end Tracker

end PeerShare
