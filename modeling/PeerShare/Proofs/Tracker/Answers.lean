import PeerShare.Proofs.Tracker.Isolation

/-
  What a tracker answers, told from its log alone.

  A query is answered with the file that lives under the
  name and with the registered peers that hold chunks of it.
  What was refused and what was done to other files may be
  left out of the log.

  Key definitions include:
    * `Tracker.IsListing`
    * `Tracker.IsRoster`
    * `Tracker.IsAnswer`

  Key theorems include:
    * `Tracker.Catalog.Mirrors.isRoster`
    * `Tracker.Catalog.Mirrors.isAnswer`
    * `Tracker.Catalog.answers_from_history`
-/

------------------------------------------------------------
-- Listed Peers
------------------------------------------------------------

namespace PeerShare

namespace Tracker

/-
  What an answer has of a registered peer: nothing if it
  holds no chunk, and otherwise its address and the packed
  form of the chunks that it holds.
-/
inductive IsListing
    (r : Registration)
    (holds : Nat → Prop) :
    Option Wire.PeerEntry → Prop where
  | absent
      (hNone : ∀ i, ¬ holds i) :
      IsListing r holds none
  | listed
      {i : Nat}
      {bitfield : Bytes}
      (hHolds : holds i)
      (hPacked : Packing.IsPacked bitfield holds) :
      IsListing r holds
        (some
          { identity := r.identity
            port := r.port
            bitfield })

/- A peer is listed with the chunks that are noted of it. -/
theorem PeerRecord.isListing_listing?
    {record : PeerRecord}
    {peer publisher : PeerId}
    {name : String}
    {file : FileRecord}
    {later : List Entry}
    (h :
      IsNoted publisher file later peer
        (record.holding? name)) :
    IsListing (Registration.ofContact (peer, record.contact))
      (Holds publisher file later peer)
      (record.listing? name) := by
  unfold PeerRecord.listing?
  cases hNoted : record.holding? name with
  | none =>
      refine .absent fun i hHolds => ?_
      rcases (h.has_iff i).mpr hHolds with ⟨chunks, hSome, -⟩
      rw [hNoted] at hSome
      cases hSome
  | some chunks =>
      have hHas :
          ∀ i,
            chunks.has i = true ↔
              Holds publisher file later peer i := by
        intro i
        rw [← h.has_iff, hNoted]
        simp only [Option.some.injEq, exists_eq_left']
      dsimp only
      split
      · rename_i hEmpty
        refine .absent fun i hHolds => ?_
        rw [← hHas, ChunkSet.isEmpty_iff.mp hEmpty] at hHolds
        cases hHolds
      · rename_i hSome
        rw [ChunkSet.isEmpty_iff, not_forall] at hSome
        rcases hSome with ⟨i, hChunk⟩
        rw [Bool.not_eq_false] at hChunk
        exact .listed ((hHas i).mp hChunk)
          (ChunkSet.isPacked_toWire hHas)

end Tracker

end PeerShare

------------------------------------------------------------
-- Answers
------------------------------------------------------------

namespace PeerShare

namespace Tracker

/-
  Whether a list has the registered peers, each of them once
  and in the order of their registrations.
-/
structure IsRoster
    (log : List Entry)
    (registrations : List Registration) : Prop where
  nodup : (registrations.map Registration.peer).Nodup
  sublist :
    registrations.Sublist (log.filterMap registration?)
  mem_iff :
    ∀ r, r ∈ registrations ↔ IsRegistered log r

/-
  Whether an answer is right: there is none for a file that
  is gone, and otherwise it has the file that lives and
  lists the registered peers that hold some of its chunks.
-/
structure IsAnswer
    (log : List Entry)
    (name : String)
    (answer : Option (FileRecord × List Wire.PeerEntry)) :
    Prop where
  none_iff : answer = none ↔ IsGone log name
  of_some :
    ∀ file peers,
      answer = some (file, peers) →
        ∃ publisher later registrations listings,
          IsLife log name publisher file later ∧
            IsRoster log registrations ∧
            List.Forall₂
              (fun r =>
                IsListing r (Holds publisher file later r.peer))
              registrations listings ∧
            peers = listings.reduceOption

namespace Catalog

variable {c : Catalog}
variable {log : List Entry}

theorem Mirrors.isRoster
    (h : c.Mirrors log) :
    IsRoster log (registered log) where
  nodup := by
    rw [← h.registrations_eq]
    exact c.nodup_registrations
  sublist := registered_sublist log
  mem_iff := fun _ => mem_registered_iff

/- The catalog lists the registered peers that hold some. -/
theorem Mirrors.forall₂_listing?
    (h : c.Mirrors log)
    {name : String}
    {publisher : PeerId}
    {file : FileRecord}
    {later : List Entry}
    (hNoted :
      ∀ peer record,
        c.peers.get? peer = some record →
          IsNoted publisher file later peer
            (record.holding? name)) :
    List.Forall₂
      (fun r =>
        IsListing r (Holds publisher file later r.peer))
      (registered log)
      (c.peers.values.map (·.listing? name)) := by
  unfold Table.values
  rw [← h.registrations_eq, registrations_eq_map,
    List.forall₂_map_left_iff, List.map_map,
    List.forall₂_map_right_iff, List.forall₂_same]
  rintro ⟨peer, record⟩ hMem
  exact PeerRecord.isListing_listing?
    (hNoted peer record (Table.mem_entries_iff.mp hMem))

/- A mirror of a log answers what the log tells. -/
theorem Mirrors.isAnswer
    (h : c.Mirrors log)
    (name : String) :
    IsAnswer log name (c.query name) := by
  unfold query
  cases h.reflects name with
  | gone untracked isGone holding_eq =>
      rw [untracked]
      exact {
        none_iff := iff_of_true rfl isGone
        of_some := by
          intro file peers hAnswer
          cases hAnswer }
  | @alive publisher file later tracked isLife isNoted =>
      rw [tracked]
      exact {
        none_iff :=
          iff_of_false (Option.some_ne_none _)
            isLife.not_isGone
        of_some := by
          rintro _ _ ⟨⟩
          refine ⟨publisher, later, registered log, _, isLife,
            h.isRoster, h.forall₂_listing? isNoted, ?_⟩
          change _ = List.filterMap id (List.map _ _)
          rw [List.filterMap_map]
          rfl }

/- A report is taken of registered peers on living files. -/
theorem Mirrors.update_eq_true_iff
    (h : c.Mirrors log)
    (peer : PeerId)
    (name : String)
    (bitfield : Bytes) :
    (c.update peer name bitfield).1 = true ↔
      ¬ IsGone log name ∧
        ∃ r, r.peer = peer ∧ IsRegistered log r := by
  have hPeer :
      (∃ r, r.peer = peer ∧ IsRegistered log r) ↔
        ∃ record, c.peers.get? peer = some record := by
    rw [← exists_mem_registrations_iff, h.registrations_eq]
    simp only [mem_registered_iff, and_comm]
  have hFile :
      ¬ IsGone log name ↔
        ∃ file, c.files.get? name = some file := by
    rw [← (h.isAnswer name).none_iff, query]
    cases c.files.get? name <;> simp
  rw [hPeer, hFile]
  unfold Catalog.update
  cases c.files.get? name <;> cases c.peers.get? peer <;> simp

end Catalog

end Tracker

end PeerShare

------------------------------------------------------------
-- The Tracker and Its Log
------------------------------------------------------------

namespace PeerShare

namespace Tracker

namespace Catalog

/-
  A new tracker answers every query as the log of what it
  was asked and replied tells.  It takes the reports of
  registered peers on living files.  Operations that it
  refuses change no later reply, and what concerns a file is
  replied to as if no other file had been named.
-/
theorem answers_from_history
    (operations : List Operation)
    (name : String) :
    IsAnswer (empty.history operations) name
        ((empty.run operations).query name) ∧
      (∀ peer bitfield,
        ((empty.run operations).update peer name
              bitfield).1 = true ↔
          ¬ IsGone (empty.history operations) name ∧
            ∃ r,
              r.peer = peer ∧
                IsRegistered (empty.history operations) r) ∧
      (∀ o later,
        ((empty.run operations).perform o).1.isRefusal =
            true →
          ((empty.run operations).perform o).2.history
              later =
            (empty.run operations).history later) ∧
      (empty.history operations).filter
          (·.1.concerns name) =
        empty.history
          (operations.filter (·.concerns name)) := by
  have hMirrors := mirrors_run operations
  refine ⟨hMirrors.isAnswer name, ?_, ?_, ?_⟩
  · intro peer bitfield
    exact hMirrors.update_eq_true_iff peer name bitfield
  · intro o later hRefusal
    rw [perform_of_isRefusal hRefusal]
  · rw [filter_history, only_empty]

/-
  What a peer held of a removed file does not come back.
  Who published it last holds all its chunks, and of a
  report only the bits of the ten chunks count.
-/
theorem answers_after_republication :
    let file : FileRecord :=
      ⟨"f", 150000, .ofBytes [],
        List.replicate 10 (.ofBytes [])⟩
    let answer :=
      some
        (file,
          [⟨"b", 2, [0xFF, 0xC0]⟩, ⟨"c", 3, [0x00, 0x40]⟩])
    let operations : List Operation :=
      [.register "a" 1, .register "b" 2, .register "c" 3,
        .publish 0 file, .update 1 "f" [0x80],
        .remove 2 "f", .publish 1 file,
        .update 2 "f" [0x00, 0x7F, 0x01]]
    (empty.run operations).query "f" = answer ∧
      IsAnswer (empty.history operations) "f" answer := by
  intro file answer operations
  have hQuery :
      (empty.run operations).query "f" = answer := by
    decide +kernel
  exact ⟨hQuery,
    hQuery ▸ (answers_from_history operations "f").1⟩

end Catalog

end Tracker

end PeerShare
