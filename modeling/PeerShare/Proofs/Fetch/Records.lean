import PeerShare.Proofs.Fetch.Progress
import PeerShare.Proofs.Fetch.Walk
import PeerShare.Proofs.Packing

/-
  The peers of a transfer, and the records of requests that
  are kept for them.

  Only a pass asks for chunks and evicts peers.  All other
  operations leave records alone, drop them or make new ones
  for chunks that were never requested.

  Key definitions include:
    * `Transfer.record?`
    * `Holder.Remembers`
    * `Holder.Asked`
    * `Transfer.Remembers`
    * `Transfer.Passes`
    * `Transfer.HasRegularPeers`

  Key theorems include:
    * `Transfer.remembers_applyPeers`
    * `Transfer.remembers_accept`
    * `Transfer.passes_tick`
    * `Transfer.HasRegularPeers.of_remembers`
    * `Transfer.HasRegularPeers.of_passes`
-/

------------------------------------------------------------
-- Single Peers
------------------------------------------------------------

namespace PeerShare

namespace Holder

variable {h h' h'' : Holder}
variable {n : Nat}
variable {now : Moment}

/-
  What a report or a good chunk makes of a peer: records
  stay, go or are new, and there are no more strikes.
-/
structure Remembers
    (n : Nat)
    (h h' : Holder) : Prop where
  record :
    ∀ i r,
      h'.record? i = some r →
        h.record? i = some r ∨ r = RequestRecord.fresh ∧ i < n
  strikes_le : h'.strikes ≤ h.strikes

/-
  What a pass makes of a peer that it does not evict: the
  records of some chunks that were due are stamped.
-/
structure Asked
    (now : Moment)
    (h h' : Holder) : Prop where
  record :
    ∀ i,
      h'.record? i = h.record? i ∨
        ∃ r,
          h.record? i = some r ∧ r.isDue now = true ∧
            r.tries < maxTries ∧
            h'.record? i = some (r.stamp now)
  strikes_le :
    h.strikes ≤ maxStrikes → h'.strikes ≤ maxStrikes

theorem Remembers.refl
    (n : Nat)
    (h : Holder) :
    Remembers n h h where
  record _ _ hRecord := Or.inl hRecord
  strikes_le := Nat.le_refl _

theorem Remembers.trans
    (hFirst : Remembers n h h')
    (hThen : Remembers n h' h'') :
    Remembers n h h'' where
  record i r hRecord := by
    rcases hThen.record i r hRecord with hOld | hNew
    · exact hFirst.record i r hOld
    · exact Or.inr hNew
  strikes_le :=
    Nat.le_trans hThen.strikes_le hFirst.strikes_le

/- What is made of a new peer can be made of any other. -/
theorem Remembers.of_fresh
    (hFresh : Remembers n Holder.fresh h')
    (h : Holder) :
    Remembers n h h' where
  record i r hRecord := by
    rcases hFresh.record i r hRecord with hNone | hNew
    · cases hNone
    · exact Or.inr hNew
  strikes_le :=
    Nat.le_trans hFresh.strikes_le (Nat.zero_le _)

theorem remembers_report
    (h : Holder)
    {chunks : ChunkSet}
    (hCount : chunks.chunkCount = n) :
    Remembers n h (h.report chunks) where
  record i r hRecord := by
    rw [record?_report] at hRecord
    split at hRecord
    · rename_i hHas
      cases hOld : h.record? i with
      | none =>
          rw [hOld, Option.getD_none] at hRecord
          exact Or.inr ⟨(Option.some.inj hRecord).symm,
            hCount ▸ ChunkSet.lt_of_has hHas⟩
      | some old =>
          rw [hOld, Option.getD_some] at hRecord
          exact Or.inl hRecord
    · cases hRecord
  strikes_le := Nat.le_refl _

theorem remembers_forgive
    (n : Nat)
    (h : Holder) :
    Remembers n h h.forgive where
  record _ _ hRecord := Or.inl hRecord
  strikes_le := Nat.zero_le _

theorem Asked.refl
    (now : Moment)
    (h : Holder) :
    Asked now h h where
  record _ := Or.inl rfl
  strikes_le := id

/- No record is stamped twice in one pass. -/
theorem Asked.stamp
    (hAsked : Asked now h h')
    {index : Nat}
    {r : RequestRecord}
    (hRecord : h'.record? index = some r)
    (hDue : r.isDue now = true)
    (hTries : r.tries < maxTries) :
    Asked now h (h'.stamp index r now) where
  record i := by
    rw [record?_stamp r now hRecord]
    split
    · rename_i hIndex
      rw [hIndex]
      rcases hAsked.record index with hSame | hStamped
      · rw [hSame] at hRecord
        exact Or.inr ⟨r, hRecord, hDue, hTries, rfl⟩
      · rcases hStamped with ⟨old, -, -, -, hNew⟩
        rw [hRecord] at hNew
        rw [Option.some.inj hNew,
          RequestRecord.isDue_stamp] at hDue
        cases hDue
    · exact hAsked.record i
  strikes_le := hAsked.strikes_le

theorem Asked.strike
    (hAsked : Asked now h h')
    (hFew : ¬ maxStrikes < h'.strike.strikes) :
    Asked now h h'.strike where
  record := hAsked.record
  strikes_le _ := Nat.le_of_not_lt hFew

theorem Asked.trans
    (hFirst : Asked now h h')
    (hThen : Asked now h' h'') :
    Asked now h h'' where
  record i := by
    rcases hThen.record i with hSame | hStamped
    · rw [hSame]
      exact hFirst.record i
    · rcases hStamped with ⟨r, hRecord, hDue, hTries, hNew⟩
      rcases hFirst.record i with hSame | hBefore
      · rw [hSame] at hRecord
        exact Or.inr ⟨r, hRecord, hDue, hTries, hNew⟩
      · rcases hBefore with ⟨old, -, -, -, hOld⟩
        rw [hRecord] at hOld
        rw [Option.some.inj hOld,
          RequestRecord.isDue_stamp] at hDue
        cases hDue
  strikes_le := hThen.strikes_le ∘ hFirst.strikes_le

end Holder

/- What a walk makes of a peer that it does not evict. -/
theorem Walk.asked_walk
    {now : Moment}
    {holder : Holder}
    {list : List Nat}
    {w : Walk}
    (hAsked : holder.Asked now w.holder)
    (hStays : (walk now list w).1.evicted = false) :
    holder.Asked now (walk now list w).1.holder := by
  fun_induction walk now list w with
  | case1 w => exact hAsked
  | case2 w index rest hFull => exact hAsked
  | case3 w index rest hFull hNone ih => exact ih hAsked hStays
  | case4 w index rest hFull r hRecord hWaits ih =>
      exact ih hAsked hStays
  | case5 w index rest hFull r hRecord hDue hTries w' hStrikes =>
      cases hStays
  | case6 w index rest hFull r hRecord hDue hTries w' hStrikes ih =>
      exact ih (hAsked.strike hStrikes) hStays
  | case7 w index rest hFull r hRecord hDue hTries ih =>
      have hDue' : r.isDue now = true := by simpa using hDue
      exact ih
        (hAsked.stamp hRecord hDue' (Nat.lt_of_not_le hTries))
        hStays

end PeerShare

------------------------------------------------------------
-- All Peers of a Transfer
------------------------------------------------------------

namespace PeerShare

namespace Transfer

variable {t t' t'' : Transfer}
variable {now : Moment}

/- The record of the requests to a peer for a chunk. -/
def record?
    (t : Transfer)
    (peer : Endpoint)
    (index : Nat) : Option RequestRecord :=
  (t.peers.get? peer).bind (·.record? index)

theorem record?_eq_some_iff
    {peer : Endpoint}
    {i : Nat}
    {r : RequestRecord} :
    t.record? peer i = some r ↔
      ∃ holder,
        t.peers.get? peer = some holder ∧
          holder.record? i = some r := by
  unfold record?
  rw [Option.bind_eq_some_iff]

/-
  What an operation other than a pass makes of the peers of
  a transfer.
-/
structure Remembers
    (t t' : Transfer) : Prop where
  chunkCount_eq : t'.chunkCount = t.chunkCount
  peer :
    ∀ peer holder',
      t'.peers.get? peer = some holder' →
        Holder.Remembers t.chunkCount
          ((t.peers.get? peer).getD Holder.fresh) holder'
  evicted :
    ∀ peer held,
      t'.evicted.get? peer = some held →
        t.evicted.get? peer = some held

/- What a pass makes of the peers of a transfer. -/
structure Passes
    (now : Moment)
    (t t' : Transfer) : Prop where
  chunkCount_eq : t'.chunkCount = t.chunkCount
  peer :
    ∀ peer holder',
      t'.peers.get? peer = some holder' →
        ∃ holder,
          t.peers.get? peer = some holder ∧
            holder.Asked now holder'
  evicted :
    ∀ peer held,
      t'.evicted.get? peer = some held →
        t.evicted.get? peer = some held ∨
          held.chunkCount = t.chunkCount
  /- Only peers of the transfer are evicted. -/
  stays :
    ∀ peer,
      t.peers.get? peer = none →
        t'.evicted.get? peer = t.evicted.get? peer

/- Operations that leave the peers alone. -/
theorem remembers_of_eq
    (hChunks : t'.chunkCount = t.chunkCount)
    (hPeers : t'.peers = t.peers)
    (hEvicted : t'.evicted = t.evicted) :
    t.Remembers t' where
  chunkCount_eq := hChunks
  peer peer holder hPeer := by
    rw [hPeers] at hPeer
    rw [hPeer]
    exact Holder.Remembers.refl _ _
  evicted peer held hHeld := hEvicted ▸ hHeld

theorem Remembers.trans
    (h : t.Remembers t')
    (h' : t'.Remembers t'') :
    t.Remembers t'' where
  chunkCount_eq := h'.chunkCount_eq.trans h.chunkCount_eq
  peer peer holder hPeer := by
    have hThen := h'.peer peer holder hPeer
    rw [h.chunkCount_eq] at hThen
    cases hBetween : t'.peers.get? peer with
    | none =>
        rw [hBetween, Option.getD_none] at hThen
        exact hThen.of_fresh _
    | some between =>
        rw [hBetween, Option.getD_some] at hThen
        exact (h.peer peer between hBetween).trans hThen
  evicted peer held hHeld :=
    h.evicted peer held (h'.evicted peer held hHeld)

/- One peer gets another state. -/
theorem remembers_insert_peer
    {peer : Endpoint}
    {holder : Holder}
    (h :
      Holder.Remembers t.chunkCount
        ((t.peers.get? peer).getD Holder.fresh) holder) :
    t.Remembers
      { t with peers := t.peers.insert peer holder } where
  chunkCount_eq := rfl
  peer other holder' hOther := by
    dsimp only at hOther
    by_cases hEq : other = peer
    · rw [hEq, Table.get?_insert_self] at hOther
      cases hOther
      rw [hEq]
      exact h
    · rw [Table.get?_insert_of_ne _ _ hEq] at hOther
      rw [hOther]
      exact Holder.Remembers.refl _ _
  evicted _ _ hHeld := hHeld

theorem remembers_forget
    (t : Transfer)
    (peer : Endpoint) :
    t.Remembers
      { t with evicted := t.evicted.erase peer } where
  chunkCount_eq := rfl
  peer other holder hOther := by
    dsimp only at hOther
    rw [hOther]
    exact Holder.Remembers.refl _ _
  evicted other held hHeld := by
    dsimp only at hHeld
    rw [Table.get?_erase] at hHeld
    split at hHeld
    · cases hHeld
    · exact hHeld

/- What is known of a peer after a report. -/
theorem get?_reportPeer
    (t : Transfer)
    (peer other : Endpoint)
    (chunks : ChunkSet) :
    (t.reportPeer peer chunks).peers.get? other =
      if other = peer then
        some
          (((t.peers.get? peer).getD Holder.fresh).report
            chunks)
      else t.peers.get? other := by
  unfold reportPeer
  dsimp only
  split
  · rename_i hEq
    rw [hEq, Table.get?_insert_self]
  · rename_i hNe
    exact Table.get?_insert_of_ne _ _ hNe

theorem remembers_reportPeer
    (t : Transfer)
    (peer : Endpoint)
    {chunks : ChunkSet}
    (h : chunks.chunkCount = t.chunkCount) :
    t.Remembers (t.reportPeer peer chunks) :=
  remembers_insert_peer (Holder.remembers_report _ h)

theorem remembers_applyPeer
    (t : Transfer)
    (peer : Endpoint)
    (bitfield : Bytes) :
    t.Remembers (t.applyPeer peer bitfield) := by
  have hCount :
      (ChunkSet.ofBytes bitfield t.chunkCount).chunkCount =
        t.chunkCount :=
    ChunkSet.chunkCount_ofBytes bitfield t.chunkCount
  unfold applyPeer
  dsimp only
  split
  · exact remembers_reportPeer t peer hCount
  · split
    · exact remembers_of_eq rfl rfl rfl
    · exact (remembers_forget t peer).trans
        (remembers_reportPeer _ peer hCount)

theorem remembers_applyPeers
    (t : Transfer)
    (peers : List (Endpoint × Bytes)) :
    t.Remembers (t.applyPeers peers) := by
  unfold applyPeers
  induction peers generalizing t with
  | nil => exact remembers_of_eq rfl rfl rfl
  | cons entry peers ih =>
      exact (remembers_applyPeer t _ _).trans (ih _)

/- A credit forgives strikes, and leaves records alone. -/
theorem remembers_credit
    (t : Transfer)
    (index bytes : Nat)
    (sender : Endpoint)
    (now : Moment)
    (log : TransferLog) :
    t.Remembers (t.credit index bytes sender now log).1 := by
  unfold credit
  cases hPeer : t.peers.get? sender with
  | none => exact remembers_of_eq rfl rfl rfl
  | some holder =>
      have hInsert :
          t.Remembers
            { t with
              peers := t.peers.insert sender holder.forgive } := by
        apply remembers_insert_peer
        rw [hPeer]
        exact Holder.remembers_forgive _ _
      dsimp only
      split
      · exact hInsert
      · exact hInsert

/- A record that is there was there before, or is new. -/
theorem Remembers.record_or_fresh
    (h : t.Remembers t')
    {peer : Endpoint}
    {i : Nat}
    {r : RequestRecord}
    (hRecord : t'.record? peer i = some r) :
    t.record? peer i = some r ∨ r = RequestRecord.fresh := by
  rcases record?_eq_some_iff.mp hRecord with
    ⟨holder', hPeer, hHolder⟩
  rcases (h.peer peer holder' hPeer).record i r hHolder with
    hOld | hNew
  · left
    cases hBefore : t.peers.get? peer with
    | none =>
        rw [hBefore] at hOld
        cases hOld
    | some holder =>
        rw [hBefore] at hOld
        exact record?_eq_some_iff.mpr ⟨holder, hBefore, hOld⟩
  · exact Or.inr hNew.1

theorem chunkCount_setChunk
    (t : Transfer)
    (index : Nat)
    (chunk : ChunkEntry) :
    (t.setChunk index chunk).chunkCount = t.chunkCount :=
  Array.size_setIfInBounds

theorem remembers_accept
    (t : Transfer)
    (index : UInt16)
    (data : Bytes)
    (sender : Endpoint)
    (now : Moment)
    (log : TransferLog) :
    t.Remembers
      (t.accept index data sender now log).2.1 := by
  have hSame : t.Remembers t := remembers_of_eq rfl rfl rfl
  unfold accept
  cases t.chunks[index.toNat]? with
  | none => exact hSame
  | some chunk =>
      dsimp only
      split
      · exact hSame
      · split
        · exact hSame
        · have hNoted :
              t.Remembers
                (t.withDownloaded index.toNat chunk) :=
            remembers_of_eq (chunkCount_setChunk t _ _) rfl rfl
          exact hNoted.trans (remembers_credit _ _ _ _ _ _)

theorem remembers_markPersisted
    (t : Transfer)
    (index : UInt16) :
    t.Remembers (t.markPersisted index) := by
  unfold markPersisted
  split
  · exact remembers_of_eq rfl rfl rfl
  · exact remembers_of_eq (chunkCount_setChunk t _ _) rfl rfl

theorem Passes.refl
    (now : Moment)
    (t : Transfer) :
    t.Passes now t where
  chunkCount_eq := rfl
  peer _ holder hPeer :=
    ⟨holder, hPeer, Holder.Asked.refl now holder⟩
  evicted _ _ hHeld := Or.inl hHeld
  stays _ _ := rfl

/- A pass makes no records. -/
theorem Passes.record_or_stamp
    (h : t.Passes now t')
    {peer : Endpoint}
    {i : Nat}
    {r' : RequestRecord}
    (hRecord : t'.record? peer i = some r') :
    ∃ r,
      t.record? peer i = some r ∧
        (r' = r ∨ r' = r.stamp now) := by
  rcases record?_eq_some_iff.mp hRecord with
    ⟨holder', hPeer, hHolder⟩
  rcases h.peer peer holder' hPeer with
    ⟨holder, hBefore, hAsked⟩
  rcases hAsked.record i with hSame | hStamped
  · rw [hSame] at hHolder
    exact ⟨r', record?_eq_some_iff.mpr
      ⟨holder, hBefore, hHolder⟩, Or.inl rfl⟩
  · rcases hStamped with ⟨r, hOld, -, -, hNew⟩
    rw [hHolder] at hNew
    exact ⟨r, record?_eq_some_iff.mpr ⟨holder, hBefore, hOld⟩,
      Or.inr (Option.some.inj hNew)⟩

theorem Passes.none_of_none
    (h : t.Passes now t')
    {peer : Endpoint}
    (hNone : t.peers.get? peer = none) :
    t'.peers.get? peer = none := by
  cases hPeer : t'.peers.get? peer with
  | none => rfl
  | some holder' =>
      rcases h.peer peer holder' hPeer with ⟨holder, hSome, -⟩
      rw [hNone] at hSome
      cases hSome

theorem Passes.trans
    (h : t.Passes now t')
    (h' : t'.Passes now t'') :
    t.Passes now t'' where
  chunkCount_eq := h'.chunkCount_eq.trans h.chunkCount_eq
  peer peer holder'' hPeer := by
    rcases h'.peer peer holder'' hPeer with
      ⟨holder', hBetween, hThen⟩
    rcases h.peer peer holder' hBetween with
      ⟨holder, hBefore, hFirst⟩
    exact ⟨holder, hBefore, hFirst.trans hThen⟩
  evicted peer held hHeld := by
    rcases h'.evicted peer held hHeld with hBetween | hCount
    · exact h.evicted peer held hBetween
    · exact Or.inr (hCount.trans h.chunkCount_eq)
  stays peer hNone := by
    rw [h'.stays peer (h.none_of_none hNone),
      h.stays peer hNone]

theorem passes_evict
    {peer : Endpoint}
    {holder : Holder}
    (hPeer : t.peers.get? peer = some holder)
    (now : Moment) :
    t.Passes now (t.evict peer) where
  chunkCount_eq := rfl
  peer other holder' hOther := by
    refine ⟨holder', ?_, Holder.Asked.refl now holder'⟩
    unfold evict at hOther
    dsimp only at hOther
    rw [Table.get?_erase] at hOther
    split at hOther
    · cases hOther
    · exact hOther
  evicted other held hHeld := by
    unfold evict at hHeld
    dsimp only at hHeld
    rw [Table.get?_insert] at hHeld
    split at hHeld
    · cases hHeld
      exact Or.inr (ChunkSet.chunkCount_ofIndices _ _)
    · exact Or.inl hHeld
  stays other hNone := by
    have hOther : other ≠ peer := by
      rintro rfl
      rw [hPeer] at hNone
      cases hNone
    exact Table.get?_insert_of_ne _ _ hOther

theorem passes_insert_peer
    {peer : Endpoint}
    {holder holder' : Holder}
    (hPeer : t.peers.get? peer = some holder)
    (hAsked : holder.Asked now holder') :
    t.Passes now
      { t with peers := t.peers.insert peer holder' } where
  chunkCount_eq := rfl
  peer other holder'' hOther := by
    dsimp only at hOther
    by_cases hEq : other = peer
    · rw [hEq, Table.get?_insert_self] at hOther
      cases hOther
      exact ⟨holder, hEq ▸ hPeer, hAsked⟩
    · rw [Table.get?_insert_of_ne _ _ hEq] at hOther
      exact ⟨holder'', hOther, Holder.Asked.refl _ _⟩
  evicted _ _ hHeld := Or.inl hHeld
  stays _ _ := rfl

theorem passes_visit
    (now : Moment)
    (ranks : Array Nat)
    (s : Schedule)
    (peer : Endpoint) :
    s.transfer.Passes now (s.visit now ranks peer).transfer := by
  unfold Schedule.visit
  cases hPeer : s.transfer.peers.get? peer with
  | none => exact Passes.refl now s.transfer
  | some holder =>
      dsimp only
      split
      · exact passes_evict hPeer now
      · rename_i hStays
        apply passes_insert_peer hPeer
        exact Walk.asked_walk (Holder.Asked.refl now holder)
          (Bool.eq_false_of_not_eq_true hStays)

theorem passes_foldl_visit
    (now : Moment)
    (ranks : Array Nat)
    (s : Schedule)
    (peers : List Endpoint) :
    s.transfer.Passes now
      (peers.foldl (Schedule.visit now ranks) s).transfer := by
  induction peers generalizing s with
  | nil => exact Passes.refl now s.transfer
  | cons peer peers ih =>
      exact (passes_visit now ranks s peer).trans (ih _)

/- Only peers of the transfer are asked for chunks. -/
theorem exists_peer_of_mem_foldl_visit
    {ranks : Array Nat}
    {s : Schedule}
    {peers : List Endpoint}
    {r : Endpoint × List UInt16}
    (h :
      r ∈ (peers.foldl (Schedule.visit now ranks) s).requests) :
    r ∈ s.requests ∨
      ∃ holder, s.transfer.peers.get? r.1 = some holder := by
  induction peers generalizing s with
  | nil => exact Or.inl h
  | cons peer peers ih =>
      rcases ih h with hVisit | hLater
      · unfold Schedule.visit at hVisit
        cases hPeer : s.transfer.peers.get? peer with
        | none =>
            rw [hPeer] at hVisit
            exact Or.inl hVisit
        | some holder =>
            rw [hPeer] at hVisit
            dsimp only at hVisit
            split at hVisit
            · exact Or.inl hVisit
            · dsimp only at hVisit
              split at hVisit
              · exact Or.inl hVisit
              · rcases List.mem_append.mp hVisit with hOld | hNew
                · exact Or.inl hOld
                · rw [List.mem_singleton.mp hNew]
                  exact Or.inr ⟨holder, hPeer⟩
      · rcases hLater with ⟨holder', hBetween⟩
        rcases (passes_visit now ranks s peer).peer r.1 holder'
            hBetween with ⟨holder, hBefore, -⟩
        exact Or.inr ⟨holder, hBefore⟩

theorem exists_peer_of_mem_requests_tick
    {log : TransferLog}
    {r : ChunkRequest}
    (h : r ∈ (t.tick now log).1.requests) :
    ∃ holder, t.peers.get? r.peer = some holder := by
  cases hComplete : t.isComplete with
  | true =>
      rw [tick_of_isComplete hComplete] at h
      cases h
  | false =>
      rcases @tick_of_not_isComplete t now log hComplete with
        ⟨refreshed, -, hPeers, -, hRequests, -, -⟩
      rw [hRequests] at h
      rcases List.mem_map.mp h with ⟨pair, hPair, rfl⟩
      rcases exists_peer_of_mem_foldl_visit hPair with
        hNone | hPeer
      · cases hNone
      · rw [← hPeers]
        exact hPeer

theorem passes_tick
    {log : TransferLog}
    (h : (t.tick now log).2 = some t') :
    t.Passes now t' := by
  have hComplete := (sameProgress_tick h).1
  rcases @tick_of_not_isComplete t now log hComplete with
    ⟨refreshed, hSame, hPeers, hEvicted, -, -, hRest⟩
  rw [hRest] at h
  cases h
  have hSchedule :
      refreshed.Passes now (refreshed.schedule now log).2 :=
    passes_foldl_visit now _ ⟨refreshed, _, _⟩ _
  refine ⟨?_, ?_, ?_, ?_⟩
  · exact hSchedule.chunkCount_eq.trans hSame.chunkCount_eq
  · rw [← hPeers]
    exact hSchedule.peer
  · rw [← hEvicted, ← hSame.chunkCount_eq]
    exact hSchedule.evicted
  · rw [← hEvicted, ← hPeers]
    exact hSchedule.stays

end Transfer

end PeerShare

------------------------------------------------------------
-- Bounds
------------------------------------------------------------

namespace PeerShare

/-
  What a peer of a file with `n` chunks keeps to.  A record
  has no tries just if its chunk was never requested.
-/
structure Holder.IsRegular
    (n : Nat)
    (h : Holder) : Prop where
  lt_chunkCount : ∀ i r, h.record? i = some r → i < n
  strikes_le : h.strikes ≤ 3
  tries_le : ∀ i r, h.record? i = some r → r.tries ≤ 3
  tries_eq_zero_iff :
    ∀ i r,
      h.record? i = some r →
        (r.tries = 0 ↔ r.lastRequested = none)

namespace Holder

variable {h h' : Holder}
variable {n : Nat}

theorem isRegular_fresh
    (n : Nat) :
    Holder.fresh.IsRegular n where
  lt_chunkCount i r hRecord := by cases hRecord
  strikes_le := Nat.zero_le _
  tries_le i r hRecord := by cases hRecord
  tries_eq_zero_iff i r hRecord := by cases hRecord

theorem IsRegular.of_remembers
    (hRegular : h.IsRegular n)
    (hRemembers : Remembers n h h') :
    h'.IsRegular n where
  lt_chunkCount i r hRecord := by
    rcases hRemembers.record i r hRecord with hOld | hNew
    · exact hRegular.lt_chunkCount i r hOld
    · exact hNew.2
  strikes_le :=
    Nat.le_trans hRemembers.strikes_le hRegular.strikes_le
  tries_le i r hRecord := by
    rcases hRemembers.record i r hRecord with hOld | hNew
    · exact hRegular.tries_le i r hOld
    · rw [hNew.1]
      exact Nat.zero_le _
  tries_eq_zero_iff i r hRecord := by
    rcases hRemembers.record i r hRecord with hOld | hNew
    · exact hRegular.tries_eq_zero_iff i r hOld
    · rw [hNew.1]
      exact ⟨fun _ => rfl, fun _ => rfl⟩

theorem IsRegular.of_asked
    {now : Moment}
    (hRegular : h.IsRegular n)
    (hAsked : Asked now h h') :
    h'.IsRegular n where
  lt_chunkCount i r hRecord := by
    rcases hAsked.record i with hSame | hStamped
    · rw [hSame] at hRecord
      exact hRegular.lt_chunkCount i r hRecord
    · rcases hStamped with ⟨old, hOld, -⟩
      exact hRegular.lt_chunkCount i old hOld
  strikes_le := hAsked.strikes_le hRegular.strikes_le
  tries_le i r hRecord := by
    rcases hAsked.record i with hSame | hStamped
    · rw [hSame] at hRecord
      exact hRegular.tries_le i r hRecord
    · rcases hStamped with ⟨old, -, -, hTries, hNew⟩
      rw [hRecord] at hNew
      rw [Option.some.inj hNew]
      exact hTries
  tries_eq_zero_iff i r hRecord := by
    rcases hAsked.record i with hSame | hStamped
    · rw [hSame] at hRecord
      exact hRegular.tries_eq_zero_iff i r hRecord
    · rcases hStamped with ⟨old, -, -, -, hNew⟩
      rw [hRecord] at hNew
      rw [Option.some.inj hNew]
      simp [RequestRecord.stamp]

end Holder

namespace Transfer

variable {t t' : Transfer}

/- Every peer is regular, and evicted sets fit the file. -/
structure HasRegularPeers
    (t : Transfer) : Prop where
  peer :
    ∀ peer holder,
      t.peers.get? peer = some holder →
        holder.IsRegular t.chunkCount
  evicted :
    ∀ peer held,
      t.evicted.get? peer = some held →
        held.chunkCount = t.chunkCount

namespace HasRegularPeers

theorem of_empty
    (hPeers : t.peers = Table.empty)
    (hEvicted : t.evicted = Table.empty) :
    t.HasRegularPeers where
  peer peer holder hPeer := by
    rw [hPeers] at hPeer
    cases hPeer
  evicted peer held hHeld := by
    rw [hEvicted] at hHeld
    cases hHeld

theorem of_remembers
    (h : t.HasRegularPeers)
    (hRemembers : t.Remembers t') :
    t'.HasRegularPeers where
  peer peer holder' hPeer := by
    have hHolder := hRemembers.peer peer holder' hPeer
    rw [hRemembers.chunkCount_eq]
    cases hBefore : t.peers.get? peer with
    | none =>
        rw [hBefore, Option.getD_none] at hHolder
        exact (Holder.isRegular_fresh _).of_remembers hHolder
    | some holder =>
        rw [hBefore, Option.getD_some] at hHolder
        exact (h.peer peer holder hBefore).of_remembers hHolder
  evicted peer held hHeld := by
    rw [hRemembers.chunkCount_eq]
    exact h.evicted peer held
      (hRemembers.evicted peer held hHeld)

theorem of_passes
    {now : Moment}
    (h : t.HasRegularPeers)
    (hPasses : t.Passes now t') :
    t'.HasRegularPeers where
  peer peer holder' hPeer := by
    rw [hPasses.chunkCount_eq]
    rcases hPasses.peer peer holder' hPeer with
      ⟨holder, hBefore, hAsked⟩
    exact (h.peer peer holder hBefore).of_asked hAsked
  evicted peer held hHeld := by
    rw [hPasses.chunkCount_eq]
    rcases hPasses.evicted peer held hHeld with hOld | hCount
    · exact h.evicted peer held hOld
    · exact hCount

end HasRegularPeers

end Transfer

end PeerShare
