import Mathlib.Data.List.Sort
import PeerShare.Proofs.Fetch.Progress
import PeerShare.Proofs.Fetch.Walk

/-
  The requests of one pass over a transfer.

  At every visit the missing chunks are divided among the
  requests made so far and the peers still to be visited.
  A peer that is evicted gives back what it was to be asked
  for, and leaves no request and no record behind.

  Key definitions include:
    * `Asks`
    * `Schedule.Sound`

  Key theorems include:
    * `Transfer.mem_missing_iff`
    * `Transfer.nodup_missing`
    * `Schedule.Sound.visit`
    * `Transfer.sound_schedule`
-/

------------------------------------------------------------
-- Stable Sorting
------------------------------------------------------------

namespace PeerShare

variable {α : Type}

/- An item is put before the first that it may precede. -/
theorem orderedInsert_append
    {r : α → α → Prop}
    [DecidableRel r]
    {x : α}
    {front rest : List α}
    (hFront : ∀ y ∈ front, ¬ r x y)
    (hRest : ∀ y ∈ rest, r x y) :
    (front ++ rest).orderedInsert r x =
      front ++ x :: rest := by
  induction front with
  | nil =>
      cases rest with
      | nil => rfl
      | cons y rest =>
          exact List.orderedInsert_cons_of_le r rest
            (hRest y List.mem_cons_self)
  | cons y front ih =>
      rcases List.forall_mem_cons.mp hFront with
        ⟨hFirst, hFront⟩
      rw [List.cons_append,
        List.orderedInsert_of_not_le r _ hFirst, ih hFront,
        List.cons_append]

/-
  Items that compare as equal stay in their order, so that
  it does not matter how a list is sorted.
-/
theorem mergeSort_eq_insertionSort
    {le : α → α → Bool}
    (hTrans : ∀ a b c, le a b → le b c → le a c)
    (hTotal : ∀ a b, (le a b || le b a) = true)
    (xs : List α) :
    xs.mergeSort le =
      xs.insertionSort fun a b => le a b = true := by
  induction xs with
  | nil => exact List.mergeSort_nil
  | cons x xs ih =>
      rcases List.mergeSort_cons hTrans hTotal x xs with
        ⟨front, rest, hSort, hOld, hBefore⟩
      have hSorted :=
        List.pairwise_mergeSort hTrans hTotal (x :: xs)
      rw [hSort, List.pairwise_append, List.pairwise_cons]
        at hSorted
      rw [List.insertionSort_cons, ← ih, hOld, hSort,
        orderedInsert_append]
      · intro y hy hLe
        simpa [hLe] using hBefore y hy
      · exact hSorted.2.1.1

/- What is given back, sorted in one by one. -/
theorem restore_eq_insertionSort :
    restore = fun ranks left given =>
      (left ++ given.map UInt16.toNat).insertionSort
        fun a b =>
          ranks.getD a lastRank ≤ ranks.getD b lastRank := by
  funext ranks left given
  unfold restore
  rw [mergeSort_eq_insertionSort
    (fun a b c => by simpa using Nat.le_trans)
    (by simp [Nat.le_total])]
  simp only [decide_eq_true_eq]

end PeerShare

------------------------------------------------------------
-- Missing Chunks and Ranked Peers
------------------------------------------------------------

namespace PeerShare

namespace Transfer

theorem perm_missing
    (t : Transfer)
    (now : Moment) :
    (t.missing now).Perm (t.wanted now) := by
  unfold missing
  dsimp only
  have hSort :=
    (List.mergeSort_perm
      ((t.wanted now).map fun index =>
        (t.holderCount index, index))
      (fun a b => decide (a.1 ≤ b.1))).map Prod.snd
  apply hSort.trans
  rw [List.map_map]
  have hId :
      (Prod.snd ∘ fun index => (t.holderCount index, index)) =
        id :=
    rfl
  rw [hId, List.map_id]

theorem perm_rankedPeers
    (t : Transfer)
    (now : Moment)
    (log : TransferLog) :
    (t.rankedPeers now log).Perm t.peers.keys := by
  unfold rankedPeers
  dsimp only
  have hSort :=
    (List.mergeSort_perm
      (t.peers.keys.map fun peer =>
        (speedKey ((log.averageSpeed? peer now).getD 0.0),
          peer))
      (fun a b => decide (a.1 ≤ b.1))).map Prod.snd
  apply hSort.trans
  rw [List.map_map]
  have hId :
      (Prod.snd ∘ fun peer =>
        (speedKey ((log.averageSpeed? peer now).getD 0.0),
          peer)) = id :=
    rfl
  rw [hId, List.map_id]

/- No peer is visited twice. -/
theorem nodup_rankedPeers
    (t : Transfer)
    (now : Moment)
    (log : TransferLog) :
    (t.rankedPeers now log).Nodup :=
  (t.perm_rankedPeers now log).nodup_iff.mpr
    (Table.nodup_keys t.peers)

/- The missing chunks, sorted one by one. -/
theorem missing_eq_insertionSort :
    missing = fun t now =>
      (t.wanted now).insertionSort fun i j =>
        t.holderCount i ≤ t.holderCount j := by
  funext t now
  unfold missing
  dsimp only
  rw [mergeSort_eq_insertionSort
    (fun a b c => by simpa using Nat.le_trans)
    (by simp [Nat.le_total])]
  rw [List.map_insertionSort _
    (fun i j => t.holderCount i ≤ t.holderCount j)]
  · rw [List.map_map]
    exact congrArg _ (List.map_id _)
  · simp

/- The ranked peers, sorted one by one. -/
theorem rankedPeers_eq_insertionSort :
    rankedPeers = fun t now log =>
      t.peers.keys.insertionSort fun peer other =>
        speedKey ((log.averageSpeed? peer now).getD 0.0) ≤
          speedKey ((log.averageSpeed? other now).getD 0.0) := by
  funext t now log
  unfold rankedPeers
  dsimp only
  rw [mergeSort_eq_insertionSort
    (fun a b c => by simpa using UInt64.le_trans)
    (by simp [UInt64.le_total])]
  rw [List.map_insertionSort _
    (fun peer other =>
      speedKey ((log.averageSpeed? peer now).getD 0.0) ≤
        speedKey ((log.averageSpeed? other now).getD 0.0))]
  · rw [List.map_map]
    exact congrArg _ (List.map_id _)
  · simp

/- Which chunks are missing. -/
theorem mem_missing_iff
    {t : Transfer}
    {now : Moment}
    {i : Nat}
    (h : t.WellFormed) :
    i ∈ t.missing now ↔
      ∃ chunk,
        t.chunks[i]? = some chunk ∧
          chunk.downloaded = false ∧
          t.isInFlight i now = false := by
  rw [(t.perm_missing now).mem_iff]
  unfold wanted
  rw [List.mem_map]
  constructor
  · rintro ⟨chunk, hMem, rfl⟩
    rw [List.mem_filter] at hMem
    rcases hMem with ⟨hChunk, hTest⟩
    rw [Bool.and_eq_true, Bool.not_eq_true',
      Bool.not_eq_true'] at hTest
    rcases List.mem_iff_getElem?.mp hChunk with ⟨k, hGet⟩
    rw [Array.getElem?_toList] at hGet
    rw [h.index_eq k chunk hGet] at hTest ⊢
    exact ⟨chunk, hGet, hTest⟩
  · rintro ⟨chunk, hGet, hFresh, hIdle⟩
    have hIndex := h.index_eq i chunk hGet
    refine ⟨chunk, ?_, hIndex⟩
    rw [List.mem_filter]
    constructor
    · rw [List.mem_iff_getElem?]
      refine ⟨i, ?_⟩
      rw [Array.getElem?_toList]
      exact hGet
    · rw [hIndex, hFresh, hIdle]
      rfl

/- The chunks stand in order of their numbers. -/
theorem map_index_chunks
    {t : Transfer}
    (h : t.WellFormed) :
    t.chunks.toList.map (·.index) =
      List.range t.chunkCount := by
  unfold chunkCount
  apply List.ext_getElem?
  intro i
  rw [List.getElem?_map, Array.getElem?_toList]
  cases hGet : t.chunks[i]? with
  | none =>
      have hLe : t.chunks.size ≤ i :=
        Array.getElem?_eq_none_iff.mp hGet
      rw [List.getElem?_eq_none (by simpa using hLe)]
      rfl
  | some chunk =>
      rcases Array.getElem?_eq_some_iff.mp hGet with ⟨hLt, -⟩
      rw [Option.map_some, h.index_eq i chunk hGet,
        List.getElem?_range hLt]

/- No chunk is missing twice. -/
theorem nodup_missing
    {t : Transfer}
    (h : t.WellFormed)
    (now : Moment) :
    (t.missing now).Nodup := by
  rw [(t.perm_missing now).nodup_iff]
  have hNodup : (t.chunks.toList.map (·.index)).Nodup := by
    rw [map_index_chunks h]
    exact List.nodup_range
  unfold wanted
  exact hNodup.sublist (List.filter_sublist.map _)

/- No answer is waited for from any peer. -/
theorem isDue_of_not_isInFlight
    {t : Transfer}
    {now : Moment}
    {i : Nat}
    {peer : Endpoint}
    {holder : Holder}
    {r : RequestRecord}
    (h : t.isInFlight i now = false)
    (hPeer : t.peers.get? peer = some holder)
    (hRecord : holder.record? i = some r) :
    r.isDue now = true := by
  unfold isInFlight at h
  rw [List.any_eq_false] at h
  have hIdle :=
    h holder (Table.mem_values_iff.mpr ⟨peer, hPeer⟩)
  unfold Holder.isAwaiting at hIdle
  rw [hRecord] at hIdle
  simpa using hIdle

end Transfer

end PeerShare

------------------------------------------------------------
-- Schedules
------------------------------------------------------------

namespace PeerShare

/- Whether a peer is asked for a chunk. -/
def Asks
    (requests : List (Endpoint × List UInt16))
    (peer : Endpoint)
    (i : Nat) : Prop :=
  ∃ indices,
    (peer, indices) ∈ requests ∧
      i ∈ indices.map UInt16.toNat

/- The numbers of all chunks that are asked for. -/
def allAsked
    (requests : List (Endpoint × List UInt16)) : List Nat :=
  requests.flatMap fun r => r.2.map UInt16.toNat

/- The requests with one for a peer, if it is for anything. -/
def withRequest
    (requests : List (Endpoint × List UInt16))
    (peer : Endpoint)
    (assigned : List UInt16) : List (Endpoint × List UInt16) :=
  if assigned.isEmpty then requests
  else requests ++ [(peer, assigned)]

section WithRequest

variable {requests : List (Endpoint × List UInt16)}
variable {peer : Endpoint}
variable {assigned : List UInt16}

theorem mem_withRequest_iff
    {r : Endpoint × List UInt16} :
    r ∈ withRequest requests peer assigned ↔
      r ∈ requests ∨ r = (peer, assigned) ∧ assigned ≠ [] := by
  unfold withRequest
  cases assigned with
  | nil => simp
  | cons index assigned => simp

theorem allAsked_withRequest :
    allAsked (withRequest requests peer assigned) =
      allAsked requests ++ assigned.map UInt16.toNat := by
  unfold withRequest allAsked
  cases assigned with
  | nil => simp
  | cons index assigned => simp

theorem asks_withRequest_iff
    {other : Endpoint}
    {i : Nat} :
    Asks (withRequest requests peer assigned) other i ↔
      Asks requests other i ∨
        other = peer ∧ i ∈ assigned.map UInt16.toNat := by
  constructor
  · rintro ⟨indices, hMem, hIndex⟩
    rcases mem_withRequest_iff.mp hMem with hOld | hNew
    · exact Or.inl ⟨indices, hOld, hIndex⟩
    · cases hNew.1
      exact Or.inr ⟨rfl, hIndex⟩
  · intro h
    rcases h with hOld | hNew
    · rcases hOld with ⟨indices, hMem, hIndex⟩
      exact ⟨indices, mem_withRequest_iff.mpr (Or.inl hMem),
        hIndex⟩
    · rcases hNew with ⟨rfl, hIndex⟩
      refine ⟨assigned, mem_withRequest_iff.mpr ?_, hIndex⟩
      refine Or.inr ⟨rfl, ?_⟩
      rintro rfl
      cases hIndex

theorem nodup_withRequest
    (h : (requests.map Prod.fst).Nodup)
    (hPeer : ∀ r ∈ requests, r.1 ≠ peer) :
    ((withRequest requests peer assigned).map
      Prod.fst).Nodup := by
  unfold withRequest
  split
  · exact h
  · rw [List.map_append, List.nodup_append]
    refine ⟨h, List.nodup_singleton _, ?_⟩
    intro other hOther last hLast
    rcases List.mem_map.mp hOther with ⟨r, hr, rfl⟩
    rw [List.mem_singleton.mp hLast]
    exact hPeer r hr

end WithRequest

namespace Schedule

/-
  A schedule in the making, for a transfer with the given
  missing chunks, when some peers are still to be visited.
-/
structure Sound
    (now : Moment)
    (t : Transfer)
    (missing : List Nat)
    (s : Schedule)
    (todo : List Endpoint) : Prop where
  perm : (allAsked s.requests ++ s.missing).Perm missing
  nodup_peers : (s.requests.map Prod.fst).Nodup
  visited : ∀ r ∈ s.requests, r.1 ∉ todo
  bounded :
    ∀ r ∈ s.requests, r.2 ≠ [] ∧ r.2.length ≤ maxRequest
  due :
    ∀ r ∈ s.requests,
      ∃ holder,
        t.peers.get? r.1 = some holder ∧
          ∀ i ∈ r.2.map UInt16.toNat,
            ∃ record,
              holder.record? i = some record ∧
                record.isDue now = true ∧
                record.tries < maxTries
  untouched :
    ∀ peer ∈ todo,
      s.transfer.peers.get? peer = t.peers.get? peer
  standing :
    ∀ r ∈ s.requests,
      ∃ holder, s.transfer.peers.get? r.1 = some holder
  stamped :
    ∀ (peer : Endpoint) (holder' : Holder),
      s.transfer.peers.get? peer = some holder' →
        ∃ holder,
          t.peers.get? peer = some holder ∧
            ∀ i,
              (Asks s.requests peer i →
                holder'.record? i =
                  (holder.record? i).map (·.stamp now)) ∧
              (¬ Asks s.requests peer i →
                holder'.record? i = holder.record? i)

namespace Sound

variable {now : Moment}
variable {t : Transfer}
variable {missing : List Nat}
variable {s : Schedule}
variable {peer : Endpoint}
variable {todo : List Endpoint}

theorem start
    (now : Moment)
    (t : Transfer)
    (missing : List Nat)
    (todo : List Endpoint) :
    Sound now t missing
      { transfer := t, missing, requests := [] } todo where
  perm := List.Perm.refl _
  nodup_peers := List.nodup_nil
  visited r hr := by cases hr
  bounded r hr := by cases hr
  due r hr := by cases hr
  untouched _ _ := rfl
  standing r hr := by cases hr
  stamped peer holder hPeer := by
    refine ⟨holder, hPeer, ?_⟩
    intro i
    refine ⟨?_, fun _ => rfl⟩
    rintro ⟨indices, hMem, -⟩
    cases hMem

/- Requests were not made to peers still to be visited. -/
theorem not_asks
    (h : s.Sound now t missing todo)
    (hPeer : peer ∈ todo)
    (i : Nat) :
    ¬ Asks s.requests peer i := by
  rintro ⟨indices, hMem, -⟩
  exact h.visited _ hMem hPeer

/- A peer that is gone is not visited. -/
theorem skip
    (h : s.Sound now t missing (peer :: todo)) :
    s.Sound now t missing todo where
  perm := h.perm
  nodup_peers := h.nodup_peers
  visited r hr hMem :=
    h.visited r hr (List.mem_cons_of_mem _ hMem)
  bounded := h.bounded
  due := h.due
  untouched other hMem :=
    h.untouched other (List.mem_cons_of_mem _ hMem)
  standing := h.standing
  stamped := h.stamped

/- A peer is evicted, and its chunks go back. -/
theorem evict
    {left : List Nat}
    (h : s.Sound now t missing (peer :: todo))
    (hPeer : peer ∉ todo)
    (hLeft : left.Perm s.missing) :
    Sound now t missing
      { s with
        transfer := s.transfer.evict peer
        missing := left }
      todo := by
  have hSkip := h.skip
  have hErase :
      ∀ other ≠ peer,
        (s.transfer.evict peer).peers.get? other =
          s.transfer.peers.get? other :=
    fun other hOther => Table.get?_erase_of_ne _ hOther
  refine ⟨?_, h.nodup_peers, hSkip.visited, h.bounded, h.due,
    ?_, ?_, ?_⟩
  · exact (hLeft.append_left _).trans h.perm
  · intro other hOther
    have hNe : other ≠ peer := by
      rintro rfl
      exact hPeer hOther
    dsimp only
    rw [hErase other hNe]
    exact hSkip.untouched other hOther
  · intro r hr
    have hNe : r.1 ≠ peer := by
      rintro rfl
      exact h.visited r hr List.mem_cons_self
    dsimp only
    rw [hErase r.1 hNe]
    exact h.standing r hr
  · intro other holder hOther
    dsimp only at hOther
    by_cases hEq : other = peer
    · rw [hEq] at hOther
      have hGone :
          (s.transfer.evict peer).peers.get? peer = none :=
        Table.get?_erase_self _ _
      rw [hGone] at hOther
      cases hOther
    · rw [hErase other hEq] at hOther
      exact h.stamped other holder hOther

/- A peer is asked for the chunks that its walk has chosen. -/
theorem ask
    {holder : Holder}
    {w : Walk}
    {left : List Nat}
    (h : s.Sound now t missing (peer :: todo))
    (hPeer : peer ∉ todo)
    (hGet : t.peers.get? peer = some holder)
    (hWalk : w.Sound now holder s.missing left) :
    Sound now t missing
      { transfer :=
          { s.transfer with
            peers := s.transfer.peers.insert peer w.holder }
        missing := left
        requests :=
          withRequest s.requests peer w.assigned.toList }
      todo := by
  have hSkip := h.skip
  have hNew : ∀ r ∈ s.requests, r.1 ≠ peer :=
    fun r hr hEq => h.visited r hr (hEq ▸ List.mem_cons_self)
  refine ⟨?_, nodup_withRequest h.nodup_peers hNew, ?_, ?_, ?_,
    ?_, ?_, ?_⟩
  · dsimp only
    rw [allAsked_withRequest, List.append_assoc]
    exact (hWalk.perm.append_left _).trans h.perm
  · intro r hr
    rcases mem_withRequest_iff.mp hr with hOld | hAsked
    · exact hSkip.visited r hOld
    · rw [hAsked.1]
      exact hPeer
  · intro r hr
    rcases mem_withRequest_iff.mp hr with hOld | hAsked
    · exact h.bounded r hOld
    · rw [hAsked.1]
      exact ⟨hAsked.2, hWalk.size_le⟩
  · intro r hr
    rcases mem_withRequest_iff.mp hr with hOld | hAsked
    · exact h.due r hOld
    · rw [hAsked.1]
      exact ⟨holder, hGet, hWalk.due⟩
  · intro other hOther
    have hNe : other ≠ peer := by
      rintro rfl
      exact hPeer hOther
    dsimp only
    rw [Table.get?_insert_of_ne _ _ hNe]
    exact hSkip.untouched other hOther
  · intro r hr
    dsimp only
    rcases mem_withRequest_iff.mp hr with hOld | hAsked
    · rw [Table.get?_insert_of_ne _ _ (hNew r hOld)]
      exact h.standing r hOld
    · rw [hAsked.1]
      exact ⟨w.holder, Table.get?_insert_self _ _ _⟩
  · intro other holder' hOther
    dsimp only at hOther
    by_cases hEq : other = peer
    · -- All that this peer is asked for is what was chosen.
      rw [hEq, Table.get?_insert_self] at hOther
      cases hOther
      rw [hEq]
      refine ⟨holder, hGet, ?_⟩
      intro i
      have hOld := h.not_asks List.mem_cons_self i
      rw [asks_withRequest_iff, hWalk.record_eq i]
      constructor
      · intro hAsks
        rcases hAsks with hAsks | hChosen
        · exact absurd hAsks hOld
        · exact if_pos hChosen.2
      · intro hNot
        apply if_neg
        intro hChosen
        exact hNot (Or.inr ⟨rfl, hChosen⟩)
    · rw [Table.get?_insert_of_ne _ _ hEq] at hOther
      rcases h.stamped other holder' hOther with
        ⟨old, hOld, hRecords⟩
      refine ⟨old, hOld, ?_⟩
      intro i
      have hSame :
          Asks (withRequest s.requests peer
              w.assigned.toList) other i ↔
            Asks s.requests other i := by
        rw [asks_withRequest_iff]
        simp [hEq]
      rw [hSame]
      exact hRecords i

/- One visit deals with one peer. -/
theorem visit
    (h : s.Sound now t missing (peer :: todo))
    (hPeer : peer ∉ todo)
    (hNodup : missing.Nodup)
    (hSmall : ∀ i ∈ missing, i < 65536)
    (ranks : Array Nat) :
    (s.visit now ranks peer).Sound now t missing todo := by
  have hSame := h.untouched peer List.mem_cons_self
  unfold Schedule.visit
  cases hGet : s.transfer.peers.get? peer with
  | none => exact h.skip
  | some holder =>
      rw [hGet] at hSame
      have hNodupLeft : s.missing.Nodup :=
        (List.nodup_append.mp
          (h.perm.nodup_iff.mpr hNodup)).2.1
      have hSmallLeft : ∀ i ∈ s.missing, i < 65536 :=
        fun i hi =>
          hSmall i
            (h.perm.mem_iff.mp (List.mem_append_right _ hi))
      have hWalk :=
        Walk.sound_walk hNodupLeft hSmallLeft
          (Walk.Sound.start now holder s.missing)
      dsimp only
      split
      · apply h.evict hPeer
        unfold restore
        apply (List.mergeSort_perm _ _).trans
        exact List.perm_append_comm.trans hWalk.perm
      · exact h.ask hPeer hSame.symm hWalk

/- All peers are visited, one after another. -/
theorem foldl
    (h : s.Sound now t missing todo)
    (hTodo : todo.Nodup)
    (hNodup : missing.Nodup)
    (hSmall : ∀ i ∈ missing, i < 65536)
    (ranks : Array Nat) :
    (todo.foldl (Schedule.visit now ranks) s).Sound now t
      missing [] := by
  induction todo generalizing s with
  | nil => exact h
  | cons peer todo ih =>
      rw [List.nodup_cons] at hTodo
      exact ih (h.visit hTodo.1 hNodup hSmall ranks) hTodo.2

end Sound

end Schedule

namespace Transfer

/- What a pass over a transfer asks for. -/
theorem sound_schedule
    {t : Transfer}
    (hFormed : t.WellFormed)
    (hCount : t.chunkCount ≤ 65536)
    (now : Moment)
    (log : TransferLog) :
    ∃ left,
      Schedule.Sound now t (t.missing now)
        { transfer := (t.schedule now log).2
          missing := left
          requests := (t.schedule now log).1 } [] := by
  have hSmall : ∀ i ∈ t.missing now, i < 65536 := by
    intro i hi
    rcases (mem_missing_iff hFormed).mp hi with
      ⟨chunk, hGet, -, -⟩
    rcases Array.getElem?_eq_some_iff.mp hGet with ⟨hLt, -⟩
    exact Nat.lt_of_lt_of_le hLt hCount
  have hStart :=
    Schedule.Sound.start now t (t.missing now)
      (t.rankedPeers now log)
  exact ⟨_, hStart.foldl (t.nodup_rankedPeers now log)
    (nodup_missing hFormed now) hSmall
    (ranksOf t.chunkCount (t.missing now))⟩

end Transfer

end PeerShare
