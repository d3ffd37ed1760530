import PeerShare.Proofs.Fetch.Scheduling

/-
  How a visit goes, step by step.

  A walk passes the chunks that the peer is not to be asked
  for, in their order, so only the other chunks have to be
  followed.  For a peer that holds a single chunk this tells
  all about the visit.

  Key definitions include:
    * `Holder.HoldsOnly`

  Key theorems include:
    * `Walk.walk_append_of_idle`
    * `Walk.exists_walk_of_holdsOnly`
    * `Walk.exists_walk_of_last_strike`
    * `Schedule.visit_of_holdsOnly`
    * `Schedule.visit_of_last_strike`
    * `Transfer.sublist_missing`
    * `Transfer.rankedPeers_of_unmeasured`
-/

------------------------------------------------------------
-- Steps of a Walk
------------------------------------------------------------

namespace PeerShare

/- Whether a peer holds one chunk, with the given record. -/
def Holder.HoldsOnly
    (h : Holder)
    (index : Nat)
    (r : RequestRecord) : Prop :=
  ∀ i, h.record? i = if i = index then some r else none

namespace Walk

variable {now : Moment}
variable {w : Walk}
variable {index : Nat}
variable {r : RequestRecord}
variable {front rest : List Nat}

/- Whether a peer is not to be asked for a chunk now. -/
def IsIdle
    (now : Moment)
    (h : Holder)
    (i : Nat) : Prop :=
  ∀ r, h.record? i = some r → r.isDue now = false

theorem size_lt_of_eq_empty
    (h : w.assigned = #[]) :
    w.assigned.size < maxRequest := by
  rw [h]
  decide

/- Leave some chunks to other peers. -/
def passAll
    (w : Walk)
    (list : List Nat) : Walk :=
  { w with passed := w.passed ++ list.toArray }

theorem walk_cons_of_idle
    (hRoom : w.assigned.size < maxRequest)
    (hIdle : IsIdle now w.holder index)
    (rest : List Nat) :
    walk now (index :: rest) w =
      walk now rest (w.pass index) := by
  rw [walk, if_neg (Nat.not_le_of_lt hRoom)]
  cases hRecord : w.holder.record? index with
  | none => rfl
  | some r => simp [hIdle r hRecord]

/- A walk passes chunks that are not to be asked for. -/
theorem walk_append_of_idle
    (hRoom : w.assigned.size < maxRequest)
    (hIdle : ∀ i ∈ front, IsIdle now w.holder i)
    (rest : List Nat) :
    walk now (front ++ rest) w =
      walk now rest (w.passAll front) := by
  induction front generalizing w with
  | nil => simp [passAll]
  | cons i front ih =>
      rw [List.forall_mem_cons] at hIdle
      have hRest :
          walk now (front ++ rest) (w.pass i) =
            walk now rest ((w.pass i).passAll front) :=
        ih hRoom hIdle.2
      rw [List.cons_append, walk_cons_of_idle hRoom hIdle.1,
        hRest]
      simp [pass, passAll]

theorem walk_of_idle
    (hRoom : w.assigned.size < maxRequest)
    (hIdle : ∀ i ∈ front, IsIdle now w.holder i) :
    walk now front w =
      (w.passAll front, w.passed.toList ++ front) := by
  have hAll := walk_append_of_idle hRoom hIdle []
  rw [List.append_nil] at hAll
  rw [hAll, walk]
  simp [passAll]

theorem walk_cons_of_due
    (hRoom : w.assigned.size < maxRequest)
    (hRecord : w.holder.record? index = some r)
    (hDue : r.isDue now = true)
    (hTries : r.tries < maxTries)
    (rest : List Nat) :
    walk now (index :: rest) w =
      walk now rest (w.assign index r now) := by
  rw [walk, if_neg (Nat.not_le_of_lt hRoom), hRecord]
  simp [hDue, Nat.not_le_of_lt hTries]

/- A chunk that was requested too often is a strike. -/
theorem walk_cons_of_spent
    (hRoom : w.assigned.size < maxRequest)
    (hRecord : w.holder.record? index = some r)
    (hDue : r.isDue now = true)
    (hTries : maxTries ≤ r.tries)
    (rest : List Nat) :
    walk now (index :: rest) w =
      if maxStrikes < w.holder.strikes + 1 then
        (w.strike.giveUp, w.passed.toList ++ index :: rest)
      else walk now rest (w.strike.pass index) := by
  rw [walk, if_neg (Nat.not_le_of_lt hRoom), hRecord]
  simp only [hDue, hTries, Bool.not_true, Bool.false_eq_true,
    if_true, if_false]
  rfl

end Walk

end PeerShare

------------------------------------------------------------
-- Peers with One Chunk
------------------------------------------------------------

namespace PeerShare

namespace Holder

variable {h : Holder}
variable {index : Nat}
variable {r : RequestRecord}

theorem HoldsOnly.isIdle
    (hOnly : h.HoldsOnly index r)
    (now : Moment)
    {i : Nat}
    (hNe : i ≠ index) :
    Walk.IsIdle now h i := by
  intro r' hRecord
  rw [hOnly i, if_neg hNe] at hRecord
  cases hRecord

/- No answer is waited for if every record is due. -/
theorem isAwaiting_eq_false
    {now : Moment}
    {i : Nat}
    (hDue :
      ∀ r, h.record? i = some r → r.isDue now = true) :
    h.isAwaiting i now = false := by
  unfold isAwaiting
  cases hRecord : h.record? i with
  | none => rfl
  | some r => simp [hDue r hRecord]

theorem HoldsOnly.isAwaiting_eq
    (hOnly : h.HoldsOnly index r)
    {now : Moment}
    (hDue : r.isDue now = true)
    (i : Nat) :
    h.isAwaiting i now = false := by
  apply isAwaiting_eq_false
  intro r' hRecord
  rw [hOnly i] at hRecord
  split at hRecord
  · exact Option.some.inj hRecord ▸ hDue
  · cases hRecord

theorem HoldsOnly.stamp
    (hOnly : h.HoldsOnly index r)
    (now : Moment) :
    (h.stamp index r now).HoldsOnly index (r.stamp now) := by
  intro i
  have hRecord : h.record? index = some r := by
    rw [hOnly, if_pos rfl]
  rw [record?_stamp r now hRecord, hOnly i]
  split <;> rfl

end Holder

namespace Walk

variable {now : Moment}
variable {holder : Holder}
variable {index : Nat}
variable {r : RequestRecord}
variable {list : List Nat}

/- The chunk is asked for where it is met first. -/
theorem exists_walk_of_holdsOnly
    (hOnly : holder.HoldsOnly index r)
    (hDue : r.isDue now = true)
    (hTries : r.tries < maxTries)
    (hMem : index ∈ list) :
    ∃ front rest,
      list = front ++ index :: rest ∧
        walk now list (start holder) =
          ({ holder := holder.stamp index r now
             assigned := #[UInt16.ofNat index]
             passed := (front ++ rest).toArray
             evicted := false },
            front ++ rest) := by
  rcases List.eq_append_cons_of_mem hMem with
    ⟨front, rest, rfl, hFront⟩
  refine ⟨front, rest, rfl, ?_⟩
  have hRecord : holder.record? index = some r := by
    rw [hOnly, if_pos rfl]
  have hBefore : ∀ i ∈ front, IsIdle now holder i := by
    intro i hi
    apply hOnly.isIdle
    rintro rfl
    exact hFront hi
  have hBehind :
      ∀ i ∈ rest, IsIdle now (holder.stamp index r now) i := by
    intro i _ r' hStamped
    rw [hOnly.stamp now i] at hStamped
    split at hStamped
    · cases hStamped
      exact r.isDue_stamp now
    · cases hStamped
  have hAsk :
      walk now (index :: rest) ((start holder).passAll front) =
        walk now rest
          (((start holder).passAll front).assign index r
            now) :=
    walk_cons_of_due (size_lt_of_eq_empty rfl) hRecord hDue
      hTries rest
  rw [walk_append_of_idle (size_lt_of_eq_empty rfl) hBefore,
    hAsk,
    walk_of_idle (by simp [start, assign, passAll, maxRequest])
      hBehind]
  simp [start, assign, passAll]

/- A strike changes nothing else, if it is not the last. -/
theorem walk_of_spent
    (hOnly : holder.HoldsOnly index r)
    (hDue : r.isDue now = true)
    (hTries : maxTries ≤ r.tries)
    (hStrikes : holder.strikes < maxStrikes)
    (hMem : index ∈ list)
    (hNodup : list.Nodup) :
    walk now list (start holder) =
      ({ holder := holder.strike
         assigned := #[]
         passed := list.toArray
         evicted := false },
        list) := by
  rcases List.append_of_mem hMem with ⟨front, rest, rfl⟩
  have hOthers := List.nodup_middle.mp hNodup
  rw [List.nodup_cons, List.mem_append, not_or] at hOthers
  have hRecord : holder.record? index = some r := by
    rw [hOnly, if_pos rfl]
  have hIdle :
      ∀ list : List Nat,
        index ∉ list → ∀ i ∈ list, IsIdle now holder i := by
    intro list hNot i hi
    apply hOnly.isIdle
    rintro rfl
    exact hNot hi
  have hStrike :
      walk now (index :: rest) ((start holder).passAll front) =
        walk now rest
          (((start holder).passAll front).strike.pass
            index) := by
    rw [walk_cons_of_spent (size_lt_of_eq_empty rfl) hRecord
      hDue hTries]
    exact if_neg (Nat.not_lt_of_le hStrikes)
  rw [walk_append_of_idle (size_lt_of_eq_empty rfl)
      (hIdle front hOthers.1.1), hStrike,
    walk_of_idle (size_lt_of_eq_empty rfl)
      (hIdle rest hOthers.1.2)]
  simp [start, strike, pass, passAll]

end Walk

end PeerShare

------------------------------------------------------------
-- Last Strikes
------------------------------------------------------------

namespace PeerShare

namespace Walk

variable {now : Moment}
variable {holder : Holder}
variable {first last : Nat}
variable {r r' : RequestRecord}
variable {list : List Nat}

/-
  A peer that was asked too often for the second of its two
  chunks is evicted, after it was asked for the first.
-/
theorem exists_walk_of_last_strike
    (hRecords :
      ∀ i,
        holder.record? i =
          if i = first then some r
          else if i = last then some r' else none)
    (hNe : last ≠ first)
    (hDue : r.isDue now = true)
    (hTries : r.tries < maxTries)
    (hDue' : r'.isDue now = true)
    (hTries' : maxTries ≤ r'.tries)
    (hStrikes : maxStrikes ≤ holder.strikes)
    (hList :
      list.filter (fun i => i = first ∨ i = last) =
        [first, last]) :
    ∃ w left,
      walk now list (start holder) = (w, left) ∧
        w.evicted = true ∧
        w.assigned = #[UInt16.ofNat first] := by
  rcases List.filter_eq_cons_iff.mp hList with
    ⟨front, list', rfl, hFront, -, hList'⟩
  rcases List.filter_eq_cons_iff.mp hList' with
    ⟨middle, rest, rfl, hMiddle, -, -⟩
  have hOthers :
      ∀ i, ¬ (i = first ∨ i = last) → holder.record? i = none := by
    intro i hi
    rw [not_or] at hi
    rw [hRecords, if_neg hi.1, if_neg hi.2]
  have hFirst : holder.record? first = some r := by
    rw [hRecords, if_pos rfl]
  have hStamped :
      ∀ i ≠ first,
        (holder.stamp first r now).record? i =
          holder.record? i := by
    intro i hi
    rw [Holder.record?_stamp r now hFirst, if_neg hi]
  have hBefore : ∀ i ∈ front, IsIdle now holder i := by
    intro i hi r hRecord
    have hNot := hFront i hi
    rw [decide_eq_true_iff] at hNot
    rw [hOthers i hNot] at hRecord
    cases hRecord
  have hBetween :
      ∀ i ∈ middle,
        IsIdle now (holder.stamp first r now) i := by
    intro i hi r hRecord
    have hNot := hMiddle i hi
    rw [decide_eq_true_iff] at hNot
    rw [hStamped i (fun hEq => hNot (Or.inl hEq)),
      hOthers i hNot] at hRecord
    cases hRecord
  have hLast :
      (holder.stamp first r now).record? last = some r' := by
    rw [hStamped last hNe, hRecords, if_neg hNe, if_pos rfl]
  let asked := ((start holder).passAll front).assign first r now
  have hRoom : asked.assigned.size < maxRequest := by
    simp [asked, assign, passAll, start, maxRequest]
  have hRoom' :
      (asked.passAll middle).assigned.size < maxRequest :=
    hRoom
  have hAsk :
      walk now (first :: (middle ++ last :: rest))
          ((start holder).passAll front) =
        walk now (middle ++ last :: rest) asked :=
    walk_cons_of_due (size_lt_of_eq_empty rfl) hFirst hDue
      hTries _
  refine ⟨(asked.passAll middle).strike.giveUp,
    (asked.passAll middle).passed.toList ++ last :: rest,
    ?_, ?_, ?_⟩
  · rw [walk_append_of_idle (size_lt_of_eq_empty rfl) hBefore,
      hAsk, walk_append_of_idle hRoom hBetween,
      walk_cons_of_spent hRoom' hLast hDue' hTries']
    exact if_pos (Nat.lt_succ_of_le hStrikes)
  · simp [giveUp]
  · simp [asked, giveUp, strike, assign, passAll, start]

end Walk

end PeerShare

------------------------------------------------------------
-- Visits
------------------------------------------------------------

namespace PeerShare

namespace Schedule

variable {now : Moment}
variable {s : Schedule}
variable {peer : Endpoint}
variable {holder : Holder}
variable {w : Walk}
variable {left : List Nat}

/- The visit of a peer that stays. -/
theorem visit_of_walk
    (hPeer : s.transfer.peers.get? peer = some holder)
    (hWalk :
      walk now s.missing (Walk.start holder) = (w, left))
    (hStays : w.evicted = false)
    (ranks : Array Nat) :
    s.visit now ranks peer =
      { transfer :=
          { s.transfer with
            peers := s.transfer.peers.insert peer w.holder }
        missing := left
        requests :=
          withRequest s.requests peer w.assigned.toList } := by
  unfold visit
  simp only [hPeer, hWalk, hStays, Bool.false_eq_true,
    if_false]
  rfl

/- The visit of a peer that is evicted. -/
theorem visit_of_evicted
    (hPeer : s.transfer.peers.get? peer = some holder)
    (hWalk :
      walk now s.missing (Walk.start holder) = (w, left))
    (hEvicted : w.evicted = true)
    (ranks : Array Nat) :
    s.visit now ranks peer =
      { s with
        transfer := s.transfer.evict peer
        missing := restore ranks left w.assigned.toList } := by
  unfold visit
  simp only [hPeer, hWalk, hEvicted, if_true]

/- A peer with one chunk is asked for it. -/
theorem visit_of_holdsOnly
    {index : Nat}
    {r : RequestRecord}
    (hPeer : s.transfer.peers.get? peer = some holder)
    (hOnly : holder.HoldsOnly index r)
    (hDue : r.isDue now = true)
    (hTries : r.tries < maxTries)
    (hMem : index ∈ s.missing)
    (ranks : Array Nat) :
    (s.visit now ranks peer).transfer.peers =
        s.transfer.peers.insert peer
          (holder.stamp index r now) ∧
      ∃ front rest,
        s.missing = front ++ index :: rest ∧
          (s.visit now ranks peer).missing =
            front ++ rest := by
  rcases Walk.exists_walk_of_holdsOnly hOnly hDue hTries hMem
    with ⟨front, rest, hSplit, hWalk⟩
  have hVisit := visit_of_walk hPeer hWalk (by rfl) ranks
  exact ⟨by rw [hVisit], front, rest, hSplit, by rw [hVisit]⟩

/- The number that is given back is that of the request. -/
theorem visit_of_last_strike
    {first last : Nat}
    {r r' : RequestRecord}
    (hPeer : s.transfer.peers.get? peer = some holder)
    (hRecords :
      ∀ i,
        holder.record? i =
          if i = first then some r
          else if i = last then some r' else none)
    (hNe : last ≠ first)
    (hDue : r.isDue now = true)
    (hTries : r.tries < maxTries)
    (hDue' : r'.isDue now = true)
    (hTries' : maxTries ≤ r'.tries)
    (hStrikes : maxStrikes ≤ holder.strikes)
    (hList :
      s.missing.filter (fun i => i = first ∨ i = last) =
        [first, last])
    (ranks : Array Nat) :
    (s.visit now ranks peer).transfer.peers =
        s.transfer.peers.erase peer ∧
      (UInt16.ofNat first).toNat ∈
        (s.visit now ranks peer).missing := by
  rcases Walk.exists_walk_of_last_strike hRecords hNe hDue
      hTries hDue' hTries' hStrikes hList with
    ⟨w, left, hWalk, hEvicted, hAssigned⟩
  rw [visit_of_evicted hPeer hWalk hEvicted ranks]
  refine ⟨rfl, ?_⟩
  unfold restore
  rw [(List.mergeSort_perm _ _).mem_iff, hAssigned]
  simp

end Schedule

end PeerShare

------------------------------------------------------------
-- Order of Chunks and Peers
------------------------------------------------------------

namespace PeerShare

namespace Transfer

variable {t : Transfer}
variable {now : Moment}

/- Chunks that are no rarer stay behind. -/
theorem sublist_missing
    {list : List Nat}
    (hCounts :
      list.Pairwise fun a b =>
        t.holderCount a ≤ t.holderCount b)
    (hWanted : list.Sublist (t.wanted now)) :
    list.Sublist (t.missing now) := by
  have hSorted :
      (list.map fun index =>
          (t.holderCount index, index)).Pairwise
        fun a b => decide (a.1 ≤ b.1) = true := by
    rw [List.pairwise_map]
    exact hCounts.imp decide_eq_true
  have hTrans :
      ∀ a b c : Nat × Nat,
        decide (a.1 ≤ b.1) = true →
          decide (b.1 ≤ c.1) = true →
            decide (a.1 ≤ c.1) = true := by
    simpa using fun _ _ _ => Nat.le_trans
  have hTotal :
      ∀ a b : Nat × Nat,
        (decide (a.1 ≤ b.1) || decide (b.1 ≤ a.1)) = true := by
    simp [Nat.le_total]
  have hSublist :=
    (List.sublist_mergeSort hTrans hTotal hSorted
      (hWanted.map _)).map Prod.snd
  rw [List.map_map] at hSublist
  have hId :
      (Prod.snd ∘ fun index => (t.holderCount index, index)) =
        id :=
    rfl
  rw [hId, List.map_id] at hSublist
  exact hSublist

/- Among missing chunks a chunk that is no rarer is later. -/
theorem filter_missing_of_le
    (hFormed : t.WellFormed)
    {first last : Nat}
    (hCount : t.holderCount first ≤ t.holderCount last)
    (hWanted : [first, last].Sublist (t.wanted now)) :
    (t.missing now).filter (fun i => i = first ∨ i = last) =
      [first, last] := by
  have hSublist : [first, last].Sublist (t.missing now) :=
    sublist_missing (List.pairwise_pair.mpr hCount) hWanted
  have hPair := hSublist.filter fun i => i = first ∨ i = last
  have hLeft :
      [first, last].filter (fun i => i = first ∨ i = last) =
        [first, last] := by
    simp
  rw [hLeft] at hPair
  refine (hPair.eq_of_length_le ?_).symm
  have hNodup :=
    (nodup_missing hFormed now).filter
      fun i => decide (i = first ∨ i = last)
  apply (List.subperm_of_subset hNodup ?_).length_le
  intro i hi
  simpa using (List.mem_filter.mp hi).2

/- At the beginning all chunks may be requested. -/
theorem wanted_eq_range
    (hFormed : t.WellFormed)
    (hFresh :
      ∀ (i : Nat) (chunk : ChunkEntry),
        t.chunks[i]? = some chunk → chunk.downloaded = false)
    (hIdle : ∀ i, t.isInFlight i now = false) :
    t.wanted now = List.range t.chunkCount := by
  rw [← map_index_chunks hFormed]
  unfold wanted
  rw [List.filter_eq_self.mpr]
  intro chunk hChunk
  rcases List.mem_iff_getElem?.mp hChunk with ⟨i, hGet⟩
  rw [Array.getElem?_toList] at hGet
  rw [hFresh i chunk hGet, hIdle]
  rfl

/- Without samples peers are visited in order of address. -/
theorem rankedPeers_of_unmeasured
    {log : TransferLog}
    (h : log.history = Table.empty) :
    t.rankedPeers now log = t.peers.keys := by
  have hSpeed :
      ∀ peer, log.averageSpeed? peer now = none := by
    intro peer
    unfold TransferLog.averageSpeed? TransferLog.samples
    rw [h]
    rfl
  unfold rankedPeers
  simp only [hSpeed]
  rw [List.mergeSort_of_pairwise]
  · simp
  · rw [List.pairwise_map]
    exact List.pairwise_of_forall fun _ _ => by simp

end Transfer

end PeerShare
