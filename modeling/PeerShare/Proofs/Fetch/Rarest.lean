import PeerShare.Proofs.Fetch.Allotment

/-
  No request that could be made is left out, and the rarest
  chunks are asked for first.

  The list of missing chunks only becomes shorter, by what
  the peers before were asked for.  So a chunk that a peer
  is not asked for, although it may be, is asked for from a
  peer before it, or comes behind a full share.

  Key definitions include:
    * `Transfer.IsRarer`
    * `Transfer.IsEligible`
    * `Transfer.MayAsk`
    * `Transfer.RarestFirst`

  Key theorems include:
    * `Transfer.pairwise_missing`
    * `Session.missing_eq_iff`
    * `Schedule.exists_allot_of_mem`
    * `Session.rarest_first`
-/

------------------------------------------------------------
-- The Order of Missing Chunks
------------------------------------------------------------

namespace PeerShare

/- Two numbers of an increasing list stand in their order. -/
theorem pair_sublist_of_lt
    {list : List Nat}
    {a b : Nat}
    (hSorted : list.Pairwise (· < ·))
    (ha : a ∈ list)
    (hb : b ∈ list)
    (hLt : a < b) :
    [a, b].Sublist list := by
  rcases List.append_of_mem ha with ⟨front, rest, rfl⟩
  rcases List.pairwise_append.mp hSorted with
    ⟨-, hRest, hAcross⟩
  have hBehind : b ∈ rest := by
    rcases List.mem_append.mp hb with hFront | hOwn
    · have hGt := hAcross b hFront a List.mem_cons_self
      exact absurd hLt (Nat.lt_asymm hGt)
    · rcases List.mem_cons.mp hOwn with hEq | hMem
      · exact absurd hEq (Nat.ne_of_gt hLt)
      · exact hMem
  apply List.Sublist.trans ?_ (List.sublist_append_right ..)
  exact (List.singleton_sublist.mpr hBehind).cons_cons a

namespace Transfer

variable {t : Transfer}
variable {now : Moment}

/-
  Whether one chunk comes before another: it has fewer
  holders, or as many and a lower number.
-/
def IsRarer
    (t : Transfer)
    (i j : Nat) : Prop :=
  t.holderCount i < t.holderCount j ∨
    t.holderCount i = t.holderCount j ∧ i < j

theorem IsRarer.asymm
    {i j : Nat}
    (h : t.IsRarer i j) :
    ¬ t.IsRarer j i := by
  unfold IsRarer at *
  omega

/- Chunks that may be requested are in order of number. -/
theorem pairwise_wanted
    (hFormed : t.WellFormed)
    (now : Moment) :
    (t.wanted now).Pairwise (· < ·) := by
  have hAll : (t.chunks.toList.map (·.index)).Pairwise (· < ·) := by
    rw [map_index_chunks hFormed]
    exact List.pairwise_lt_range
  unfold wanted
  exact hAll.sublist (List.filter_sublist.map _)

theorem pairwise_holderCount_missing
    (t : Transfer)
    (now : Moment) :
    (t.missing now).Pairwise fun i j =>
      t.holderCount i ≤ t.holderCount j := by
  have hSorted :=
    @List.pairwise_mergeSort _
      (fun a b : Nat × Nat => decide (a.1 ≤ b.1))
      (by simpa using fun _ _ _ => Nat.le_trans)
      (by simp [Nat.le_total])
      ((t.wanted now).map fun index =>
        (t.holderCount index, index))
  have hCount :
      ∀ pair ∈
          ((t.wanted now).map fun index =>
              (t.holderCount index, index)).mergeSort
            fun a b => decide (a.1 ≤ b.1),
        pair.1 = t.holderCount pair.2 := by
    intro pair hPair
    rw [(List.mergeSort_perm _ _).mem_iff, List.mem_map]
      at hPair
    rcases hPair with ⟨index, -, rfl⟩
    rfl
  unfold missing
  rw [List.pairwise_map]
  apply hSorted.imp_of_mem
  intro a b ha hb hLe
  rw [← hCount a ha, ← hCount b hb]
  exact of_decide_eq_true hLe

/- The missing chunks are in order of rarity. -/
theorem pairwise_missing
    (hFormed : t.WellFormed)
    (now : Moment) :
    (t.missing now).Pairwise t.IsRarer := by
  rw [List.pairwise_iff_forall_sublist]
  intro a b hPair
  have hLe : t.holderCount a ≤ t.holderCount b :=
    List.pairwise_iff_forall_sublist.mp
      (t.pairwise_holderCount_missing now) hPair
  rcases Nat.lt_or_eq_of_le hLe with hLt | hEq
  · exact Or.inl hLt
  · refine Or.inr ⟨hEq, Nat.lt_of_not_le ?_⟩
    intro hGe
    have hNe : a ≠ b :=
      List.pairwise_iff_forall_sublist.mp
        (nodup_missing hFormed now) hPair
    have hWanted :
        ∀ i ∈ [a, b], i ∈ t.wanted now :=
      fun i hi =>
        (t.perm_missing now).mem_iff.mp (hPair.subset hi)
    have hSwapped : [b, a].Sublist (t.wanted now) :=
      pair_sublist_of_lt (pairwise_wanted hFormed now)
        (hWanted b (by simp)) (hWanted a (by simp))
        (Nat.lt_of_le_of_ne hGe (Ne.symm hNe))
    -- The order of two equally rare chunks is that of before.
    have hOrder :=
      filter_missing_of_le hFormed (Nat.le_of_eq hEq.symm)
        hSwapped
    have hFilter := hPair.filter fun i => i = b ∨ i = a
    rw [hOrder] at hFilter
    have hSame : [a, b] = [b, a] := by
      simpa using hFilter.eq_of_length
    simp [hNe] at hSame

end Transfer

end PeerShare

------------------------------------------------------------
-- Eligible Chunks
------------------------------------------------------------

namespace PeerShare

namespace Transfer

variable {t : Transfer}
variable {now : Moment}
variable {i : Nat}

/-
  Whether a chunk may be requested: it has not arrived, and
  no peer was asked for it in the last half second.
-/
structure IsEligible
    (t : Transfer)
    (now : Moment)
    (i : Nat) : Prop where
  missing :
    ∃ chunk,
      t.chunks[i]? = some chunk ∧ chunk.downloaded = false
  idle :
    ∀ peer holder r moment,
      t.peers.get? peer = some holder →
        holder.record? i = some r →
          r.lastRequested = some moment →
            Span.ofMillis 500 ≤ elapsed moment now

/- The missing chunks are those that may be requested. -/
theorem mem_missing_iff_isEligible
    (hFormed : t.WellFormed) :
    i ∈ t.missing now ↔ t.IsEligible now i := by
  rw [mem_missing_iff hFormed]
  constructor
  · rintro ⟨chunk, hGet, hFresh, hIdle⟩
    refine ⟨⟨chunk, hGet, hFresh⟩, ?_⟩
    intro peer holder r moment hPeer hRecord hLast
    exact le_elapsed_of_isDue
      (isDue_of_not_isInFlight hIdle hPeer hRecord) hLast
  · rintro ⟨⟨chunk, hGet, hFresh⟩, hIdle⟩
    refine ⟨chunk, hGet, hFresh, ?_⟩
    unfold isInFlight
    rw [List.any_eq_false]
    intro holder hHolder
    rcases Table.mem_values_iff.mp hHolder with ⟨peer, hPeer⟩
    rw [Bool.not_eq_true]
    apply Holder.isAwaiting_eq_false
    intro r hRecord
    unfold RequestRecord.isDue
    cases hLast : r.lastRequested with
    | none => rfl
    | some moment =>
        exact decide_eq_true
          (hIdle peer holder r moment hPeer hRecord hLast)

/- There is one list of these chunks in order of rarity. -/
theorem eq_missing_of_mem_iff
    (hFormed : t.WellFormed)
    {list : List Nat}
    (hNodup : list.Nodup)
    (hMem : ∀ i, i ∈ list ↔ t.IsEligible now i)
    (hOrder : list.Pairwise t.IsRarer) :
    t.missing now = list := by
  have hPerm : (t.missing now).Perm list := by
    rw [List.perm_ext_iff_of_nodup
      (nodup_missing hFormed now) hNodup]
    intro i
    rw [hMem, mem_missing_iff_isEligible hFormed]
  refine hPerm.eq_of_pairwise ?_
    (pairwise_missing hFormed now) hOrder
  intro i j _ _ hBefore hBehind
  exact absurd hBehind hBefore.asymm

end Transfer

namespace Session

/-
  The missing chunks of a file that is fetched are just
  those that may be requested, each of them once, in order
  of the number of peers that hold them and then of their
  own number.  No other list is so.
-/
theorem missing_eq_iff
    {s : Session}
    {name : String}
    {t : Transfer}
    (hReachable : s.IsReachable)
    (hGet : s.downloads.transfer? name = some t)
    (now : Moment)
    (list : List Nat) :
    t.missing now = list ↔
      list.Nodup ∧
        (∀ i, i ∈ list ↔ t.IsEligible now i) ∧
        list.Pairwise t.IsRarer := by
  have hFormed := (hReachable.wellFormed hGet).2
  constructor
  · rintro rfl
    exact ⟨Transfer.nodup_missing hFormed now,
      fun i => Transfer.mem_missing_iff_isEligible hFormed,
      Transfer.pairwise_missing hFormed now⟩
  · rintro ⟨hNodup, hMem, hOrder⟩
    exact Transfer.eq_missing_of_mem_iff hFormed hNodup hMem
      hOrder

/-
  Of four chunks the last has arrived, and the first two are
  not missing before half a second has passed, though the
  second peer holds one of them too.  Then they stand behind
  the chunk that no peer holds.
-/
theorem missing_eq_iff_of_two_peers :
    let log := TransferLog.start TransferLog.defaultWindow
    let peer : UInt16 → Endpoint := fun port => ⟨.loopback, port⟩
    let file : FileRecord :=
      ⟨"a", 60000, .ofBytes [],
        [.ofBytes [], .ofBytes [], .ofBytes [],
          Digest.of [7]]⟩
    let s :=
      (blank Disk.empty).run
        [.request "a" 0,
          .start file "a" false [(peer 1, [0xC0])] 0,
          .tick 0 log, .applyPeers "a" [(peer 2, [0x50])],
          .arrive "a" 3 [7] (peer 2) 1 log]
    let later := Span.ofMillis 500
    ∃ t,
      s.downloads.transfer? "a" = some t ∧
        (List.range 4).map t.holderCount = [1, 2, 0, 1] ∧
        (∀ i, t.IsEligible (later - 1) i ↔ i = 2) ∧
        (∀ i, t.IsEligible later i ↔ i ∈ [2, 0, 1]) ∧
        [2, 0, 1].Pairwise t.IsRarer := by
  intro log peer file s later
  have hReachable : s.IsReachable := isReachable_run_blank _ _
  have hEvaluated :
      (s.downloads.transfer? "a").map (fun t =>
          ((List.range 4).map t.holderCount,
            t.missing (later - 1), t.missing later)) =
        some ([1, 2, 0, 1], [2], [2, 0, 1]) := by
    dsimp only [s]
    delta run after Downloads.tick Download.tick Transfer.tick
      Transfer.schedule Schedule.visit
    rw [Transfer.missing_eq_insertionSort,
      Transfer.rankedPeers_eq_insertionSort,
      restore_eq_insertionSort]
    decide +kernel
  rcases Option.map_eq_some_iff.mp hEvaluated with
    ⟨t, hGet, hFacts⟩
  simp only [Prod.mk.injEq] at hFacts
  rcases hFacts with ⟨hCounts, hBefore, hLater⟩
  rcases (missing_eq_iff hReachable hGet _ _).mp hBefore with
    ⟨-, hOne, -⟩
  rcases (missing_eq_iff hReachable hGet _ _).mp hLater with
    ⟨-, hThree, hOrder⟩
  refine ⟨t, hGet, hCounts, ?_, ?_, hOrder⟩
  · exact fun i => (hOne i).symm.trans List.mem_singleton
  · exact fun i => (hThree i).symm

end Session

end PeerShare

------------------------------------------------------------
-- Requests of an Allotment
------------------------------------------------------------

namespace PeerShare

namespace Schedule

variable {now : Moment}
variable {s : Schedule}
variable {peer : Endpoint}
variable {holder : Holder}
variable {peers : List Endpoint}

/- Requests that were made stay. -/
theorem subset_withRequest
    (requests : List (Endpoint × List UInt16))
    (peer : Endpoint)
    (assigned : List UInt16) :
    requests ⊆ withRequest requests peer assigned :=
  fun _ hMem => mem_withRequest_iff.mpr (Or.inl hMem)

theorem requests_subset_allot
    (s : Schedule)
    (now : Moment)
    (peer : Endpoint) :
    s.requests ⊆ (s.allot now peer).requests := by
  rcases s.allot_cases now peer with
    ⟨-, hSame⟩ | ⟨holder, -, ⟨-, hGone⟩ | ⟨-, hAsked⟩⟩
  · rw [hSame]
    exact List.Subset.refl _
  · rw [hGone]
    exact List.Subset.refl _
  · rw [hAsked]
    exact subset_withRequest ..

theorem requests_subset_foldl
    (s : Schedule)
    (now : Moment)
    (peers : List Endpoint) :
    s.requests ⊆
      (peers.foldl (Schedule.allot now) s).requests := by
  induction peers generalizing s with
  | nil => exact List.Subset.refl _
  | cons peer peers ih =>
      exact List.Subset.trans
        (s.requests_subset_allot now peer) (ih _)

/- Visits of other peers note nothing about a peer. -/
theorem get?_foldl_allot
    (hNot : peer ∉ peers) :
    (peers.foldl (Schedule.allot now)
        s).transfer.peers.get? peer =
      s.transfer.peers.get? peer := by
  induction peers generalizing s with
  | nil => rfl
  | cons other peers ih =>
      rw [List.mem_cons, not_or] at hNot
      rw [List.foldl_cons, ih hNot.2, get?_allot_of_ne hNot.1]

/- Every request is the share of a peer at its visit. -/
theorem exists_allot_of_mem
    {r : Endpoint × List UInt16}
    (hMem :
      r ∈ (peers.foldl (Schedule.allot now) s).requests) :
    r ∈ s.requests ∨
      ∃ earlier later holder,
        peers = earlier ++ r.1 :: later ∧
          let before := earlier.foldl (Schedule.allot now) s
          before.transfer.peers.get? r.1 = some holder ∧
            r.2 =
              (holder.share maxRequest before.missing).map
                UInt16.ofNat := by
  induction peers generalizing s with
  | nil => exact Or.inl hMem
  | cons peer peers ih =>
      rcases ih hMem with hOwn | hLater
      · rcases s.allot_cases now peer with
          ⟨-, hSame⟩ |
            ⟨holder, hPeer, ⟨-, hGone⟩ | ⟨-, hAsked⟩⟩
        · rw [hSame] at hOwn
          exact Or.inl hOwn
        · rw [hGone] at hOwn
          exact Or.inl hOwn
        · rw [hAsked] at hOwn
          rcases mem_withRequest_iff.mp hOwn with
            hOld | ⟨rfl, -⟩
          · exact Or.inl hOld
          · exact Or.inr ⟨[], peers, holder, rfl, hPeer, rfl⟩
      · rcases hLater with
          ⟨earlier, later, holder, rfl, hVisit⟩
        exact Or.inr
          ⟨peer :: earlier, later, holder, rfl, hVisit⟩

/- A peer that is left was asked for its share. -/
theorem mem_requests_of_stays
    {later : List Endpoint}
    {holder' : Holder}
    (hPeer : s.transfer.peers.get? peer = some holder)
    (hNot : peer ∉ later)
    (hLeft :
      ((peer :: later).foldl (Schedule.allot now)
        s).transfer.peers.get? peer = some holder')
    (hShare : holder.share maxRequest s.missing ≠ []) :
    (peer,
        (holder.share maxRequest s.missing).map
          UInt16.ofNat) ∈
      ((peer :: later).foldl (Schedule.allot now)
        s).requests := by
  rw [List.foldl_cons, get?_foldl_allot hNot] at hLeft
  rw [List.foldl_cons]
  apply requests_subset_foldl
  rcases Nat.lt_or_ge maxStrikes
      (holder.strikesWith maxRequest s.missing) with
    hLimit | hStays
  · rw [allot_of_evicted hPeer hLimit, get?_evict_self]
      at hLeft
    cases hLeft
  · rw [allot_of_stays hPeer hStays]
    refine mem_withRequest_iff.mpr (Or.inr ⟨rfl, ?_⟩)
    simpa using hShare

end Schedule

end PeerShare

------------------------------------------------------------
-- One File
------------------------------------------------------------

namespace PeerShare

/- Whether a request is for a chunk. -/
def ChunkRequest.Names
    (r : ChunkRequest)
    (i : Nat) : Prop :=
  i ∈ r.indices.map UInt16.toNat

/- The chunks that a peer is asked for. -/
def assignedTo
    (requests : List ChunkRequest)
    (peer : Endpoint) : List UInt16 :=
  (requests.filter (·.peer = peer)).flatMap (·.indices)

namespace Transfer

/-
  Whether a peer may be asked for a chunk.  The chunk has
  not arrived, no answer for it is waited for, and the peer
  holds it and was asked for it less than three times.
-/
structure MayAsk
    (t : Transfer)
    (holder : Holder)
    (now : Moment)
    (i : Nat) : Prop where
  missing :
    ∃ chunk,
      t.chunks[i]? = some chunk ∧ chunk.downloaded = false
  idle :
    ∀ peer other r moment,
      t.peers.get? peer = some other →
        other.record? i = some r →
          r.lastRequested = some moment →
            Span.ofMillis 500 ≤ elapsed moment now
  held : ∃ r, holder.record? i = some r ∧ r.tries < 3

/-
  What the requests for one file leave out, in a pass that
  leads from one state of its transfer to another.
-/
structure RarestFirst
    (t t' : Transfer)
    (now : Moment)
    (log : TransferLog)
    (requests : List ChunkRequest) : Prop where
  /- A request names its chunks in order of rarity. -/
  increasing :
    ∀ r ∈ requests,
      (r.indices.map UInt16.toNat).Pairwise t.IsRarer
  /- A peer has room left only if it has nothing to offer. -/
  conserving :
    ∀ peer holder',
      t'.peers.get? peer = some holder' →
        ∃ holder,
          t.peers.get? peer = some holder ∧
            ((assignedTo requests peer).length < 100 →
              ∀ i,
                t.MayAsk holder now i →
                  ∃ r ∈ requests, r.Names i)
  /- A peer is asked for a chunk after all rarer ones. -/
  rarest :
    ∀ r ∈ requests,
      ∃ holder,
        t.peers.get? r.peer = some holder ∧
          ∀ c d,
            r.Names c →
              t.MayAsk holder now d →
                t.IsRarer d c →
                  r.Names d ∨
                    ∃ other ∈ requests,
                      [other.peer, r.peer].Sublist
                          (t.rankedPeers now log) ∧
                        other.Names d

variable {t : Transfer}
variable {now : Moment}
variable {log : TransferLog}
variable {holder : Holder}
variable {i : Nat}

theorem MayAsk.mem_missing
    (h : t.MayAsk holder now i)
    (hFormed : t.WellFormed) :
    i ∈ t.missing now :=
  (mem_missing_iff_isEligible hFormed).mpr ⟨h.missing, h.idle⟩

theorem MayAsk.isAskable
    (h : t.MayAsk holder now i) :
    holder.isAskable i = true := by
  rcases h.held with ⟨r, hRecord, hTries⟩
  exact (Holder.isAskable_of_record hRecord hTries).1

end Transfer

/- What comes before a chunk of the share is in the share. -/
theorem mem_take_of_rel
    {R : Nat → Nat → Prop}
    {list : List Nat}
    {n c d : Nat}
    (hAsymm : ∀ a b, R a b → ¬ R b a)
    (hSorted : list.Pairwise R)
    (hc : c ∈ list.take n)
    (hd : d ∈ list)
    (hBefore : R d c) :
    d ∈ list.take n := by
  rw [← List.take_append_drop n list] at hd hSorted
  rcases List.mem_append.mp hd with hTake | hDrop
  · exact hTake
  · have hAcross := (List.pairwise_append.mp hSorted).2.2
    exact absurd hBefore (hAsymm c d (hAcross c hc d hDrop))

theorem length_le_assignedTo
    {requests : List ChunkRequest}
    {r : ChunkRequest}
    (hMem : r ∈ requests) :
    r.indices.length ≤ (assignedTo requests r.peer).length := by
  have hOwn : r ∈ requests.filter (·.peer = r.peer) :=
    List.mem_filter.mpr ⟨hMem, decide_eq_true rfl⟩
  rcases List.append_of_mem hOwn with ⟨front, rest, hSplit⟩
  unfold assignedTo
  rw [hSplit, List.flatMap_append, List.flatMap_cons,
    List.length_append, List.length_append]
  omega

namespace Transfer

variable {t : Transfer}
variable {now : Moment}
variable {log : TransferLog}

/- The schedule goes on from the visits of some peers. -/
theorem schedule_eq_foldl
    {earlier later : List Endpoint}
    (hRegular : t.IsRegular)
    (hCount : t.chunkCount ≤ 65536)
    (hRanked : t.rankedPeers now log = earlier ++ later) :
    t.schedule now log =
      let after :=
        later.foldl (Schedule.allot now)
          (t.visited now earlier)
      (after.requests, after.transfer) := by
  have hVisited :=
    (Schedule.Orderly.of_visited hRegular hCount hRanked).2
  rw [(schedule_eq_allotment hRegular hCount now log).1,
    hVisited, ← List.foldl_append, ← hRanked]
  rfl

/- Every request is the share of a peer at its visit. -/
theorem exists_visit_of_mem
    {r : Endpoint × List UInt16}
    (hRegular : t.IsRegular)
    (hCount : t.chunkCount ≤ 65536)
    (hMem : r ∈ (t.schedule now log).1) :
    ∃ earlier later holder,
      t.rankedPeers now log = earlier ++ r.1 :: later ∧
        t.peers.get? r.1 = some holder ∧
        r.2.map UInt16.toNat =
          holder.share maxRequest
            (t.visited now earlier).missing := by
  have hSchedule :=
    (schedule_eq_allotment hRegular hCount now log).1
  rw [hSchedule] at hMem
  rcases Schedule.exists_allot_of_mem hMem with
    hNone | ⟨earlier, later, holder, hRanked, hPeer, hShare⟩
  · cases hNone
  · rcases Schedule.Orderly.of_visited hRegular hCount hRanked
      with ⟨hOrderly, hVisited⟩
    rw [← hVisited] at hPeer hShare
    refine ⟨earlier, later, holder, hRanked,
      hOrderly.get?_eq hPeer, ?_⟩
    rw [hShare]
    exact hOrderly.map_share hRegular hCount holder

/- A missing chunk is still missing, or was asked for. -/
theorem mem_visited_or_asked
    {earlier later : List Endpoint}
    {i : Nat}
    (hRegular : t.IsRegular)
    (hCount : t.chunkCount ≤ 65536)
    (hRanked : t.rankedPeers now log = earlier ++ later)
    (hMem : i ∈ t.missing now) :
    i ∈ (t.visited now earlier).missing ∨
      ∃ r ∈ (t.schedule now log).1,
        r.1 ∈ earlier ∧ i ∈ r.2.map UInt16.toNat := by
  rcases Schedule.Orderly.of_visited hRegular hCount hRanked
    with ⟨hOrderly, hVisited⟩
  rcases List.mem_append.mp
      (hOrderly.sound.perm.mem_iff.mpr hMem) with
    hAsked | hLeft
  · rcases List.mem_flatMap.mp hAsked with ⟨r, hr, hNamed⟩
    refine Or.inr ⟨r, ?_, ?_, hNamed⟩
    · rw [schedule_eq_foldl hRegular hCount hRanked]
      exact Schedule.requests_subset_foldl _ _ _ hr
    · rw [hVisited] at hr
      rcases Schedule.exists_allot_of_mem hr with
        hNone | ⟨before, behind, -, rfl, -⟩
      · cases hNone
      · exact List.mem_append_right _ List.mem_cons_self
  · exact Or.inl hLeft

/- A peer that is left with room was asked for all it can. -/
theorem exists_request_of_room
    {peer : Endpoint}
    {holder holder' : Holder}
    {i : Nat}
    (hRegular : t.IsRegular)
    (hCount : t.chunkCount ≤ 65536)
    (hLeft :
      (t.schedule now log).2.peers.get? peer = some holder')
    (hPeer : t.peers.get? peer = some holder)
    (hRoom :
      ∀ indices,
        (peer, indices) ∈ (t.schedule now log).1 →
          indices.length < maxRequest)
    (hMay : t.MayAsk holder now i) :
    ∃ r ∈ (t.schedule now log).1,
      i ∈ r.2.map UInt16.toNat := by
  have hKey : peer ∈ t.rankedPeers now log :=
    (t.perm_rankedPeers now log).mem_iff.mpr
      (Table.mem_keys_iff.mpr ⟨holder, hPeer⟩)
  rcases List.append_of_mem hKey with ⟨earlier, later, hRanked⟩
  rcases mem_visited_or_asked hRegular hCount hRanked
      (hMay.mem_missing hRegular.wellFormed) with
    hThere | ⟨r, hr, -, hAsked⟩
  · have hOrderly :=
      (Schedule.Orderly.of_visited hRegular hCount hRanked).1
    have hAskable :
        i ∈ holder.askable (t.visited now earlier).missing :=
      List.mem_filter.mpr ⟨hThere, hMay.isAskable⟩
    have hNew : peer ∉ later := by
      have hNodup := t.nodup_rankedPeers now log
      rw [hRanked] at hNodup
      exact (List.nodup_cons.mp
        (List.nodup_append.mp hNodup).2.1).1
    have hNonempty :
        holder.share maxRequest
          (t.visited now earlier).missing ≠ [] := by
      intro hNil
      rcases List.take_eq_nil_iff.mp hNil with hZero | hNone
      · cases hZero
      · rw [hNone] at hAskable
        cases hAskable
    rw [schedule_eq_foldl hRegular hCount hRanked]
      at hLeft hRoom ⊢
    have hRequest :=
      Schedule.mem_requests_of_stays
        ((hOrderly.sound.untouched peer
          List.mem_cons_self).trans hPeer)
        hNew hLeft hNonempty
    refine ⟨_, hRequest, ?_⟩
    rw [hOrderly.map_share hRegular hCount holder]
    have hShort := hRoom _ hRequest
    rw [List.length_map, Holder.share, List.length_take]
      at hShort
    rw [Holder.share, List.take_of_length_le (by omega)]
    exact hAskable
  · exact ⟨r, hr, hAsked⟩

/- A schedule leaves out no request that could be made. -/
theorem rarestFirst_schedule
    (hRegular : t.IsRegular)
    (hCount : t.chunkCount ≤ 65536)
    (now : Moment)
    (log : TransferLog)
    (name : String) :
    t.RarestFirst (t.schedule now log).2 now log
      (requestsFor name (t.schedule now log).1) where
  increasing r hr := by
    rcases exists_visit_of_mem hRegular hCount
        (mem_requestsFor_iff.mp hr).2 with
      ⟨earlier, later, holder, hRanked, -, hShare⟩
    have hOrderly :=
      (Schedule.Orderly.of_visited hRegular hCount hRanked).1
    rw [hShare]
    exact (pairwise_missing hRegular.wellFormed now).sublist
      ((holder.share_sublist _ _).trans hOrderly.sublist)
  conserving peer holder' hLeft := by
    rcases sound_schedule hRegular.wellFormed hCount now log
      with ⟨left, hSound⟩
    rcases hSound.stamped peer holder' hLeft with
      ⟨holder, hPeer, -⟩
    refine ⟨holder, hPeer, ?_⟩
    intro hRoom i hMay
    have hShort :
        ∀ indices,
          (peer, indices) ∈ (t.schedule now log).1 →
            indices.length < maxRequest := by
      intro indices hMem
      have hRequest :
          ⟨peer, name, indices⟩ ∈
            requestsFor name (t.schedule now log).1 :=
        mem_requestsFor_iff.mpr ⟨rfl, hMem⟩
      exact Nat.lt_of_le_of_lt (length_le_assignedTo hRequest)
        hRoom
    rcases exists_request_of_room hRegular hCount hLeft hPeer
        hShort hMay with ⟨r, hr, hNamed⟩
    exact ⟨⟨r.1, name, r.2⟩,
      mem_requestsFor_iff.mpr ⟨rfl, hr⟩, hNamed⟩
  rarest r hr := by
    rcases exists_visit_of_mem hRegular hCount
        (mem_requestsFor_iff.mp hr).2 with
      ⟨earlier, later, holder, hRanked, hPeer, hShare⟩
    refine ⟨holder, hPeer, ?_⟩
    intro c d hNamed hMay hRarer
    have hOrderly :=
      (Schedule.Orderly.of_visited hRegular hCount hRanked).1
    rcases mem_visited_or_asked hRegular hCount hRanked
        (hMay.mem_missing hRegular.wellFormed) with
      hThere | ⟨other, hOther, hEarlier, hAsked⟩
    · left
      unfold ChunkRequest.Names at hNamed ⊢
      rw [hShare] at hNamed ⊢
      have hSorted :
          (holder.askable
            (t.visited now earlier).missing).Pairwise
              t.IsRarer :=
        (pairwise_missing hRegular.wellFormed now).sublist
          (List.filter_sublist.trans hOrderly.sublist)
      exact mem_take_of_rel (fun _ _ => IsRarer.asymm) hSorted
        hNamed (List.mem_filter.mpr ⟨hThere, hMay.isAskable⟩)
        hRarer
    · right
      refine ⟨⟨other.1, name, other.2⟩,
        mem_requestsFor_iff.mpr ⟨rfl, hOther⟩, ?_, hAsked⟩
      rw [hRanked]
      exact (List.singleton_sublist.mpr hEarlier).append
        (List.singleton_sublist.mpr List.mem_cons_self)

end Transfer

end PeerShare

------------------------------------------------------------
-- All Files
------------------------------------------------------------

namespace PeerShare

namespace Transfer

variable {t t' refreshed : Transfer}
variable {now : Moment}
variable {log : TransferLog}
variable {requests : List ChunkRequest}

/- Only chunks and peers count. -/
theorem RarestFirst.of_eq
    (h : refreshed.RarestFirst t' now log requests)
    (hChunks : refreshed.chunks = t.chunks)
    (hPeers : refreshed.peers = t.peers) :
    t.RarestFirst t' now log requests := by
  have hRarer :
      ∀ i j, t.IsRarer i j → refreshed.IsRarer i j := by
    intro i j hBefore
    unfold IsRarer holderCount at *
    rw [hPeers]
    exact hBefore
  have hMay :
      ∀ holder i,
        t.MayAsk holder now i →
          refreshed.MayAsk holder now i := by
    intro holder i hOwn
    have hMissing := hOwn.missing
    have hIdle := hOwn.idle
    rw [← hChunks] at hMissing
    rw [← hPeers] at hIdle
    exact ⟨hMissing, hIdle, hOwn.held⟩
  refine ⟨?_, ?_, ?_⟩
  · intro r hr
    have hSorted := h.increasing r hr
    unfold IsRarer holderCount at *
    rw [← hPeers]
    exact hSorted
  · intro peer holder' hLeft
    rcases h.conserving peer holder' hLeft with
      ⟨holder, hPeer, hAll⟩
    rw [hPeers] at hPeer
    exact ⟨holder, hPeer, fun hRoom i hOwn =>
      hAll hRoom i (hMay holder i hOwn)⟩
  · intro r hr
    rcases h.rarest r hr with ⟨holder, hPeer, hAll⟩
    rw [hPeers] at hPeer
    refine ⟨holder, hPeer, ?_⟩
    intro c d hNamed hOwn hBefore
    have hRanked :
        refreshed.rankedPeers now log =
          t.rankedPeers now log := by
      unfold rankedPeers
      rw [hPeers]
    rw [← hRanked]
    exact hAll c d hNamed (hMay holder d hOwn)
      (hRarer d c hBefore)

theorem IsRegular.of_sameProgress
    (h : t.IsRegular)
    (hSame : t.SameProgress refreshed)
    (hPeers : refreshed.peers = t.peers)
    (hEvicted : refreshed.evicted = t.evicted) :
    refreshed.IsRegular where
  index_eq := by
    rw [hSame.chunks_eq]
    exact h.index_eq
  countsArrived := h.countsArrived.of_sameProgress hSame
  apart := hSame.keeps_apart h.apart
  peer := by
    rw [hPeers, hSame.chunkCount_eq]
    exact h.peer
  evicted := by
    rw [hEvicted, hSame.chunkCount_eq]
    exact h.evicted

/- The requests of a pass over one transfer. -/
theorem rarestFirst_tick
    (hRegular : t.IsRegular)
    (hCount : t.chunkCount ≤ 65536)
    (hIncomplete : t.isComplete = false)
    (now : Moment)
    (log : TransferLog) :
    ∃ t',
      (t.tick now log).2 = some t' ∧
        t.RarestFirst t' now log
          (t.tick now log).1.requests := by
  rcases @tick_of_not_isComplete t now log hIncomplete with
    ⟨refreshed, hSame, hPeers, hEvicted, hRequests, -, hRest⟩
  have hRefreshed :=
    hRegular.of_sameProgress hSame hPeers hEvicted
  rw [← hSame.chunkCount_eq] at hCount
  refine ⟨_, hRest, ?_⟩
  rw [hRequests]
  exact (rarestFirst_schedule hRefreshed hCount now log
    t.name).of_eq hSame.chunks_eq hPeers

/- The one peer may be asked for its chunk at first. -/
theorem IsLone.mayAsk
    {peer : Endpoint}
    {holder : Holder}
    {index : Nat}
    (h : t.IsLone peer index RequestRecord.fresh 0)
    (hPeer : t.peers.get? peer = some holder)
    (now : Moment) :
    t.MayAsk holder now index := by
  rcases h.exists_holder with ⟨own, hPeers, hOnly, -⟩
  have hOwn :
      ∀ other u, t.peers.get? other = some u → u = own := by
    intro other u hOther
    have hMem := Table.mem_values_iff.mpr ⟨other, hOther⟩
    rw [hPeers] at hMem
    exact List.mem_singleton.mp hMem
  refine ⟨?_, ?_, ?_⟩
  · have hChunk := Array.getElem?_eq_getElem h.lt_chunkCount
    exact ⟨_, hChunk, h.fresh index _ hChunk⟩
  · intro other u r moment hOther hRecord hLast
    rw [hOwn other u hOther, hOnly] at hRecord
    split at hRecord
    · cases hRecord
      cases hLast
    · cases hRecord
  · rw [hOwn peer holder hPeer]
    exact ⟨_, (hOnly index).trans (if_pos rfl), by decide⟩

end Transfer

namespace Session

variable {s : Session}
variable {name : String}
variable {t : Transfer}

/-
  What the requests for a file leave out that is fetched and
  not complete.  The numbers of its chunks have to fit the
  requests.
-/
theorem rarest_first
    (hReachable : s.IsReachable)
    (hGet : s.downloads.transfer? name = some t)
    (hIncomplete : t.isComplete = false)
    (hCount : t.chunkCount ≤ 65536)
    (now : Moment)
    (log : TransferLog) :
    let tick := s.downloads.tick now log
    ∃ t',
      tick.2.transfer? name = some t' ∧
        t.RarestFirst t' now log
          (tick.1.requests.filter (·.name = name)) := by
  intro tick
  rcases Transfer.rarestFirst_tick (hReachable.isRegular hGet)
      hCount hIncomplete now log with ⟨t', hRest, hFirst⟩
  refine ⟨t', ?_, ?_⟩
  · unfold tick
    rw [Downloads.transfer?_tick, hGet]
    exact hRest
  · unfold tick
    rw [Downloads.filter_requests_tick hReachable.name_eq
      hGet]
    exact hFirst

/-
  Four chunks are held by three peers, one peer, two peers
  and one peer.  The first peer is asked for its chunks in
  this order, and what it does not hold is left to the last.
-/
theorem rarest_first_of_three_peers :
    let log := TransferLog.start TransferLog.defaultWindow
    let peer : UInt16 → Endpoint := fun port => ⟨.loopback, port⟩
    let file : FileRecord :=
      ⟨"a", 60000, .ofBytes [],
        List.replicate 4 (.ofBytes [])⟩
    let s :=
      (blank Disk.empty).run
        [.request "a" 0,
          .start file "a" false
            [(peer 1, [0xE0]), (peer 2, [0xA0]),
              (peer 3, [0x90])] 0]
    let tick := s.downloads.tick 1 log
    ∃ t t',
      s.downloads.transfer? "a" = some t ∧
        (List.range 4).map t.holderCount = [3, 1, 2, 1] ∧
        tick.1.requests.filter (·.name = "a") =
          [⟨peer 1, "a", [1, 2, 0]⟩, ⟨peer 3, "a", [3]⟩] ∧
        tick.2.transfer? "a" = some t' ∧
        t.RarestFirst t' 1 log
          (tick.1.requests.filter (·.name = "a")) := by
  intro log peer file s tick
  have hFound :
      (s.downloads.transfer? "a").map (fun t =>
          (t.isComplete, t.chunkCount,
            (List.range 4).map t.holderCount)) =
        some (false, 4, [3, 1, 2, 1]) := by
    decide +kernel
  have hRequests :
      tick.1.requests.filter (·.name = "a") =
        [⟨peer 1, "a", [1, 2, 0]⟩, ⟨peer 3, "a", [3]⟩] := by
    dsimp only [tick]
    delta Downloads.tick Download.tick Transfer.tick
      Transfer.schedule Schedule.visit
    rw [Transfer.missing_eq_insertionSort,
      Transfer.rankedPeers_eq_insertionSort,
      restore_eq_insertionSort]
    decide +kernel
  have hReachable : s.IsReachable := isReachable_run_blank _ _
  have hTick : s.downloads.tick 1 log = tick := rfl
  clear_value tick s
  rcases Option.map_eq_some_iff.mp hFound with
    ⟨t, hGet, hFacts⟩
  simp only [Prod.mk.injEq] at hFacts
  rcases hFacts with ⟨hIncomplete, hCount, hHolders⟩
  have hSmall : t.chunkCount ≤ 65536 := by
    rw [hCount]
    decide
  rcases rarest_first hReachable hGet hIncomplete hSmall 1 log
    with ⟨t', hAfter, hFirst⟩
  rw [hTick] at hAfter hFirst
  exact ⟨t, t', hGet, hHolders, hRequests, hAfter, hFirst⟩

/- A chunk whose number does not fit is named by no request. -/
theorem HasLone.not_rarestFirst
    {n : Nat}
    {peer : Endpoint}
    (h : s.HasLone name n peer 65536 RequestRecord.fresh 0)
    (hReachable : s.IsReachable)
    (now : Moment)
    (log : TransferLog) :
    ∃ t t',
      s.downloads.transfer? name = some t ∧
        t.isComplete = false ∧
        (s.downloads.tick now log).2.transfer? name =
          some t' ∧
        ¬ t.RarestFirst t' now log
          ((s.downloads.tick now log).1.requests.filter
            (·.name = name)) := by
  rcases h with ⟨t, hGet, -, hLone⟩
  rcases @Transfer.IsLone.tick_asks t peer 65536
      RequestRecord.fresh 0 now hLone rfl (by decide) log with
    ⟨t', hRest, hLone', -, hRequests⟩
  refine ⟨t, t', hGet, hLone.isComplete_eq,
    transfer?_after_tick hGet hRest, ?_⟩
  rw [Downloads.filter_requests_tick hReachable.name_eq hGet,
    hRequests]
  intro hFirst
  rcases hLone'.exists_holder with ⟨holder', hPeers', -⟩
  have hPeer' : t'.peers.get? peer = some holder' := by
    rw [hPeers']
    exact Table.get?_insert_self _ _ _
  rcases hFirst.conserving peer holder' hPeer' with
    ⟨holder, hPeer, hAll⟩
  rcases hAll (by simp [assignedTo]) 65536
      (hLone.mayAsk hPeer now) with ⟨r, hr, hNamed⟩
  rw [List.mem_singleton.mp hr] at hNamed
  have hZero :
      65536 ∈ [UInt16.ofNat 65536].map UInt16.toNat :=
    hNamed
  exact absurd hZero (by decide)

/-
  The chunk 65536 is requested under the number zero, so no
  request names it, although its peer has room left.
-/
theorem not_rarestFirst_of_shared_number :
    let peer : Endpoint := ⟨.loopback, 1⟩
    let log := TransferLog.start TransferLog.defaultWindow
    let file : FileRecord :=
      ⟨"a", 1, .ofBytes [], List.replicate 65537 (.ofBytes [])⟩
    let s :=
      (blank Disk.empty).run
        [.request "a" 0,
          .start file "a" false
            [(peer, Packing.ofIndices [65536])] 0]
    ∃ t t',
      s.downloads.transfer? "a" = some t ∧
        t.isComplete = false ∧
        (s.downloads.tick 0 log).2.transfer? "a" = some t' ∧
        ¬ t.RarestFirst t' 0 log
          ((s.downloads.tick 0 log).1.requests.filter
            (·.name = "a")) := by
  intro peer log file s
  have hStart := hasLone_awaiting (Nat.lt_succ_self 65536) peer
  have hReachable : s.IsReachable := isReachable_run_blank _ _
  exact HasLone.not_rarestFirst hStart hReachable 0 log

end Session

end PeerShare
