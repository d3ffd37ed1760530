import PeerShare.Proofs.Fetch.Shares
import PeerShare.Proofs.Fetch.Tally

/-
  A schedule as one decision for each peer.

  The peers are visited in order, with a list of chunks that
  becomes shorter.  A peer that would have too many strikes
  is evicted, and the list stays as it is; any other peer is
  asked for its share, and the list goes on without it.  The
  schedule comes to the same, although it removes chunks
  while it walks and puts them back when a peer is evicted.

  Key definitions include:
    * `Holder.heldAmong`
    * `Schedule.evict`
    * `Schedule.ask`
    * `Schedule.allot`
    * `Transfer.allotment`
    * `Schedule.Orderly`
    * `Schedule.FollowsAllotment`

  Key theorems include:
    * `Holder.ofIndices_held`
    * `Schedule.allot_cases`
    * `Schedule.Orderly.visit_eq`
    * `Schedule.Orderly.of_foldl`
    * `Transfer.schedule_eq_allotment`
-/

------------------------------------------------------------
-- Allotments
------------------------------------------------------------

namespace PeerShare

namespace Holder

/- The set of those of `n` chunks that a peer holds. -/
def heldAmong
    (h : Holder)
    (n : Nat) : ChunkSet where
  flags := Array.ofFn fun i : Fin n => h.holds i

theorem has_heldAmong
    (h : Holder)
    (n i : Nat) :
    (h.heldAmong n).has i = (decide (i < n) && h.holds i) := by
  rw [ChunkSet.has_eq_getElem?, heldAmong,
    Array.getElem?_ofFn]
  split
  · rename_i hLt
    simp [hLt]
  · rename_i hGe
    simp [hGe]

/- Listing the chunks that a peer holds gives their set. -/
theorem ofIndices_held
    (h : Holder)
    (n : Nat) :
    ChunkSet.ofIndices h.held n = h.heldAmong n := by
  have hMem : ∀ i, i ∈ h.held ↔ h.holds i = true := by
    intro i
    rw [held, Packing.mem_positions_iff, List.getElem?_map,
      Array.getElem?_toList, holds, record?,
      Array.getD_eq_getD_getElem?]
    cases h.records[i]? <;> simp
  apply ChunkSet.eq_of_has_eq
  · rw [ChunkSet.chunkCount_ofIndices, heldAmong,
      ChunkSet.chunkCount, Array.size_ofFn]
  · intro i
    rw [ChunkSet.has_ofIndices, has_heldAmong,
      Bool.eq_iff_iff, Bool.and_eq_true, decide_eq_true_iff,
      decide_eq_true_iff, hMem, and_comm]

end Holder

namespace Schedule

/-
  A peer goes, with the chunks noted that it held, and the
  list stays as it is.
-/
def evict
    (s : Schedule)
    (peer : Endpoint)
    (holder : Holder) : Schedule :=
  { s with
    transfer :=
      { s.transfer with
        peers := s.transfer.peers.erase peer
        evicted :=
          s.transfer.evicted.insert peer
            (holder.heldAmong s.transfer.chunkCount) } }

/- A peer is asked for its share. -/
def ask
    (now : Moment)
    (s : Schedule)
    (peer : Endpoint)
    (holder : Holder) : Schedule :=
  let share := holder.share maxRequest s.missing
  { transfer :=
      { s.transfer with
        peers :=
          s.transfer.peers.insert peer
            (holder.ask now share
              (holder.strikesWith maxRequest s.missing)) }
    missing := s.missing.filter (· ∉ share)
    requests :=
      withRequest s.requests peer (share.map UInt16.ofNat) }

/- Decide at once what becomes of a peer. -/
def allot
    (now : Moment)
    (s : Schedule)
    (peer : Endpoint) : Schedule :=
  match s.transfer.peers.get? peer with
  | none => s
  | some holder =>
      if maxStrikes < holder.strikesWith maxRequest s.missing
      then s.evict peer holder
      else s.ask now peer holder

section Allot

variable {now : Moment}
variable {s : Schedule}
variable {peer other : Endpoint}
variable {holder : Holder}

theorem allot_of_none
    (hPeer : s.transfer.peers.get? peer = none) :
    s.allot now peer = s := by
  unfold allot
  rw [hPeer]

/- A peer that collects too many strikes. -/
theorem allot_of_evicted
    (hPeer : s.transfer.peers.get? peer = some holder)
    (hLimit :
      maxStrikes < holder.strikesWith maxRequest s.missing) :
    s.allot now peer = s.evict peer holder := by
  unfold allot
  rw [hPeer]
  exact if_pos hLimit

theorem allot_of_stays
    (hPeer : s.transfer.peers.get? peer = some holder)
    (hStays :
      holder.strikesWith maxRequest s.missing ≤ maxStrikes) :
    s.allot now peer = s.ask now peer holder := by
  unfold allot
  rw [hPeer]
  exact if_neg (Nat.not_lt_of_le hStays)

/- All that a decision can come to. -/
theorem allot_cases
    (s : Schedule)
    (now : Moment)
    (peer : Endpoint) :
    s.transfer.peers.get? peer = none ∧
        s.allot now peer = s ∨
      ∃ holder,
        s.transfer.peers.get? peer = some holder ∧
          (maxStrikes <
                holder.strikesWith maxRequest s.missing ∧
              s.allot now peer = s.evict peer holder ∨
            holder.strikesWith maxRequest s.missing ≤
                maxStrikes ∧
              s.allot now peer = s.ask now peer holder) := by
  cases hPeer : s.transfer.peers.get? peer with
  | none => exact Or.inl ⟨rfl, allot_of_none hPeer⟩
  | some holder =>
      refine Or.inr ⟨holder, rfl, ?_⟩
      rcases Nat.lt_or_ge maxStrikes
          (holder.strikesWith maxRequest s.missing) with
        hLimit | hStays
      · exact Or.inl ⟨hLimit, allot_of_evicted hPeer hLimit⟩
      · exact Or.inr ⟨hStays, allot_of_stays hPeer hStays⟩

@[simp] theorem get?_evict_self
    (s : Schedule)
    (peer : Endpoint)
    (holder : Holder) :
    (s.evict peer holder).transfer.peers.get? peer = none :=
  Table.get?_erase_self _ _

@[simp] theorem get?_ask_self
    (s : Schedule)
    (now : Moment)
    (peer : Endpoint)
    (holder : Holder) :
    (s.ask now peer holder).transfer.peers.get? peer =
      some
        (holder.ask now (holder.share maxRequest s.missing)
          (holder.strikesWith maxRequest s.missing)) :=
  Table.get?_insert_self _ _ _

/- Nothing is noted about other peers. -/
theorem get?_allot_of_ne
    (hNe : other ≠ peer) :
    (s.allot now peer).transfer.peers.get? other =
      s.transfer.peers.get? other := by
  rcases s.allot_cases now peer with
    ⟨-, hSame⟩ | ⟨holder, -, ⟨-, hGone⟩ | ⟨-, hAsked⟩⟩
  · rw [hSame]
  · rw [hGone]
    exact Table.get?_erase_of_ne _ hNe
  · rw [hAsked]
    exact Table.get?_insert_of_ne _ _ hNe

/- What the next peer may be asked for was missing before. -/
theorem sublist_allot
    (s : Schedule)
    (now : Moment)
    (peer : Endpoint) :
    (s.allot now peer).missing.Sublist s.missing := by
  rcases s.allot_cases now peer with
    ⟨-, hSame⟩ | ⟨holder, -, ⟨-, hGone⟩ | ⟨-, hAsked⟩⟩
  · rw [hSame]
  · rw [hGone]
    exact List.Sublist.refl _
  · rw [hAsked]
    exact List.filter_sublist

end Allot

end Schedule

namespace Transfer

/- The schedule before any peer was visited. -/
def unvisited
    (t : Transfer)
    (now : Moment) : Schedule where
  transfer := t
  missing := t.missing now
  requests := []

/- The schedule after the visits of some peers. -/
def visited
    (t : Transfer)
    (now : Moment)
    (earlier : List Endpoint) : Schedule :=
  earlier.foldl
    (Schedule.visit now
      (ranksOf t.chunkCount (t.missing now)))
    (t.unvisited now)

/- The requests of one pass, one decision for each peer. -/
def allotment
    (t : Transfer)
    (now : Moment)
    (log : TransferLog) :
    List (Endpoint × List UInt16) × Transfer :=
  let s :=
    (t.rankedPeers now log).foldl (Schedule.allot now)
      (t.unvisited now)
  (s.requests, s.transfer)

end Transfer

end PeerShare

------------------------------------------------------------
-- Visits
------------------------------------------------------------

namespace PeerShare

/- Numbers that fit are not changed. -/
theorem map_toNat_ofNat
    {list : List Nat}
    (hSmall : ∀ i ∈ list, i < 65536) :
    (list.map UInt16.ofNat).map UInt16.toNat = list := by
  have hSame :
      ∀ i ∈ list, (UInt16.toNat ∘ UInt16.ofNat) i = id i :=
    fun i hi => UInt16.toNat_ofNat_of_lt' (hSmall i hi)
  rw [List.map_map, List.map_congr_left hSame, List.map_id]

namespace Walk

/- A walk notes nothing about chunks it does not reach. -/
theorem record?_walk_of_not_mem
    {now : Moment}
    {holder : Holder}
    {list : List Nat}
    {i : Nat}
    (hNodup : list.Nodup)
    (hSmall : ∀ k ∈ list, k < 65536)
    (hNot : i ∉ list) :
    (walk now list (start holder)).1.holder.record? i =
      holder.record? i := by
  have hSound :=
    sound_walk hNodup hSmall (Sound.start now holder list)
  rw [hSound.record_eq i, if_neg]
  intro hChosen
  exact hNot
    (hSound.perm.mem_iff.mp (List.mem_append_left _ hChosen))

/- The walk of a peer, from its start. -/
theorem evicted_or_follows
    {now : Moment}
    {holder : Holder}
    {list : List Nat}
    (hNodup : list.Nodup)
    (hDue :
      ∀ i ∈ list,
        ∀ r, holder.record? i = some r → r.isDue now = true)
    (hStrikes : holder.strikes ≤ maxStrikes) :
    (maxStrikes < holder.strikesWith maxRequest list →
        (walk now list (start holder)).1.evicted = true) ∧
      (holder.strikesWith maxRequest list ≤ maxStrikes →
        (start holder).Follows now maxRequest list
          (walk now list (start holder)).1
          (walk now list (start holder)).2) := by
  have hRoom :
      (start holder).assigned.size + (99 + 1) = maxRequest :=
    rfl
  exact evicted_or_follows_walk hRoom hNodup hDue hStrikes

end Walk

namespace Transfer

variable {t : Transfer}

theorem IsRegular.wellFormed
    (h : t.IsRegular) :
    t.WellFormed :=
  ⟨h.index_eq, h.apart⟩

/- Missing chunks are chunks of the file. -/
theorem IsRegular.lt_of_mem_missing
    (h : t.IsRegular)
    {now : Moment}
    {i : Nat}
    (hMem : i ∈ t.missing now) :
    i < t.chunkCount := by
  rcases (mem_missing_iff h.wellFormed).mp hMem with
    ⟨chunk, hGet, -, -⟩
  exact (Array.getElem?_eq_some_iff.mp hGet).1

end Transfer

namespace Schedule

/-
  A schedule in the making whose list of chunks keeps its
  order.
-/
structure Orderly
    (now : Moment)
    (t : Transfer)
    (s : Schedule)
    (todo : List Endpoint) : Prop where
  sound : s.Sound now t (t.missing now) todo
  sublist : s.missing.Sublist (t.missing now)

namespace Orderly

variable {now : Moment}
variable {t : Transfer}
variable {s : Schedule}
variable {peer : Endpoint}
variable {holder : Holder}
variable {earlier todo : List Endpoint}

theorem start
    (t : Transfer)
    (now : Moment)
    (todo : List Endpoint) :
    (t.unvisited now).Orderly now t todo :=
  ⟨Sound.start now t (t.missing now) todo,
    List.Sublist.refl _⟩

theorem nodup
    (h : s.Orderly now t todo)
    (hRegular : t.IsRegular) :
    s.missing.Nodup :=
  (Transfer.nodup_missing hRegular.wellFormed now).sublist
    h.sublist

theorem lt_of_mem
    (h : s.Orderly now t todo)
    (hRegular : t.IsRegular)
    (hCount : t.chunkCount ≤ 65536)
    {i : Nat}
    (hMem : i ∈ s.missing) :
    i < 65536 :=
  Nat.lt_of_lt_of_le
    (hRegular.lt_of_mem_missing (h.sublist.subset hMem)) hCount

/- A request names the chunks of a share. -/
theorem map_share
    (h : s.Orderly now t todo)
    (hRegular : t.IsRegular)
    (hCount : t.chunkCount ≤ 65536)
    (holder : Holder) :
    ((holder.share maxRequest s.missing).map
        UInt16.ofNat).map UInt16.toNat =
      holder.share maxRequest s.missing :=
  map_toNat_ofNat fun _ hMem =>
    h.lt_of_mem hRegular hCount
      ((holder.share_sublist _ _).subset hMem)

/- A peer still to be visited is as it was. -/
theorem get?_eq
    (h : s.Orderly now t (peer :: todo))
    (hPeer : s.transfer.peers.get? peer = some holder) :
    t.peers.get? peer = some holder :=
  (h.sound.untouched peer List.mem_cons_self).symm.trans hPeer

/- No answer is waited for from a peer that is visited. -/
theorem isDue
    (h : s.Orderly now t (peer :: todo))
    (hRegular : t.IsRegular)
    (hPeer : s.transfer.peers.get? peer = some holder)
    {i : Nat}
    {r : RequestRecord}
    (hMem : i ∈ s.missing)
    (hRecord : holder.record? i = some r) :
    r.isDue now = true := by
  rcases (Transfer.mem_missing_iff hRegular.wellFormed).mp
      (h.sublist.subset hMem) with ⟨chunk, -, -, hIdle⟩
  exact Transfer.isDue_of_not_isInFlight hIdle
    (h.get?_eq hPeer) hRecord

/- What is chosen and what is left are what was missing. -/
theorem sound_walk
    (h : s.Orderly now t todo)
    (hRegular : t.IsRegular)
    (hCount : t.chunkCount ≤ 65536)
    (holder : Holder) :
    (walk now s.missing (Walk.start holder)).1.Sound now
      holder s.missing
      (walk now s.missing (Walk.start holder)).2 :=
  Walk.sound_walk (h.nodup hRegular)
    (fun _ => h.lt_of_mem hRegular hCount)
    (Walk.Sound.start now holder s.missing)

/- Chunks that were to be asked for go back to their place. -/
theorem restore_eq
    (h : s.Orderly now t todo)
    (hRegular : t.IsRegular)
    (hCount : t.chunkCount ≤ 65536)
    (holder : Holder) :
    let result := walk now s.missing (Walk.start holder)
    restore (ranksOf t.chunkCount (t.missing now)) result.2
      result.1.assigned.toList = s.missing := by
  have hSound := h.sound_walk hRegular hCount holder
  apply restore_of_perm
    (Transfer.nodup_missing hRegular.wellFormed now)
    (fun _ => hRegular.lt_of_mem_missing) h.sublist
  exact List.perm_append_comm.trans hSound.perm

/- A visit makes the one decision for its peer. -/
theorem visit_eq
    (h : s.Orderly now t (peer :: todo))
    (hRegular : t.IsRegular)
    (hCount : t.chunkCount ≤ 65536) :
    s.visit now (ranksOf t.chunkCount (t.missing now)) peer =
      s.allot now peer := by
  cases hPeer : s.transfer.peers.get? peer with
  | none =>
      rw [allot_of_none hPeer]
      unfold visit
      rw [hPeer]
  | some holder =>
      have hStrikes : holder.strikes ≤ maxStrikes :=
        (hRegular.peer peer holder (h.get?_eq hPeer)).strikes_le
      rcases Walk.evicted_or_follows (h.nodup hRegular)
          (fun i hi r => h.isDue hRegular hPeer hi)
          hStrikes with ⟨hEvicted, hFollows⟩
      rcases Nat.lt_or_ge maxStrikes
          (holder.strikesWith maxRequest s.missing) with
        hLimit | hStays
      · rw [allot_of_evicted hPeer hLimit,
          visit_of_evicted hPeer rfl (hEvicted hLimit),
          h.restore_eq hRegular hCount]
        unfold Transfer.evict
        rw [hPeer]
        dsimp only
        rw [holder.ofIndices_held]
        rfl
      · have hEnd := hFollows hStays
        rw [allot_of_stays hPeer hStays,
          visit_of_walk hPeer rfl hEnd.evicted_eq,
          hEnd.holder_eq, hEnd.assigned_eq, hEnd.left_eq]
        rfl

/- A visit keeps the order. -/
theorem visit
    (h : s.Orderly now t (peer :: todo))
    (hRegular : t.IsRegular)
    (hCount : t.chunkCount ≤ 65536)
    (hNew : peer ∉ todo) :
    (s.visit now (ranksOf t.chunkCount (t.missing now))
      peer).Orderly now t todo where
  sound :=
    h.sound.visit hNew
      (Transfer.nodup_missing hRegular.wellFormed now)
      (fun _ hMem =>
        Nat.lt_of_lt_of_le (hRegular.lt_of_mem_missing hMem)
          hCount)
      (ranksOf t.chunkCount (t.missing now))
  sublist := by
    rw [h.visit_eq hRegular hCount]
    exact (sublist_allot s now peer).trans h.sublist

/- Some visits, one after another. -/
theorem of_foldl
    (h : s.Orderly now t (earlier ++ todo))
    (hRegular : t.IsRegular)
    (hCount : t.chunkCount ≤ 65536)
    (hNodup : (earlier ++ todo).Nodup) :
    (earlier.foldl
        (Schedule.visit now
          (ranksOf t.chunkCount (t.missing now)))
        s).Orderly now t todo ∧
      earlier.foldl
          (Schedule.visit now
            (ranksOf t.chunkCount (t.missing now))) s =
        earlier.foldl (Schedule.allot now) s := by
  induction earlier generalizing s with
  | nil => exact ⟨h, rfl⟩
  | cons peer earlier ih =>
      rw [List.cons_append] at h hNodup
      rw [List.nodup_cons] at hNodup
      rw [List.foldl_cons, List.foldl_cons,
        ← h.visit_eq hRegular hCount]
      exact ih (h.visit hRegular hCount hNodup.1) hNodup.2

/- The schedule whenever a peer is to be visited. -/
theorem of_visited
    {log : TransferLog}
    (hRegular : t.IsRegular)
    (hCount : t.chunkCount ≤ 65536)
    (hRanked : t.rankedPeers now log = earlier ++ todo) :
    (t.visited now earlier).Orderly now t todo ∧
      t.visited now earlier =
        earlier.foldl (Schedule.allot now) (t.unvisited now) := by
  have hNodup := t.nodup_rankedPeers now log
  rw [hRanked] at hNodup
  exact (start t now (earlier ++ todo)).of_foldl hRegular
    hCount hNodup

end Orderly

/-
  What a visit does.  It comes to the one decision; no chunk
  that it looks at is waited for; and if the peer is evicted
  the list is put back in the order that it had.
-/
structure FollowsAllotment
    (now : Moment)
    (ranks : Array Nat)
    (s : Schedule)
    (peer : Endpoint) : Prop where
  visit_eq : s.visit now ranks peer = s.allot now peer
  due :
    ∀ holder front index rest r,
      s.transfer.peers.get? peer = some holder →
        s.missing = front ++ index :: rest →
          (walk now front
              (Walk.start holder)).1.holder.record? index =
            some r →
            r.isDue now = true
  restored :
    ∀ holder,
      s.transfer.peers.get? peer = some holder →
        let result := walk now s.missing (Walk.start holder)
        result.1.evicted = true →
          restore ranks result.2 result.1.assigned.toList =
            s.missing

theorem Orderly.followsAllotment
    {now : Moment}
    {t : Transfer}
    {s : Schedule}
    {peer : Endpoint}
    {todo : List Endpoint}
    (h : s.Orderly now t (peer :: todo))
    (hRegular : t.IsRegular)
    (hCount : t.chunkCount ≤ 65536) :
    s.FollowsAllotment now
      (ranksOf t.chunkCount (t.missing now)) peer where
  visit_eq := h.visit_eq hRegular hCount
  due holder front index rest r hPeer hSplit hRecord := by
    have hNodup := h.nodup hRegular
    have hSmall : ∀ k ∈ s.missing, k < 65536 :=
      fun k hk => h.lt_of_mem hRegular hCount hk
    rw [hSplit] at hNodup hSmall
    have hNot : index ∉ front :=
      fun hMem =>
        (List.nodup_append.mp hNodup).2.2 index hMem index
          List.mem_cons_self rfl
    rw [Walk.record?_walk_of_not_mem
      (List.nodup_append.mp hNodup).1
      (fun k hk => hSmall k (List.mem_append_left _ hk)) hNot]
      at hRecord
    apply h.isDue hRegular hPeer ?_ hRecord
    rw [hSplit]
    exact List.mem_append_right _ List.mem_cons_self
  restored holder _ _ := h.restore_eq hRegular hCount holder

end Schedule

end PeerShare

------------------------------------------------------------
-- Schedules
------------------------------------------------------------

namespace PeerShare

namespace Transfer

/-
  The schedule is the allotment, and each of its visits
  makes the one decision.  The numbers of the chunks have to
  fit the requests.
-/
theorem schedule_eq_allotment
    {t : Transfer}
    (hRegular : t.IsRegular)
    (hCount : t.chunkCount ≤ 65536)
    (now : Moment)
    (log : TransferLog) :
    t.schedule now log = t.allotment now log ∧
      ∀ earlier peer later,
        t.rankedPeers now log = earlier ++ peer :: later →
          (t.visited now earlier).FollowsAllotment now
            (ranksOf t.chunkCount (t.missing now)) peer := by
  constructor
  · have hRanked :
        t.rankedPeers now log = t.rankedPeers now log ++ [] :=
      (List.append_nil _).symm
    have hVisited :=
      (Schedule.Orderly.of_visited hRegular hCount hRanked).2
    unfold allotment
    rw [← hVisited]
    rfl
  · intro earlier peer later hRanked
    exact (Schedule.Orderly.of_visited hRegular hCount
      hRanked).1.followsAllotment hRegular hCount

/-
  The first peer was asked in vain for two chunks.  Of three
  chunks it is to be asked for the first when the strikes
  for the others evict it, and the second peer is asked for
  all of them.
-/
theorem schedule_eq_allotment_of_two_peers :
    let log := TransferLog.start TransferLog.defaultWindow
    let peer : UInt16 → Endpoint := fun port => ⟨.loopback, port⟩
    let file : FileRecord :=
      ⟨"a", 40000, .ofBytes [],
        List.replicate 3 (.ofBytes [])⟩
    let events : List Session.Event :=
      [.request "a" 0,
        .start file "a" false [(peer 1, [0x60])] 0,
        .tick 0 log, .tick (Span.ofMillis 500) log,
        .tick (Span.ofMillis 1000) log,
        .tick (Span.ofMillis 1500) log,
        .applyPeers "a"
          [(peer 1, [0xE0]), (peer 2, [0xE0])]]
    let now := Span.ofMillis 2000
    ∃ t,
      ((Session.blank Disk.empty).run
          events).downloads.transfer? "a" = some t ∧
        t.rankedPeers now log = [peer 1, peer 2] ∧
        t.missing now = [0, 1, 2] ∧
        (t.schedule now log).1 = [(peer 2, [0, 1, 2])] ∧
        (t.schedule now log).2.evicted.get? (peer 1) =
          some ⟨#[true, true, true]⟩ ∧
        t.schedule now log = t.allotment now log := by
  intro log peer file events now
  have hEvaluated :
      let found :=
        ((Session.blank Disk.empty).run
          events).downloads.transfer? "a"
      found.map (fun t =>
          (t.chunkCount, t.rankedPeers now log,
            t.missing now)) =
          some (3, [peer 1, peer 2], [0, 1, 2]) ∧
        found.map (fun t =>
            ((t.schedule now log).1,
              (t.schedule now log).2.evicted.get? (peer 1))) =
          some
            ([(peer 2, [0, 1, 2])],
              some ⟨#[true, true, true]⟩) := by
    delta Session.run Session.after Downloads.tick
      Download.tick Transfer.tick Transfer.schedule
      Schedule.visit
    rw [Transfer.missing_eq_insertionSort,
      Transfer.rankedPeers_eq_insertionSort,
      restore_eq_insertionSort]
    decide +kernel
  rcases hEvaluated with ⟨hOrder, hSchedule⟩
  rcases Option.map_eq_some_iff.mp hOrder with
    ⟨t, hGet, hOrder⟩
  rw [hGet] at hSchedule
  simp only [Option.map_some, Option.some.injEq,
    Prod.mk.injEq] at hOrder hSchedule
  rcases hOrder with ⟨hCount, hRanked, hMissing⟩
  rcases hSchedule with ⟨hRequests, hEvicted⟩
  have hRegular :=
    (Session.isReachable_run_blank _ _).isRegular hGet
  have hSmall : t.chunkCount ≤ 65536 := by
    rw [hCount]
    decide
  exact ⟨t, hGet, hRanked, hMissing, hRequests, hEvicted,
    (schedule_eq_allotment hRegular hSmall now log).1⟩

end Transfer

end PeerShare

------------------------------------------------------------
-- Numbers that do not Fit
------------------------------------------------------------

namespace PeerShare

namespace Schedule

variable {now : Moment}
variable {s : Schedule}
variable {i : Nat}

/- Chunks that are not missing are asked for from no peer. -/
theorem record?_allot
    (hNot : i ∉ s.missing)
    (peer other : Endpoint)
    (holder' : Holder)
    (hOther :
      (s.allot now peer).transfer.peers.get? other =
        some holder') :
    ∃ holder,
      s.transfer.peers.get? other = some holder ∧
        holder'.record? i = holder.record? i := by
  by_cases hEq : other = peer
  · subst hEq
    rcases s.allot_cases now other with
      ⟨hPeer, hSame⟩ | ⟨holder, hPeer, ⟨-, hGone⟩ | ⟨-, hAsked⟩⟩
    · rw [hSame, hPeer] at hOther
      cases hOther
    · rw [hGone, get?_evict_self] at hOther
      cases hOther
    · rw [hAsked, get?_ask_self] at hOther
      cases hOther
      refine ⟨holder, hPeer, ?_⟩
      rw [Holder.record?_ask, if_neg]
      exact fun hMem =>
        hNot ((holder.share_sublist _ _).subset hMem)
  · rw [get?_allot_of_ne hEq] at hOther
    exact ⟨holder', hOther, rfl⟩

theorem record?_foldl_allot
    (hNot : i ∉ s.missing)
    (peers : List Endpoint)
    (other : Endpoint)
    (holder' : Holder)
    (hOther :
      (peers.foldl (Schedule.allot now)
        s).transfer.peers.get? other = some holder') :
    ∃ holder,
      s.transfer.peers.get? other = some holder ∧
        holder'.record? i = holder.record? i := by
  induction peers generalizing s with
  | nil => exact ⟨holder', hOther, rfl⟩
  | cons peer peers ih =>
      have hStill : i ∉ (s.allot now peer).missing :=
        fun hMem =>
          hNot ((sublist_allot s now peer).subset hMem)
      rcases ih hStill hOther with ⟨middle, hMiddle, hRecord⟩
      rcases record?_allot hNot peer other middle hMiddle with
        ⟨holder, hHolder, hBefore⟩
      exact ⟨holder, hHolder, hRecord.trans hBefore⟩

/- A peer with one chunk is asked for it, and stays. -/
theorem not_mem_allot_of_holdsOnly
    {peer : Endpoint}
    {holder : Holder}
    {r : RequestRecord}
    (hPeer : s.transfer.peers.get? peer = some holder)
    (hOnly : holder.HoldsOnly i r)
    (hTries : r.tries < maxTries)
    (hStrikes : holder.strikes ≤ maxStrikes)
    (hMem : i ∈ s.missing) :
    i ∉ (s.allot now peer).missing := by
  have hRecord : holder.record? i = some r := by
    rw [hOnly i, if_pos rfl]
  have hOthers : ∀ k, holder.isAskable k = true → k = i := by
    intro k hk
    apply Decidable.of_not_not
    intro hNe
    unfold Holder.isAskable at hk
    rw [hOnly k, if_neg hNe] at hk
    cases hk
  have hNone : holder.struck maxRequest s.missing = [] := by
    apply List.filter_eq_nil_iff.mpr
    intro k _ hSpent
    unfold Holder.isSpent at hSpent
    rw [hOnly k] at hSpent
    split at hSpent
    · exact Nat.not_le_of_lt hTries (by simpa using hSpent)
    · cases hSpent
  have hShare : i ∈ holder.share maxRequest s.missing := by
    have hAskable : i ∈ holder.askable s.missing :=
      List.mem_filter.mpr
        ⟨hMem, (Holder.isAskable_of_record hRecord hTries).1⟩
    rcases List.exists_cons_of_ne_nil
        (List.ne_nil_of_mem hAskable) with ⟨k, rest, hCons⟩
    have hHead : k ∈ holder.askable s.missing := by
      rw [hCons]
      exact List.mem_cons_self
    unfold Holder.share
    rw [hCons, hOthers k (List.mem_filter.mp hHead).2]
    exact List.mem_cons_self
  have hStays :
      holder.strikesWith maxRequest s.missing ≤
        maxStrikes := by
    unfold Holder.strikesWith
    rw [hNone]
    exact hStrikes
  rw [allot_of_stays hPeer hStays]
  unfold ask
  dsimp only
  rw [List.mem_filter]
  exact fun hLeft => of_decide_eq_true hLeft.2 hShare

end Schedule

namespace Transfer

variable {t : Transfer}
variable {now : Moment}
variable {log : TransferLog}

/-
  In an allotment the chunk that the first peer is asked for
  is not asked for once more, but the schedule asks the
  third peer for it.
-/
theorem IsWrapped.schedule_ne_allotment
    {first second third : Endpoint}
    (h : t.IsWrapped now first second third)
    (hRegular : t.IsRegular)
    (hLog : log.history = Table.empty) :
    t.schedule now log ≠ t.allotment now log := by
  intro hEq
  rcases h.first with ⟨h₁, hFirst, hOnly₁⟩
  rcases h.third with ⟨h₃, hThird, hOnly₃⟩
  have hRanked :
      t.rankedPeers now log = [first, second, third] :=
    (rankedPeers_of_unmeasured hLog).trans h.keys_eq
  have hNodup := t.nodup_rankedPeers now log
  rw [hRanked] at hNodup
  have hNe : third ≠ first := by
    rintro rfl
    simp at hNodup
  have hZero : 0 ∈ t.missing now := by
    rw [(t.perm_missing now).mem_iff,
      wanted_eq_range h.formed h.fresh h.isInFlight_eq,
      h.chunkCount_eq, List.mem_range]
    decide
  have hAsked :
      0 ∉ ((t.unvisited now).allot now first).missing :=
    Schedule.not_mem_allot_of_holdsOnly hFirst hOnly₁
      (by decide) (hRegular.peer first h₁ hFirst).strikes_le
      hZero
  -- The schedule notes the request, but no allotment does.
  have hLast := (h.schedule hLog).2
  rw [hEq] at hLast
  rcases lastRequest?_eq_some_iff.mp hLast with
    ⟨r, hRecord, hTime⟩
  rcases record?_eq_some_iff.mp hRecord with
    ⟨holder', hLater, hSome⟩
  unfold allotment at hLater
  rw [hRanked] at hLater
  rcases Schedule.record?_foldl_allot hAsked [second, third]
      third holder' hLater with ⟨holder, hHolder, hSame⟩
  rw [Schedule.get?_allot_of_ne hNe] at hHolder
  have hThere : t.peers.get? third = some holder := hHolder
  rw [hThird] at hThere
  cases hThere
  rw [hSame, hOnly₃ 0, if_pos rfl] at hSome
  cases hSome
  cases hTime

end Transfer

namespace Session

theorem transfer?_after_applyPeers
    {s : Session}
    {name : String}
    {t : Transfer}
    (hGet : s.downloads.transfer? name = some t)
    (peers : List (Endpoint × Bytes)) :
    (s.after (.applyPeers name peers)).downloads.transfer?
        name =
      some (t.applyPeers peers) := by
  unfold Session.after
  dsimp only
  rw [Downloads.transfer?_applyPeers, if_pos rfl, hGet,
    Option.map_some]

/-
  Of more than 65536 chunks two may share a number.  A peer
  that is evicted then gives back another chunk than it was
  asked for, and the peer behind it sees another list.
-/
theorem schedule_ne_allotment_of_shared_number :
    let peer : UInt16 → Endpoint := fun port => ⟨.loopback, port⟩
    let log := TransferLog.start TransferLog.defaultWindow
    let file : FileRecord :=
      ⟨"a", 1, .ofBytes [], List.replicate 65538 (.ofBytes [])⟩
    let events : List Event :=
      [.request "a" 0,
        .start file "a" false
          [(peer 2, Packing.ofIndices [65537])] 0,
        .tick 0 log, .tick 500000000 log,
        .tick 1000000000 log, .tick 1500000000 log,
        .tick 1500000000 log, .tick 1500000000 log,
        .applyPeers "a"
          [(peer 1, Packing.ofIndices [0]),
            (peer 2, Packing.ofIndices [65536, 65537]),
            (peer 3, Packing.ofIndices [0])]]
    ∃ t,
      ((blank Disk.empty).run events).downloads.transfer?
          "a" = some t ∧
        t.IsRegular ∧
        t.schedule 1500000000 log ≠
          t.allotment 1500000000 log := by
  intro peer log file events
  have hStart :=
    hasLone_awaiting (Nat.lt_succ_self 65537) (peer 2)
  have hAsked :=
    ((hStart.tick_asks 0 rfl (by decide) log).tick_asks
      500000000 rfl (by decide) log).tick_asks 1000000000 rfl
        (by decide) log
  have hStruck :=
    ((hAsked.tick_strikes 1500000000 rfl (by decide)
      (by decide) log).tick_strikes 1500000000 rfl (by decide)
        (by decide) log).tick_strikes 1500000000 rfl
          (by decide) (by decide) log
  rcases hStruck with ⟨t, hGet, hCount, hLone⟩
  have hWrapped :=
    Transfer.isWrapped_applyPeers hLone hCount 1500000000
      rfl (by decide)
  have hGet' :
      ((blank Disk.empty).run events).downloads.transfer?
          "a" =
        some
          (t.applyPeers
            [(peer 1, Packing.ofIndices [0]),
              (peer 2, Packing.ofIndices [65536, 65537]),
              (peer 3, Packing.ofIndices [0])]) :=
    transfer?_after_applyPeers hGet _
  have hRegular :=
    (isReachable_run_blank _ _).isRegular hGet'
  exact ⟨_, hGet', hRegular,
    hWrapped.schedule_ne_allotment hRegular rfl⟩

end Session

end PeerShare
