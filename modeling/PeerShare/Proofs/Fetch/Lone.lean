import PeerShare.Proofs.Fetch.Records
import PeerShare.Proofs.Fetch.Requests
import PeerShare.Proofs.Fetch.Visits

/-
  Files with a single peer, which holds a single chunk.

  In each pass the peer is asked for the chunk, until it was
  asked three times; after that it gets a strike in each
  pass.  The number of chunks does not matter.

  Key definitions include:
    * `Transfer.IsLone`
    * `Session.HasLone`

  Key theorems include:
    * `Transfer.IsLone.tick_asks`
    * `Transfer.IsLone.tick_strikes`
    * `Session.hasLone_start`
-/

------------------------------------------------------------
-- Reports of Listed Chunks
------------------------------------------------------------

namespace PeerShare

namespace Holder

theorem record?_report_ofIndices
    (h : Holder)
    (indices : List Nat)
    (n i : Nat) :
    (h.report
        (ChunkSet.ofBytes (Packing.ofIndices indices)
          n)).record? i =
      if i ∈ indices ∧ i < n then
        some ((h.record? i).getD RequestRecord.fresh)
      else none := by
  rw [record?_report, ChunkSet.has_ofBytes]
  simp only [Packing.mem_toIndices_ofIndices,
    decide_eq_true_eq]

theorem strikes_report
    (h : Holder)
    (chunks : ChunkSet) :
    (h.report chunks).strikes = h.strikes :=
  rfl

theorem holdsOnly_report
    {index n : Nat}
    (h : index < n) :
    (fresh.report
      (ChunkSet.ofBytes (Packing.ofIndices [index])
        n)).HoldsOnly index RequestRecord.fresh := by
  intro i
  rw [record?_report_ofIndices]
  by_cases hi : i = index
  · rw [if_pos ⟨hi ▸ List.mem_cons_self, hi ▸ h⟩, if_pos hi]
    rfl
  · rw [if_neg hi, if_neg (by simp [hi])]

end Holder

end PeerShare

------------------------------------------------------------
-- One Peer with One Chunk
------------------------------------------------------------

namespace PeerShare

namespace Transfer

/-
  A transfer of a file of which no chunk has arrived, with
  one peer, which holds one chunk and was never evicted.
-/
structure IsLone
    (t : Transfer)
    (peer : Endpoint)
    (index : Nat)
    (r : RequestRecord)
    (strikes : Nat) : Prop where
  formed : t.WellFormed
  lt_chunkCount : index < t.chunkCount
  fresh :
    ∀ (i : Nat) (chunk : ChunkEntry),
      t.chunks[i]? = some chunk → chunk.downloaded = false
  downloaded_eq : t.downloaded = 0
  evicted_eq : t.evicted = Table.empty
  exists_holder :
    ∃ holder,
      t.peers = Table.empty.insert peer holder ∧
        holder.HoldsOnly index r ∧ holder.strikes = strikes

theorem chunkCount_start
    (file : FileRecord)
    (path : String)
    (now : Moment) :
    (Transfer.start file path now).chunkCount =
      file.chunkDigests.length := by
  unfold Transfer.start freshChunks chunkCount
  simp

theorem rankedPeers_of_lone
    {t : Transfer}
    {peer : Endpoint}
    {holder : Holder}
    (h : t.peers = Table.empty.insert peer holder)
    (now : Moment)
    (log : TransferLog) :
    t.rankedPeers now log = [peer] := by
  have hPerm := t.perm_rankedPeers now log
  rw [h] at hPerm
  exact List.perm_singleton.mp hPerm

namespace IsLone

variable {t t' : Transfer}
variable {peer : Endpoint}
variable {index : Nat}
variable {r r' : RequestRecord}
variable {strikes strikes' : Nat}
variable {now : Moment}

theorem isComplete_eq
    (h : t.IsLone peer index r strikes) :
    t.isComplete = false := by
  unfold isComplete
  rw [h.downloaded_eq]
  have hPos := Nat.zero_lt_of_lt h.lt_chunkCount
  simpa using (Nat.ne_of_lt hPos)

theorem record?_eq
    (h : t.IsLone peer index r strikes) :
    t.record? peer index = some r := by
  rcases h.exists_holder with ⟨holder, hPeers, hOnly, -⟩
  unfold record?
  rw [hPeers, Table.get?_insert_self, Option.bind_some,
    hOnly index, if_pos rfl]

theorem of_sameProgress
    (h : t.IsLone peer index r strikes)
    (hSame : t.SameProgress t')
    (hEvicted : t'.evicted = t.evicted)
    (hHolder :
      ∃ holder,
        t'.peers = Table.empty.insert peer holder ∧
          holder.HoldsOnly index r' ∧
          holder.strikes = strikes') :
    t'.IsLone peer index r' strikes' where
  formed := h.formed.of_sameProgress hSame
  lt_chunkCount := by
    rw [hSame.chunkCount_eq]
    exact h.lt_chunkCount
  fresh := by
    rw [hSame.chunks_eq]
    exact h.fresh
  downloaded_eq := hSame.downloaded_eq.trans h.downloaded_eq
  evicted_eq := hEvicted.trans h.evicted_eq
  exists_holder := hHolder

/- A new file with one peer, which has one chunk. -/
theorem start
    (file : FileRecord)
    (path : String)
    (now : Moment)
    (peer : Endpoint)
    (hIndex : index < file.chunkDigests.length) :
    ((Transfer.start file path now).applyPeers
      [(peer, Packing.ofIndices [index])]).IsLone peer index
        RequestRecord.fresh 0 := by
  have hCount := chunkCount_start file path now
  have hSame :=
    (Transfer.start file path now).sameProgress_applyPeers
      [(peer, Packing.ofIndices [index])]
  refine ⟨(wellFormed_start file path now).of_sameProgress hSame,
    ?_, ?_, hSame.downloaded_eq, rfl, ?_⟩
  · rw [hSame.chunkCount_eq, hCount]
    exact hIndex
  · rw [hSame.chunks_eq]
    intro i chunk hChunk
    unfold Transfer.start at hChunk
    dsimp only at hChunk
    rw [getElem?_freshChunks, Option.map_eq_some_iff] at hChunk
    rcases hChunk with ⟨digest, -, rfl⟩
    rfl
  · rw [← hCount] at hIndex
    exact ⟨_, rfl, Holder.holdsOnly_report hIndex, rfl⟩

theorem mem_missing
    (h : t.IsLone peer index r strikes)
    (hDue : r.isDue now = true) :
    index ∈ t.missing now := by
  rw [mem_missing_iff h.formed]
  have hChunk := Array.getElem?_eq_getElem h.lt_chunkCount
  refine ⟨_, hChunk, h.fresh index _ hChunk, ?_⟩
  rcases h.exists_holder with ⟨holder, hPeers, hOnly, -⟩
  unfold isInFlight
  rw [hPeers, List.any_eq_false]
  intro other hOther
  have hEq : other = holder := List.mem_singleton.mp hOther
  rw [hEq, hOnly.isAwaiting_eq hDue]
  exact Bool.false_ne_true

/- A pass that does not evict the peer. -/
theorem exists_tick
    (h : t.IsLone peer index r strikes)
    (hDue : r.isDue now = true)
    (asked : Holder → Holder)
    (assigned : Array UInt16)
    (hWalk :
      ∀ (holder : Holder) (list : List Nat),
        holder.HoldsOnly index r →
          holder.strikes = strikes →
            index ∈ list →
              list.Nodup →
                ∃ passed left,
                  walk now list (Walk.start holder) =
                    ({ holder := asked holder
                       assigned, passed, evicted := false },
                      left))
    (hAsked :
      ∀ holder : Holder,
        holder.HoldsOnly index r →
          holder.strikes = strikes →
            (asked holder).HoldsOnly index r' ∧
              (asked holder).strikes = strikes')
    (log : TransferLog) :
    ∃ t',
      (t.tick now log).2 = some t' ∧
        t'.IsLone peer index r' strikes' ∧
        t'.chunkCount = t.chunkCount ∧
        (t.tick now log).1.requests =
          requestsFor t.name
            (withRequest [] peer assigned.toList) := by
  rcases @tick_of_not_isComplete t now log h.isComplete_eq with
    ⟨t₀, hSame, hPeers₀, hEvicted, hRequests, -, hRest⟩
  rcases h.exists_holder with
    ⟨holder, hPeers, hOnly, hStrikes⟩
  rw [← hPeers₀] at hPeers
  have hLone :=
    h.of_sameProgress hSame hEvicted
      ⟨holder, hPeers, hOnly, hStrikes⟩
  rcases hWalk holder (t₀.missing now) hOnly hStrikes
      (hLone.mem_missing hDue) (nodup_missing hLone.formed now)
    with ⟨passed, left, hVisit⟩
  have hPeer : t₀.peers.get? peer = some holder := by
    rw [hPeers]
    exact Table.get?_insert_self _ _ _
  have hSchedule :
      t₀.schedule now log =
        (withRequest [] peer assigned.toList,
          { t₀ with
            peers :=
              Table.empty.insert peer (asked holder) }) := by
    unfold schedule
    rw [rankedPeers_of_lone hPeers]
    dsimp only
    rw [List.foldl_cons, List.foldl_nil,
      Schedule.visit_of_walk hPeer hVisit rfl]
    dsimp only
    rw [hPeers, Table.insert_insert_self]
  refine ⟨_, hRest, ?_, ?_, ?_⟩
  · rw [hSchedule]
    have hProgress := hSame.trans (sameProgress_schedule t₀ now log)
    rw [hSchedule] at hProgress
    exact h.of_sameProgress hProgress hEvicted
      ⟨_, rfl, hAsked holder hOnly hStrikes⟩
  · exact (sameProgress_schedule t₀ now log).chunkCount_eq.trans
      hSame.chunkCount_eq
  · rw [hRequests, hSchedule]
    rfl

/- The peer is asked for its chunk. -/
theorem tick_asks
    (h : t.IsLone peer index r strikes)
    (hDue : r.isDue now = true)
    (hTries : r.tries < maxTries)
    (log : TransferLog) :
    ∃ t',
      (t.tick now log).2 = some t' ∧
        t'.IsLone peer index (r.stamp now) strikes ∧
        t'.chunkCount = t.chunkCount ∧
        (t.tick now log).1.requests =
          [{ peer, name := t.name
             indices := [UInt16.ofNat index] }] := by
  refine h.exists_tick hDue (fun holder => holder.stamp index r now)
    #[UInt16.ofNat index] ?_ ?_ log
  · intro holder list hOnly _ hMem _
    rcases Walk.exists_walk_of_holdsOnly hOnly hDue hTries
      hMem with ⟨front, rest, -, hWalk⟩
    exact ⟨_, _, hWalk⟩
  · intro holder hOnly hStrikes
    exact ⟨hOnly.stamp now, hStrikes⟩

/- The peer was asked too often, and gets a strike. -/
theorem tick_strikes
    (h : t.IsLone peer index r strikes)
    (hDue : r.isDue now = true)
    (hTries : maxTries ≤ r.tries)
    (hStrikes : strikes < maxStrikes)
    (log : TransferLog) :
    ∃ t',
      (t.tick now log).2 = some t' ∧
        t'.IsLone peer index r (strikes + 1) ∧
        t'.chunkCount = t.chunkCount ∧
        (t.tick now log).1.requests = [] := by
  refine h.exists_tick hDue Holder.strike #[] ?_ ?_ log
  · intro holder list hOnly hEq hMem hNodup
    exact ⟨_, _, Walk.walk_of_spent hOnly hDue hTries
      (hEq ▸ hStrikes) hMem hNodup⟩
  · intro holder hOnly hEq
    exact ⟨hOnly, congrArg (· + 1) hEq⟩

end IsLone

end Transfer

end PeerShare

------------------------------------------------------------
-- Sessions
------------------------------------------------------------

namespace PeerShare

namespace Session

/- Whether a file of a session has one peer and chunk. -/
def HasLone
    (s : Session)
    (name : String)
    (chunkCount : Nat)
    (peer : Endpoint)
    (index : Nat)
    (r : RequestRecord)
    (strikes : Nat) : Prop :=
  ∃ t,
    s.downloads.transfer? name = some t ∧
      t.chunkCount = chunkCount ∧
      t.IsLone peer index r strikes

variable {s : Session}
variable {name : String}
variable {n : Nat}
variable {peer : Endpoint}
variable {index : Nat}
variable {r : RequestRecord}
variable {strikes : Nat}

theorem transfer?_after_tick
    {t t' : Transfer}
    {now : Moment}
    {log : TransferLog}
    (hGet : s.downloads.transfer? name = some t)
    (hTick : (t.tick now log).2 = some t') :
    (s.after (.tick now log)).downloads.transfer? name =
      some t' := by
  unfold Session.after
  dsimp only
  rw [Downloads.transfer?_tick, hGet]
  exact hTick

theorem hasLone_start
    (hAwaiting : s.downloads.isAwaiting name = true)
    (size : UInt64)
    (digest : Digest)
    (digests : List Digest)
    (path : String)
    (peer : Endpoint)
    (hIndex : index < digests.length)
    (now : Moment) :
    (s.after
      (.start ⟨name, size, digest, digests⟩ path false
        [(peer, Packing.ofIndices [index])] now)).HasLone name
      digests.length peer index RequestRecord.fresh 0 := by
  have hLone :=
    Transfer.IsLone.start ⟨name, size, digest, digests⟩ path
      now peer hIndex
  refine ⟨_, ?_, ?_, hLone⟩
  · unfold Session.after start
    dsimp only
    rw [if_neg Bool.false_ne_true]
    dsimp only
    rw [Downloads.transfer?_start]
    exact if_pos ⟨rfl, hAwaiting⟩
  · rw [(Transfer.sameProgress_applyPeers _ _).chunkCount_eq,
      Transfer.chunkCount_start]

/- A file of many chunks, one of which its peer holds. -/
theorem hasLone_awaiting
    (hIndex : index < n)
    (peer : Endpoint) :
    ((awaiting "a").after
      (.start
        ⟨"a", 1, .ofBytes [], List.replicate n (.ofBytes [])⟩
        "a" false [(peer, Packing.ofIndices [index])] 0)).HasLone
      "a" n peer index RequestRecord.fresh 0 := by
  have hAwaiting :
      (awaiting "a").downloads.isAwaiting "a" = true :=
    rfl
  have hLone :=
    hasLone_start hAwaiting 1 (.ofBytes [])
      (List.replicate n (.ofBytes [])) "a" peer
      (hIndex.trans_eq List.length_replicate.symm) 0
  rw [List.length_replicate] at hLone
  exact hLone

/- The peer is asked for its chunk. -/
theorem HasLone.tick_asks
    (h : s.HasLone name n peer index r strikes)
    (now : Moment)
    (hDue : r.isDue now = true)
    (hTries : r.tries < maxTries)
    (log : TransferLog) :
    (s.after (.tick now log)).HasLone name n peer index
      (r.stamp now) strikes := by
  rcases h with ⟨t, hGet, hCount, hLone⟩
  rcases hLone.tick_asks hDue hTries log with
    ⟨t', hTick, hLone', hSame, -⟩
  exact ⟨t', transfer?_after_tick hGet hTick,
    hSame.trans hCount, hLone'⟩

/- The peer gets a strike. -/
theorem HasLone.tick_strikes
    (h : s.HasLone name n peer index r strikes)
    (now : Moment)
    (hDue : r.isDue now = true)
    (hTries : maxTries ≤ r.tries)
    (hStrikes : strikes < maxStrikes)
    (log : TransferLog) :
    (s.after (.tick now log)).HasLone name n peer index r
      (strikes + 1) := by
  rcases h with ⟨t, hGet, hCount, hLone⟩
  rcases hLone.tick_strikes hDue hTries hStrikes log with
    ⟨t', hTick, hLone', hSame, -⟩
  exact ⟨t', transfer?_after_tick hGet hTick,
    hSame.trans hCount, hLone'⟩

end Session

end PeerShare
