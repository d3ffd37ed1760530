import PeerShare.Proofs.Fetch.Scheduling
import PeerShare.Proofs.Fetch.Session

/-
  What is requested in a pass, and from whom.

  Key definitions include:
    * `Transfer.SafeRequests`

  Key theorems include:
    * `Transfer.safeRequests_tick`
    * `Downloads.filter_flatMap_tick`
    * `Downloads.filter_requests_tick`
    * `Session.safeRequests_of_isReachable`
-/

------------------------------------------------------------
-- One File
------------------------------------------------------------

namespace PeerShare

namespace Transfer

/-
  What the requests for one file keep to in a pass that
  leads from one state of its transfer to another.
-/
structure SafeRequests
    (t t' : Transfer)
    (now : Moment)
    (requests : List ChunkRequest) : Prop where
  /- A peer gets one request at most. -/
  nodup_peers : (requests.map (·.peer)).Nodup
  bounded :
    ∀ r ∈ requests, r.indices ≠ [] ∧ r.indices.length ≤ 100
  /- No chunk is requested twice, even from two peers. -/
  nodup_indices : (requests.flatMap (·.indices)).Nodup
  /- The requested number is that of a chunk to come. -/
  missing :
    ∀ r ∈ requests,
      ∀ index ∈ r.indices,
        ∃ chunk,
          t.chunks[index.toNat]? = some chunk ∧
            chunk.index = index.toNat ∧
            chunk.downloaded = false
  held :
    ∀ r ∈ requests,
      ∀ index ∈ r.indices,
        ∃ holder record,
          t.peers.get? r.peer = some holder ∧
            holder.record? index.toNat = some record ∧
            record.tries < 3
  /- No peer has been asked for it in the last half second. -/
  idle :
    ∀ r ∈ requests,
      ∀ index ∈ r.indices,
        ∀ peer holder record moment,
          t.peers.get? peer = some holder →
            holder.record? index.toNat = some record →
              record.lastRequested = some moment →
                Span.ofMillis 500 ≤ elapsed moment now
  standing :
    ∀ r ∈ requests,
      t.evicted.get? r.peer = none ∧
        t'.evicted.get? r.peer = none ∧
        ∃ holder, t'.peers.get? r.peer = some holder
  /- Just what is requested is noted as one more try. -/
  stamped :
    ∀ (peer : Endpoint) (holder' : Holder),
      t'.peers.get? peer = some holder' →
        ∃ holder,
          t.peers.get? peer = some holder ∧
            ∀ i,
              ((∃ r ∈ requests,
                  r.peer = peer ∧
                    ∃ index ∈ r.indices, index.toNat = i) →
                ∃ record,
                  holder.record? i = some record ∧
                    holder'.record? i =
                      some
                        { lastRequested := some now
                          tries := record.tries + 1 }) ∧
              ((¬ ∃ r ∈ requests,
                  r.peer = peer ∧
                    ∃ index ∈ r.indices, index.toNat = i) →
                holder'.record? i = holder.record? i)

/- A record that is due has no answer to wait for. -/
theorem le_elapsed_of_isDue
    {r : RequestRecord}
    {now moment : Moment}
    (h : r.isDue now = true)
    (hLast : r.lastRequested = some moment) :
    Span.ofMillis 500 ≤ elapsed moment now := by
  unfold RequestRecord.isDue at h
  rw [hLast] at h
  exact of_decide_eq_true h

end Transfer

/- The requests of a schedule as requests for a file. -/
def requestsFor
    (name : String)
    (requests : List (Endpoint × List UInt16)) :
    List ChunkRequest :=
  requests.map fun (peer, indices) => { peer, name, indices }

theorem mem_requestsFor_iff
    {name : String}
    {requests : List (Endpoint × List UInt16)}
    {r : ChunkRequest} :
    r ∈ requestsFor name requests ↔
      r.name = name ∧ (r.peer, r.indices) ∈ requests := by
  unfold requestsFor
  rw [List.mem_map]
  constructor
  · rintro ⟨pair, hMem, rfl⟩
    exact ⟨rfl, hMem⟩
  · rintro ⟨rfl, hMem⟩
    exact ⟨_, hMem, rfl⟩

theorem asks_iff
    {name : String}
    {requests : List (Endpoint × List UInt16)}
    {peer : Endpoint}
    {i : Nat} :
    Asks requests peer i ↔
      ∃ r ∈ requestsFor name requests,
        r.peer = peer ∧
          ∃ index ∈ r.indices, index.toNat = i := by
  constructor
  · rintro ⟨indices, hMem, hIndex⟩
    exact ⟨⟨peer, name, indices⟩,
      mem_requestsFor_iff.mpr ⟨rfl, hMem⟩, rfl,
      List.mem_map.mp hIndex⟩
  · rintro ⟨r, hr, rfl, hIndex⟩
    exact ⟨r.indices, (mem_requestsFor_iff.mp hr).2,
      List.mem_map.mpr hIndex⟩

namespace Schedule

namespace Sound

variable {now : Moment}
variable {t : Transfer}
variable {s : Schedule}

/- What is asked for was missing. -/
theorem mem_missing
    (h : s.Sound now t (t.missing now) [])
    {r : Endpoint × List UInt16}
    (hr : r ∈ s.requests)
    {index : UInt16}
    (hIndex : index ∈ r.2) :
    index.toNat ∈ t.missing now := by
  apply h.perm.mem_iff.mp
  apply List.mem_append_left
  exact List.mem_flatMap.mpr
    ⟨r, hr, List.mem_map_of_mem hIndex⟩

/- What is asked for is asked for once. -/
theorem nodup_indices
    (h : s.Sound now t (t.missing now) [])
    (hFormed : t.WellFormed)
    (name : String) :
    ((requestsFor name s.requests).flatMap
      (·.indices)).Nodup := by
  have hAll :
      allAsked s.requests =
        ((requestsFor name s.requests).flatMap
          (·.indices)).map UInt16.toNat := by
    unfold allAsked requestsFor
    rw [List.map_flatMap, List.flatMap_map]
  have hNodup : (allAsked s.requests).Nodup :=
    (List.nodup_append.mp
      (h.perm.nodup_iff.mpr
        (Transfer.nodup_missing hFormed now))).1
  rw [hAll] at hNodup
  exact hNodup.of_map _

/- The records of a peer that is left. -/
theorem stamped_iff
    (h : s.Sound now t (t.missing now) [])
    {peer : Endpoint}
    {holder' : Holder}
    (hPeer : s.transfer.peers.get? peer = some holder') :
    ∃ holder,
      t.peers.get? peer = some holder ∧
        ∀ i,
          (Asks s.requests peer i →
            ∃ record,
              holder.record? i = some record ∧
                holder'.record? i = some (record.stamp now)) ∧
          (¬ Asks s.requests peer i →
            holder'.record? i = holder.record? i) := by
  rcases h.stamped peer holder' hPeer with
    ⟨holder, hBefore, hRecords⟩
  refine ⟨holder, hBefore, ?_⟩
  intro i
  refine ⟨?_, (hRecords i).2⟩
  intro hAsks
  have hStamped := (hRecords i).1 hAsks
  rcases hAsks with ⟨indices, hMem, hIndex⟩
  rcases h.due _ hMem with ⟨asked, hAsked, hDue⟩
  rw [hBefore] at hAsked
  cases hAsked
  rcases hDue i hIndex with ⟨record, hRecord, -, -⟩
  rw [hRecord] at hStamped
  exact ⟨record, hRecord, hStamped⟩

/- A sound schedule gives requests as they should be. -/
theorem safeRequests
    (h : s.Sound now t (t.missing now) [])
    (hFormed : t.WellFormed)
    (hSame : t.SameProgress s.transfer)
    (name : String) :
    t.SafeRequests s.transfer now
      (requestsFor name s.requests) where
  nodup_peers := by
    unfold requestsFor
    rw [List.map_map]
    exact h.nodup_peers
  bounded r hr := h.bounded _ (mem_requestsFor_iff.mp hr).2
  nodup_indices := h.nodup_indices hFormed name
  missing r hr index hIndex := by
    have hMissing :=
      h.mem_missing (mem_requestsFor_iff.mp hr).2 hIndex
    rcases (Transfer.mem_missing_iff hFormed).mp hMissing with
      ⟨chunk, hGet, hFresh, -⟩
    exact ⟨chunk, hGet, hFormed.index_eq _ chunk hGet, hFresh⟩
  held r hr index hIndex := by
    rcases h.due _ (mem_requestsFor_iff.mp hr).2 with
      ⟨holder, hHolder, hDue⟩
    rcases hDue _ (List.mem_map_of_mem hIndex) with
      ⟨record, hRecord, -, hTries⟩
    exact ⟨holder, record, hHolder, hRecord, hTries⟩
  idle r hr index hIndex := by
    intro peer holder record moment hPeer hRecord hLast
    have hMissing :=
      h.mem_missing (mem_requestsFor_iff.mp hr).2 hIndex
    rcases (Transfer.mem_missing_iff hFormed).mp hMissing with
      ⟨-, -, -, hIdle⟩
    exact Transfer.le_elapsed_of_isDue
      (Transfer.isDue_of_not_isInFlight hIdle hPeer hRecord)
      hLast
  standing r hr := by
    have hMem := (mem_requestsFor_iff.mp hr).2
    rcases h.due _ hMem with ⟨before, hBefore, -⟩
    rcases h.standing _ hMem with ⟨holder, hHolder⟩
    have hApart := hSame.keeps_apart hFormed.apart
    refine ⟨?_, ?_, holder, hHolder⟩
    · rcases hFormed.apart r.peer with hNone | hNone
      · rw [hBefore] at hNone
        cases hNone
      · exact hNone
    · rcases hApart r.peer with hNone | hNone
      · rw [hHolder] at hNone
        cases hNone
      · exact hNone
  stamped peer holder' hPeer := by
    rcases h.stamped_iff hPeer with
      ⟨holder, hBefore, hRecords⟩
    refine ⟨holder, hBefore, ?_⟩
    intro i
    rw [← asks_iff]
    exact hRecords i

end Sound

end Schedule

namespace Transfer

/- Only peers and chunks of the earlier state matter. -/
theorem SafeRequests.of_eq
    {t refreshed t' : Transfer}
    {now : Moment}
    {requests : List ChunkRequest}
    (h : refreshed.SafeRequests t' now requests)
    (hChunks : refreshed.chunks = t.chunks)
    (hPeers : refreshed.peers = t.peers)
    (hEvicted : refreshed.evicted = t.evicted) :
    t.SafeRequests t' now requests := by
  have hMissing := h.missing
  have hHeld := h.held
  have hIdle := h.idle
  have hStanding := h.standing
  have hStamped := h.stamped
  rw [hChunks] at hMissing
  rw [hPeers] at hHeld hIdle hStamped
  rw [hEvicted] at hStanding
  exact ⟨h.nodup_peers, h.bounded, h.nodup_indices, hMissing,
    hHeld, hIdle, hStanding, hStamped⟩

/- The requests of a pass over one transfer. -/
theorem safeRequests_tick
    {t : Transfer}
    (hFormed : t.WellFormed)
    (hCount : t.chunkCount ≤ 65536)
    (hComplete : t.isComplete = false)
    (now : Moment)
    (log : TransferLog) :
    ∃ t',
      (t.tick now log).2 = some t' ∧
        t.SafeRequests t' now (t.tick now log).1.requests := by
  rcases @tick_of_not_isComplete t now log hComplete with
    ⟨refreshed, hSame, hPeers, hEvicted, hRequests, -, hRest⟩
  have hRefreshed := hFormed.of_sameProgress hSame
  rw [← hSame.chunkCount_eq] at hCount
  rcases sound_schedule hRefreshed hCount now log with
    ⟨left, hSound⟩
  refine ⟨_, hRest, ?_⟩
  rw [hRequests]
  have hSafe :=
    hSound.safeRequests hRefreshed
      (sameProgress_schedule refreshed now log) t.name
  exact hSafe.of_eq hSame.chunks_eq hPeers hEvicted

/- All requests of a pass are for the file. -/
theorem name_of_mem_requests_tick
    {t : Transfer}
    {now : Moment}
    {log : TransferLog}
    {r : ChunkRequest}
    (h : r ∈ (t.tick now log).1.requests) :
    t.isComplete = false ∧ r.name = t.name := by
  cases hComplete : t.isComplete with
  | true =>
      rw [tick_of_isComplete hComplete] at h
      cases h
  | false =>
      rcases @tick_of_not_isComplete t now log hComplete with
        ⟨refreshed, -, -, -, hRequests, -, -⟩
      rw [hRequests] at h
      rcases List.mem_map.mp h with ⟨pair, -, rfl⟩
      exact ⟨rfl, rfl⟩

end Transfer

end PeerShare

------------------------------------------------------------
-- All Files
------------------------------------------------------------

namespace PeerShare

/- What only one entry adds to is what that entry adds. -/
theorem flatMap_of_nodup
    {β γ : Type}
    {entries : List (String × β)}
    {f : String × β → List γ}
    {e : String × β}
    (hNodup : (entries.map Prod.fst).Nodup)
    (hMem : e ∈ entries)
    (hOthers : ∀ e' ∈ entries, e'.1 ≠ e.1 → f e' = []) :
    entries.flatMap f = f e := by
  induction entries with
  | nil => cases hMem
  | cons first entries ih =>
      rw [List.map_cons, List.nodup_cons] at hNodup
      rw [List.flatMap_cons]
      have hTail :
          ∀ e' ∈ entries, e'.1 ≠ e.1 → f e' = [] :=
        fun e' he' => hOthers e' (List.mem_cons_of_mem _ he')
      rcases List.mem_cons.mp hMem with rfl | hRest
      · have hNone : entries.flatMap f = [] := by
          apply List.flatMap_eq_nil_iff.mpr
          intro e' he'
          apply hTail e' he'
          intro hEq
          exact hNodup.1
            (hEq ▸ List.mem_map_of_mem he')
        rw [hNone, List.append_nil]
      · have hFirst : f first = [] := by
          apply hOthers first List.mem_cons_self
          intro hEq
          exact hNodup.1
            (hEq ▸ List.mem_map_of_mem hRest)
        rw [hFirst, List.nil_append]
        exact ih hNodup.2 hRest hTail

namespace Downloads

/-
  Of all that a pass decides, what is about one file is what
  the pass over its transfer decides.
-/
theorem filter_flatMap_tick
    {γ : Type}
    {d : Downloads}
    {name : String}
    {t : Transfer}
    {now : Moment}
    {log : TransferLog}
    (part : Pass → List γ)
    (isAbout : γ → Bool)
    (hNothing : part Pass.nothing = [])
    (hOwn :
      ∀ u : Transfer,
        ∀ x ∈ part (u.tick now log).1,
          isAbout x = decide (u.name = name))
    (hNames :
      ∀ other u, d.transfer? other = some u → u.name = other)
    (hGet : d.transfer? name = some t) :
    (d.files.entries.flatMap fun entry =>
        part (entry.2.tick now log).1).filter isAbout =
      part (t.tick now log).1 := by
  have hEntry := transfer?_eq_some_iff.mp hGet
  rw [List.filter_flatMap,
    flatMap_of_nodup (Table.nodup_keys d.files)
      (Table.mem_entries_iff.mpr hEntry)]
  · apply List.filter_eq_self.mpr
    intro x hx
    rw [hOwn t x hx]
    exact decide_eq_true (hNames name t hGet)
  · rintro ⟨other, download⟩ hMem hOther
    apply List.filter_eq_nil_iff.mpr
    intro x hx
    cases download with
    | awaiting =>
        have hNone : x ∈ part Pass.nothing := hx
        rw [hNothing] at hNone
        cases hNone
    | fetching u =>
        have hOtherGet :=
          transfer?_eq_some_iff.mpr (Table.mem_entries_iff.mp hMem)
        rw [hOwn u x hx, hNames other u hOtherGet]
        simpa using hOther

/- The requests for a file are those of its transfer. -/
theorem filter_requests_tick
    {d : Downloads}
    {name : String}
    {t : Transfer}
    (hNames :
      ∀ other u, d.transfer? other = some u → u.name = other)
    (hGet : d.transfer? name = some t)
    (now : Moment)
    (log : TransferLog) :
    (d.tick now log).1.requests.filter (·.name = name) =
      (t.tick now log).1.requests := by
  rw [requests_tick]
  refine filter_flatMap_tick (·.requests) _ rfl ?_ hNames hGet
  intro u r hr
  rw [(Transfer.name_of_mem_requests_tick hr).2]

end Downloads

namespace Session

/-
  What is requested in a pass.  Requests are only made for
  files that are fetched and not complete, and those for one
  file keep to `Transfer.SafeRequests`.
-/
theorem safeRequests_of_isReachable
    {s : Session}
    (hReachable : s.IsReachable)
    (hCount :
      ∀ name t,
        s.downloads.transfer? name = some t →
          t.chunkCount ≤ 65536)
    (now : Moment)
    (log : TransferLog) :
    let pass := (s.downloads.tick now log).1
    let later := (s.downloads.tick now log).2
    (∀ r ∈ pass.requests,
        ∃ t,
          s.downloads.transfer? r.name = some t ∧
            t.isComplete = false) ∧
      ∀ name t,
        s.downloads.transfer? name = some t →
          t.isComplete = false →
            ∃ t',
              later.transfer? name = some t' ∧
                t.SafeRequests t' now
                  (pass.requests.filter (·.name = name)) := by
  intro pass later
  have hNames :
      ∀ name t,
        s.downloads.transfer? name = some t → t.name = name :=
    fun name t hGet => (hReachable.wellFormed hGet).1
  constructor
  · intro r hr
    unfold pass at hr
    rw [Downloads.requests_tick] at hr
    rcases List.mem_flatMap.mp hr with
      ⟨⟨name, download⟩, hEntry, hMem⟩
    cases download with
    | awaiting => cases hMem
    | fetching t =>
        have hGet :=
          Downloads.transfer?_eq_some_iff.mpr
            (Table.mem_entries_iff.mp hEntry)
        rcases Transfer.name_of_mem_requests_tick hMem with
          ⟨hComplete, hName⟩
        rw [hName, hNames name t hGet]
        exact ⟨t, hGet, hComplete⟩
  · intro name t hGet hComplete
    have hFormed := (hReachable.wellFormed hGet).2
    rcases Transfer.safeRequests_tick hFormed
        (hCount name t hGet) hComplete now log with
      ⟨t', hRest, hSafe⟩
    refine ⟨t', ?_, ?_⟩
    · unfold later
      rw [Downloads.transfer?_tick, hGet]
      exact hRest
    · unfold pass
      rw [Downloads.filter_requests_tick hNames hGet]
      exact hSafe

/-
  Of four chunks two are waited for.  The rarer of the other
  two is left to the second peer, since the first has the
  one that both of them hold.
-/
theorem safeRequests_of_two_peers :
    let log := TransferLog.start TransferLog.defaultWindow
    let peer : UInt16 → Endpoint := fun port => ⟨.loopback, port⟩
    let file : FileRecord :=
      ⟨"a", 60000, .ofBytes [],
        List.replicate 4 (.ofBytes [])⟩
    let s :=
      (awaiting "a").run
        [.start file "a" false [(peer 1, [0xC0])] 0,
          .tick 0 log,
          .applyPeers "a"
            [(peer 1, [0xE0]), (peer 2, [0x70])]]
    let now := Span.ofMillis 100
    let tick := s.downloads.tick now log
    tick.1.requests =
        [⟨peer 1, "a", [2]⟩, ⟨peer 2, "a", [3]⟩] ∧
      ∃ t t',
        s.downloads.transfer? "a" = some t ∧
          tick.2.transfer? "a" = some t' ∧
          t.SafeRequests t' now tick.1.requests := by
  intro log peer file s now tick
  have hEvaluated :
      tick.1.requests =
          [⟨peer 1, "a", [2]⟩, ⟨peer 2, "a", [3]⟩] ∧
        s.downloads.files.keys = ["a"] ∧
        (s.downloads.transfer? "a").map
            (fun t => (t.isComplete, t.chunkCount)) =
          some (false, 4) := by
    dsimp only [tick, s]
    delta run after Downloads.tick Download.tick Transfer.tick
      Transfer.schedule Schedule.visit
    rw [Transfer.missing_eq_insertionSort,
      Transfer.rankedPeers_eq_insertionSort,
      restore_eq_insertionSort]
    decide +kernel
  have hReachable : s.IsReachable :=
    (isReachable_awaiting "a").run _
  have hTick : s.downloads.tick now log = tick := rfl
  clear_value tick s
  rcases hEvaluated with ⟨hRequests, hKeys, hTransfer⟩
  rcases Option.map_eq_some_iff.mp hTransfer with
    ⟨t, hGet, hPair⟩
  rcases Prod.mk.inj hPair with ⟨hIncomplete, hFour⟩
  have hCount :
      ∀ name t,
        s.downloads.transfer? name = some t →
          t.chunkCount ≤ 65536 := by
    intro name u hOther
    have hMem : name ∈ s.downloads.files.keys :=
      Table.mem_keys_iff.mpr
        ⟨_, Downloads.transfer?_eq_some_iff.mp hOther⟩
    rw [hKeys] at hMem
    rw [List.mem_singleton.mp hMem, hGet] at hOther
    cases hOther
    rw [hFour]
    decide
  rcases safeRequests_of_isReachable hReachable hCount now log
    with ⟨-, hFiles⟩
  rcases hFiles "a" t hGet hIncomplete with
    ⟨t', hLater, hOwn⟩
  have hAll :
      tick.1.requests.filter (·.name = "a") =
        tick.1.requests := by
    rw [hRequests]
    decide
  rw [hTick] at hLater hOwn
  rw [hAll] at hOwn
  exact ⟨hRequests, t, t', hGet, hLater, hOwn⟩

end Session

end PeerShare
