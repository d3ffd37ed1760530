import PeerShare.Proofs.Fetch.Completion
import PeerShare.Proofs.Fetch.Origins
import PeerShare.Proofs.Fetch.Requests

/-
  A peer that was evicted stays out until it is said to hold
  other chunks than it held when it was evicted.

  Sets of chunks are compared as packed flags are read: what
  counts is which of the chunks of the file are set, however
  many bytes there are and whatever stands past the last
  chunk.

  Key definitions include:
    * `ChunkSet.IsReportedBy`
    * `Transfer.IsOut`
    * `Transfer.HasRejoined`

  Key theorems include:
    * `ChunkSet.ofBytes_eq_iff`
    * `Transfer.IsOut.applyPeers`
    * `Transfer.IsOut.hasRejoined`
    * `Session.evicted_until_other_chunks`
-/

------------------------------------------------------------
-- Reported Sets
------------------------------------------------------------

namespace PeerShare

namespace ChunkSet

/- Whether packed flags are set for just the given chunks. -/
def IsReportedBy
    (s : ChunkSet)
    (bitfield : Bytes) : Prop :=
  ∀ i < s.chunkCount,
    i ∈ Packing.toIndices bitfield ↔ s.has i = true

theorem ofBytes_eq_iff
    {s : ChunkSet}
    {bitfield : Bytes} :
    ofBytes bitfield s.chunkCount = s ↔
      s.IsReportedBy bitfield := by
  constructor
  · intro hEq i hi
    have hHas := has_ofBytes bitfield s.chunkCount i
    rw [hEq] at hHas
    rw [hHas, decide_eq_true_iff]
    exact (and_iff_left hi).symm
  · intro h
    apply eq_of_has_eq (chunkCount_ofBytes _ _)
    intro i
    rw [has_ofBytes, Bool.eq_iff_iff, decide_eq_true_iff]
    constructor
    · rintro ⟨hMem, hi⟩
      exact (h i hi).mp hMem
    · intro hHas
      have hi := lt_of_has hHas
      exact ⟨(h i hi).mpr hHas, hi⟩

end ChunkSet

end PeerShare

------------------------------------------------------------
-- One File
------------------------------------------------------------

namespace PeerShare

namespace Transfer

/-
  A peer is out when it is evicted, and no peer any more;
  what it held when it was evicted is kept.
-/
structure IsOut
    (t : Transfer)
    (peer : Endpoint)
    (held : ChunkSet) : Prop where
  no_peer : t.peers.get? peer = none
  evicted : t.evicted.get? peer = some held
  chunkCount_eq : held.chunkCount = t.chunkCount

/-
  A peer has rejoined when it is no longer evicted, has no
  strikes, and has a record for just the chunks that it is
  said to hold, none of which was requested from it.
-/
def HasRejoined
    (t : Transfer)
    (peer : Endpoint)
    (bitfield : Bytes) : Prop :=
  t.evicted.get? peer = none ∧
    ∃ holder,
      t.peers.get? peer = some holder ∧
        holder.strikes = 0 ∧
        ∀ i,
          holder.record? i =
            if i ∈ Packing.toIndices bitfield ∧
                i < t.chunkCount then
              some { lastRequested := none, tries := 0 }
            else none

/- A report on one peer leaves the others alone. -/
theorem get?_applyPeer_of_ne
    (t : Transfer)
    {peer other : Endpoint}
    (bitfield : Bytes)
    (h : other ≠ peer) :
    (t.applyPeer peer bitfield).peers.get? other =
        t.peers.get? other ∧
      (t.applyPeer peer bitfield).evicted.get? other =
        t.evicted.get? other := by
  unfold applyPeer
  dsimp only
  split
  · exact ⟨Table.get?_insert_of_ne _ _ h, rfl⟩
  · split
    · exact ⟨rfl, rfl⟩
    · exact ⟨Table.get?_insert_of_ne _ _ h,
        Table.get?_erase_of_ne _ h⟩

namespace IsOut

variable {t t' : Transfer}
variable {peer : Endpoint}
variable {held : ChunkSet}

/- Where the peer's entries stay, the peer stays out. -/
theorem of_eq
    (h : t.IsOut peer held)
    (hPeers : t'.peers.get? peer = t.peers.get? peer)
    (hEvicted : t'.evicted.get? peer = t.evicted.get? peer)
    (hCount : t'.chunkCount = t.chunkCount) :
    t'.IsOut peer held where
  no_peer := hPeers.trans h.no_peer
  evicted := hEvicted.trans h.evicted
  chunkCount_eq := h.chunkCount_eq.trans hCount.symm

theorem applyPeer_eq
    (h : t.IsOut peer held)
    (bitfield : Bytes) :
    t.applyPeer peer bitfield =
      if ChunkSet.ofBytes bitfield held.chunkCount = held then t
      else
        reportPeer { t with evicted := t.evicted.erase peer }
          peer (ChunkSet.ofBytes bitfield t.chunkCount) := by
  unfold applyPeer
  rw [h.evicted, h.chunkCount_eq]
  simp only [eq_comm]

theorem applyPeer
    (h : t.IsOut peer held)
    {other : Endpoint}
    {bitfield : Bytes}
    (hSame : other = peer → held.IsReportedBy bitfield) :
    (t.applyPeer other bitfield).IsOut peer held := by
  by_cases hOther : other = peer
  · have hReported := hSame hOther
    rw [hOther, h.applyPeer_eq,
      if_pos (ChunkSet.ofBytes_eq_iff.mpr hReported)]
    exact h
  · have hEntries :=
      t.get?_applyPeer_of_ne bitfield (Ne.symm hOther)
    exact h.of_eq hEntries.1 hEntries.2
      (remembers_applyPeer t other bitfield).chunkCount_eq

/- Only a report of other chunks lets a peer in. -/
theorem applyPeers
    (h : t.IsOut peer held)
    {peers : List (Endpoint × Bytes)}
    (hSame :
      ∀ bitfield,
        (peer, bitfield) ∈ peers →
          held.IsReportedBy bitfield) :
    (t.applyPeers peers).IsOut peer held := by
  unfold Transfer.applyPeers
  induction peers generalizing t with
  | nil => exact h
  | cons entry peers ih =>
      rcases entry with ⟨other, bitfield⟩
      rw [List.foldl_cons]
      apply ih
      · apply h.applyPeer
        rintro rfl
        exact hSame bitfield List.mem_cons_self
      · intro later hLater
        exact hSame later (List.mem_cons_of_mem _ hLater)

theorem credit
    (h : t.IsOut peer held)
    (index bytes : Nat)
    (sender : Endpoint)
    (now : Moment)
    (log : TransferLog) :
    (t.credit index bytes sender now log).1.IsOut peer
      held := by
  unfold Transfer.credit
  cases hSender : t.peers.get? sender with
  | none => exact h
  | some holder =>
      have hNe : peer ≠ sender := by
        rintro rfl
        simp [h.no_peer] at hSender
      have hInsert :
          IsOut
            { t with
              peers := t.peers.insert sender holder.forgive }
            peer held :=
        h.of_eq (Table.get?_insert_of_ne _ _ hNe) rfl rfl
      dsimp only
      split
      · exact hInsert
      · exact hInsert

/- Even good chunks from the peer do not let it in. -/
theorem accept
    (h : t.IsOut peer held)
    (index : UInt16)
    (data : Bytes)
    (sender : Endpoint)
    (now : Moment)
    (log : TransferLog) :
    (t.accept index data sender now log).2.1.IsOut peer
      held := by
  unfold Transfer.accept
  cases t.chunks[index.toNat]? with
  | none => exact h
  | some chunk =>
      dsimp only
      split
      · exact h
      · split
        · exact h
        · have hNoted :
              (t.withDownloaded index.toNat chunk).IsOut peer
                held :=
            h.of_eq rfl rfl (chunkCount_setChunk t _ _)
          exact hNoted.credit _ _ _ _ _

theorem markPersisted
    (h : t.IsOut peer held)
    (index : UInt16) :
    (t.markPersisted index).IsOut peer held := by
  have hCount :=
    (remembers_markPersisted t index).chunkCount_eq
  unfold Transfer.markPersisted at hCount ⊢
  split
  · exact h
  · exact h.of_eq rfl rfl (chunkCount_setChunk t _ _)

theorem passes
    (h : t.IsOut peer held)
    {now : Moment}
    (hPasses : t.Passes now t') :
    t'.IsOut peer held where
  no_peer := hPasses.none_of_none h.no_peer
  evicted := (hPasses.stays peer h.no_peer).trans h.evicted
  chunkCount_eq :=
    h.chunkCount_eq.trans hPasses.chunkCount_eq.symm

/- Nothing is requested from a peer that is out. -/
theorem ne_of_mem_requests
    (h : t.IsOut peer held)
    {now : Moment}
    {log : TransferLog}
    {r : ChunkRequest}
    (hr : r ∈ (t.tick now log).1.requests) :
    r.peer ≠ peer := by
  rcases exists_peer_of_mem_requests_tick hr with
    ⟨holder, hPeer⟩
  rintro rfl
  simp [h.no_peer] at hPeer

/- A report of other chunks lets a peer in as a new one. -/
theorem hasRejoined
    (h : t.IsOut peer held)
    {bitfield : Bytes}
    (hOther : ¬ held.IsReportedBy bitfield) :
    (t.applyPeer peer bitfield).HasRejoined peer bitfield := by
  rw [h.applyPeer_eq,
    if_neg (mt ChunkSet.ofBytes_eq_iff.mp hOther)]
  refine ⟨Table.get?_erase_self _ _,
    Holder.fresh.report
      (ChunkSet.ofBytes bitfield t.chunkCount), ?_, rfl, ?_⟩
  · unfold reportPeer
    dsimp only
    rw [h.no_peer]
    exact Table.get?_insert_self _ _ _
  · intro i
    rw [Holder.record?_report, ChunkSet.has_ofBytes]
    simp only [decide_eq_true_eq]
    exact if_congr Iff.rfl rfl rfl

end IsOut

end Transfer

end PeerShare

------------------------------------------------------------
-- Runs
------------------------------------------------------------

namespace PeerShare

namespace Session

variable {s : Session}
variable {name : String}
variable {peer : Endpoint}
variable {held : ChunkSet}

/- Chunks are requested from peers of the file only. -/
theorem IsReachable.exists_peer_of_mem_requestsOf
    (hReachable : s.IsReachable)
    {e : Event}
    {r : ChunkRequest}
    (hr : r ∈ s.requestsOf e) :
    ∃ t now log,
      s.downloads.transfer? r.name = some t ∧
        r ∈ (t.tick now log).1.requests := by
  cases e with
  | tick now log =>
      unfold requestsOf at hr
      dsimp only at hr
      rw [Downloads.requests_tick] at hr
      rcases List.mem_flatMap.mp hr with
        ⟨⟨file, download⟩, hEntry, hMem⟩
      cases download with
      | awaiting => cases hMem
      | fetching t =>
          have hGet :=
            Downloads.transfer?_eq_some_iff.mpr
              (Table.mem_entries_iff.mp hEntry)
          have hName : t.name = file :=
            (hReachable.wellFormed hGet).1
          have hRequest :=
            (Transfer.name_of_mem_requests_tick hMem).2
          rw [hRequest, hName]
          exact ⟨t, now, log, hGet, hMem⟩
  | _ => cases hr

/- Whether a peer is out of a file, if it is fetched. -/
def KeepsOut
    (s : Session)
    (name : String)
    (peer : Endpoint)
    (held : ChunkSet) : Prop :=
  ∀ t, s.downloads.transfer? name = some t → t.IsOut peer held

/- Whether an event reports no other chunks of a peer. -/
def Event.Confirms
    (name : String)
    (peer : Endpoint)
    (held : ChunkSet) : Event → Prop
  | .applyPeers file peers =>
      file = name →
        ∀ bitfield,
          (peer, bitfield) ∈ peers → held.IsReportedBy bitfield
  | _ => True

/- Ongoing events let no peer in that is out. -/
theorem KeepsOut.after
    (h : s.KeepsOut name peer held)
    {e : Event}
    (hOngoing : e.isOngoing = true)
    (hConfirms : e.Confirms name peer held) :
    (s.after e).KeepsOut name peer held := by
  intro t' hGet'
  cases origin_of_after hGet' with
  | untouched _ hGet => exact h t' hGet
  | started => cases hOngoing
  | reported hGet hNew =>
      rw [hNew]
      exact (h _ hGet).applyPeers (hConfirms rfl)
  | arrived writer hGet hNew =>
      rw [hNew]
      exact ((h _ hGet).accept _ _ _ _ _).of_eq rfl rfl rfl
  | persisted hGet hNew =>
      rw [hNew]
      exact (h _ hGet).markPersisted _
  | written writer hGet hNew =>
      rw [hNew]
      exact (h _ hGet).of_eq rfl rfl rfl
  | passed hGet hTick =>
      exact (h _ hGet).passes (Transfer.passes_tick hTick)

theorem KeepsOut.run
    (h : s.KeepsOut name peer held)
    {events : List Event}
    (hOngoing : ∀ e ∈ events, e.isOngoing = true)
    (hConfirms : ∀ e ∈ events, e.Confirms name peer held) :
    (s.run events).KeepsOut name peer held := by
  unfold Session.run
  induction events generalizing s with
  | nil => exact h
  | cons e events ih =>
      rw [List.forall_mem_cons] at hOngoing hConfirms
      exact ih (h.after hOngoing.1 hConfirms.1) hOngoing.2
        hConfirms.2

/- In no such run is anything requested from the peer. -/
theorem KeepsOut.ne_of_mem_requestsOf
    (h : s.KeepsOut name peer held)
    (hReachable : s.IsReachable)
    {e : Event}
    {r : ChunkRequest}
    (hr : r ∈ s.requestsOf e)
    (hName : r.name = name) :
    r.peer ≠ peer := by
  rcases hReachable.exists_peer_of_mem_requestsOf hr with
    ⟨t, now, log, hGet, hMem⟩
  rw [hName] at hGet
  exact (h t hGet).ne_of_mem_requests hMem

/- The first report of other chunks lets the peer in. -/
theorem KeepsOut.exists_hasRejoined
    (h : s.KeepsOut name peer held)
    {t : Transfer}
    (hGet : s.downloads.transfer? name = some t)
    {front : List (Endpoint × Bytes)}
    {bitfield : Bytes}
    (hFront :
      ∀ same, (peer, same) ∈ front → held.IsReportedBy same)
    (hOther : ¬ held.IsReportedBy bitfield)
    (rest : List (Endpoint × Bytes)) :
    ∃ back : Transfer,
      back.HasRejoined peer bitfield ∧
        (s.after
          (.applyPeers name
            (front ++ (peer, bitfield) ::
              rest))).downloads.transfer? name =
          some (back.applyPeers rest) := by
  have hOut := (h t hGet).applyPeers hFront
  refine ⟨_, hOut.hasRejoined hOther, ?_⟩
  unfold Session.after
  dsimp only
  rw [Downloads.transfer?_applyPeers, if_pos rfl, hGet,
    Option.map_some]
  unfold Transfer.applyPeers
  rw [List.foldl_append, List.foldl_cons]

/-
  A peer that is evicted with a set of chunks is no peer and
  is asked for nothing as long as no other chunks are
  reported of it, and the first report of other chunks makes
  it a new peer that holds just these.
-/
theorem evicted_until_other_chunks
    (hReachable : s.IsReachable)
    {t : Transfer}
    (hGet : s.downloads.transfer? name = some t)
    (hEvicted : t.evicted.get? peer = some held)
    {events : List Event}
    (hOngoing : ∀ e ∈ events, e.isOngoing = true)
    (hSame :
      ∀ peers bitfield,
        .applyPeers name peers ∈ events →
          (peer, bitfield) ∈ peers →
            held.IsReportedBy bitfield) :
    held.chunkCount = t.chunkCount ∧
      (∀ earlier,
        earlier <+: events →
          ∀ t',
            (s.run earlier).downloads.transfer? name =
                some t' →
              t'.peers.get? peer = none ∧
                t'.evicted.get? peer = some held) ∧
      (∀ earlier e,
        earlier ++ [e] <+: events →
          ∀ r ∈ (s.run earlier).requestsOf e,
            r.name = name → r.peer ≠ peer) ∧
      ∀ t',
        (s.run events).downloads.transfer? name = some t' →
          ∀ front bitfield rest,
            (∀ same,
              (peer, same) ∈ front → held.IsReportedBy same) →
            ¬ held.IsReportedBy bitfield →
              ∃ back : Transfer,
                back.HasRejoined peer bitfield ∧
                  ((s.run events).after
                    (.applyPeers name
                      (front ++ (peer, bitfield) ::
                        rest))).downloads.transfer? name =
                    some (back.applyPeers rest) := by
  have hRegular := hReachable.hasRegularPeers hGet
  have hCount := hRegular.evicted peer held hEvicted
  have hStart : s.KeepsOut name peer held := by
    intro t₀ hGet₀
    rw [hGet] at hGet₀
    cases hGet₀
    refine ⟨?_, hEvicted, hCount⟩
    rcases (hReachable.wellFormed hGet).2.apart peer with
      hNone | hNone
    · exact hNone
    · simp [hEvicted] at hNone
  have hConfirms : ∀ e ∈ events, e.Confirms name peer held := by
    intro e he
    cases e with
    | applyPeers file peers =>
        rintro rfl bitfield hMem
        exact hSame peers bitfield he hMem
    | _ => trivial
  have hPrefix :
      ∀ earlier,
        earlier <+: events →
          (s.run earlier).KeepsOut name peer held := by
    intro earlier hEarlier
    exact hStart.run
      (fun e he => hOngoing e (hEarlier.subset he))
      (fun e he => hConfirms e (hEarlier.subset he))
  refine ⟨hCount, ?_, ?_, ?_⟩
  · intro earlier hEarlier t' hGet'
    have hOut := hPrefix earlier hEarlier t' hGet'
    exact ⟨hOut.no_peer, hOut.evicted⟩
  · intro earlier e hEarlier r hr hName
    have hShorter : earlier <+: events :=
      (List.prefix_append earlier [e]).trans hEarlier
    exact (hPrefix earlier hShorter).ne_of_mem_requestsOf
      (hReachable.run earlier) hr hName
  · intro t' hGet' front bitfield rest hFront hOther
    exact (hPrefix events List.prefix_rfl).exists_hasRejoined
      hGet' hFront hOther rest

/-
  A silent peer with the first of two chunks is evicted in
  the seventh pass.  Flags past the last chunk do not let it
  in again, and the second chunk does.
-/
theorem rejoins_after_seven_passes :
    let silent : Endpoint := ⟨.loopback, 1⟩
    let log := TransferLog.start TransferLog.defaultWindow
    let file : FileRecord :=
      ⟨"a", 20000, .ofBytes [], [.ofBytes [], .ofBytes []]⟩
    let started :=
      (awaiting "a").after
        (.start file "a" false [(silent, [0x80])] 0)
    let s :=
      started.run
        (ticks log [0, 500, 1000, 1500, 1600, 1700, 1800])
    let events :=
      [.applyPeers "a" [(silent, [0xBF, 0x80])],
        .tick (Span.ofMillis 2000) log]
    (∃ t',
        (s.run events).downloads.transfer? "a" = some t' ∧
          t'.peers.get? silent = none ∧
          t'.evicted.get? silent = some ⟨#[true, false]⟩) ∧
      ∃ back : Transfer,
        ((s.run events).after
            (.applyPeers "a"
              [(silent, [0xC0])])).downloads.transfer? "a" =
            some back ∧
          back.HasRejoined silent [0xC0] ∧
          (back.peers.get? silent).map (·.held) =
            some [0, 1] := by
  intro silent log file started s events
  let held : ChunkSet := ⟨#[true, false]⟩
  have hReachable : s.IsReachable :=
    ((isReachable_awaiting "a").after _).run _
  have hEvaluated :
      (s.downloads.transfer? "a").bind
            (·.evicted.get? silent) =
          some held ∧
        ((s.run events).downloads.transfer? "a").isSome =
          true ∧
        (((s.run events).after
              (.applyPeers "a"
                [(silent, [0xC0])])).downloads.transfer?
              "a").bind
            (fun t => (t.peers.get? silent).map (·.held)) =
          some [0, 1] := by
    dsimp only [s, started]
    delta run after Downloads.tick Download.tick Transfer.tick
      Transfer.schedule Schedule.visit
    rw [Transfer.missing_eq_insertionSort,
      Transfer.rankedPeers_eq_insertionSort,
      restore_eq_insertionSort]
    decide +kernel
  rcases hEvaluated with ⟨hBefore, hSome, hHeld⟩
  rcases Option.bind_eq_some_iff.mp hBefore with
    ⟨t, hGet, hEvicted⟩
  have hOngoing : ∀ e ∈ events, e.isOngoing = true := by
    simp [events, Event.isOngoing]
  have hSame :
      ∀ peers bitfield,
        .applyPeers "a" peers ∈ events →
          (silent, bitfield) ∈ peers →
            held.IsReportedBy bitfield := by
    intro peers bitfield hEvent hMem
    have hPeers : peers = [(silent, [0xBF, 0x80])] := by
      simpa [events] using hEvent
    rw [hPeers] at hMem
    have hBits : bitfield = [0xBF, 0x80] := by
      simpa using hMem
    rw [hBits, ← ChunkSet.ofBytes_eq_iff]
    decide
  rcases Option.isSome_iff_exists.mp hSome with ⟨t', hLater⟩
  rcases evicted_until_other_chunks hReachable hGet hEvicted
      hOngoing hSame with ⟨-, hOut, -, hBack⟩
  refine ⟨⟨t', hLater,
    hOut events List.prefix_rfl t' hLater⟩, ?_⟩
  have hOther : ¬ held.IsReportedBy [0xC0] := by
    rw [← ChunkSet.ofBytes_eq_iff]
    decide
  rcases hBack t' hLater [] [0xC0] [] (by simp) hOther with
    ⟨back, hRejoined, hAfter⟩
  rw [List.nil_append] at hAfter
  rw [hAfter] at hHeld
  exact ⟨back, hAfter, hRejoined, hHeld⟩

end Session

end PeerShare
