import Mathlib.Data.List.Pairwise
import PeerShare.Proofs.Fetch.Completion
import PeerShare.Proofs.Fetch.Lone
import PeerShare.Proofs.Fetch.Origins
import PeerShare.Proofs.Fetch.Requests

/-
  No chunk is requested from a second peer before the first
  was given half a second to answer.

  Every time that is noted in a record is the time of a
  pass.  A pass asks for a chunk only when no answer for it
  is waited for, and asks one peer at most, so two peers
  that were both asked for a chunk were asked in different
  passes.

  Key definitions include:
    * `Transfer.lastRequest?`
    * `Transfer.IsSpaced`
    * `Session.tickTimes`

  Key theorems include:
    * `Transfer.IsSpaced.of_remembers`
    * `Transfer.IsSpaced.of_safeRequests`
    * `Session.requests_spaced`
-/

------------------------------------------------------------
-- One File
------------------------------------------------------------

namespace PeerShare

namespace Transfer

variable {t t' : Transfer}
variable {now : Moment}
variable {requests : List ChunkRequest}
variable {peer other : Endpoint}
variable {index : Nat}
variable {time : Moment}

/- When a peer was last asked for a chunk, if it was. -/
def lastRequest?
    (t : Transfer)
    (peer : Endpoint)
    (index : Nat) : Option Moment :=
  (t.record? peer index).bind (·.lastRequested)

/-
  Two peers that were both asked for a chunk were asked at
  least half a second apart.
-/
def IsSpaced
    (t : Transfer) : Prop :=
  ∀ (peer other : Endpoint) (index : Nat)
    (time time' : Moment),
    peer ≠ other →
      t.lastRequest? peer index = some time →
        t.lastRequest? other index = some time' →
          Span.ofMillis 500 ≤ elapsed time time' ∨
            Span.ofMillis 500 ≤ elapsed time' time

theorem lastRequest?_eq_some_iff :
    t.lastRequest? peer index = some time ↔
      ∃ r,
        t.record? peer index = some r ∧
          r.lastRequested = some time := by
  unfold lastRequest?
  rw [Option.bind_eq_some_iff]

/- A peer whose answer is waited for was asked in time. -/
theorem exists_lastRequest_of_isAwaiting
    {holder : Holder}
    (hPeer : t.peers.get? peer = some holder)
    (hAwaiting : holder.isAwaiting index now = true) :
    ∃ time,
      t.lastRequest? peer index = some time ∧
        elapsed time now < Span.ofMillis 500 := by
  unfold Holder.isAwaiting at hAwaiting
  cases hRecord : holder.record? index with
  | none => simp [hRecord] at hAwaiting
  | some r =>
      rw [hRecord] at hAwaiting
      unfold RequestRecord.isDue at hAwaiting
      cases hLast : r.lastRequested with
      | none => simp [hLast] at hAwaiting
      | some time =>
          have hSoon :
              elapsed time now < RequestRecord.timeout := by
            simpa [hLast] using hAwaiting
          have hSome :=
            record?_eq_some_iff.mpr ⟨holder, hPeer, hRecord⟩
          exact ⟨time,
            lastRequest?_eq_some_iff.mpr ⟨r, hSome, hLast⟩,
            hSoon⟩

/- Outside of a pass no peer is asked for anything. -/
theorem Remembers.lastRequest_eq
    (h : t.Remembers t')
    (hLast : t'.lastRequest? peer index = some time) :
    t.lastRequest? peer index = some time := by
  rcases lastRequest?_eq_some_iff.mp hLast with
    ⟨r, hRecord, hTime⟩
  rcases h.record_or_fresh hRecord with hOld | hFresh
  · exact lastRequest?_eq_some_iff.mpr ⟨r, hOld, hTime⟩
  · simp [hFresh, RequestRecord.fresh] at hTime

/- In a pass a peer is asked at the time of the pass. -/
theorem Passes.lastRequest_or_now
    (h : t.Passes now t')
    (hLast : t'.lastRequest? peer index = some time) :
    t.lastRequest? peer index = some time ∨ time = now := by
  rcases lastRequest?_eq_some_iff.mp hLast with
    ⟨r', hRecord, hTime⟩
  rcases h.record_or_stamp hRecord with ⟨r, hOld, hSame | hNew⟩
  · rw [hSame] at hTime
    exact Or.inl (lastRequest?_eq_some_iff.mpr ⟨r, hOld, hTime⟩)
  · rw [hNew] at hTime
    exact Or.inr (Option.some.inj hTime).symm

/- Whether one of some requests asks a peer for a chunk. -/
def IsAsked
    (requests : List ChunkRequest)
    (peer : Endpoint)
    (index : Nat) : Prop :=
  ∃ r ∈ requests,
    r.peer = peer ∧ ∃ i ∈ r.indices, i.toNat = index

namespace SafeRequests

/- What was last asked for was asked before, or just now. -/
theorem asked_or_lastRequest
    (h : t.SafeRequests t' now requests)
    (hLast : t'.lastRequest? peer index = some time) :
    IsAsked requests peer index ∧ time = now ∨
      t.lastRequest? peer index = some time := by
  rcases lastRequest?_eq_some_iff.mp hLast with
    ⟨r', hRecord, hTime⟩
  rcases record?_eq_some_iff.mp hRecord with
    ⟨holder', hPeer, hHolder⟩
  rcases h.stamped peer holder' hPeer with
    ⟨holder, hBefore, hRecords⟩
  by_cases hAsked : IsAsked requests peer index
  · rcases (hRecords index).1 hAsked with ⟨r, -, hStamped⟩
    rw [hHolder] at hStamped
    rw [Option.some.inj hStamped] at hTime
    exact Or.inl ⟨hAsked, (Option.some.inj hTime).symm⟩
  · rw [(hRecords index).2 hAsked] at hHolder
    have hOld :=
      record?_eq_some_iff.mpr ⟨holder, hBefore, hHolder⟩
    exact Or.inr
      (lastRequest?_eq_some_iff.mpr ⟨r', hOld, hTime⟩)

/- A chunk is requested from one peer at most. -/
theorem eq_of_isAsked
    (h : t.SafeRequests t' now requests)
    (hPeer : IsAsked requests peer index)
    (hOther : IsAsked requests other index) :
    peer = other := by
  rcases hPeer with ⟨r, hr, rfl, i, hi, hIndex⟩
  rcases hOther with ⟨r', hr', rfl, i', hi', hIndex'⟩
  have hSame : i = i' :=
    UInt16.toNat_inj.mp (hIndex.trans hIndex'.symm)
  have hDisjoint := (List.nodup_flatMap.mp h.nodup_indices).2
  have : Std.Symm (Function.onFun List.Disjoint
      fun r : ChunkRequest => r.indices) :=
    ⟨fun _ _ hApart => hApart.symm⟩
  by_contra hNe
  have hRequests : r ≠ r' := by
    rintro rfl
    exact hNe rfl
  exact hDisjoint.forall hr hr' hRequests hi (hSame ▸ hi')

/- A chunk that is requested waits for no older request. -/
theorem le_elapsed
    (h : t.SafeRequests t' now requests)
    (hAsked : IsAsked requests peer index)
    (hLast : t.lastRequest? other index = some time) :
    Span.ofMillis 500 ≤ elapsed time now := by
  rcases hAsked with ⟨r, hr, -, i, hi, rfl⟩
  rcases lastRequest?_eq_some_iff.mp hLast with
    ⟨record, hRecord, hTime⟩
  rcases record?_eq_some_iff.mp hRecord with
    ⟨holder, hPeer, hHolder⟩
  exact h.idle r hr i hi other holder record time hPeer hHolder
    hTime

end SafeRequests

namespace IsSpaced

theorem of_empty
    (h : t.peers = Table.empty) :
    t.IsSpaced := by
  intro peer other index time time' _ hLast
  simp [lastRequest?, record?, h] at hLast

theorem of_remembers
    (h : t.IsSpaced)
    (hRemembers : t.Remembers t') :
    t'.IsSpaced := by
  intro peer other index time time' hNe hLast hLast'
  exact h peer other index time time' hNe
    (hRemembers.lastRequest_eq hLast)
    (hRemembers.lastRequest_eq hLast')

/- A safe pass keeps the requests for a chunk apart. -/
theorem of_safeRequests
    (h : t.IsSpaced)
    (hSafe : t.SafeRequests t' now requests) :
    t'.IsSpaced := by
  intro peer other index time time' hNe hLast hLast'
  rcases hSafe.asked_or_lastRequest hLast with hNew | hOld
  · rcases hNew with ⟨hAsked, rfl⟩
    rcases hSafe.asked_or_lastRequest hLast' with hNew' | hOld'
    · exact absurd (hSafe.eq_of_isAsked hAsked hNew'.1) hNe
    · exact Or.inr (hSafe.le_elapsed hAsked hOld')
  · rcases hSafe.asked_or_lastRequest hLast' with hNew' | hOld'
    · rcases hNew' with ⟨hAsked', rfl⟩
      exact Or.inl (hSafe.le_elapsed hAsked' hOld)
    · exact h peer other index time time' hNe hOld hOld'

/- Answers for a chunk are waited for from one peer at most. -/
theorem eq_of_isAwaiting
    (h : t.IsSpaced)
    {holder holder' : Holder}
    (hPeer : t.peers.get? peer = some holder)
    (hOther : t.peers.get? other = some holder')
    (hPast :
      ∀ peer time,
        t.lastRequest? peer index = some time → time ≤ now)
    (hAwaiting : holder.isAwaiting index now = true)
    (hAwaiting' : holder'.isAwaiting index now = true) :
    peer = other := by
  rcases exists_lastRequest_of_isAwaiting hPeer hAwaiting with
    ⟨time, hLast, hSoon⟩
  rcases exists_lastRequest_of_isAwaiting hOther hAwaiting' with
    ⟨time', hLast', hSoon'⟩
  have hLe := hPast peer time hLast
  have hLe' := hPast other time' hLast'
  by_contra hNe
  have hApart := h peer other index time time' hNe hLast hLast'
  rcases hApart with hApart | hApart
  · exact absurd (hApart.trans (Nat.sub_le_sub_right hLe' _))
      (Nat.not_le_of_lt hSoon)
  · exact absurd (hApart.trans (Nat.sub_le_sub_right hLe _))
      (Nat.not_le_of_lt hSoon')

end IsSpaced

end Transfer

end PeerShare

------------------------------------------------------------
-- Numbers that Do Not Fit
------------------------------------------------------------

namespace PeerShare

namespace Transfer

variable {t : Transfer}
variable {now : Moment}
variable {log : TransferLog}
variable {first second third : Endpoint}
variable {h₁ h₂ h₃ : Holder}
variable {r : RequestRecord}

/-
  A peer that is evicted gives the chunk 65536 back as chunk
  zero.  If a peer before it was asked for chunk zero, a
  peer behind it is asked for chunk zero once more.
-/
theorem lastRequest_schedule_of_wrapped
    (hRanked : t.rankedPeers now log = [first, second, third])
    (hFirst : t.peers.get? first = some h₁)
    (hSecond : t.peers.get? second = some h₂)
    (hThird : t.peers.get? third = some h₃)
    (hOnly₁ : h₁.HoldsOnly 0 RequestRecord.fresh)
    (hOnly₃ : h₃.HoldsOnly 0 RequestRecord.fresh)
    (hRecords :
      ∀ i,
        h₂.record? i =
          if i = 65536 then some RequestRecord.fresh
          else if i = 65537 then some r else none)
    (hDue : r.isDue now = true)
    (hTries : maxTries ≤ r.tries)
    (hStrikes : maxStrikes ≤ h₂.strikes)
    (hZero : 0 ∈ t.missing now)
    (hList :
      (t.missing now).filter
          (fun i => i = 65536 ∨ i = 65537) =
        [65536, 65537]) :
    (t.schedule now log).2.lastRequest? first 0 = some now ∧
      (t.schedule now log).2.lastRequest? third 0 =
        some now := by
  have hNodup := t.nodup_rankedPeers now log
  rw [hRanked] at hNodup
  simp only [List.nodup_cons, List.mem_cons, List.not_mem_nil,
    or_false, not_or] at hNodup
  rcases hNodup with ⟨⟨hNe₁₂, hNe₁₃⟩, hNe₂₃, -⟩
  have hDue' : RequestRecord.fresh.isDue now = true := rfl
  have hTries' : RequestRecord.fresh.tries < maxTries := by
    decide
  unfold schedule
  rw [hRanked]
  simp only [List.foldl_cons, List.foldl_nil]
  generalize ranksOf t.chunkCount (t.missing now) = ranks
  have hVisit₁ :=
    Schedule.visit_of_holdsOnly
      (s := { transfer := t, missing := t.missing now
              requests := [] })
      hFirst hOnly₁ hDue' hTries' hZero ranks
  generalize Schedule.visit now ranks _ first = s₁ at hVisit₁ ⊢
  rcases hVisit₁ with ⟨hPeers₁, front, rest, hSplit, hLeft⟩
  have hSecond₁ : s₁.transfer.peers.get? second = some h₂ := by
    rw [hPeers₁, Table.get?_insert_of_ne _ _ (Ne.symm hNe₁₂)]
    exact hSecond
  have hList₁ :
      s₁.missing.filter (fun i => i = 65536 ∨ i = 65537) =
        [65536, 65537] := by
    dsimp only at hSplit
    rw [hSplit] at hList
    rw [hLeft]
    simpa using hList
  have hVisit₂ :=
    Schedule.visit_of_last_strike hSecond₁ hRecords (by decide)
      hDue' hTries' hDue hTries hStrikes hList₁ ranks
  generalize Schedule.visit now ranks _ second = s₂
    at hVisit₂ ⊢
  have hThird₂ : s₂.transfer.peers.get? third = some h₃ := by
    rw [hVisit₂.1, Table.get?_erase_of_ne _ (Ne.symm hNe₂₃),
      hPeers₁, Table.get?_insert_of_ne _ _ (Ne.symm hNe₁₃)]
    exact hThird
  have hVisit₃ :=
    Schedule.visit_of_holdsOnly hThird₂ hOnly₃ hDue' hTries'
      hVisit₂.2 ranks
  have hStamp :
      ∀ h : Holder,
        h.HoldsOnly 0 RequestRecord.fresh →
          (h.stamp 0 RequestRecord.fresh now).record? 0 =
            some (RequestRecord.fresh.stamp now) := by
    intro h hOnly
    rw [hOnly.stamp now, if_pos rfl]
  unfold lastRequest? record?
  rw [hVisit₃.1, Table.get?_insert_of_ne _ _ hNe₁₃,
    Table.get?_insert_self, hVisit₂.1,
    Table.get?_erase_of_ne _ hNe₁₂, hPeers₁,
    Table.get?_insert_self]
  simp [hStamp h₁ hOnly₁, hStamp h₃ hOnly₃,
    RequestRecord.stamp]

/- Until a peer was evicted every report of it counts. -/
theorem applyPeer_of_evicted_eq
    (h : t.evicted = Table.empty)
    (peer : Endpoint)
    (bitfield : Bytes) :
    t.applyPeer peer bitfield =
      t.reportPeer peer
        (ChunkSet.ofBytes bitfield t.chunkCount) := by
  unfold applyPeer
  rw [h]
  rfl

/-
  The second of three peers has two chunks whose numbers do
  not fit, the others have chunk zero.
-/
structure IsWrapped
    (t : Transfer)
    (now : Moment)
    (first second third : Endpoint) : Prop where
  formed : t.WellFormed
  chunkCount_eq : t.chunkCount = 65538
  fresh :
    ∀ (i : Nat) (chunk : ChunkEntry),
      t.chunks[i]? = some chunk → chunk.downloaded = false
  keys_eq : t.peers.keys = [first, second, third]
  first :
    ∃ holder,
      t.peers.get? first = some holder ∧
        holder.HoldsOnly 0 RequestRecord.fresh
  second :
    ∃ holder r,
      t.peers.get? second = some holder ∧
        (∀ i,
          holder.record? i =
            if i = 65536 then some RequestRecord.fresh
            else if i = 65537 then some r else none) ∧
        r.isDue now = true ∧ maxTries ≤ r.tries ∧
        maxStrikes ≤ holder.strikes
  third :
    ∃ holder,
      t.peers.get? third = some holder ∧
        holder.HoldsOnly 0 RequestRecord.fresh

namespace IsWrapped

theorem mem_values
    (h : t.IsWrapped now first second third)
    {holder : Holder}
    (hHolder : holder ∈ t.peers.values) :
    t.peers.get? first = some holder ∨
      t.peers.get? second = some holder ∨
        t.peers.get? third = some holder := by
  rcases Table.mem_values_iff.mp hHolder with ⟨peer, hPeer⟩
  have hKey := Table.mem_keys_iff.mpr ⟨holder, hPeer⟩
  rw [h.keys_eq] at hKey
  simp only [List.mem_cons, List.not_mem_nil, or_false] at hKey
  rcases hKey with rfl | rfl | rfl
  · exact Or.inl hPeer
  · exact Or.inr (Or.inl hPeer)
  · exact Or.inr (Or.inr hPeer)

/- No answer is waited for. -/
theorem isInFlight_eq
    (h : t.IsWrapped now first second third)
    (i : Nat) :
    t.isInFlight i now = false := by
  rcases h.first with ⟨h₁, hFirst, hOnly₁⟩
  rcases h.second with ⟨h₂, r, hSecond, hRecords, hDue, -⟩
  rcases h.third with ⟨h₃, hThird, hOnly₃⟩
  have hFresh : RequestRecord.fresh.isDue now = true := rfl
  have hIdle₂ : h₂.isAwaiting i now = false := by
    apply Holder.isAwaiting_eq_false
    intro r' hRecord
    rw [hRecords i] at hRecord
    split at hRecord
    · exact Option.some.inj hRecord ▸ hFresh
    · split at hRecord
      · exact Option.some.inj hRecord ▸ hDue
      · cases hRecord
  unfold isInFlight
  rw [List.any_eq_false]
  intro holder hHolder
  rw [Bool.not_eq_true]
  rcases h.mem_values hHolder with hGet | hGet | hGet
  · rw [hFirst] at hGet
    rw [← Option.some.inj hGet, hOnly₁.isAwaiting_eq hFresh]
  · rw [hSecond] at hGet
    rw [← Option.some.inj hGet, hIdle₂]
  · rw [hThird] at hGet
    rw [← Option.some.inj hGet, hOnly₃.isAwaiting_eq hFresh]

/- The two large chunks are held by the same peer. -/
theorem holderCount_le
    (h : t.IsWrapped now first second third) :
    t.holderCount 65536 ≤ t.holderCount 65537 := by
  rcases h.first with ⟨h₁, hFirst, hOnly₁⟩
  rcases h.second with ⟨h₂, r, hSecond, hRecords, -⟩
  rcases h.third with ⟨h₃, hThird, hOnly₃⟩
  apply List.countP_mono_left
  intro holder hHolder hHolds
  rcases h.mem_values hHolder with hGet | hGet | hGet
  · rw [hFirst] at hGet
    rw [← Option.some.inj hGet] at hHolds
    simp [Holder.holds, hOnly₁ 65536] at hHolds
  · rw [hSecond] at hGet
    rw [← Option.some.inj hGet]
    simp [Holder.holds, hRecords 65537]
  · rw [hThird] at hGet
    rw [← Option.some.inj hGet] at hHolds
    simp [Holder.holds, hOnly₃ 65536] at hHolds

theorem schedule
    (h : t.IsWrapped now first second third)
    (hLog : log.history = Table.empty) :
    (t.schedule now log).2.lastRequest? first 0 = some now ∧
      (t.schedule now log).2.lastRequest? third 0 =
        some now := by
  rcases h.first with ⟨h₁, hFirst, hOnly₁⟩
  rcases h.second with
    ⟨h₂, r, hSecond, hRecords, hDue, hTries, hStrikes⟩
  rcases h.third with ⟨h₃, hThird, hOnly₃⟩
  have hRanked :
      t.rankedPeers now log = [first, second, third] :=
    (rankedPeers_of_unmeasured hLog).trans h.keys_eq
  have hWanted : t.wanted now = List.range (65536 + 1 + 1) := by
    rw [wanted_eq_range h.formed h.fresh h.isInFlight_eq,
      h.chunkCount_eq]
  have hZero : 0 ∈ t.missing now := by
    rw [(t.perm_missing now).mem_iff, hWanted, List.mem_range]
    decide
  have hPair : [65536, 65537].Sublist (t.wanted now) := by
    rw [hWanted, List.range_succ, List.range_succ,
      List.append_assoc]
    exact List.sublist_append_right _ _
  exact lastRequest_schedule_of_wrapped hRanked hFirst hSecond
    hThird hOnly₁ hOnly₃ hRecords hDue hTries hStrikes hZero
    (filter_missing_of_le h.formed h.holderCount_le hPair)

theorem tick
    (h : t.IsWrapped now first second third)
    (hIncomplete : t.isComplete = false)
    (log : TransferLog)
    (hLog : log.history = Table.empty) :
    ∃ t',
      (t.tick now log).2 = some t' ∧
        t'.lastRequest? first 0 = some now ∧
        t'.lastRequest? third 0 = some now := by
  rcases @tick_of_not_isComplete t now log hIncomplete with
    ⟨t₀, hSame, hPeers, -, -, -, hRest⟩
  have hWrapped : t₀.IsWrapped now first second third := by
    have hFresh := h.fresh
    have hKeys := h.keys_eq
    have hFirst := h.first
    have hSecond := h.second
    have hThird := h.third
    rw [← hSame.chunks_eq] at hFresh
    rw [← hPeers] at hKeys hFirst hSecond hThird
    exact ⟨h.formed.of_sameProgress hSame,
      hSame.chunkCount_eq.trans h.chunkCount_eq, hFresh, hKeys,
      hFirst, hSecond, hThird⟩
  exact ⟨_, hRest, hWrapped.schedule hLog⟩

end IsWrapped

/- Until a peer was evicted all reports count. -/
theorem applyPeers_of_evicted_eq
    (h : t.evicted = Table.empty)
    (peers : List (Endpoint × Bytes)) :
    t.applyPeers peers =
      peers.foldl
        (fun t' (peer, bitfield) =>
          t'.reportPeer peer
            (ChunkSet.ofBytes bitfield t.chunkCount))
        t := by
  unfold applyPeers
  generalize hCount : t.chunkCount = n
  induction peers generalizing t with
  | nil => rfl
  | cons entry peers ih =>
      rcases entry with ⟨peer, bitfield⟩
      rw [List.foldl_cons, List.foldl_cons]
      dsimp only
      rw [applyPeer_of_evicted_eq h, hCount]
      exact ih h hCount

/- Reports that make the peers of a file so. -/
theorem isWrapped_applyPeers
    {r : RequestRecord}
    (hLone : t.IsLone ⟨.loopback, 2⟩ 65537 r 3)
    (hCount : t.chunkCount = 65538)
    (now : Moment)
    (hDue : r.isDue now = true)
    (hTries : maxTries ≤ r.tries) :
    (t.applyPeers
      [(⟨.loopback, 1⟩, Packing.ofIndices [0]),
        (⟨.loopback, 2⟩, Packing.ofIndices [65536, 65537]),
        (⟨.loopback, 3⟩,
          Packing.ofIndices [0])]).IsWrapped now
      ⟨.loopback, 1⟩ ⟨.loopback, 2⟩ ⟨.loopback, 3⟩ := by
  rcases hLone.exists_holder with
    ⟨holder, hPeers, hOnly, hStrikes⟩
  have hSame := fun peers => t.sameProgress_applyPeers peers
  have hPos : 0 < 65538 := by decide
  have hFirst :
      t.peers.get? ⟨.loopback, 1⟩ = none := by
    rw [hPeers]
    rfl
  have hThird :
      t.peers.get? ⟨.loopback, 3⟩ = none := by
    rw [hPeers]
    rfl
  have hSecond :
      t.peers.get? ⟨.loopback, 2⟩ = some holder := by
    rw [hPeers]
    rfl
  refine ⟨hLone.formed.of_sameProgress (hSame _),
    (hSame _).chunkCount_eq.trans hCount, ?_, ?_, ?_, ?_, ?_⟩
  · rw [(hSame _).chunks_eq]
    exact hLone.fresh
  all_goals
    rw [applyPeers_of_evicted_eq hLone.evicted_eq, hCount]
    simp only [List.foldl_cons, List.foldl_nil]
  · unfold reportPeer
    rw [hPeers]
    rfl
  · refine ⟨_, ?_, Holder.holdsOnly_report hPos⟩
    rw [get?_reportPeer, if_neg (by decide), get?_reportPeer,
      if_neg (by decide), get?_reportPeer, if_pos rfl, hFirst]
    rfl
  · refine
      ⟨holder.report
          (ChunkSet.ofBytes
            (Packing.ofIndices [65536, 65537]) 65538),
        r, ?_, ?_, hDue, hTries, ?_⟩
    · rw [get?_reportPeer, if_neg (by decide), get?_reportPeer,
        if_pos rfl, get?_reportPeer, if_neg (by decide),
        hSecond]
      rfl
    · intro i
      rw [Holder.record?_report_ofIndices, hOnly i]
      by_cases hFirst : i = 65536
      · simp [hFirst]
      · by_cases hLast : i = 65537
        · simp [hLast]
        · simp [hFirst, hLast]
    · rw [Holder.strikes_report, hStrikes]
      exact Nat.le_refl _
  · refine ⟨_, ?_, Holder.holdsOnly_report hPos⟩
    rw [get?_reportPeer, if_pos rfl, get?_reportPeer,
      if_neg (by decide), get?_reportPeer, if_neg (by decide),
      hThird]
    rfl

end Transfer

end PeerShare

------------------------------------------------------------
-- Runs
------------------------------------------------------------

namespace PeerShare

namespace Session

variable {disk : Disk}
variable {events : List Event}
variable {name : String}
variable {t : Transfer}

/- A session without downloads. -/
def blank
    (disk : Disk) : Session where
  downloads := Downloads.empty
  disk := disk

/- The times of the passes among some events. -/
def tickTimes
    (events : List Event) : List Moment :=
  events.filterMap Event.tickTime?

theorem isReachable_run_blank
    (disk : Disk)
    (events : List Event) :
    ((blank disk).run events).IsReachable :=
  (IsReachable.empty disk).run events

theorem run_concat
    (s : Session)
    (events : List Event)
    (e : Event) :
    s.run (events ++ [e]) = (s.run events).after e := by
  unfold Session.run
  rw [List.foldl_append, List.foldl_cons, List.foldl_nil]

/- Chunks are requested in passes only. -/
theorem mem_tickTimes_of_lastRequest
    (hGet :
      ((blank disk).run events).downloads.transfer? name =
        some t)
    {peer : Endpoint}
    {index : Nat}
    {time : Moment}
    (hLast : t.lastRequest? peer index = some time) :
    time ∈ tickTimes events := by
  induction events using List.reverseRecOn generalizing t with
  | nil => cases hGet
  | append_singleton events e ih =>
      rw [run_concat] at hGet
      unfold tickTimes at ih ⊢
      rw [List.filterMap_append, List.mem_append]
      rcases (origin_of_after hGet).remembers_or_tick with
        hOther | hPass
      · rcases hOther with ⟨-, t₀, hRemembers, hBefore | hNew⟩
        · exact Or.inl
            (ih hBefore (hRemembers.lastRequest_eq hLast))
        · have hNever := hRemembers.lastRequest_eq hLast
          simp [Transfer.lastRequest?, Transfer.record?,
            hNew.2.1] at hNever
      · rcases hPass with ⟨t₀, now, log, rfl, hBefore, hTick⟩
        have hPasses := Transfer.passes_tick hTick
        rcases hPasses.lastRequest_or_now hLast with hOld | hNow
        · exact Or.inl (ih hBefore hOld)
        · rw [hNow]
          exact Or.inr List.mem_cons_self

/- Small files are spaced in every reachable session. -/
theorem IsReachable.isSpaced
    {s : Session}
    (h : s.IsReachable)
    (hGet : s.downloads.transfer? name = some t)
    (hCount : t.chunkCount ≤ 65536) :
    t.IsSpaced := by
  induction h generalizing t with
  | empty disk => cases hGet
  | @after s e hReachable ih =>
      rcases (origin_of_after hGet).remembers_or_tick with
        hOther | hPass
      · rcases hOther with ⟨-, t₀, hRemembers, hBefore | hNew⟩
        · rw [hRemembers.chunkCount_eq] at hCount
          exact (ih hBefore hCount).of_remembers hRemembers
        · have hEmpty := Transfer.IsSpaced.of_empty hNew.2.1
          exact hEmpty.of_remembers hRemembers
      · rcases hPass with ⟨t₀, now, log, rfl, hBefore, hTick⟩
        have hPasses := Transfer.passes_tick hTick
        rw [hPasses.chunkCount_eq] at hCount
        have hFormed := (hReachable.wellFormed hBefore).2
        have hComplete := (Transfer.sameProgress_tick hTick).1
        rcases Transfer.safeRequests_tick hFormed hCount
            hComplete now log with ⟨t₁, hRest, hSafe⟩
        rw [hTick] at hRest
        cases hRest
        exact (ih hBefore hCount).of_safeRequests hSafe

/- Chunk zero is requested twice in the next pass. -/
theorem HasLone.exists_double_request
    {s : Session}
    {name : String}
    {r : RequestRecord}
    (h : s.HasLone name 65538 ⟨.loopback, 2⟩ 65537 r 3)
    (now : Moment)
    (hDue : r.isDue now = true)
    (hTries : maxTries ≤ r.tries)
    (log : TransferLog)
    (hLog : log.history = Table.empty) :
    ∃ t,
      ((s.after
          (.applyPeers name
            [(⟨.loopback, 1⟩, Packing.ofIndices [0]),
              (⟨.loopback, 2⟩,
                Packing.ofIndices [65536, 65537]),
              (⟨.loopback, 3⟩,
                Packing.ofIndices [0])])).after
          (.tick now log)).downloads.transfer? name =
        some t ∧
        t.lastRequest? ⟨.loopback, 1⟩ 0 = some now ∧
        t.lastRequest? ⟨.loopback, 3⟩ 0 = some now := by
  rcases h with ⟨t, hGet, hCount, hLone⟩
  have hWrapped :=
    Transfer.isWrapped_applyPeers hLone hCount now hDue hTries
  have hIncomplete := fun peers =>
    (t.sameProgress_applyPeers peers).isComplete_eq.trans
      hLone.isComplete_eq
  rcases hWrapped.tick (hIncomplete _) log hLog with
    ⟨t', hTick, hFirst, hThird⟩
  refine ⟨t', transfer?_after_tick ?_ hTick, hFirst, hThird⟩
  unfold Session.after
  dsimp only
  rw [Downloads.transfer?_applyPeers, if_pos rfl, hGet,
    Option.map_some]

/-
  Peers that were asked for one chunk of a file were asked
  at least half a second apart, so from the last pass on an
  answer for it is waited for from one of them at most.  The
  numbers of the chunks have to fit the requests.
-/
theorem requests_spaced
    (hGet :
      ((blank disk).run events).downloads.transfer? name =
        some t)
    (hCount : t.chunkCount ≤ 65536) :
    t.IsSpaced ∧
      ∀ now,
        (∀ time ∈ tickTimes events, time ≤ now) →
          ∀ index peer other holder holder',
            t.peers.get? peer = some holder →
              t.peers.get? other = some holder' →
                holder.isAwaiting index now = true →
                  holder'.isAwaiting index now = true →
                    peer = other := by
  have hSpaced :=
    (isReachable_run_blank disk events).isSpaced hGet hCount
  refine ⟨hSpaced, ?_⟩
  intro now hLater index peer other holder holder' hPeer hOther
    hAwaiting hAwaiting'
  apply hSpaced.eq_of_isAwaiting hPeer hOther ?_ hAwaiting
    hAwaiting'
  intro asked time hLast
  exact hLater time (mem_tickTimes_of_lastRequest hGet hLast)

/- A peer that was just asked is the only one to wait for. -/
theorem requests_spaced_of_two_peers :
    let first : Endpoint := ⟨.loopback, 1⟩
    let second : Endpoint := ⟨.loopback, 2⟩
    let log := TransferLog.start TransferLog.defaultWindow
    let file : FileRecord :=
      ⟨"a", 1, .ofBytes [], [.ofBytes []]⟩
    let events : List Event :=
      [.request "a" 0,
        .start file "a" false [(first, [0x80])] 0,
        .tick 0 log, .applyPeers "a" [(second, [0x80])]]
    ∃ t,
      ((blank Disk.empty).run events).downloads.transfer?
          "a" = some t ∧
        t.lastRequest? first 0 = some 0 ∧
        t.IsSpaced ∧
        ∀ other holder,
          t.peers.get? other = some holder →
            holder.isAwaiting 0 1 = true → other = first := by
  intro first second log file events
  have hAll :
      (((blank Disk.empty).run events).downloads.transfer?
          "a").map (fun t =>
            (t.chunkCount, t.lastRequest? first 0,
              (t.peers.get? first).map (·.isAwaiting 0 1))) =
        some (1, some 0, some true) := by
    decide +kernel
  rcases Option.map_eq_some_iff.mp hAll with ⟨t, hGet, hFacts⟩
  simp only [Prod.mk.injEq, Option.map_eq_some_iff] at hFacts
  rcases hFacts with
    ⟨hCount, hLast, holder, hFirst, hAwaiting⟩
  have hSmall : t.chunkCount ≤ 65536 := by
    rw [hCount]
    decide
  rcases requests_spaced hGet hSmall with ⟨hSpaced, hOne⟩
  refine ⟨t, hGet, hLast, hSpaced, ?_⟩
  intro other holder' hOther hAwaiting'
  exact hOne 1 (by decide) 0 other first holder' holder hOther
    hFirst hAwaiting' hAwaiting

/-
  Of more than 65536 chunks two may share a number.  The
  second of three peers is asked for the chunk 65536 under
  the number zero and then evicted, so chunk zero is given
  back although the first peer was just asked for it, and in
  the same pass the third peer is asked for it as well.
-/
theorem not_isSpaced_of_shared_number :
    let peer : UInt16 → Endpoint := fun port => ⟨.loopback, port⟩
    let log := TransferLog.start TransferLog.defaultWindow
    let file : FileRecord :=
      ⟨"a", 1, .ofBytes [], List.replicate 65538 (.ofBytes [])⟩
    let events : List Event :=
      [.request "a" 0,
        .start file "a" false
          [(peer 2, Packing.ofIndices [65537])] 0,
        .tick 0 log, .tick 500000000 log,
        .tick 1000000000 log, .tick 1500000000 log,
        .tick 1500000000 log, .tick 1500000000 log,
        .applyPeers "a"
          [(peer 1, Packing.ofIndices [0]),
            (peer 2, Packing.ofIndices [65536, 65537]),
            (peer 3, Packing.ofIndices [0])],
        .tick 1500000000 log]
    (tickTimes events).Pairwise (· ≤ ·) ∧
      ∃ t,
        ((blank Disk.empty).run events).downloads.transfer?
            "a" = some t ∧
          t.lastRequest? (peer 1) 0 = some 1500000000 ∧
          t.lastRequest? (peer 3) 0 = some 1500000000 ∧
          ¬ t.IsSpaced := by
  intro peer log file events
  refine ⟨by decide, ?_⟩
  have hIndex : 65537 < (List.replicate 65538
      (Digest.ofBytes [])).length := by
    rw [List.length_replicate]
    decide
  have hAwaiting :
      (awaiting "a").downloads.isAwaiting "a" = true :=
    rfl
  have hStart :=
    hasLone_start hAwaiting 1 (.ofBytes []) _ "a" (peer 2)
      hIndex 0
  have hAsked :=
    ((hStart.tick_asks 0 rfl (by decide) log).tick_asks
      500000000 rfl (by decide) log).tick_asks 1000000000 rfl
        (by decide) log
  have hStruck :=
    ((hAsked.tick_strikes 1500000000 rfl (by decide)
      (by decide) log).tick_strikes 1500000000 rfl (by decide)
        (by decide) log).tick_strikes 1500000000 rfl
          (by decide) (by decide) log
  rw [List.length_replicate] at hStruck
  rcases hStruck.exists_double_request 1500000000 rfl
      (by decide) log rfl with ⟨t, hGet, hFirst, hThird⟩
  refine ⟨t, hGet, hFirst, hThird, ?_⟩
  intro hSpaced
  have hNe : peer 1 ≠ peer 3 := by decide
  have hApart :=
    hSpaced (peer 1) (peer 3) 0 _ _ hNe hFirst hThird
  revert hApart
  decide

end Session

end PeerShare
