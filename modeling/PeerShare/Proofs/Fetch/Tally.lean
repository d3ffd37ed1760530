import PeerShare.Proofs.Fetch.Spacing

/-
  What the numbers of a transfer count.

  A transfer counts the chunks that have arrived, and every
  record counts the requests that were made to its peer for
  its chunk since the record was made.  Reports are taken
  one peer at a time here, since a list of them may drop a
  record and make it anew.

  Key definitions include:
    * `Transfer.IsRegular`
    * `Transfer.KeepsRecords`
    * `Session.Event.steps`
    * `Session.requestsDuring`
    * `Session.IsMadeBy`
    * `Session.IsTallied`

  Key theorems include:
    * `Session.run_steps`
    * `Session.IsReachable.exists_tries_of_tick`
    * `Session.isTallied_run`
    * `Session.regular_and_tallied`
-/

------------------------------------------------------------
-- The Count of Arrived Chunks
------------------------------------------------------------

namespace PeerShare

namespace Transfer

variable {t t' : Transfer}

/- Whether just the chunks are counted that have arrived. -/
def CountsArrived
    (t : Transfer) : Prop :=
  t.downloaded = t.chunks.toList.countP (·.downloaded)

theorem countsArrived_start
    (file : FileRecord)
    (path : String)
    (now : Moment) :
    (start file path now).CountsArrived := by
  unfold CountsArrived start freshChunks
  dsimp only
  rw [eq_comm, List.countP_eq_zero]
  intro chunk hChunk
  simp only [List.mem_map] at hChunk
  rcases hChunk with ⟨entry, -, rfl⟩
  exact Bool.false_ne_true

theorem CountsArrived.of_sameProgress
    (h : t.CountsArrived)
    (hSame : t.SameProgress t') :
    t'.CountsArrived := by
  unfold CountsArrived at h ⊢
  rw [hSame.downloaded_eq, hSame.chunks_eq]
  exact h

theorem CountsArrived.setWriter
    (h : t.CountsArrived)
    (writer : Option ChunkWriter) :
    (t.setWriter writer).CountsArrived :=
  h

/- One entry more or less that has arrived. -/
theorem countP_setChunk
    {index : Nat}
    {old : ChunkEntry}
    (new : ChunkEntry)
    (hGet : t.chunks[index]? = some old) :
    (t.setChunk index new).chunks.toList.countP
          (·.downloaded) +
        (if old.downloaded then 1 else 0) =
      t.chunks.toList.countP (·.downloaded) +
        if new.downloaded then 1 else 0 := by
  rcases Array.getElem?_eq_some_iff.mp hGet with ⟨hLt, hOld⟩
  have hLength : index < t.chunks.toList.length := by
    simpa using hLt
  have hList :
      (t.setChunk index new).chunks.toList =
        t.chunks.toList.set index new :=
    Array.toList_setIfInBounds ..
  have hPos :
      old.downloaded = true →
        0 < t.chunks.toList.countP (·.downloaded) := by
    intro hDownloaded
    rw [List.countP_pos_iff]
    exact ⟨old, Array.mem_toList_iff.mpr
      (Array.mem_of_getElem? hGet), hDownloaded⟩
  rw [hList, List.countP_set hLength, Array.getElem_toList,
    hOld]
  split
  · have := hPos ‹_›
    omega
  · omega

theorem CountsArrived.markPersisted
    (h : t.CountsArrived)
    (index : UInt16) :
    (t.markPersisted index).CountsArrived := by
  rcases t.markPersisted_eq index with hSame | hSet
  · rw [hSame]
    exact h
  · rcases hSet with ⟨chunk, hGet, hSet⟩
    have hCount :=
      countP_setChunk { chunk with persisted := true } hGet
    rw [hSet]
    exact h.trans (Nat.add_right_cancel hCount).symm

theorem CountsArrived.of_judged
    (h : t.CountsArrived)
    {index : UInt16}
    {data : Bytes}
    {verdict : Verdict}
    (hJudged : t.Judged index data verdict t') :
    t'.CountsArrived := by
  cases hJudged with
  | refused => exact h
  | @accepted chunk _ hGet hFresh hDigest hSame =>
      apply of_sameProgress ?_ hSame
      have hCount :=
        countP_setChunk { chunk with downloaded := true } hGet
      rw [hFresh] at hCount
      exact (congrArg (· + 1) h).trans hCount.symm

end Transfer

namespace Session

/- In every run just the arrived chunks are counted. -/
theorem IsReachable.countsArrived
    {s : Session}
    (h : s.IsReachable)
    {name : String}
    {t : Transfer}
    (hGet : s.downloads.transfer? name = some t) :
    t.CountsArrived := by
  induction h generalizing t with
  | empty disk => cases hGet
  | @after s e _ ih =>
      cases origin_of_after hGet with
      | untouched _ hBefore => exact ih hBefore
      | started writer _ _ hNew =>
          rw [hNew]
          exact ((Transfer.countsArrived_start _ _ _).setWriter
            writer).of_sameProgress
              (Transfer.sameProgress_applyPeers _ _)
      | reported hBefore hNew =>
          rw [hNew]
          exact (ih hBefore).of_sameProgress
            (Transfer.sameProgress_applyPeers _ _)
      | arrived writer hBefore hNew =>
          rw [hNew]
          exact ((ih hBefore).of_judged
            (Transfer.judged_accept _ _ _ _ _ _)).setWriter
              writer
      | persisted hBefore hNew =>
          rw [hNew]
          exact (ih hBefore).markPersisted _
      | written writer hBefore hNew =>
          rw [hNew]
          exact (ih hBefore).setWriter writer
      | passed hBefore hTick =>
          exact (ih hBefore).of_sameProgress
            (Transfer.sameProgress_tick hTick).2

end Session

end PeerShare

------------------------------------------------------------
-- Records that Stay
------------------------------------------------------------

namespace PeerShare

namespace Transfer

variable {t t' : Transfer}

/-
  What one step other than a pass makes of records: a record
  that is there was there before, or is new where there was
  none.
-/
def KeepsRecords
    (t t' : Transfer) : Prop :=
  ∀ peer i r,
    t'.record? peer i = some r →
      t.record? peer i = some r ∨
        t.record? peer i = none ∧ r = RequestRecord.fresh

theorem keepsRecords_of_eq
    (h : ∀ peer i, t'.record? peer i = t.record? peer i) :
    t.KeepsRecords t' := by
  intro peer i r hRecord
  rw [h] at hRecord
  exact Or.inl hRecord

theorem record?_reportPeer
    (t : Transfer)
    (peer other : Endpoint)
    (chunks : ChunkSet)
    (i : Nat) :
    (t.reportPeer peer chunks).record? other i =
      if other = peer then
        if chunks.has i then
          some ((t.record? peer i).getD RequestRecord.fresh)
        else none
      else t.record? other i := by
  unfold record?
  rw [get?_reportPeer]
  split
  · rw [Option.bind_some, Holder.record?_report]
    cases t.peers.get? peer <;> rfl
  · rfl

theorem keepsRecords_reportPeer
    (t : Transfer)
    (peer : Endpoint)
    (chunks : ChunkSet) :
    t.KeepsRecords (t.reportPeer peer chunks) := by
  intro other i r hRecord
  rw [record?_reportPeer] at hRecord
  by_cases hOther : other = peer
  · rw [if_pos hOther] at hRecord
    split at hRecord
    · rw [hOther]
      cases hBefore : t.record? peer i with
      | none =>
          rw [hBefore] at hRecord
          exact Or.inr ⟨rfl, (Option.some.inj hRecord).symm⟩
      | some old =>
          rw [hBefore] at hRecord
          exact Or.inl hRecord
    · cases hRecord
  · rw [if_neg hOther] at hRecord
    exact Or.inl hRecord

theorem keepsRecords_applyPeer
    (t : Transfer)
    (peer : Endpoint)
    (bitfield : Bytes) :
    t.KeepsRecords (t.applyPeer peer bitfield) := by
  unfold applyPeer
  dsimp only
  split
  · exact keepsRecords_reportPeer t peer _
  · split
    · exact keepsRecords_of_eq fun _ _ => rfl
    · exact keepsRecords_reportPeer
        { t with evicted := t.evicted.erase peer } peer _

theorem record?_credit
    (t : Transfer)
    (index bytes : Nat)
    (sender : Endpoint)
    (now : Moment)
    (log : TransferLog)
    (peer : Endpoint)
    (i : Nat) :
    (t.credit index bytes sender now log).1.record? peer i =
      t.record? peer i := by
  unfold credit
  cases hSender : t.peers.get? sender with
  | none => rfl
  | some holder =>
      have hInsert :
          record?
              { t with
                peers := t.peers.insert sender holder.forgive }
              peer i =
            t.record? peer i := by
        unfold record?
        dsimp only
        by_cases hPeer : peer = sender
        · rw [hPeer, Table.get?_insert_self, hSender]
          rfl
        · rw [Table.get?_insert_of_ne _ _ hPeer]
      dsimp only
      split
      · exact hInsert
      · exact hInsert

/- Chunks that arrive change no records. -/
theorem record?_accept
    (t : Transfer)
    (index : UInt16)
    (data : Bytes)
    (sender : Endpoint)
    (now : Moment)
    (log : TransferLog)
    (peer : Endpoint)
    (i : Nat) :
    (t.accept index data sender now log).2.1.record? peer i =
      t.record? peer i := by
  unfold accept
  cases t.chunks[index.toNat]? with
  | none => rfl
  | some chunk =>
      dsimp only
      split
      · rfl
      · split
        · rfl
        · exact record?_credit
            (t.withDownloaded index.toNat chunk) _ _ _ _ _ peer
            i

theorem record?_markPersisted
    (t : Transfer)
    (index : UInt16)
    (peer : Endpoint)
    (i : Nat) :
    (t.markPersisted index).record? peer i =
      t.record? peer i := by
  unfold markPersisted
  split <;> rfl

end Transfer

end PeerShare

------------------------------------------------------------
-- Requests that Count
------------------------------------------------------------

namespace PeerShare

/- The number of requests to a peer that are for a chunk. -/
def askCount
    (requests : List ChunkRequest)
    (peer : Endpoint)
    (index : Nat) : Nat :=
  requests.countP fun r =>
    r.peer = peer ∧ index ∈ r.indices.map UInt16.toNat

/- A number that does not fit is not requested. -/
theorem askCount_of_le
    (requests : List ChunkRequest)
    (peer : Endpoint)
    {index : Nat}
    (h : 65536 ≤ index) :
    askCount requests peer index = 0 := by
  unfold askCount
  rw [List.countP_eq_zero]
  intro r _
  rw [decide_eq_true_iff]
  rintro ⟨-, hIndex⟩
  rcases List.mem_map.mp hIndex with ⟨i, -, rfl⟩
  exact Nat.not_le_of_lt i.toNat_lt h

namespace Transfer

namespace SafeRequests

variable {t t' : Transfer}
variable {now : Moment}
variable {requests : List ChunkRequest}
variable {peer : Endpoint}
variable {index : Nat}

/- A peer is asked for a chunk once at most. -/
theorem askCount_eq
    (h : t.SafeRequests t' now requests)
    (peer : Endpoint)
    (index : Nat) :
    (IsAsked requests peer index →
        askCount requests peer index = 1) ∧
      (¬ IsAsked requests peer index →
        askCount requests peer index = 0) := by
  have hAsked :
      IsAsked requests peer index ↔
        0 < askCount requests peer index := by
    unfold IsAsked askCount
    rw [List.countP_pos_iff]
    simp only [decide_eq_true_eq, List.mem_map]
  have hOnce : askCount requests peer index ≤ 1 := by
    unfold askCount
    have hMono :
        requests.countP (fun r =>
            r.peer = peer ∧
              index ∈ r.indices.map UInt16.toNat) ≤
          (requests.map (·.peer)).count peer := by
      rw [List.count, List.countP_map]
      apply List.countP_mono_left
      intro r _ hBoth
      simpa using (of_decide_eq_true hBoth).1
    exact hMono.trans
      (List.nodup_iff_count_le_one.mp h.nodup_peers peer)
  rw [hAsked]
  omega

/- In a safe pass a record counts what is requested. -/
theorem exists_tries_eq
    (h : t.SafeRequests t' now requests)
    {r' : RequestRecord}
    (hRecord : t'.record? peer index = some r') :
    ∃ r,
      t.record? peer index = some r ∧
        r'.tries = r.tries + askCount requests peer index := by
  rcases record?_eq_some_iff.mp hRecord with
    ⟨holder', hPeer, hHolder⟩
  rcases h.stamped peer holder' hPeer with
    ⟨holder, hBefore, hRecords⟩
  by_cases hAsked : IsAsked requests peer index
  · rcases (hRecords index).1 hAsked with ⟨r, hOld, hNew⟩
    rw [hHolder] at hNew
    rw [Option.some.inj hNew,
      (h.askCount_eq peer index).1 hAsked]
    exact ⟨r, record?_eq_some_iff.mpr ⟨holder, hBefore, hOld⟩,
      rfl⟩
  · rw [(hRecords index).2 hAsked] at hHolder
    rw [(h.askCount_eq peer index).2 hAsked]
    exact ⟨r', record?_eq_some_iff.mpr
      ⟨holder, hBefore, hHolder⟩, rfl⟩

end SafeRequests

end Transfer

end PeerShare

------------------------------------------------------------
-- Reports One by One
------------------------------------------------------------

namespace PeerShare

namespace Downloads

theorem applyPeers_nil
    (d : Downloads)
    (name : String) :
    (d.applyPeers name []).2 = d := by
  unfold applyPeers
  cases hGet : d.transfer? name with
  | none => rfl
  | some t =>
      have hEntry := transfer?_eq_some_iff.mp hGet
      exact congrArg Downloads.mk
        (Table.insert_of_get?_eq hEntry)

theorem applyPeers_cons
    (d : Downloads)
    (name : String)
    (entry : Endpoint × Bytes)
    (peers : List (Endpoint × Bytes)) :
    (d.applyPeers name (entry :: peers)).2 =
      ((d.applyPeers name [entry]).2.applyPeers name
        peers).2 := by
  unfold applyPeers
  cases hGet : d.transfer? name with
  | none =>
      dsimp only
      rw [hGet]
  | some t =>
      dsimp only
      rw [transfer?_set, if_pos rfl]
      exact congrArg Downloads.mk
        (Table.insert_insert_self _ _ _ _).symm

end Downloads

namespace Session

/- An event as the steps that it is made of. -/
def Event.steps : Event → List Event
  | .applyPeers name peers =>
      peers.map fun entry => .applyPeers name [entry]
  | e => [e]

/- Whether an event reports one peer at most. -/
def Event.IsStep : Event → Prop
  | .applyPeers _ peers => peers.length ≤ 1
  | _ => True

theorem Event.isStep_of_mem_steps
    {e step : Event}
    (h : step ∈ e.steps) :
    step.IsStep := by
  unfold steps at h
  split at h
  · rcases List.mem_map.mp h with ⟨entry, -, rfl⟩
    exact Nat.le_refl 1
  · rename_i hNot
    rw [List.mem_singleton.mp h]
    unfold IsStep
    split
    · exact absurd rfl (hNot _ _)
    · trivial

/- The steps of an event do what the event does. -/
theorem run_steps
    (s : Session)
    (e : Event) :
    s.run e.steps = s.after e := by
  cases e with
  | applyPeers name peers =>
      unfold Event.steps Session.run
      dsimp only
      induction peers generalizing s with
      | nil =>
          unfold Session.after
          dsimp only
          rw [Downloads.applyPeers_nil]
          rfl
      | cons entry peers ih =>
          rw [List.map_cons, List.foldl_cons, ih]
          unfold Session.after
          dsimp only
          rw [← Downloads.applyPeers_cons]
  | _ => rfl

theorem run_flatMap_steps
    (s : Session)
    (events : List Event) :
    s.run (events.flatMap Event.steps) = s.run events := by
  induction events generalizing s with
  | nil => rfl
  | cons e events ih =>
      have hFirst := run_steps s e
      unfold Session.run at hFirst ih ⊢
      rw [List.flatMap_cons, List.foldl_append, hFirst,
        List.foldl_cons, ih]

end Session

end PeerShare

------------------------------------------------------------
-- Runs
------------------------------------------------------------

namespace PeerShare

namespace Session

variable {s : Session}
variable {name : String}
variable {peer : Endpoint}
variable {index : Nat}
variable {r r' : RequestRecord}
variable {e : Event}

/- The record of the requests to a peer for a chunk. -/
def record?
    (s : Session)
    (name : String)
    (peer : Endpoint)
    (index : Nat) : Option RequestRecord :=
  (s.downloads.transfer? name).bind (·.record? peer index)

/- The requests that are made in a run. -/
def requestsDuring
    (s : Session) : List Event → List ChunkRequest
  | [] => []
  | e :: events =>
      s.requestsOf e ++ (s.after e).requestsDuring events

/-
  How often a peer is asked for a chunk of a file in a run.
-/
def timesAsked
    (s : Session)
    (events : List Event)
    (name : String)
    (peer : Endpoint)
    (index : Nat) : Nat :=
  askCount ((s.requestsDuring events).filter (·.name = name))
    peer index

/-
  A record is made by an event of a run if there was none
  before, and one is there all the time since.
-/
structure IsMadeBy
    (s : Session)
    (name : String)
    (peer : Endpoint)
    (index : Nat)
    (earlier : List Event)
    (e : Event)
    (later : List Event) : Prop where
  absent : (s.run earlier).record? name peer index = none
  fresh :
    (s.run (earlier ++ [e])).record? name peer index =
      some RequestRecord.fresh
  lasts :
    ∀ front,
      front <+: later →
        ∃ r,
          (s.run (earlier ++ e :: front)).record? name peer
            index = some r

/-
  A record is tallied in a run that made it when its tries
  are the requests since.
-/
def IsTallied
    (s : Session)
    (name : String)
    (peer : Endpoint)
    (index : Nat)
    (events : List Event)
    (r : RequestRecord) : Prop :=
  ∃ earlier e later,
    events = earlier ++ e :: later ∧
      s.IsMadeBy name peer index earlier e later ∧
      r.tries =
        (s.run (earlier ++ [e])).timesAsked later name peer
          index

theorem record?_eq_some_iff :
    s.record? name peer index = some r ↔
      ∃ t,
        s.downloads.transfer? name = some t ∧
          t.record? peer index = some r := by
  unfold record?
  rw [Option.bind_eq_some_iff]

theorem requestsDuring_concat
    (s : Session)
    (events : List Event)
    (e : Event) :
    s.requestsDuring (events ++ [e]) =
      s.requestsDuring events ++ (s.run events).requestsOf e := by
  induction events generalizing s with
  | nil => simp [requestsDuring, Session.run]
  | cons first events ih =>
      rw [List.cons_append, requestsDuring, ih, requestsDuring,
        List.append_assoc]
      rfl

theorem timesAsked_concat
    (s : Session)
    (events : List Event)
    (e : Event) :
    s.timesAsked (events ++ [e]) name peer index =
      s.timesAsked events name peer index +
        askCount
          (((s.run events).requestsOf e).filter
            (·.name = name))
          peer index := by
  unfold timesAsked askCount
  rw [requestsDuring_concat, List.filter_append,
    List.countP_append]

/- A transfer that was there has the chunks that it had. -/
theorem Origin.chunkCount_eq
    {t t' : Transfer}
    (h : s.Origin name t' e)
    (hGet : s.downloads.transfer? name = some t) :
    t'.chunkCount = t.chunkCount := by
  rcases h.remembers_or_tick with hOther | hPass
  · rcases hOther with ⟨-, t₀, hRemembers, hBefore | hNew⟩
    · rw [hGet] at hBefore
      cases hBefore
      exact hRemembers.chunkCount_eq
    · rw [hGet] at hNew
      cases hNew.1
  · rcases hPass with ⟨t₀, now, log, rfl, hBefore, hTick⟩
    rw [hGet] at hBefore
    cases hBefore
    exact (Transfer.passes_tick hTick).chunkCount_eq

/- Between two passes records are kept, dropped or made. -/
theorem record_of_after
    (hStep : e.IsStep)
    (hTime : e.tickTime? = none)
    (hRecord : (s.after e).record? name peer index = some r) :
    s.record? name peer index = some r ∨
      s.record? name peer index = none ∧
        r = RequestRecord.fresh := by
  rcases record?_eq_some_iff.mp hRecord with ⟨t', hGet', hNow⟩
  have hKept :
      ∀ t : Transfer,
        s.downloads.transfer? name = some t →
          t.KeepsRecords t' →
            s.record? name peer index = some r ∨
              s.record? name peer index = none ∧
                r = RequestRecord.fresh := by
    intro t hGet hKeeps
    have hOld : s.record? name peer index =
        t.record? peer index := by
      unfold record?
      rw [hGet, Option.bind_some]
    rw [hOld]
    exact hKeeps peer index r hNow
  cases origin_of_after hGet' with
  | untouched _ hGet =>
      exact Or.inl (record?_eq_some_iff.mpr ⟨t', hGet, hNow⟩)
  | started writer hName hNone hNew =>
      right
      unfold record?
      rw [hNone]
      refine ⟨rfl, ?_⟩
      rw [hNew] at hNow
      rcases (Transfer.remembers_applyPeers _ _).record_or_fresh
        hNow with hOld | hFresh
      · cases hOld
      · exact hFresh
  | @reported t peers hGet hNew =>
      apply hKept t hGet
      rw [hNew]
      rcases peers with _ | ⟨entry, _ | ⟨entry', peers⟩⟩
      · exact Transfer.keepsRecords_of_eq fun _ _ => rfl
      · exact Transfer.keepsRecords_applyPeer t _ _
      · exact absurd hStep (by simp [Event.IsStep])
  | arrived writer hGet hNew =>
      apply hKept _ hGet
      rw [hNew]
      exact Transfer.keepsRecords_of_eq
        (Transfer.record?_accept _ _ _ _ _ _)
  | persisted hGet hNew =>
      apply hKept _ hGet
      rw [hNew]
      exact Transfer.keepsRecords_of_eq
        (Transfer.record?_markPersisted _ _)
  | written writer hGet hNew =>
      apply hKept _ hGet
      rw [hNew]
      exact Transfer.keepsRecords_of_eq fun _ _ => rfl
  | passed => cases hTime

/- A pass counts its requests in the records. -/
theorem IsReachable.exists_tries_of_tick
    (hReachable : s.IsReachable)
    {now : Moment}
    {log : TransferLog}
    {t' : Transfer}
    (hGet' :
      (s.after (.tick now log)).downloads.transfer? name =
        some t')
    (hCount : t'.chunkCount ≤ 65536)
    (hRecord : t'.record? peer index = some r') :
    ∃ r,
      s.record? name peer index = some r ∧
        r'.tries =
          r.tries +
            askCount
              ((s.requestsOf (.tick now log)).filter
                (·.name = name))
              peer index := by
  have hOrigin := origin_of_after hGet'
  cases hOrigin with
  | untouched hTime _ => cases hTime
  | @passed t _ _ hGet hTick =>
      rw [(Transfer.passes_tick hTick).chunkCount_eq] at hCount
      have hFormed := (hReachable.wellFormed hGet).2
      have hComplete := (Transfer.sameProgress_tick hTick).1
      rcases Transfer.safeRequests_tick hFormed hCount hComplete
          now log with ⟨t₁, hRest, hSafe⟩
      rw [hTick] at hRest
      cases hRest
      rcases hSafe.exists_tries_eq hRecord with
        ⟨r, hOld, hTries⟩
      have hNames :
          ∀ other u,
            s.downloads.transfer? other = some u →
              u.name = other :=
        fun other u hOther => (hReachable.wellFormed hOther).1
      have hRequests :
          (s.requestsOf (.tick now log)).filter
              (·.name = name) =
            (t.tick now log).1.requests :=
        Downloads.filter_requests_tick hNames hGet now log
      rw [hRequests]
      exact ⟨r, record?_eq_some_iff.mpr ⟨t, hGet, hOld⟩,
        hTries⟩

/- A record that is there later was made by the same event. -/
theorem IsMadeBy.concat
    {earlier later : List Event}
    {last : Event}
    (h : s.IsMadeBy name peer index earlier e later)
    (hRecord :
      (s.run (earlier ++ e :: (later ++ [last]))).record? name
        peer index = some r) :
    s.IsMadeBy name peer index earlier e (later ++ [last]) where
  absent := h.absent
  fresh := h.fresh
  lasts front hFront := by
    rcases List.prefix_concat_iff.mp hFront with hAll | hBefore
    · rw [hAll]
      exact ⟨r, hRecord⟩
    · exact h.lasts front hBefore

/- A record that is made is tallied, with no requests. -/
theorem isTallied_of_fresh
    {events : List Event}
    (hAbsent : (s.run events).record? name peer index = none)
    (hFresh :
      (s.run (events ++ [e])).record? name peer index =
        some RequestRecord.fresh) :
    s.IsTallied name peer index (events ++ [e])
      RequestRecord.fresh := by
  refine ⟨events, e, [], rfl, ?_, rfl⟩
  exact {
    absent := hAbsent
    fresh := hFresh
    lasts := by
      intro front hFront
      rw [List.prefix_nil.mp hFront]
      exact ⟨_, hFresh⟩ }

/- An event that asks as often as the record counts. -/
theorem IsTallied.concat
    {events : List Event}
    (h : s.IsTallied name peer index events r)
    (hRecord :
      (s.run (events ++ [e])).record? name peer index =
        some r')
    (hTries :
      r'.tries =
        r.tries +
          askCount
            (((s.run events).requestsOf e).filter
              (·.name = name))
            peer index) :
    s.IsTallied name peer index (events ++ [e]) r' := by
  rcases h with ⟨earlier, first, later, rfl, hMade, hOld⟩
  have hAppend :
      earlier ++ first :: later ++ [e] =
        earlier ++ first :: (later ++ [e]) := by
    simp
  have hRun :
      (s.run (earlier ++ [first])).run later =
        s.run (earlier ++ first :: later) := by
    unfold Session.run
    rw [← List.foldl_append]
    simp
  refine ⟨earlier, first, later ++ [e], hAppend, ?_, ?_⟩
  · exact hMade.concat (hAppend ▸ hRecord)
  · rw [timesAsked_concat, hRun, ← hOld]
    exact hTries

theorem requestsOf_eq_nil
    (s : Session)
    (hTime : e.tickTime? = none) :
    s.requestsOf e = [] := by
  cases e with
  | tick now log => cases hTime
  | _ => rfl

/-
  A record counts the requests since it was made.  The
  events report single peers, so a record that is replaced
  is seen to be gone first.
-/
theorem isTallied_run
    {disk : Disk}
    {events : List Event}
    {t : Transfer}
    (hSteps : ∀ e ∈ events, e.IsStep)
    (hGet :
      ((blank disk).run events).downloads.transfer? name =
        some t)
    (hCount : t.chunkCount ≤ 65536)
    (hRecord : t.record? peer index = some r) :
    (blank disk).IsTallied name peer index events r := by
  induction events using List.reverseRecOn generalizing t r with
  | nil => cases hGet
  | append_singleton events last ih =>
      have hBefore : ∀ e ∈ events, e.IsStep :=
        fun e he => hSteps e (List.mem_append_left _ he)
      have hLast : last.IsStep :=
        hSteps last (List.mem_append_right _ List.mem_cons_self)
      have hAfter :
          ((blank disk).run (events ++ [last])).record? name
            peer index = some r :=
        record?_eq_some_iff.mpr ⟨t, hGet, hRecord⟩
      rw [run_concat] at hGet
      have hTallied :
          ∀ old,
            ((blank disk).run events).record? name peer index =
              some old →
            (blank disk).IsTallied name peer index events
              old := by
        intro old hThere
        rcases record?_eq_some_iff.mp hThere with
          ⟨t₀, hGet₀, hRecord₀⟩
        have hSame :=
          (origin_of_after hGet).chunkCount_eq hGet₀
        exact ih hBefore hGet₀ (hSame ▸ hCount) hRecord₀
      cases hTime : last.tickTime? with
      | none =>
          have hRecord' := hAfter
          rw [run_concat] at hRecord'
          rcases record_of_after hLast hTime hRecord' with
            hKept | ⟨hAbsent, rfl⟩
          · apply (hTallied r hKept).concat hAfter
            rw [requestsOf_eq_nil _ hTime]
            rfl
          · exact isTallied_of_fresh hAbsent hAfter
      | some now =>
          cases last with
          | tick now log =>
              rcases (isReachable_run_blank disk
                events).exists_tries_of_tick hGet hCount
                  hRecord with ⟨old, hThere, hTries⟩
              exact (hTallied old hThere).concat hAfter hTries
          | _ => cases hTime

end Session

namespace Transfer

/-
  What holds of a transfer at all times.  Chunks stand at
  their numbers, the arrived ones are counted, no peer is
  evicted and a peer at once, peers are regular, and the
  sets of evicted peers are canonical for the file.
-/
structure IsRegular
    (t : Transfer) : Prop where
  index_eq :
    ∀ (i : Nat) (chunk : ChunkEntry),
      t.chunks[i]? = some chunk → chunk.index = i
  countsArrived : t.CountsArrived
  apart : t.Apart
  peer :
    ∀ peer holder,
      t.peers.get? peer = some holder →
        holder.IsRegular t.chunkCount
  evicted :
    ∀ peer held,
      t.evicted.get? peer = some held →
        held.IsCanonical t.chunkCount

end Transfer

namespace Session

theorem IsReachable.isRegular
    {s : Session}
    (h : s.IsReachable)
    {name : String}
    {t : Transfer}
    (hGet : s.downloads.transfer? name = some t) :
    t.IsRegular where
  index_eq := (h.wellFormed hGet).2.index_eq
  countsArrived := h.countsArrived hGet
  apart := (h.wellFormed hGet).2.apart
  peer := (h.hasRegularPeers hGet).peer
  evicted peer held hHeld :=
    ChunkSet.isCanonical_of_chunkCount_eq
      ((h.hasRegularPeers hGet).evicted peer held hHeld)

/-
  In every run transfers are regular, and as long as chunk
  numbers fit the requests, the tries of a record are the
  requests that were made for its chunk to its peer since
  the record was made.
-/
theorem regular_and_tallied
    {disk : Disk}
    {events : List Event}
    {name : String}
    {t : Transfer}
    (hGet :
      ((blank disk).run events).downloads.transfer? name =
        some t) :
    t.IsRegular ∧
      (t.chunkCount ≤ 65536 →
        ∀ peer index r,
          t.record? peer index = some r →
            ∃ earlier e later,
              events.flatMap Event.steps =
                  earlier ++ e :: later ∧
                (blank disk).IsMadeBy name peer index earlier e
                  later ∧
                r.tries =
                  ((blank disk).run
                    (earlier ++ [e])).timesAsked later name
                      peer index) := by
  refine ⟨(isReachable_run_blank disk events).isRegular hGet,
    ?_⟩
  intro hCount peer index r hRecord
  rw [← run_flatMap_steps] at hGet
  apply isTallied_run ?_ hGet hCount hRecord
  intro step hStep
  rcases List.mem_flatMap.mp hStep with ⟨e, -, hMem⟩
  exact Event.isStep_of_mem_steps hMem

/-
  The second peer was asked for its last chunk in all three
  passes, but was said not to hold it before the third.  So
  the record of the chunk counts one request, and those of
  the first peer count three.
-/
theorem regular_and_tallied_of_two_peers :
    let log := TransferLog.start TransferLog.defaultWindow
    let peer : UInt16 → Endpoint := fun port => ⟨.loopback, port⟩
    let file : FileRecord :=
      ⟨"a", 40000, .ofBytes [],
        List.replicate 3 (.ofBytes [])⟩
    let events : List Event :=
      [.request "a" 0,
        .start file "a" false
          [(peer 1, [0xC0]), (peer 2, [0x60])] 0,
        .tick 0 log, .tick (Span.ofMillis 500) log,
        .applyPeers "a" [(peer 2, [0x40])],
        .applyPeers "a" [(peer 2, [0x60])],
        .tick (Span.ofMillis 1000) log]
    ∃ t r,
      ((blank Disk.empty).run events).downloads.transfer?
          "a" = some t ∧
        t.IsRegular ∧
        t.record? (peer 1) 0 =
          some ⟨some (Span.ofMillis 1000), 3⟩ ∧
        t.record? (peer 2) 1 = some RequestRecord.fresh ∧
        t.record? (peer 2) 2 = some r ∧
        r.tries = 1 ∧
        ∃ earlier e later,
          events.flatMap Event.steps = earlier ++ e :: later ∧
            (blank Disk.empty).IsMadeBy "a" (peer 2) 2 earlier
              e later ∧
            r.tries =
              ((blank Disk.empty).run
                (earlier ++ [e])).timesAsked later "a" (peer 2)
                  2 := by
  intro log peer file events
  have hEvaluated :
      (((blank Disk.empty).run events).downloads.transfer?
          "a").map (fun t =>
            (t.chunkCount, t.record? (peer 1) 0,
              t.record? (peer 2) 1, t.record? (peer 2) 2)) =
        some
          (3, some ⟨some (Span.ofMillis 1000), 3⟩,
            some RequestRecord.fresh,
            some ⟨some (Span.ofMillis 1000), 1⟩) := by
    delta run after Downloads.tick Download.tick Transfer.tick
      Transfer.schedule Schedule.visit
    rw [Transfer.missing_eq_insertionSort,
      Transfer.rankedPeers_eq_insertionSort,
      restore_eq_insertionSort]
    decide +kernel
  rcases Option.map_eq_some_iff.mp hEvaluated with
    ⟨t, hGet, hFacts⟩
  simp only [Prod.mk.injEq] at hFacts
  rcases hFacts with ⟨hCount, hFirst, hFresh, hLast⟩
  have hSmall : t.chunkCount ≤ 65536 := by
    rw [hCount]
    decide
  rcases regular_and_tallied hGet with ⟨hRegular, hTallied⟩
  exact ⟨t, _, hGet, hRegular, hFirst, hFresh, hLast, rfl,
    hTallied hSmall (peer 2) 2 _ hLast⟩

/-
  The chunk 65536 is requested under the number zero, so its
  record counts a request that was not made for it.
-/
theorem not_tallied_of_shared_number :
    let peer : Endpoint := ⟨.loopback, 1⟩
    let log := TransferLog.start TransferLog.defaultWindow
    let file : FileRecord :=
      ⟨"a", 1, .ofBytes [], List.replicate 65537 (.ofBytes [])⟩
    let events : List Event :=
      [.request "a" 0,
        .start file "a" false
          [(peer, Packing.ofIndices [65536])] 0,
        .tick 0 log]
    ∃ t r,
      ((blank Disk.empty).run events).downloads.transfer?
          "a" = some t ∧
        t.record? peer 65536 = some r ∧
        r.tries = 1 ∧
        (blank Disk.empty).timesAsked events "a" peer 65536 =
          0 := by
  intro peer log file events
  have hAwaiting :
      (awaiting "a").downloads.isAwaiting "a" = true :=
    rfl
  have hIndex : 65536 < (List.replicate 65537
      (Digest.ofBytes [])).length := by
    rw [List.length_replicate]
    decide
  have hStart :=
    hasLone_start hAwaiting 1 (.ofBytes []) _ "a" peer hIndex 0
  rcases hStart.tick_asks 0 rfl (by decide) log with
    ⟨t, hGet, -, hLone⟩
  exact ⟨t, _, hGet, hLone.record?_eq, rfl,
    askCount_of_le _ peer (Nat.le_refl 65536)⟩

end Session

end PeerShare
