import PeerShare.Proofs.Fetch.Tally
import PeerShare.Proofs.Packing.Masks

/-
  The life of a download, from its start to its completion.

  A download starts when its file was requested and is
  answered, and nothing replaces it while it lasts.  Chunks
  that have arrived stay so.  The first pass after the last
  chunk has arrived hands the file out and ends the
  download, so no file is handed out twice unless it was
  started twice.

  Key definitions include:
    * `Transfer.HasAll`
    * `Transfer.KeepsArrived`
    * `Downloads.HandsOut`
    * `Session.Starts`
    * `Session.completedDuring`

  Key theorems include:
    * `Transfer.CountsArrived.isComplete_iff`
    * `Downloads.handsOut_tick`
    * `Session.exists_keepsArrived_run`
    * `Session.IsReachable.length_completedDuring_le`
    * `Session.completed_once`
-/

------------------------------------------------------------
-- Complete Transfers
------------------------------------------------------------

namespace PeerShare

namespace Transfer

variable {t t' t'' : Transfer}
variable {now : Moment}
variable {log : TransferLog}

/- Whether every chunk of the file has arrived. -/
def HasAll
    (t : Transfer) : Prop :=
  ∀ (i : Nat) (chunk : ChunkEntry),
    t.chunks[i]? = some chunk → chunk.downloaded = true

/- The count tells whether every chunk has arrived. -/
theorem CountsArrived.isComplete_iff
    (h : t.CountsArrived) :
    t.isComplete = true ↔ t.HasAll := by
  unfold isComplete chunkCount
  rw [beq_iff_eq, h, ← Array.length_toList,
    List.countP_eq_length]
  constructor
  · intro hAll i chunk hGet
    exact hAll chunk
      (Array.mem_toList_iff.mpr (Array.mem_of_getElem? hGet))
  · intro hAll chunk hMem
    rcases List.mem_iff_getElem?.mp hMem with ⟨i, hGet⟩
    rw [Array.getElem?_toList] at hGet
    exact hAll i chunk hGet

/- Whether chunks that have arrived once stay so. -/
def KeepsArrived
    (t t' : Transfer) : Prop :=
  ∀ (i : Nat) (chunk : ChunkEntry),
    t.chunks[i]? = some chunk →
      chunk.downloaded = true →
        ∃ chunk',
          t'.chunks[i]? = some chunk' ∧
            chunk'.downloaded = true

namespace KeepsArrived

theorem of_eq
    (h : t'.chunks = t.chunks) :
    t.KeepsArrived t' := by
  intro i chunk hGet hArrived
  exact ⟨chunk, h ▸ hGet, hArrived⟩

theorem trans
    (h : t.KeepsArrived t')
    (h' : t'.KeepsArrived t'') :
    t.KeepsArrived t'' := by
  intro i chunk hGet hArrived
  rcases h i chunk hGet hArrived with
    ⟨chunk', hGet', hArrived'⟩
  exact h' i chunk' hGet' hArrived'

/- An entry is only replaced by one that has arrived too. -/
theorem setChunk
    {index : Nat}
    {old new : ChunkEntry}
    (hGet : t.chunks[index]? = some old)
    (hKeeps : old.downloaded = true → new.downloaded = true) :
    t.KeepsArrived (t.setChunk index new) := by
  intro i chunk hChunk hArrived
  rw [getElem?_setChunk new hGet]
  by_cases hIndex : i = index
  · rw [hIndex, hGet] at hChunk
    cases hChunk
    exact ⟨new, if_pos hIndex, hKeeps hArrived⟩
  · exact ⟨chunk, by rw [if_neg hIndex, hChunk], hArrived⟩

theorem of_judged
    {index : UInt16}
    {data : Bytes}
    {verdict : Verdict}
    (h : t.Judged index data verdict t') :
    t.KeepsArrived t' := by
  cases h with
  | refused => exact of_eq rfl
  | @accepted chunk _ hGet hFresh hDigest hSame =>
      have hSet :
          t.KeepsArrived
            (t.setChunk index.toNat
              { chunk with downloaded := true }) :=
        setChunk hGet fun _ => rfl
      exact hSet.trans (of_eq hSame.chunks_eq)

theorem markPersisted
    (t : Transfer)
    (index : UInt16) :
    t.KeepsArrived (t.markPersisted index) := by
  rcases t.markPersisted_eq index with hSame | hSet
  · rw [hSame]
    exact of_eq rfl
  · rcases hSet with ⟨chunk, hGet, hSet⟩
    rw [hSet]
    exact setChunk hGet id

end KeepsArrived

end Transfer

end PeerShare

------------------------------------------------------------
-- What Is Handed Out
------------------------------------------------------------

namespace PeerShare

/- The name of the file that a message is about. -/
def Wire.Message.fileName? : Wire.Message → Option String
  | .init .. => none
  | .publish file => some file.name
  | .request name => some name
  | .holdings name _ => some name
  | .refresh name => some name
  | .remove name => some name
  | .success name _ => some name
  | .alreadyExists name => some name
  | .notFound name => some name
  | .answer file _ => some file.name

/- Messages of a pass over a transfer are about its file. -/
theorem Transfer.fileName?_of_mem_messages_tick
    {t : Transfer}
    {now : Moment}
    {log : TransferLog}
    {m : Wire.Message}
    (h : m ∈ (t.tick now log).1.messages) :
    m.fileName? = some t.name := by
  have hAll :
      (t.tick now log).1.messages ⊆ t.refreshMessages := by
    unfold tick
    dsimp only
    cases t.isComplete with
    | true => exact List.Subset.refl _
    | false =>
        rw [if_neg Bool.false_ne_true]
        dsimp only
        split
        · exact List.Subset.refl _
        · exact List.nil_subset _
  have hMem := hAll h
  unfold refreshMessages at hMem
  simp only [List.mem_cons, List.not_mem_nil, or_false] at hMem
  rcases hMem with rfl | rfl
  · rfl
  · rfl

namespace Downloads

variable {d : Downloads}
variable {name : String}
variable {t : Transfer}
variable {now : Moment}
variable {log : TransferLog}

/-
  What a pass decides about a file that is complete: it is
  handed out once, the tracker is told of all its chunks, in
  packed form, and asked for its peers, nothing is
  requested, and the download is gone.
-/
structure HandsOut
    (d : Downloads)
    (name : String)
    (t : Transfer)
    (now : Moment)
    (log : TransferLog) : Prop where
  completed :
    (d.tick now log).1.completed.filter
        (·.file.record.name = name) =
      [t.complete now]
  messages :
    ∃ bits,
      Packing.IsPacked bits (· < t.chunkCount) ∧
        (d.tick now log).1.messages.filter
            (·.fileName? = some name) =
          [.holdings name bits, .refresh name]
  requests :
    (d.tick now log).1.requests.filter (·.name = name) = []
  gone : (d.tick now log).2.contains name = false

theorem completed_tick
    (d : Downloads)
    (now : Moment)
    (log : TransferLog) :
    (d.tick now log).1.completed =
      d.files.entries.flatMap fun entry =>
        (entry.2.tick now log).1.completed := by
  rw [tick_eq_foldl, foldl_tickEntry_fst]
  exact List.nil_append _

theorem messages_tick
    (d : Downloads)
    (now : Moment)
    (log : TransferLog) :
    (d.tick now log).1.messages =
      d.files.entries.flatMap fun entry =>
        (entry.2.tick now log).1.messages := by
  rw [tick_eq_foldl, foldl_tickEntry_fst]
  exact List.nil_append _

/- A file is handed out just when its transfer is. -/
theorem filter_completed_tick
    (hNames :
      ∀ other u, d.transfer? other = some u → u.name = other)
    (hGet : d.transfer? name = some t)
    (now : Moment)
    (log : TransferLog) :
    (d.tick now log).1.completed.filter
        (·.file.record.name = name) =
      (t.tick now log).1.completed := by
  rw [completed_tick]
  refine filter_flatMap_tick (·.completed) _ rfl ?_ hNames hGet
  intro u c hc
  rw [(Transfer.mem_completed_tick hc).2.1]
  rfl

theorem filter_messages_tick
    (hNames :
      ∀ other u, d.transfer? other = some u → u.name = other)
    (hGet : d.transfer? name = some t)
    (now : Moment)
    (log : TransferLog) :
    (d.tick now log).1.messages.filter
        (·.fileName? = some name) =
      (t.tick now log).1.messages := by
  rw [messages_tick]
  refine filter_flatMap_tick (·.messages) _ rfl ?_ hNames hGet
  intro u m hm
  rw [Transfer.fileName?_of_mem_messages_tick hm]
  simp only [Option.some.injEq]

/- What is not fetched is not handed out. -/
theorem filter_completed_tick_of_none
    (hNames :
      ∀ other u, d.transfer? other = some u → u.name = other)
    (hNone : d.transfer? name = none)
    (now : Moment)
    (log : TransferLog) :
    (d.tick now log).1.completed.filter
        (·.file.record.name = name) = [] := by
  apply List.filter_eq_nil_iff.mpr
  intro c hc hName
  rcases exists_of_mem_completed_tick hc with
    ⟨other, u, hGet, hMem⟩
  have hRecord := (Transfer.mem_completed_tick hMem).2.1
  have hOther : other = name := by
    rw [← hNames other u hGet, ← of_decide_eq_true hName,
      hRecord]
    rfl
  rw [hOther, hNone] at hGet
  cases hGet

/- A complete file is handed out in the next pass. -/
theorem handsOut_tick
    (hNames :
      ∀ other u, d.transfer? other = some u → u.name = other)
    (hGet : d.transfer? name = some t)
    (hComplete : t.isComplete = true)
    (now : Moment)
    (log : TransferLog) :
    d.HandsOut name t now log := by
  have hTick := @Transfer.tick_of_isComplete t now log hComplete
  refine ⟨?_, ?_, ?_, ?_⟩
  · rw [filter_completed_tick hNames hGet, hTick]
    rfl
  · refine ⟨(ChunkSet.full t.chunkCount).toWire, ?_, ?_⟩
    · apply ChunkSet.isPacked_toWire
      intro i
      rw [ChunkSet.has_full, decide_eq_true_iff]
    · rw [filter_messages_tick hNames hGet, hTick]
      dsimp only
      unfold Transfer.refreshMessages
      rw [hComplete, hNames name t hGet]
      rfl
  · rw [filter_requests_tick hNames hGet, hTick]
  · have hEntry := transfer?_eq_some_iff.mp hGet
    unfold contains
    rw [Table.contains_eq_false_iff, get?_tick, hEntry]
    unfold Download.tick
    dsimp only [Option.bind_some]
    rw [hTick]
    rfl

end Downloads

end PeerShare

------------------------------------------------------------
-- Runs without a Start
------------------------------------------------------------

namespace PeerShare

namespace Session

variable {s : Session}
variable {name : String}
variable {e : Event}
variable {events : List Event}
variable {t t' : Transfer}

/-
  Whether an event starts the download of a file: the file
  was requested, and if it is to have a writer, that can be
  made.
-/
def Starts
    (s : Session)
    (name : String) : Event → Prop
  | .start file path writes _ _ =>
      file.name = name ∧
        s.downloads.isAwaiting name = true ∧
        (writes = true →
          ∃ w disk,
            ChunkWriter.create s.disk path file.size.toNat =
              (.ok w, disk))
  | _ => False

/- Whether no event of a run starts the download of a file. -/
def NeverStarts
    (s : Session)
    (name : String) : List Event → Prop
  | [] => True
  | e :: events =>
      ¬ s.Starts name e ∧ (s.after e).NeverStarts name events

/- What an event hands out of a file. -/
def completedBy
    (s : Session)
    (name : String) : Event → List Completed
  | .tick now log =>
      (s.downloads.tick now log).1.completed.filter
        (·.file.record.name = name)
  | _ => []

/- What a run hands out of a file. -/
def completedDuring
    (s : Session)
    (name : String) : List Event → List Completed
  | [] => []
  | e :: events =>
      s.completedBy name e ++
        (s.after e).completedDuring name events

/- A transfer that an answer brings about is started by it. -/
theorem starts_of_transfer?_start
    {file : FileRecord}
    {path : String}
    {writes : Bool}
    {peers : List (Endpoint × Bytes)}
    {now : Moment}
    (hNone : s.downloads.transfer? name = none)
    (h :
      (s.start file path writes peers now).downloads.transfer?
        name = some t') :
    s.Starts name (.start file path writes peers now) := by
  have hStart :
      ∀ t₀ : Transfer,
        t₀.name = file.name →
        (s.downloads.start (t₀.applyPeers peers)).2.transfer?
            name = some t' →
        file.name = name ∧
          s.downloads.isAwaiting name = true := by
    intro t₀ hName hGet
    rw [Downloads.transfer?_start,
      (t₀.sameProgress_applyPeers peers).name_eq, hName]
      at hGet
    split at hGet
    · rename_i hBoth
      exact ⟨hBoth.1.symm, hBoth.1 ▸ hBoth.2⟩
    · rw [hNone] at hGet
      cases hGet
  unfold start at h
  dsimp only at h
  split at h
  · split at h
    · rw [hNone] at h
      cases h
    · rename_i w disk hCreate
      rcases hStart
          ((Transfer.start file path now).withWriter w) rfl h
        with ⟨hName, hAwaiting⟩
      exact ⟨hName, hAwaiting, fun _ => ⟨w, disk, hCreate⟩⟩
  · rename_i hWrites
    rcases hStart (Transfer.start file path now) rfl h with
      ⟨hName, hAwaiting⟩
    exact ⟨hName, hAwaiting, fun hTrue => absurd hTrue hWrites⟩

/- Without a start no download comes about. -/
theorem transfer?_after_eq_none
    (hNone : s.downloads.transfer? name = none)
    (hStarts : ¬ s.Starts name e) :
    (s.after e).downloads.transfer? name = none := by
  cases hAfter : (s.after e).downloads.transfer? name with
  | none => rfl
  | some t' =>
      exfalso
      have hOrigin := origin_of_after hAfter
      cases hOrigin with
      | untouched _ hGet => simp [hNone] at hGet
      | started writer hName hBefore hNew =>
          exact hStarts (starts_of_transfer?_start hNone hAfter)
      | reported hGet => simp [hNone] at hGet
      | arrived writer hGet => simp [hNone] at hGet
      | persisted hGet => simp [hNone] at hGet
      | written writer hGet => simp [hNone] at hGet
      | passed hGet => simp [hNone] at hGet

/- No event replaces a transfer or forgets a chunk of it. -/
theorem keepsArrived_after
    (hGet : s.downloads.transfer? name = some t)
    (hGet' : (s.after e).downloads.transfer? name = some t') :
    t.KeepsArrived t' := by
  have hSame :
      ∀ {t₀ : Transfer},
        s.downloads.transfer? name = some t₀ → t₀ = t := by
    intro t₀ hGet₀
    exact Option.some.inj (hGet₀.symm.trans hGet)
  cases origin_of_after hGet' with
  | untouched _ hBefore =>
      rw [hSame hBefore]
      exact .of_eq rfl
  | started writer hName hNone hNew =>
      rw [hNone] at hGet
      cases hGet
  | reported hBefore hNew =>
      rw [hNew, hSame hBefore]
      exact .of_eq (t.sameProgress_applyPeers _).chunks_eq
  | arrived writer hBefore hNew =>
      rw [hNew, hSame hBefore]
      apply Transfer.KeepsArrived.trans
        (.of_judged (t.judged_accept _ _ _ _ _))
      exact .of_eq rfl
  | persisted hBefore hNew =>
      rw [hNew, hSame hBefore]
      exact .markPersisted t _
  | written writer hBefore hNew =>
      rw [hNew, hSame hBefore]
      exact .of_eq rfl
  | passed hBefore hTick =>
      rw [hSame hBefore] at hTick
      exact .of_eq (Transfer.sameProgress_tick hTick).2.chunks_eq

/- A download that was not started has gone on since. -/
theorem exists_keepsArrived_run
    (hNever : s.NeverStarts name events)
    (hGet' :
      (s.run events).downloads.transfer? name = some t') :
    ∃ t,
      s.downloads.transfer? name = some t ∧
        t.KeepsArrived t' := by
  induction events generalizing s with
  | nil => exact ⟨t', hGet', .of_eq rfl⟩
  | cons e events ih =>
      rcases ih hNever.2 hGet' with ⟨t₁, hBetween, hLater⟩
      cases hGet : s.downloads.transfer? name with
      | none =>
          rw [transfer?_after_eq_none hGet hNever.1] at hBetween
          cases hBetween
      | some t =>
          exact ⟨t, rfl,
            (keepsArrived_after hGet hBetween).trans hLater⟩

/- What is not fetched and never started is not handed out. -/
theorem IsReachable.completedDuring_eq_nil
    (hReachable : s.IsReachable)
    (hNone : s.downloads.transfer? name = none)
    (hNever : s.NeverStarts name events) :
    s.completedDuring name events = [] := by
  induction events generalizing s with
  | nil => rfl
  | cons e events ih =>
      have hAfter := transfer?_after_eq_none hNone hNever.1
      have hRest := ih (hReachable.after e) hAfter hNever.2
      have hNow : s.completedBy name e = [] := by
        cases e with
        | tick now log =>
            exact Downloads.filter_completed_tick_of_none
              hReachable.name_eq
              hNone now log
        | _ => rfl
      rw [completedDuring, hNow, hRest, List.append_nil]

/- Between two starts a file is handed out once at most. -/
theorem IsReachable.length_completedDuring_le
    (hReachable : s.IsReachable)
    (hNever : s.NeverStarts name events) :
    (s.completedDuring name events).length ≤ 1 := by
  induction events generalizing s with
  | nil => exact Nat.zero_le 1
  | cons e events ih =>
      have hRest := ih (hReachable.after e) hNever.2
      cases e with
      | tick now log =>
          have hNames := hReachable.name_eq
          cases hGet : s.downloads.transfer? name with
          | none =>
              rw [hReachable.completedDuring_eq_nil hGet hNever]
              exact Nat.zero_le 1
          | some t =>
              rw [completedDuring, completedBy]
              cases hComplete : t.isComplete with
              | false =>
                  rw [Downloads.filter_completed_tick hNames
                    hGet]
                  rcases @Transfer.tick_of_not_isComplete t now
                      log hComplete with
                    ⟨-, -, -, -, -, hNothing, -⟩
                  rw [hNothing]
                  exact hRest
              | true =>
                  -- the pass ends the download
                  have hOut :=
                    Downloads.handsOut_tick hNames hGet
                      hComplete now log
                  have hGone :
                      (s.after
                        (.tick now log)).downloads.transfer?
                          name = none := by
                    unfold Session.after
                    dsimp only
                    rw [Downloads.transfer?_tick, hGet,
                      Option.bind_some,
                      Transfer.tick_of_isComplete hComplete]
                  rw [hOut.completed,
                    (hReachable.after _).completedDuring_eq_nil
                      hGone hNever.2]
                  exact Nat.le_refl 1
      | _ => exact hRest

/-
  A pass hands a file out just when all chunks of the file
  had arrived, and then ends its download.  From one start
  of the download to the next this happens once at most, and
  a chunk that has arrived stays so.
-/
theorem completed_once
    (hReachable : s.IsReachable)
    (name : String) :
    (∀ now log,
        ((∃ c ∈ (s.downloads.tick now log).1.completed,
              c.file.record.name = name) ↔
            ∃ t,
              s.downloads.transfer? name = some t ∧
                t.HasAll) ∧
          ∀ t,
            s.downloads.transfer? name = some t →
              t.HasAll →
                s.downloads.HandsOut name t now log) ∧
      ∀ events,
        s.NeverStarts name events →
          (s.completedDuring name events).length ≤ 1 ∧
            ∀ t t',
              s.downloads.transfer? name = some t →
                (s.run events).downloads.transfer? name =
                    some t' →
                  t.KeepsArrived t' := by
  have hNames := hReachable.name_eq
  have hComplete :
      ∀ t,
        s.downloads.transfer? name = some t →
          (t.isComplete = true ↔ t.HasAll) :=
    fun t hGet => (hReachable.countsArrived hGet).isComplete_iff
  have hOut :
      ∀ t now log,
        s.downloads.transfer? name = some t →
          t.HasAll → s.downloads.HandsOut name t now log := by
    intro t now log hGet hAll
    exact Downloads.handsOut_tick hNames hGet
      ((hComplete t hGet).mpr hAll) now log
  refine ⟨fun now log => ⟨⟨?_, ?_⟩, ?_⟩, ?_⟩
  · rintro ⟨c, hMem, hName⟩
    rcases Downloads.exists_of_mem_completed_tick hMem with
      ⟨other, t, hGet, hOwn⟩
    rcases Transfer.mem_completed_tick hOwn with
      ⟨hDone, hFile, -⟩
    have hOther : other = name := by
      rw [← hNames other t hGet, ← hName, hFile]
      rfl
    rw [hOther] at hGet
    exact ⟨t, hGet, (hComplete t hGet).mp hDone⟩
  · rintro ⟨t, hGet, hAll⟩
    have hMem :
        t.complete now ∈
          (s.downloads.tick now log).1.completed.filter
            (·.file.record.name = name) := by
      rw [(hOut t now log hGet hAll).completed]
      exact List.mem_cons_self
    rcases List.mem_filter.mp hMem with ⟨hCompleted, hName⟩
    exact ⟨_, hCompleted, of_decide_eq_true hName⟩
  · exact fun t hGet hAll => hOut t now log hGet hAll
  · intro events hNever
    refine ⟨hReachable.length_completedDuring_le hNever, ?_⟩
    intro t t' hGet hGet'
    rcases exists_keepsArrived_run hNever hGet' with
      ⟨t₀, hBefore, hKeeps⟩
    rw [hGet] at hBefore
    cases hBefore
    exact hKeeps

/-
  Three chunks arrive out of order.  The file is handed out
  once, though it is awaited again, and the tracker is told
  of three chunks.
-/
theorem completed_once_of_three_chunks :
    let log := TransferLog.start TransferLog.defaultWindow
    let file : FileRecord :=
      ⟨"a", 40000, .ofBytes [],
        [Digest.of [7], Digest.of [8], Digest.of [9]]⟩
    let chunk : UInt16 → UInt8 → Event := fun index byte =>
      .arrive "a" index [byte] ⟨.loopback, 1⟩ 0 log
    let s :=
      (awaiting "a").run
        [.start file "a" false [] 0, chunk 2 9, chunk 0 7,
          chunk 1 8]
    let events : List Event :=
      [.tick 1 log, .request "a" 2, .tick 3 log]
    (∃ t,
        s.downloads.transfer? "a" = some t ∧
          t.HasAll ∧ s.downloads.HandsOut "a" t 1 log) ∧
      (s.downloads.tick 1 log).1.messages =
        [.holdings "a" [0xE0], .refresh "a"] ∧
      s.NeverStarts "a" events ∧
      (s.completedDuring "a" events).length = 1 := by
  intro log file chunk s events
  have hReachable : s.IsReachable :=
    (isReachable_awaiting "a").run _
  have hEvaluated :
      (s.downloads.transfer? "a").map
            (·.chunks.toList.all (·.downloaded)) =
          some true ∧
        (s.downloads.tick 1 log).1.messages =
            [.holdings "a" [0xE0], .refresh "a"] ∧
          (s.completedDuring "a" events).length = 1 := by
    decide +kernel
  rcases hEvaluated with ⟨hArrived, hMessages, hOnce⟩
  rcases Option.map_eq_some_iff.mp hArrived with
    ⟨t, hGet, hFlags⟩
  have hAll : t.HasAll := by
    intro i chunk hChunk
    exact List.all_eq_true.mp hFlags chunk
      (Array.mem_toList_iff.mpr (Array.mem_of_getElem? hChunk))
  have hNever : s.NeverStarts "a" events :=
    ⟨id, id, id, trivial⟩
  rcases completed_once hReachable "a" with ⟨hTick, hRun⟩
  exact ⟨⟨t, hGet, hAll, (hTick 1 log).2 t hGet hAll⟩,
    hMessages, hNever,
    Nat.le_antisymm (hRun events hNever).1 hOnce.ge⟩

end Session

end PeerShare
