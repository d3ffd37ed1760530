import PeerShare.Proofs.Fetch.Records
import PeerShare.Proofs.Fetch.Session

/-
  Where the transfers come from that are there after an
  event.

  A transfer is new, or it has been there before and one
  operation was applied to it.  Whatever holds of new
  transfers and is kept by each operation holds in every
  run.

  Key definitions include:
    * `Session.Origin`
    * `Session.Event.tickTime?`
    * `Session.requestsOf`

  Key theorems include:
    * `Session.origin_of_after`
    * `Session.Origin.remembers_or_tick`
    * `Session.IsReachable.hasRegularPeers`
-/

------------------------------------------------------------
-- Arriving Chunks
------------------------------------------------------------

namespace PeerShare

/- The same transfer with another writer, or with none. -/
def Transfer.setWriter
    (t : Transfer)
    (writer : Option ChunkWriter) : Transfer :=
  { t with writer }

theorem Transfer.remembers_setWriter
    (t : Transfer)
    (writer : Option ChunkWriter) :
    t.Remembers (t.setWriter writer) :=
  remembers_of_eq rfl rfl rfl

namespace Downloads

/-
  What the transfer of a file is after a chunk of the file
  has arrived.
-/
theorem exists_accept_of_arrive
    {d : Downloads}
    {name : String}
    {t : Transfer}
    (hGet : d.transfer? name = some t)
    (index : UInt16)
    (data : Bytes)
    (sender : Endpoint)
    (now : Moment)
    (log : TransferLog) :
    ∃ writer,
      ∀ other,
        (d.arrive name index data sender now log).transfer?
            other =
          if other = name then
            some
              ((t.accept index data sender now log).2.1.setWriter
                writer)
          else d.transfer? other := by
  unfold arrive
  rw [accept_eq hGet]
  rcases hAccept : t.accept index data sender now log with
    ⟨verdict, t', log'⟩
  dsimp only
  by_cases hVerdict : verdict = .accepted true
  · rw [hVerdict]
    dsimp only
    have hSet : (d.set name t').transfer? name = some t' := by
      rw [transfer?_set, if_pos rfl]
    unfold enqueue Transfer.enqueue
    rw [hSet]
    dsimp only
    cases hWriter : t'.writer with
    | none =>
        refine ⟨none, ?_⟩
        intro other
        dsimp only
        rw [transfer?_set, transfer?_set]
        rw [← hWriter]
        split <;> rfl
    | some w =>
        dsimp only
        cases w.enqueue index data with
        | error e =>
            refine ⟨some w, ?_⟩
            intro other
            dsimp only
            rw [transfer?_set, ← hWriter]
            rfl
        | ok w' =>
            refine ⟨some w', ?_⟩
            intro other
            dsimp only
            rw [transfer?_set, transfer?_set]
            split <;> rfl
  · refine ⟨t'.writer, ?_⟩
    intro other
    split
    · rename_i hEq
      cases hEq
      exact absurd rfl hVerdict
    · rename_i hEq
      cases hEq
      exact transfer?_set d name _ other

end Downloads

end PeerShare

------------------------------------------------------------
-- Origins
------------------------------------------------------------

namespace PeerShare

namespace Session

/- The time of a pass. -/
def Event.tickTime? : Event → Option Moment
  | .tick now _ => some now
  | _ => none

/- The requests that an event leads to. -/
def requestsOf
    (s : Session) : Event → List ChunkRequest
  | .tick now log => (s.downloads.tick now log).1.requests
  | _ => []

/-
  Where a transfer of a file comes from that is there after
  an event.
-/
inductive Origin
    (s : Session)
    (name : String)
    (t' : Transfer) : Event → Prop where
  | untouched
      {e : Event}
      (hTime : e.tickTime? = none)
      (hGet : s.downloads.transfer? name = some t') :
      Origin s name t' e
  | started
      {file : FileRecord}
      {path : String}
      {writes : Bool}
      {peers : List (Endpoint × Bytes)}
      {now : Moment}
      (writer : Option ChunkWriter)
      (hName : name = file.name)
      (hNone : s.downloads.transfer? name = none)
      (hNew :
        t' =
          ((Transfer.start file path now).setWriter
            writer).applyPeers peers) :
      Origin s name t' (.start file path writes peers now)
  | reported
      {t : Transfer}
      {peers : List (Endpoint × Bytes)}
      (hGet : s.downloads.transfer? name = some t)
      (hNew : t' = t.applyPeers peers) :
      Origin s name t' (.applyPeers name peers)
  | arrived
      {t : Transfer}
      {index : UInt16}
      {data : Bytes}
      {sender : Endpoint}
      {now : Moment}
      {log : TransferLog}
      (writer : Option ChunkWriter)
      (hGet : s.downloads.transfer? name = some t)
      (hNew :
        t' =
          (t.accept index data sender now log).2.1.setWriter
            writer) :
      Origin s name t' (.arrive name index data sender now log)
  | persisted
      {t : Transfer}
      {index : UInt16}
      (hGet : s.downloads.transfer? name = some t)
      (hNew : t' = t.markPersisted index) :
      Origin s name t' (.markPersisted name index)
  | written
      {t : Transfer}
      {position : Nat}
      (writer : Option ChunkWriter)
      (hGet : s.downloads.transfer? name = some t)
      (hNew : t' = t.setWriter writer) :
      Origin s name t' (.write name position)
  | passed
      {t : Transfer}
      {now : Moment}
      {log : TransferLog}
      (hGet : s.downloads.transfer? name = some t)
      (hTick : (t.tick now log).2 = some t') :
      Origin s name t' (.tick now log)

variable {s : Session}
variable {name : String}
variable {t' : Transfer}

/- A transfer that starts is the only one of its name. -/
theorem origin_of_start
    {file : FileRecord}
    {path : String}
    {writes : Bool}
    {peers : List (Endpoint × Bytes)}
    {now : Moment}
    (h :
      (s.start file path writes peers now).downloads.transfer?
        name = some t') :
    s.Origin name t' (.start file path writes peers now) := by
  have hStart :
      ∀ writer,
        (s.downloads.start
            (((Transfer.start file path now).setWriter
              writer).applyPeers peers)).2.transfer? name =
            some t' →
          s.Origin name t'
            (.start file path writes peers now) := by
    intro writer hGet
    have hName :
        (((Transfer.start file path now).setWriter
          writer).applyPeers peers).name = file.name :=
      (Transfer.sameProgress_applyPeers _ peers).name_eq
    rw [Downloads.transfer?_start, hName] at hGet
    split at hGet
    · rename_i hBoth
      cases hGet
      refine .started writer hBoth.1 ?_ rfl
      rw [hBoth.1]
      exact Downloads.transfer?_of_isAwaiting hBoth.2
    · exact .untouched rfl hGet
  unfold start at h
  dsimp only at h
  split at h
  · split at h
    · exact .untouched rfl h
    · rename_i w disk _
      exact hStart (some w) h
  · exact hStart none h

/- Every transfer that is there after an event has an origin. -/
theorem origin_of_after
    {e : Event}
    (h : (s.after e).downloads.transfer? name = some t') :
    s.Origin name t' e := by
  cases e with
  | request file now =>
      apply Origin.untouched rfl
      rw [← s.downloads.transfer?_request file now]
      exact h
  | start file path writes peers now => exact origin_of_start h
  | applyPeers file peers =>
      unfold after at h
      dsimp only at h
      rw [Downloads.transfer?_applyPeers] at h
      split at h
      · rename_i hName
        rw [Option.map_eq_some_iff] at h
        rcases h with ⟨t, hGet, hNew⟩
        rw [← hName] at hGet
        exact hName ▸ .reported hGet hNew.symm
      · exact .untouched rfl h
  | arrive file index data sender now log =>
      unfold after at h
      dsimp only at h
      cases hGet : s.downloads.transfer? file with
      | none =>
          rw [Downloads.arrive_of_none hGet] at h
          exact .untouched rfl h
      | some t =>
          rcases Downloads.exists_accept_of_arrive hGet index
              data sender now log with ⟨writer, hAll⟩
          rw [hAll] at h
          split at h
          · rename_i hName
            cases h
            rw [← hName] at hGet ⊢
            exact .arrived writer hGet rfl
          · exact .untouched rfl h
  | markPersisted file index =>
      unfold after at h
      dsimp only at h
      rw [Downloads.transfer?_markPersisted] at h
      split at h
      · rename_i hName
        rw [Option.map_eq_some_iff] at h
        rcases h with ⟨t, hGet, hNew⟩
        rw [← hName] at hGet
        exact hName ▸ .persisted hGet hNew.symm
      · exact .untouched rfl h
  | write file position =>
      unfold after write at h
      dsimp only at h
      split at h
      · exact .untouched rfl h
      · rename_i hPerform
        rcases Downloads.perform_eq_some_iff.mp hPerform with
          ⟨t, w, w', hGet, -, -, hSet⟩
        rw [hSet] at h
        dsimp only at h
        rw [Downloads.transfer?_set] at h
        split at h
        · rename_i hName
          rw [← hName] at hGet
          exact hName ▸
            .written (some w') hGet (Option.some.inj h).symm
        · exact .untouched rfl h
  | discard file =>
      unfold after at h
      dsimp only at h
      rw [Downloads.transfer?_discard] at h
      split at h
      · cases h
      · exact .untouched rfl h
  | tick now log =>
      unfold after at h
      dsimp only at h
      rw [Downloads.transfer?_tick,
        Option.bind_eq_some_iff] at h
      rcases h with ⟨t, hGet, hTick⟩
      exact .passed hGet hTick

/-
  A transfer that did not come through a pass remembers its
  peers, or is a new one, which had none.
-/
theorem Origin.remembers_or_tick
    {e : Event}
    (h : s.Origin name t' e) :
    (e.tickTime? = none ∧
        ∃ t : Transfer,
          t.Remembers t' ∧
            (s.downloads.transfer? name = some t ∨
              s.downloads.transfer? name = none ∧
                t.peers = Table.empty ∧
                t.evicted = Table.empty)) ∨
      ∃ t now log,
        e = .tick now log ∧
          s.downloads.transfer? name = some t ∧
          (t.tick now log).2 = some t' := by
  cases h with
  | untouched hTime hGet =>
      exact Or.inl ⟨hTime, t',
        Transfer.remembers_of_eq rfl rfl rfl, Or.inl hGet⟩
  | started writer hName hNone hNew =>
      rw [hNew]
      exact Or.inl ⟨rfl, _, Transfer.remembers_applyPeers _ _,
        Or.inr ⟨hNone, rfl, rfl⟩⟩
  | reported hGet hNew =>
      rw [hNew]
      exact Or.inl ⟨rfl, _, Transfer.remembers_applyPeers _ _,
        Or.inl hGet⟩
  | arrived writer hGet hNew =>
      rw [hNew]
      exact Or.inl ⟨rfl, _,
        (Transfer.remembers_accept _ _ _ _ _ _).trans
          (Transfer.remembers_setWriter _ writer),
        Or.inl hGet⟩
  | persisted hGet hNew =>
      rw [hNew]
      exact Or.inl ⟨rfl, _,
        Transfer.remembers_markPersisted _ _, Or.inl hGet⟩
  | written writer hGet hNew =>
      rw [hNew]
      exact Or.inl ⟨rfl, _,
        Transfer.remembers_setWriter _ writer, Or.inl hGet⟩
  | passed hGet hTick =>
      exact Or.inr ⟨_, _, _, rfl, hGet, hTick⟩

/- Peers are regular in every run. -/
theorem IsReachable.hasRegularPeers
    (h : s.IsReachable)
    {name : String}
    {t : Transfer}
    (hGet : s.downloads.transfer? name = some t) :
    t.HasRegularPeers := by
  induction h generalizing name t with
  | empty disk => cases hGet
  | @after s e _ ih =>
      rcases (origin_of_after hGet).remembers_or_tick with
        hOther | hTick
      · rcases hOther with ⟨-, t₀, hRemembers, hBefore | hNew⟩
        · exact (ih hBefore).of_remembers hRemembers
        · have hEmpty :=
            Transfer.HasRegularPeers.of_empty hNew.2.1 hNew.2.2
          exact hEmpty.of_remembers hRemembers
      · rcases hTick with ⟨t₀, now, log, -, hBefore, hTick⟩
        exact (ih hBefore).of_passes (Transfer.passes_tick hTick)

end Session

end PeerShare
