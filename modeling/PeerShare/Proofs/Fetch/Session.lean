import PeerShare.Proofs.Disk.Writing
import PeerShare.Proofs.Fetch.Downloads

/-
  Downloads and the disk that they write to, under any
  events in any order.

  The workers of a writer are events of their own: each
  writes one of the chunks that wait, whichever it takes.

  Key definitions include:
    * `Session`
    * `Session.Event`
    * `Session.after`
    * `Session.run`
    * `Session.accepted`
    * `Session.IsReachable`

  Key theorems include:
    * `Session.exists_before`
    * `Session.IsReachable.wellFormed`
-/

------------------------------------------------------------
-- Sessions
------------------------------------------------------------

namespace PeerShare

/- Downloads, and the disk that they write to. -/
structure Session where
  downloads : Downloads
  disk : Disk
  deriving DecidableEq

namespace Session

/- What may happen to downloads. -/
inductive Event where
  | request (name : String) (now : Moment)
  /- The tracker describes a file that was requested. -/
  | start
      (file : FileRecord)
      (path : String)
      (writes : Bool)
      (peers : List (Endpoint × Bytes))
      (now : Moment)
  | applyPeers
      (name : String)
      (peers : List (Endpoint × Bytes))
  | arrive
      (name : String)
      (index : UInt16)
      (data : Bytes)
      (sender : Endpoint)
      (now : Moment)
      (log : TransferLog)
  | markPersisted (name : String) (index : UInt16)
  /- A worker writes the chunk at a position of a queue. -/
  | write (name : String) (position : Nat)
  | discard (name : String)
  | tick (now : Moment) (log : TransferLog)

/- Start a transfer, with a writer if it is to have one. -/
def start
    (s : Session)
    (file : FileRecord)
    (path : String)
    (writes : Bool)
    (peers : List (Endpoint × Bytes))
    (now : Moment) : Session :=
  let t := Transfer.start file path now
  if writes then
    match ChunkWriter.create s.disk path file.size.toNat with
    | (.error _, disk) => { s with disk }
    | (.ok w, disk) =>
        { downloads :=
            (s.downloads.start
              ((t.withWriter w).applyPeers peers)).2
          disk }
  else
    { s with
      downloads := (s.downloads.start (t.applyPeers peers)).2 }

/- A chunk is taken out of a queue and written. -/
def write
    (s : Session)
    (name : String)
    (position : Nat) : Session :=
  match s.downloads.perform name position s.disk with
  | none => s
  | some (_, downloads, disk) => { downloads, disk }

/- The session after an event. -/
def after
    (s : Session) : Event → Session
  | .request name now =>
      { s with downloads := (s.downloads.request name now).2 }
  | .start file path writes peers now =>
      s.start file path writes peers now
  | .applyPeers name peers =>
      { s with
        downloads := (s.downloads.applyPeers name peers).2 }
  | .arrive name index data sender now log =>
      { s with
        downloads :=
          s.downloads.arrive name index data sender now log }
  | .markPersisted name index =>
      { s with downloads := s.downloads.markPersisted name index }
  | .write name position => s.write name position
  | .discard name =>
      { s with downloads := (s.downloads.discard name).2 }
  | .tick now log =>
      { s with downloads := (s.downloads.tick now log).2 }

/- The session after some events, one after another. -/
def run
    (s : Session)
    (events : List Event) : Session :=
  events.foldl after s

/- Whether an event neither starts nor ends a download. -/
def Event.isOngoing : Event → Bool
  | .request _ _ => false
  | .start _ _ _ _ _ => false
  | .discard _ => false
  | _ => true

/- The chunk of a file that an event has accepted, if any. -/
def acceptedBy
    (s : Session)
    (name : String) : Event → List QueuedChunk
  | .arrive other index data sender now log =>
      if other = name then
        (s.downloads.accept other index data sender now
          log).1.chunk index data
      else []
  | _ => []

/- The chunks of a file that a run accepts, the last first. -/
def accepted
    (s : Session)
    (name : String) : List Event → List QueuedChunk
  | [] => []
  | e :: events =>
      (s.after e).accepted name events ++ s.acceptedBy name e

/- A session that comes about from one without downloads. -/
inductive IsReachable : Session → Prop where
  | empty
      (disk : Disk) :
      IsReachable { downloads := Downloads.empty, disk }
  | after
      {s : Session}
      (e : Event)
      (h : IsReachable s) :
      IsReachable (s.after e)

end Session

end PeerShare

------------------------------------------------------------
-- Transfers before and after an Event
------------------------------------------------------------

namespace PeerShare

namespace Session

variable {s : Session}

/- What an ongoing event makes of a transfer. -/
theorem exists_before
    {e : Event}
    (hOngoing : e.isOngoing = true)
    {name : String}
    {t' : Transfer}
    (h : (s.after e).downloads.transfer? name = some t') :
    ∃ t,
      s.downloads.transfer? name = some t ∧ t.Continues t' := by
  have hSame :
      s.downloads.transfer? name = some t' →
        ∃ t,
          s.downloads.transfer? name = some t ∧
            t.Continues t' :=
    fun hBefore => ⟨t', hBefore, .refl t'⟩
  cases e with
  | request => cases hOngoing
  | start => cases hOngoing
  | discard => cases hOngoing
  | applyPeers file peers =>
      rcases Downloads.exists_before_applyPeers h with
        ⟨t, hGet, hPeers⟩
      exact ⟨t, hGet, .of_sameProgress hPeers⟩
  | arrive file index data sender now log =>
      rcases Downloads.exists_before_arrive h with
        ⟨t, hGet, hEq | hArrives⟩
      · rw [hEq]
        exact ⟨t, hGet, .refl t⟩
      · exact ⟨t, hGet, .of_arrives hArrives⟩
  | markPersisted file index =>
      rcases Downloads.exists_before_markPersisted h with
        ⟨t, hGet, hEq | hNoted⟩
      · rw [hEq]
        exact ⟨t, hGet, .refl t⟩
      · rw [hNoted]
        exact ⟨t, hGet, .markPersisted t index⟩
  | write file position =>
      unfold after write at h
      dsimp only at h
      split at h
      · exact hSame h
      · rename_i hPerform
        rcases Downloads.perform_eq_some_iff.mp hPerform with
          ⟨t, w, w', hGet, hWriter, hWrite, hSet⟩
        rw [hSet] at h
        dsimp only at h
        rw [Downloads.transfer?_set] at h
        split at h
        · rename_i hName
          cases h
          rw [hName]
          rcases ChunkWriter.perform_eq_some_iff.mp hWrite with
            ⟨q, -, -, rfl, -⟩
          exact ⟨t, hGet, .withWriter hWriter rfl⟩
        · exact hSame h
  | tick now log =>
      rcases Downloads.exists_before_tick h with
        ⟨t, hGet, -, hTick⟩
      exact ⟨t, hGet, .of_sameProgress hTick⟩

/- What a transfer is like that is there after a start. -/
theorem transfer?_start
    {file : FileRecord}
    {path : String}
    {writes : Bool}
    {peers : List (Endpoint × Bytes)}
    {now : Moment}
    {name : String}
    {t : Transfer}
    (h :
      (s.start file path writes peers now).downloads.transfer?
        name = some t) :
    s.downloads.transfer? name = some t ∨
      name = file.name ∧ t.record = file ∧ t.WellFormed := by
  have hStart :
      ∀ t₀ : Transfer,
        t₀.record = file →
        t₀.WellFormed →
        (s.downloads.start (t₀.applyPeers peers)).2.transfer?
            name = some t →
        s.downloads.transfer? name = some t ∨
          name = file.name ∧ t.record = file ∧ t.WellFormed := by
    intro t₀ hRecord hFormed hGet
    have hPeers := t₀.sameProgress_applyPeers peers
    rw [Downloads.transfer?_start] at hGet
    split at hGet
    · rename_i hName
      cases hGet
      have hFile := hPeers.record_eq.trans hRecord
      refine Or.inr ⟨?_, hFile, hFormed.of_sameProgress hPeers⟩
      rw [hName.1, ← hFile]
      rfl
    · exact Or.inl hGet
  have hFormed := Transfer.wellFormed_start file path now
  have hRecord := Transfer.record_start file path now
  unfold start at h
  dsimp only at h
  split at h
  · split at h
    · exact Or.inl h
    · rename_i w disk _
      exact hStart
        ((Transfer.start file path now).withWriter w) hRecord
        ⟨hFormed.index_eq, hFormed.apart⟩ h
  · exact hStart _ hRecord hFormed h

/- What a run leads to can be reached. -/
theorem IsReachable.run
    {s : Session}
    (h : s.IsReachable)
    (events : List Event) :
    (s.run events).IsReachable := by
  induction events generalizing s with
  | nil => exact h
  | cons e events ih => exact ih (h.after e)

/- Every transfer has its name, and is well formed. -/
theorem IsReachable.wellFormed
    (h : s.IsReachable)
    {name : String}
    {t : Transfer}
    (hGet : s.downloads.transfer? name = some t) :
    t.record.name = name ∧ t.WellFormed := by
  induction h generalizing name t with
  | empty disk => cases hGet
  | @after s e _ ih =>
      cases hOngoing : e.isOngoing with
      | true =>
          rcases exists_before hOngoing hGet with
            ⟨t₀, hBefore, hContinues⟩
          rcases ih hBefore with ⟨hName, hFormed⟩
          rw [hContinues.record_eq]
          exact ⟨hName, hContinues.keeps_wellFormed hFormed⟩
      | false =>
          cases e with
          | request file now =>
              apply ih
              rw [← s.downloads.transfer?_request file now]
              exact hGet
          | start file path writes peers now =>
              rcases transfer?_start hGet with hBefore | hNew
              · exact ih hBefore
              · rcases hNew with ⟨hName, hRecord, hFormed⟩
                rw [hRecord, hName]
                exact ⟨rfl, hFormed⟩
          | discard file =>
              unfold Session.after at hGet
              dsimp only at hGet
              rw [Downloads.transfer?_discard] at hGet
              split at hGet
              · cases hGet
              · exact ih hGet
          | applyPeers => cases hOngoing
          | arrive => cases hOngoing
          | markPersisted => cases hOngoing
          | write => cases hOngoing
          | tick => cases hOngoing

/- Every transfer stands under its name. -/
theorem IsReachable.name_eq
    (h : s.IsReachable)
    (name : String)
    (t : Transfer)
    (hGet : s.downloads.transfer? name = some t) :
    t.name = name :=
  (h.wellFormed hGet).1

end Session

end PeerShare

------------------------------------------------------------
-- A Small Session
------------------------------------------------------------

namespace PeerShare

namespace Session

/- A session in which one file is awaited. -/
def awaiting
    (name : String) : Session :=
  after { downloads := Downloads.empty, disk := Disk.empty }
    (.request name 0)

theorem isReachable_awaiting
    (name : String) :
    (awaiting name).IsReachable :=
  (IsReachable.empty Disk.empty).after _

/- Chunks that arrive from one peer for the first place. -/
def arrivals
    (name : String)
    (payloads : List Bytes) : List Event :=
  payloads.map fun data =>
    .arrive name 0 data ⟨.loopback, 1⟩ 0
      (TransferLog.start TransferLog.defaultWindow)

/- Passes at some moments, counted in milliseconds. -/
def ticks
    (log : TransferLog)
    (millis : List Nat) : List Event :=
  millis.map fun n => .tick (Span.ofMillis n) log

end Session

end PeerShare
