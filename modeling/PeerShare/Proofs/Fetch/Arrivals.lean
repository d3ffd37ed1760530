import Mathlib.Algebra.GroupWithZero.Nat
import Mathlib.Data.List.DropRight
import PeerShare.Proofs.Fetch.Lifetime

/-
  What a chunk that arrives changes.

  A chunk is accepted when it belongs to a file that is
  fetched, has not arrived before, and has the digest of its
  place.  An accepted chunk changes its own entry, the count
  and the strikes of its sender, and the log gets a sample
  if the sender was asked for it.  Other chunks change
  nothing.  So each chunk of a download is accepted once at
  most, and a log counts no more bytes than were accepted.

  Key definitions include:
    * `TransferLog.Gains`
    * `Transfer.sample?`
    * `Transfer.Gains`
    * `Downloads.Judges`
    * `Downloads.Takes`
    * `Downloads.Receives`
    * `Session.Account`

  Key theorems include:
    * `Transfer.gains_credit`
    * `Downloads.outcome_accept`
    * `Downloads.Outcome.receives`
    * `Session.nodup_accepted`
    * `Session.Account.downloaded_run_le`
    * `Session.chunks_accepted_once`
-/

------------------------------------------------------------
-- Samples
------------------------------------------------------------

namespace PeerShare

namespace TransferLog

variable {log log' : TransferLog}

/-
  What one more sample changes in a log: the total, and the
  samples of its peer, of which only the latest are kept.
  If there were more than `maxSamples` already they stay as
  many as they were.
-/
structure Gains
    (log log' : TransferLog)
    (peer : Endpoint)
    (s : Sample) : Prop where
  window_eq : log'.window = log.window
  uploaded_eq : log'.uploaded = log.uploaded
  downloaded_eq :
    log'.downloaded = log.downloaded + s.bytes.toNat
  samples_eq :
    log'.samples peer =
      (log.samples peer ++ [s]).rtake
        (max maxSamples (log.samples peer).length)
  others_eq :
    ∀ other, other ≠ peer →
      log'.history.get? other = log.history.get? other

/- What a sample changes in a log, if there is one. -/
def Notes
    (log log' : TransferLog)
    (peer : Endpoint) : Option Sample → Prop
  | none => log' = log
  | some s => log.Gains log' peer s

/- Of too many samples the oldest makes room for one more. -/
theorem append_eq_rtake
    (samples : List Sample)
    (s : Sample) :
    append samples s =
      (samples ++ [s]).rtake
        (max maxSamples samples.length) := by
  unfold append List.rtake
  rw [List.length_append, List.length_singleton]
  split
  · rename_i hFull
    have hDrop :
        samples.length + 1 - max maxSamples samples.length =
          1 := by
      omega
    rw [hDrop, List.drop_append_of_le_length]
    exact Nat.le_trans (by decide) hFull
  · rename_i hFree
    have hDrop :
        samples.length + 1 - max maxSamples samples.length =
          0 := by
      omega
    rw [hDrop]
    rfl

theorem gains_recordDownload
    (log : TransferLog)
    (peer : Endpoint)
    (s : Sample) :
    log.Gains (log.recordDownload peer s) peer s where
  window_eq := rfl
  uploaded_eq := rfl
  downloaded_eq := rfl
  samples_eq := by
    rw [← append_eq_rtake]
    unfold samples recordDownload
    dsimp only
    rw [Table.get?_insert_self]
    rfl
  others_eq other hOther := Table.get?_insert_of_ne _ _ hOther

end TransferLog

end PeerShare

------------------------------------------------------------
-- Verdicts on One Transfer
------------------------------------------------------------

namespace PeerShare

namespace Transfer

variable {t : Transfer}
variable {index : UInt16}
variable {data : Bytes}
variable {sender : Endpoint}
variable {now : Moment}
variable {log : TransferLog}
variable {chunk : ChunkEntry}

/- When a current peer was last asked for a chunk. -/
def requestedAt?
    (t : Transfer)
    (peer : Endpoint)
    (index : Nat) : Option Moment :=
  (t.record? peer index).bind (·.lastRequested)

/- The sample of a good chunk, if its sender was asked. -/
def sample?
    (t : Transfer)
    (index : UInt16)
    (data : Bytes)
    (sender : Endpoint)
    (now : Moment) : Option Sample :=
  (t.requestedAt? sender index.toNat).map fun requested =>
    { bytes := UInt64.ofNat data.length
      requested
      received := now }

/-
  What a good chunk changes in its transfer: its own flag,
  the count, and the strikes of its sender, if that is a
  current peer.
-/
structure Gains
    (t t' : Transfer)
    (index : Nat)
    (sender : Endpoint) : Prop where
  rest_eq :
    t' =
      { t with
        chunks := t'.chunks
        downloaded := t'.downloaded
        peers := t'.peers }
  chunk_eq :
    t'.chunks[index]? =
      t.chunks[index]?.map ({ · with downloaded := true })
  chunks_eq :
    ∀ i, i ≠ index → t'.chunks[i]? = t.chunks[i]?
  downloaded_eq : t'.downloaded = t.downloaded + 1
  sender_eq :
    t'.peers.get? sender =
      (t.peers.get? sender).map ({ · with strikes := 0 })
  peers_eq :
    ∀ peer, peer ≠ sender →
      t'.peers.get? peer = t.peers.get? peer

theorem accept_of_none
    (h : t.chunks[index.toNat]? = none) :
    t.accept index data sender now log =
      (.unknown, t, log) := by
  unfold accept
  rw [h]

theorem accept_of_arrived
    (hGet : t.chunks[index.toNat]? = some chunk)
    (hArrived : chunk.downloaded = true) :
    t.accept index data sender now log =
      (.duplicate, t, log) := by
  unfold accept
  rw [hGet]
  exact if_pos hArrived

theorem accept_of_corrupt
    (hGet : t.chunks[index.toNat]? = some chunk)
    (hFresh : chunk.downloaded = false)
    (hDigest : Digest.of data ≠ chunk.digest) :
    t.accept index data sender now log =
      (.corrupt, t, log) := by
  unfold accept
  rw [hGet]
  dsimp only
  rw [hFresh, if_neg Bool.false_ne_true, if_pos hDigest]

theorem accept_of_fresh
    (hGet : t.chunks[index.toNat]? = some chunk)
    (hFresh : chunk.downloaded = false)
    (hDigest : Digest.of data = chunk.digest) :
    t.accept index data sender now log =
      (.accepted t.writer.isSome,
        (t.withDownloaded index.toNat chunk).credit
          index.toNat data.length sender now log) := by
  unfold accept
  rw [hGet]
  dsimp only
  rw [hFresh, if_neg Bool.false_ne_true,
    if_neg (not_not_intro hDigest)]
  rfl

/- A credit forgives the sender, and leaves the rest. -/
theorem credit_fst
    (t : Transfer)
    (index bytes : Nat)
    (sender : Endpoint)
    (now : Moment)
    (log : TransferLog) :
    (t.credit index bytes sender now log).1 =
      { t with
        peers := t.peers.modify sender Holder.forgive } := by
  unfold credit Table.modify
  cases t.peers.get? sender with
  | none => rfl
  | some holder =>
      dsimp only
      split <;> rfl

/- A good chunk is logged just if it was requested. -/
theorem notes_credit
    (t : Transfer)
    (index : UInt16)
    (data : Bytes)
    (sender : Endpoint)
    (now : Moment)
    (log : TransferLog) :
    log.Notes
      (t.credit index.toNat data.length sender now log).2
      sender (t.sample? index data sender now) := by
  unfold credit sample? requestedAt? record?
  cases t.peers.get? sender with
  | none => rfl
  | some holder =>
      dsimp only [Option.bind_some]
      cases (holder.record? index.toNat).bind
          (·.lastRequested) with
      | none => rfl
      | some requested => exact log.gains_recordDownload _ _

theorem gains_credit
    (hGet : t.chunks[index.toNat]? = some chunk)
    (bytes : Nat) :
    t.Gains
      ((t.withDownloaded index.toNat chunk).credit
        index.toNat bytes sender now log).1
      index.toNat sender := by
  have hChunks :=
    getElem?_setChunk { chunk with downloaded := true } hGet
  rw [credit_fst]
  refine ⟨rfl, ?_, ?_, rfl, ?_, ?_⟩
  · rw [hGet]
    exact (hChunks index.toNat).trans (if_pos rfl)
  · intro i hIndex
    exact (hChunks i).trans (if_neg hIndex)
  · dsimp only
    rw [Table.get?_modify, Table.sameKey_iff.mpr rfl,
      if_pos rfl]
    rfl
  · intro peer hPeer
    dsimp only
    rw [Table.get?_modify, if_neg]
    · rfl
    · exact fun hSame => hPeer (Table.sameKey_iff.mp hSame)

end Transfer

end PeerShare

------------------------------------------------------------
-- Verdicts on All Downloads
------------------------------------------------------------

namespace PeerShare

/- Whether a verdict is that a chunk is good. -/
def Verdict.isAccepted : Verdict → Bool
  | .accepted _ => true
  | _ => false

namespace Downloads

variable {d : Downloads}
variable {name : String}
variable {index : UInt16}
variable {data : Bytes}
variable {sender : Endpoint}
variable {now : Moment}
variable {log : TransferLog}
variable {t : Transfer}

/- The entry of a chunk of a file that is fetched. -/
def chunk?
    (d : Downloads)
    (name : String)
    (index : UInt16) : Option ChunkEntry :=
  (d.transfer? name).bind (·.chunks[index.toNat]?)

theorem chunk?_eq_none_iff :
    d.chunk? name index = none ↔
      d.transfer? name = none ∨
        ∃ t,
          d.transfer? name = some t ∧
            t.chunkCount ≤ index.toNat := by
  unfold chunk? Transfer.chunkCount
  cases d.transfer? name with
  | none => simp
  | some t => simp

/- What a verdict on some bytes for a chunk says. -/
structure Judges
    (d : Downloads)
    (name : String)
    (index : UInt16)
    (data : Bytes)
    (verdict : Verdict) : Prop where
  unknown_iff :
    verdict = .unknown ↔
      d.transfer? name = none ∨
        ∃ t,
          d.transfer? name = some t ∧
            t.chunkCount ≤ index.toNat
  duplicate_iff :
    verdict = .duplicate ↔
      ∃ chunk,
        d.chunk? name index = some chunk ∧
          chunk.downloaded = true
  corrupt_iff :
    verdict = .corrupt ↔
      ∃ chunk,
        d.chunk? name index = some chunk ∧
          chunk.downloaded = false ∧
          Digest.of data ≠ chunk.digest
  accepted_iff :
    verdict.isAccepted = true ↔
      ∃ chunk,
        d.chunk? name index = some chunk ∧
          chunk.downloaded = false ∧
          Digest.of data = chunk.digest

/-
  What an accepted chunk changes: the transfer of its file,
  and the log if the chunk was requested from its sender.
-/
structure Takes
    (d d' : Downloads)
    (name : String)
    (index : UInt16)
    (data : Bytes)
    (sender : Endpoint)
    (now : Moment)
    (log log' : TransferLog)
    (t t' : Transfer) : Prop where
  before : d.transfer? name = some t
  after : d'.transfer? name = some t'
  gains : t.Gains t' index.toNat sender
  others_eq :
    ∀ other, other ≠ name →
      d'.files.get? other = d.files.get? other
  notes :
    log.Notes log' sender (t.sample? index data sender now)

/-
  What becomes of a chunk that arrives.  Unless it is
  accepted, nothing changes.
-/
structure Receives
    (d : Downloads)
    (name : String)
    (index : UInt16)
    (data : Bytes)
    (sender : Endpoint)
    (now : Moment)
    (log : TransferLog)
    (result : Verdict × Downloads × TransferLog) : Prop where
  judges : d.Judges name index data result.1
  refused :
    result.1.isAccepted = false → result.2 = (d, log)
  accepted :
    result.1.isAccepted = true →
      ∃ t t',
        d.Takes result.2.1 name index data sender now log
            result.2.2 t t' ∧
          result.1 = .accepted t.writer.isSome

/- A transfer that is set to what it is stays the same. -/
theorem set_of_transfer?
    (h : d.transfer? name = some t) :
    d.set name t = d := by
  unfold set
  rw [Table.insert_of_get?_eq (transfer?_eq_some_iff.mp h)]

/- How the entry of its place decides about a chunk. -/
inductive Outcome
    (d : Downloads)
    (name : String)
    (index : UInt16)
    (data : Bytes)
    (sender : Endpoint)
    (now : Moment)
    (log : TransferLog) :
    Verdict × Downloads × TransferLog → Prop where
  | unknown
      (hChunk : d.chunk? name index = none) :
      Outcome d name index data sender now log
        (.unknown, d, log)
  | duplicate
      {chunk : ChunkEntry}
      (hChunk : d.chunk? name index = some chunk)
      (hArrived : chunk.downloaded = true) :
      Outcome d name index data sender now log
        (.duplicate, d, log)
  | corrupt
      {chunk : ChunkEntry}
      (hChunk : d.chunk? name index = some chunk)
      (hFresh : chunk.downloaded = false)
      (hDigest : Digest.of data ≠ chunk.digest) :
      Outcome d name index data sender now log
        (.corrupt, d, log)
  | accepted
      {chunk : ChunkEntry}
      {t t' : Transfer}
      {d' : Downloads}
      {log' : TransferLog}
      (hChunk : d.chunk? name index = some chunk)
      (hFresh : chunk.downloaded = false)
      (hDigest : Digest.of data = chunk.digest)
      (hTakes :
        d.Takes d' name index data sender now log log' t t') :
      Outcome d name index data sender now log
        (.accepted t.writer.isSome, d', log')

/- A good chunk is noted in its transfer and in the log. -/
theorem takes_credit
    {chunk : ChunkEntry}
    (hTransfer : d.transfer? name = some t)
    (hGet : t.chunks[index.toNat]? = some chunk) :
    d.Takes
      (d.set name
        ((t.withDownloaded index.toNat chunk).credit
          index.toNat data.length sender now log).1)
      name index data sender now log
      ((t.withDownloaded index.toNat chunk).credit
        index.toNat data.length sender now log).2
      t
      ((t.withDownloaded index.toNat chunk).credit
        index.toNat data.length sender now log).1 where
  before := hTransfer
  after := (transfer?_set d name _ name).trans (if_pos rfl)
  gains := Transfer.gains_credit hGet data.length
  others_eq _ hOther := Table.get?_insert_of_ne _ _ hOther
  notes := Transfer.notes_credit _ index data sender now log

theorem outcome_accept
    (d : Downloads)
    (name : String)
    (index : UInt16)
    (data : Bytes)
    (sender : Endpoint)
    (now : Moment)
    (log : TransferLog) :
    d.Outcome name index data sender now log
      (d.accept name index data sender now log) := by
  cases hTransfer : d.transfer? name with
  | none =>
      rw [accept_eq_unknown hTransfer]
      exact .unknown (chunk?_eq_none_iff.mpr (Or.inl hTransfer))
  | some t =>
      have hChunk :
          d.chunk? name index = t.chunks[index.toNat]? := by
        unfold chunk?
        rw [hTransfer]
        rfl
      have hSame := set_of_transfer? hTransfer
      rw [accept_eq hTransfer]
      cases hGet : t.chunks[index.toNat]? with
      | none =>
          rw [Transfer.accept_of_none hGet, hSame]
          exact .unknown (hChunk.trans hGet)
      | some chunk =>
          rw [hGet] at hChunk
          cases hFlag : chunk.downloaded with
          | true =>
              rw [Transfer.accept_of_arrived hGet hFlag, hSame]
              exact .duplicate hChunk hFlag
          | false =>
              by_cases hDigest : Digest.of data = chunk.digest
              · rw [Transfer.accept_of_fresh hGet hFlag hDigest]
                exact .accepted hChunk hFlag hDigest
                  (takes_credit hTransfer hGet)
              · rw [Transfer.accept_of_corrupt hGet hFlag
                  hDigest, hSame]
                exact .corrupt hChunk hFlag hDigest

theorem Outcome.judges
    {result : Verdict × Downloads × TransferLog}
    (h : d.Outcome name index data sender now log result) :
    d.Judges name index data result.1 := by
  cases h with
  | unknown hChunk =>
      constructor <;>
        simp [Verdict.isAccepted, ← chunk?_eq_none_iff, hChunk]
  | duplicate hChunk hArrived =>
      constructor <;>
        simp [Verdict.isAccepted, ← chunk?_eq_none_iff, hChunk,
          hArrived]
  | corrupt hChunk hFresh hDigest =>
      constructor <;>
        simp [Verdict.isAccepted, ← chunk?_eq_none_iff, hChunk,
          hFresh, hDigest]
  | accepted hChunk hFresh hDigest =>
      constructor <;>
        simp [Verdict.isAccepted, ← chunk?_eq_none_iff, hChunk,
          hFresh, hDigest]

theorem Outcome.receives
    {result : Verdict × Downloads × TransferLog}
    (h : d.Outcome name index data sender now log result) :
    d.Receives name index data sender now log result := by
  refine ⟨h.judges, ?_, ?_⟩
  · intro hRefused
    cases h with
    | unknown => rfl
    | duplicate => rfl
    | corrupt => rfl
    | accepted => cases hRefused
  · intro hAccepted
    cases h with
    | unknown => cases hAccepted
    | duplicate => cases hAccepted
    | corrupt => cases hAccepted
    | @accepted _ t t' _ _ _ _ _ hTakes =>
        exact ⟨t, t', hTakes, rfl⟩

end Downloads

end PeerShare

------------------------------------------------------------
-- Accepted Once
------------------------------------------------------------

namespace PeerShare

namespace Transfer

variable {t t' : Transfer}
variable {index : UInt16}
variable {data : Bytes}
variable {verdict : Verdict}
variable {q : QueuedChunk}

/- Whether a chunk has arrived. -/
def HasArrived
    (t : Transfer)
    (index : Nat) : Prop :=
  ∃ chunk,
    t.chunks[index]? = some chunk ∧ chunk.downloaded = true

theorem KeepsArrived.hasArrived
    (h : t.KeepsArrived t')
    {i : Nat}
    (hArrived : t.HasArrived i) :
    t'.HasArrived i := by
  rcases hArrived with ⟨chunk, hGet, hFlag⟩
  exact h i chunk hGet hFlag

/- An accepted chunk had not arrived before, and has then. -/
theorem Judged.arrived_of_mem_chunk
    (h : t.Judged index data verdict t')
    (hMem : q ∈ verdict.chunk index data) :
    ¬ t.HasArrived q.index.toNat ∧
      t'.HasArrived q.index.toNat := by
  cases h with
  | refused hRefused =>
      unfold Verdict.chunk at hMem
      split at hMem
      · exact absurd rfl (hRefused _)
      · cases hMem
  | @accepted chunk _ hGet hFresh _ hSame =>
      rw [List.mem_singleton.mp hMem]
      dsimp only
      constructor
      · rintro ⟨other, hOther, hArrived⟩
        rw [hGet] at hOther
        cases hOther
        rw [hFresh] at hArrived
        cases hArrived
      · refine ⟨{ chunk with downloaded := true }, ?_, rfl⟩
        rw [hSame.chunks_eq]
        exact (getElem?_setChunk _ hGet _).trans (if_pos rfl)

theorem Arrives.arrived_of_mem_chunk
    (h : t.Arrives index data verdict t')
    (hMem : q ∈ verdict.chunk index data) :
    ¬ t.HasArrived q.index.toNat ∧
      t'.HasArrived q.index.toNat := by
  cases h with
  | judged hJudged => exact hJudged.arrived_of_mem_chunk hMem
  | taken hJudged => exact hJudged.arrived_of_mem_chunk hMem
  | refused hJudged => exact hJudged.arrived_of_mem_chunk hMem

end Transfer

namespace Session

variable {s : Session}
variable {name : String}
variable {e : Event}
variable {events : List Event}
variable {q : QueuedChunk}

/- What an event accepts, arrives by it in its transfer. -/
theorem arrived_of_mem_acceptedBy
    (h : q ∈ s.acceptedBy name e) :
    (∃ t,
        s.downloads.transfer? name = some t ∧
          ¬ t.HasArrived q.index.toNat) ∧
      ∃ t',
        (s.after e).downloads.transfer? name = some t' ∧
          t'.HasArrived q.index.toNat := by
  cases e with
  | arrive other index data sender now log =>
      unfold acceptedBy at h
      dsimp only at h
      split at h
      · rename_i hName
        subst hName
        cases hGet : s.downloads.transfer? other with
        | none =>
            rw [Downloads.accept_eq_unknown hGet] at h
            cases h
        | some t =>
            rw [Downloads.accept_eq hGet] at h
            rcases Downloads.exists_arrives hGet index data
                sender now log with
              ⟨t', hArrives, hAll⟩
            rcases hArrives.arrived_of_mem_chunk h with
              ⟨hBefore, hAfter⟩
            refine ⟨⟨t, rfl, hBefore⟩, t', ?_, hAfter⟩
            exact (hAll other).trans (if_pos rfl)
      · cases h
  | _ => cases h

/- What a run accepts had not arrived before it. -/
theorem exists_not_arrived_of_mem_accepted
    (hNever : s.NeverStarts name events)
    (h : q ∈ s.accepted name events) :
    ∃ t,
      s.downloads.transfer? name = some t ∧
        ¬ t.HasArrived q.index.toNat := by
  induction events generalizing s with
  | nil => cases h
  | cons e events ih =>
      rcases List.mem_append.mp h with hLater | hNow
      · -- what has arrived stays, so it had not arrived now
        rcases ih hNever.2 hLater with ⟨t', hGet', hFresh⟩
        cases hGet : s.downloads.transfer? name with
        | none =>
            rw [transfer?_after_eq_none hGet hNever.1] at hGet'
            cases hGet'
        | some t =>
            have hKeeps := keepsArrived_after hGet hGet'
            refine ⟨t, rfl, ?_⟩
            exact fun hArrived =>
              hFresh (hKeeps.hasArrived hArrived)
      · exact (arrived_of_mem_acceptedBy hNow).1

theorem nodup_acceptedBy
    (s : Session)
    (name : String)
    (e : Event) :
    ((s.acceptedBy name e).map (·.index)).Nodup := by
  cases e with
  | arrive other index data sender now log =>
      unfold acceptedBy Verdict.chunk
      dsimp only
      split
      · split
        · exact List.nodup_singleton _
        · exact List.nodup_nil
      · exact List.nodup_nil
  | _ => exact List.nodup_nil

/- From one start to the next no chunk is accepted twice. -/
theorem nodup_accepted
    (hNever : s.NeverStarts name events) :
    ((s.accepted name events).map (·.index)).Nodup := by
  induction events generalizing s with
  | nil => exact List.nodup_nil
  | cons e events ih =>
      have hApart :
          ∀ later ∈ (s.after e).accepted name events,
            ∀ first ∈ s.acceptedBy name e,
              later.index ≠ first.index := by
        intro later hLater first hFirst hSame
        rcases exists_not_arrived_of_mem_accepted hNever.2
            hLater with
          ⟨t, hGet, hFresh⟩
        rcases (arrived_of_mem_acceptedBy hFirst).2 with
          ⟨t', hGet', hArrived⟩
        rw [hGet] at hGet'
        cases hGet'
        rw [hSame] at hFresh
        exact hFresh hArrived
      unfold accepted
      rw [List.map_append, List.nodup_append]
      refine ⟨ih hNever.2, s.nodup_acceptedBy name e, ?_⟩
      intro i hLater j hFirst
      rcases List.mem_map.mp hLater with ⟨later, hMem, rfl⟩
      rcases List.mem_map.mp hFirst with ⟨first, hMem', rfl⟩
      exact hApart later hMem first hMem'

end Session

end PeerShare

------------------------------------------------------------
-- One Log
------------------------------------------------------------

namespace PeerShare

namespace Session

/- The same event with another log. -/
def Event.withLog
    (log : TransferLog) : Event → Event
  | .arrive name index data sender now _ =>
      .arrive name index data sender now log
  | .tick now _ => .tick now log
  | e => e

/- The log that an event leaves of the one that it is given. -/
def logAfter
    (s : Session)
    (log : TransferLog) : Event → TransferLog
  | .arrive name index data sender now _ =>
      (s.downloads.accept name index data sender now log).2.2
  | _ => log

/- The chunk of any file that an event accepts, if any. -/
def takenBy
    (s : Session)
    (log : TransferLog) : Event → List QueuedChunk
  | .arrive name index data sender now _ =>
      (s.downloads.accept name index data sender now
        log).1.chunk index data
  | _ => []

/- A session, and the log that all its events share. -/
structure Account where
  session : Session
  log : TransferLog

namespace Account

/- What may happen to a session and its log. -/
inductive Step where
  | event (e : Event)
  /- Bytes are sent to another peer. -/
  | upload (bytes : Nat)

def after
    (a : Account) : Step → Account
  | .event e =>
      { session := a.session.after (e.withLog a.log)
        log := a.session.logAfter a.log e }
  | .upload bytes => { a with log := a.log.recordUpload bytes }

def run
    (a : Account)
    (steps : List Step) : Account :=
  steps.foldl after a

/- The chunks of all files that a run accepts. -/
def taken
    (a : Account) : List Step → List QueuedChunk
  | [] => []
  | .event e :: steps =>
      a.session.takenBy a.log e ++
        (a.after (.event e)).taken steps
  | .upload bytes :: steps =>
      (a.after (.upload bytes)).taken steps

end Account

end Session

end PeerShare

------------------------------------------------------------
-- Counted Bytes
------------------------------------------------------------

namespace PeerShare

/- A log counts no more bytes than its samples have. -/
theorem TransferLog.Notes.downloaded_le
    {log log' : TransferLog}
    {peer : Endpoint}
    {sample? : Option Sample}
    {bytes : Nat}
    (h : log.Notes log' peer sample?)
    (hBytes :
      ∀ s, sample? = some s → s.bytes.toNat ≤ bytes) :
    log'.downloaded ≤ log.downloaded + bytes := by
  cases sample? with
  | none =>
      have hSame : log' = log := h
      rw [hSame]
      exact Nat.le_add_right _ _
  | some s =>
      have hGains : log.Gains log' peer s := h
      rw [hGains.downloaded_eq]
      exact Nat.add_le_add_left (hBytes s rfl) _

theorem Transfer.bytes_le_of_sample?
    {t : Transfer}
    {index : UInt16}
    {data : Bytes}
    {sender : Endpoint}
    {now : Moment}
    {s : Sample}
    (h : t.sample? index data sender now = some s) :
    s.bytes.toNat ≤ data.length := by
  unfold sample? at h
  rcases Option.map_eq_some_iff.mp h with ⟨requested, -, rfl⟩
  dsimp only
  rw [UInt64.toNat_ofNat']
  exact Nat.mod_le _ _

/- The bytes of some chunks. -/
def QueuedChunk.totalLength
    (chunks : List QueuedChunk) : Nat :=
  (chunks.map (·.data.length)).sum

theorem QueuedChunk.totalLength_append
    (chunks later : List QueuedChunk) :
    totalLength (chunks ++ later) =
      totalLength chunks + totalLength later := by
  unfold totalLength
  rw [List.map_append, List.sum_append]

/- Only the bytes of a chunk that is accepted are counted. -/
theorem Downloads.downloaded_accept_le
    (d : Downloads)
    (name : String)
    (index : UInt16)
    (data : Bytes)
    (sender : Endpoint)
    (now : Moment)
    (log : TransferLog) :
    (d.accept name index data sender now log).2.2.downloaded ≤
      log.downloaded +
        QueuedChunk.totalLength
          ((d.accept name index data sender now log).1.chunk
            index data) := by
  have hReceives :=
    (d.outcome_accept name index data sender now log).receives
  generalize d.accept name index data sender now log = result
    at hReceives ⊢
  cases hAccepted : result.1.isAccepted with
  | false =>
      rw [hReceives.refused hAccepted]
      exact Nat.le_add_right _ _
  | true =>
      rcases hReceives.accepted hAccepted with
        ⟨t, t', hTakes, hVerdict⟩
      rw [hVerdict]
      exact hTakes.notes.downloaded_le fun s hSample =>
        Transfer.bytes_le_of_sample? hSample

namespace Session

namespace Account

theorem downloaded_after_le
    (a : Account)
    (e : Event) :
    (a.after (.event e)).log.downloaded ≤
      a.log.downloaded +
        QueuedChunk.totalLength (a.session.takenBy a.log e) := by
  cases e with
  | arrive name index data sender now log =>
      exact a.session.downloads.downloaded_accept_le name index
        data sender now a.log
  | _ => exact Nat.le_add_right _ _

/- A run counts no more bytes than it has accepted. -/
theorem downloaded_run_le
    (a : Account)
    (steps : List Step) :
    (a.run steps).log.downloaded ≤
      a.log.downloaded +
        QueuedChunk.totalLength (a.taken steps) := by
  induction steps generalizing a with
  | nil => exact Nat.le_refl _
  | cons step steps ih =>
      have hRest := ih (a.after step)
      cases step with
      | upload bytes => exact hRest
      | event e =>
          have hNow := a.downloaded_after_le e
          have hRun :
              a.run (.event e :: steps) =
                (a.after (.event e)).run steps := rfl
          unfold taken
          rw [hRun, QueuedChunk.totalLength_append]
          omega

end Account

/-
  A chunk that arrives is accepted just if it belongs to a
  file that is fetched, has not arrived before and has the
  right digest, and changes nothing otherwise.  From one
  start of a download to the next each of its chunks is
  accepted once at most, and a log that all events share
  counts no more bytes than were accepted.
-/
theorem chunks_accepted_once
    (s : Session) :
    (∀ name index data sender now log,
        s.downloads.Receives name index data sender now log
          (s.downloads.accept name index data sender now
            log)) ∧
      (∀ name events,
        s.NeverStarts name events →
          ((s.accepted name events).map (·.index)).Nodup) ∧
      ∀ log steps,
        (Account.run ⟨s, log⟩ steps).log.downloaded ≤
          log.downloaded +
            QueuedChunk.totalLength
              (Account.taken ⟨s, log⟩ steps) := by
  refine ⟨?_, ?_, ?_⟩
  · intro name index data sender now log
    exact (s.downloads.outcome_accept name index data sender
      now log).receives
  · exact fun name events hNever => nodup_accepted hNever
  · exact fun log steps => Account.downloaded_run_le _ steps

/-
  Of three chunks for one place the good one counts once.
  The other place is filled by a stranger, of whom the log
  gets no sample.
-/
theorem chunks_accepted_once_of_two_chunks :
    let log := TransferLog.start TransferLog.defaultWindow
    let peer : Endpoint := ⟨.loopback, 1⟩
    let stranger : Endpoint := ⟨.loopback, 2⟩
    let file : FileRecord :=
      ⟨"a", 20000, .ofBytes [], [Digest.of [7], Digest.of [8]]⟩
    let s :=
      (awaiting "a").run
        [.start file "a" false [(peer, [0xC0])] 0,
          .tick 5 log]
    let events : List Event :=
      [.arrive "a" 1 [9] peer 6 log,
        .arrive "a" 1 [8] peer 7 log,
        .arrive "a" 1 [8] peer 8 log,
        .arrive "a" 0 [7] stranger 9 log]
    let later := (Account.run ⟨s, log⟩ (events.map .event)).log
    s.NeverStarts "a" events ∧
      ((s.accepted "a" events).map (·.index)).Nodup ∧
      (s.accepted "a" events).map (·.index) = [0, 1] ∧
      (s.accepted "a" events).map (·.data) = [[7], [8]] ∧
      later.downloaded = 1 ∧
      later.samples peer = [⟨1, 5, 7⟩] ∧
      later.samples stranger = [] := by
  intro log peer stranger file s events later
  have hNever : s.NeverStarts "a" events :=
    ⟨id, id, id, id, trivial⟩
  rcases chunks_accepted_once s with ⟨-, hOnce, -⟩
  refine ⟨hNever, hOnce "a" events hNever, ?_⟩
  dsimp only [later, s]
  delta run after Downloads.tick Download.tick Transfer.tick
    Transfer.schedule Schedule.visit
  rw [Transfer.missing_eq_insertionSort,
    Transfer.rankedPeers_eq_insertionSort,
    restore_eq_insertionSort]
  decide +kernel

end Session

end PeerShare
