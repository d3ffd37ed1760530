import Mathlib.Data.List.DropRight
import PeerShare.Proofs.Chunking.Words
import PeerShare.Proofs.Fetch.Arrivals

/-
  What a log tells of all that was recorded in it.

  Whatever is recorded, the totals are the sums of the
  recorded bytes, and the samples of a peer are the latest
  that were recorded for it.  So the speed of a peer is the
  mean of the speeds of those of its latest samples that lie
  in the window, in the order in which they were recorded,
  and nothing that is recorded for other peers matters.

  Key definitions include:
    * `Word.sum?`
    * `TransferLog.Entry`
    * `TransferLog.noteAll`
    * `TransferLog.recent`
    * `TransferLog.Tells`

  Key theorems include:
    * `Word.sum?_eq`
    * `TransferLog.Gains.samples_eq_rtake`
    * `TransferLog.tells_noteAll`
    * `TransferLog.averageSpeed?_noteAll`
    * `TransferLog.noteAll_faithful`
-/

------------------------------------------------------------
-- Sums in Words
------------------------------------------------------------

namespace PeerShare

namespace Word

/- The sum of words as numbers. -/
def total
    (ws : List UInt64) : Nat :=
  (ws.map UInt64.toNat).sum

/- The sum of words, if it fits at every step. -/
def sum?
    (ws : List UInt64) : Option UInt64 :=
  ws.foldlM add? 0

theorem foldlM_add?
    (w : UInt64)
    (ws : List UInt64) :
    ws.foldlM add? w = ofNat? (w.toNat + total ws) := by
  unfold total
  induction ws generalizing w with
  | nil => exact (ofNat?_eq_some_iff.mpr rfl).symm
  | cons w' ws ih =>
      rw [List.foldlM_cons, List.map_cons, List.sum_cons,
        ← Nat.add_assoc, add?]
      by_cases hFits : w.toNat + w'.toNat < 2 ^ 64
      · rcases exists_ofNat? hFits with ⟨both, hBoth, hNat⟩
        rw [hBoth, ← hNat]
        exact ih both
      · -- What has not fitted so far does not fit in the end.
        rw [ofNat?, if_neg hFits, ofNat?, if_neg (by omega)]
        rfl

/- A sum fits at every step if it fits in the end. -/
theorem sum?_eq
    (ws : List UInt64) :
    sum? ws = ofNat? (total ws) := by
  have hFold := foldlM_add? 0 ws
  rw [UInt64.toNat_zero, Nat.zero_add] at hFold
  exact hFold

theorem total_append
    (ws ws' : List UInt64) :
    total (ws ++ ws') = total ws + total ws' := by
  unfold total
  rw [List.map_append, List.sum_append]

/- The order of the words does not matter. -/
theorem total_perm
    {ws ws' : List UInt64}
    (h : ws.Perm ws') :
    total ws = total ws' :=
  (h.map UInt64.toNat).sum_nat

end Word

end PeerShare

------------------------------------------------------------
-- Speeds
------------------------------------------------------------

namespace PeerShare

/- How long a chunk took, or a microsecond. -/
def Sample.duration
    (s : Sample) : Span :=
  max (elapsed s.requested s.received) (Span.ofMicros 1)

/- The mean of some numbers, summed up from the first on. -/
def mean
    (xs : List Float) : Float :=
  xs.foldl (fun sum x => sum + x) 0.0 /
    (UInt64.ofNat xs.length).toFloat

theorem meanSpeed?_eq
    (samples : List Sample) :
    meanSpeed? samples =
      if samples = [] then none
      else some (mean (samples.map Sample.speed)) := by
  cases samples with
  | nil => rfl
  | cons s samples =>
      rw [if_neg (List.cons_ne_nil s samples), mean,
        List.foldl_map, List.length_map]
      rfl

end PeerShare

------------------------------------------------------------
-- Records
------------------------------------------------------------

namespace PeerShare

namespace TransferLog

/- What is recorded in a log. -/
inductive Entry where
  | upload (bytes : UInt64)
  | download (peer : Endpoint) (s : Sample)
  deriving DecidableEq

namespace Entry

/- The bytes that were sent. -/
def sent? : Entry → Option UInt64
  | upload bytes => some bytes
  | download _ _ => none

/- The bytes that were received. -/
def received? : Entry → Option UInt64
  | upload _ => none
  | download _ s => some s.bytes

/- The sample of a peer. -/
def sampleOf?
    (peer : Endpoint) : Entry → Option Sample
  | upload _ => none
  | download sender s => if sender = peer then some s else none

end Entry

/- Record an entry. -/
def note
    (log : TransferLog) :
    Entry → TransferLog
  | .upload bytes => log.recordUpload bytes.toNat
  | .download peer s => log.recordDownload peer s

/- Record some entries, one after another. -/
def noteAll
    (log : TransferLog)
    (entries : List Entry) : TransferLog :=
  entries.foldl note log

/- The numbers of bytes that were sent. -/
def sent
    (entries : List Entry) : List UInt64 :=
  entries.filterMap Entry.sent?

/- The numbers of bytes that were received. -/
def received
    (entries : List Entry) : List UInt64 :=
  entries.filterMap Entry.received?

/- All samples of a peer, in the order of their recording. -/
def samplesOf
    (peer : Endpoint)
    (entries : List Entry) : List Sample :=
  entries.filterMap (·.sampleOf? peer)

/-
  The samples of a peer that count at `now`: those of the
  latest that were received in the window, or later.
-/
def recent
    (window : Span)
    (entries : List Entry)
    (peer : Endpoint)
    (now : Moment) : List Sample :=
  ((samplesOf peer entries).rtake maxSamples).filter fun s =>
    now ≤ s.received + window

/- What was not kept before is not among the latest later. -/
theorem rtake_concat
    {α : Type}
    (xs : List α)
    (x : α)
    (n : Nat) :
    (xs.rtake n ++ [x]).rtake n = (xs ++ [x]).rtake n := by
  cases n with
  | zero => rw [List.rtake_zero, List.rtake_zero]
  | succ n =>
      rw [List.rtake_concat_succ, List.rtake_concat_succ,
        List.rtake_eq_reverse_take_reverse (xs.rtake (n + 1)),
        List.rtake_eq_reverse_take_reverse xs,
        List.rtake_eq_reverse_take_reverse xs,
        List.reverse_reverse, List.take_take,
        Nat.min_eq_left (Nat.le_succ n)]

theorem length_rtake_le
    {α : Type}
    (xs : List α)
    (n : Nat) :
    (xs.rtake n).length ≤ n := by
  rw [List.rtake, List.length_drop]
  omega

/-
  One more sample drives out the oldest when as many as are
  kept have been recorded.
-/
theorem Gains.samples_eq_rtake
    {log log' : TransferLog}
    {peer : Endpoint}
    {s : Sample}
    {samples : List Sample}
    (h : log.Gains log' peer s)
    (hKept : log.samples peer = samples.rtake maxSamples) :
    log'.samples peer =
      (samples ++ [s]).rtake maxSamples := by
  rw [h.samples_eq, hKept,
    Nat.max_eq_left (length_rtake_le samples maxSamples),
    rtake_concat]

/- What a log knows of the entries recorded so far. -/
structure Tells
    (log : TransferLog)
    (window : Span)
    (entries : List Entry) : Prop where
  window_eq : log.window = window
  uploaded_eq : log.uploaded = Word.total (sent entries)
  downloaded_eq :
    log.downloaded = Word.total (received entries)
  samples_eq :
    ∀ peer,
      log.samples peer =
        (samplesOf peer entries).rtake maxSamples

namespace Tells

variable {log : TransferLog}
variable {window : Span}
variable {entries : List Entry}

theorem start
    (window : Span) :
    (TransferLog.start window).Tells window [] where
  window_eq := rfl
  uploaded_eq := rfl
  downloaded_eq := rfl
  samples_eq _ := (List.rtake_nil maxSamples).symm

theorem upload
    (h : log.Tells window entries)
    (bytes : UInt64) :
    (log.note (.upload bytes)).Tells window
      (entries ++ [.upload bytes]) where
  window_eq := h.window_eq
  uploaded_eq := by
    rw [sent, List.filterMap_append, Word.total_append,
      ← sent, ← h.uploaded_eq]
    rfl
  downloaded_eq := by
    rw [received, List.filterMap_append, Word.total_append,
      ← received, ← h.downloaded_eq]
    rfl
  samples_eq peer := by
    rw [samplesOf, List.filterMap_append]
    exact (h.samples_eq peer).trans
      (congrArg (List.rtake · maxSamples)
        (List.append_nil _).symm)

theorem download
    (h : log.Tells window entries)
    (peer : Endpoint)
    (s : Sample) :
    (log.note (.download peer s)).Tells window
      (entries ++ [.download peer s]) := by
  have hGains := log.gains_recordDownload peer s
  refine ⟨h.window_eq, ?_, ?_, ?_⟩
  · rw [sent, List.filterMap_append, Word.total_append,
      ← sent, ← h.uploaded_eq]
    rfl
  · rw [received, List.filterMap_append, Word.total_append,
      ← received, ← h.downloaded_eq]
    rfl
  · intro other
    rw [samplesOf, List.filterMap_append]
    by_cases hOther : other = peer
    · subst hOther
      have hOwn :
          [Entry.download other s].filterMap
            (·.sampleOf? other) = [s] := by
        simp [Entry.sampleOf?]
      rw [hOwn, ← samplesOf]
      exact hGains.samples_eq_rtake (h.samples_eq other)
    · have hNone :
          [Entry.download peer s].filterMap
            (·.sampleOf? other) = [] := by
        simp [Entry.sampleOf?, Ne.symm hOther]
      rw [hNone, List.append_nil, ← samplesOf,
        ← h.samples_eq]
      unfold samples
      exact congrArg (fun found => found.getD [])
        (hGains.others_eq other hOther)

/- Every entry that is recorded is known. -/
theorem note
    (h : log.Tells window entries)
    (e : Entry) :
    (log.note e).Tells window (entries ++ [e]) := by
  cases e with
  | upload bytes => exact h.upload bytes
  | download peer s => exact h.download peer s

end Tells

theorem tells_noteAll
    (window : Span)
    (entries : List Entry) :
    ((start window).noteAll entries).Tells window entries := by
  induction entries using List.reverseRecOn with
  | nil => exact .start window
  | append_singleton entries e ih =>
      unfold noteAll at ih ⊢
      rw [List.foldl_append]
      exact ih.note e

end TransferLog

end PeerShare

------------------------------------------------------------
-- Statistics
------------------------------------------------------------

namespace PeerShare

namespace TransferLog

/- The speed of a peer is that of its recent samples. -/
theorem averageSpeed?_noteAll
    (window : Span)
    (entries : List Entry)
    (peer : Endpoint)
    (now : Moment) :
    ((start window).noteAll entries).averageSpeed? peer now =
      meanSpeed? (recent window entries peer now) := by
  have hTells := tells_noteAll window entries
  have hWindow :
      ∀ s : Sample,
        elapsed s.received now ≤ window ↔
          now ≤ s.received + window :=
    fun s => Nat.sub_le_iff_le_add'
  unfold averageSpeed? recent
  rw [hTells.samples_eq, hTells.window_eq]
  simp only [hWindow]

theorem recent_of_samplesOf_eq
    {entries entries' : List Entry}
    {peer : Endpoint}
    (h : samplesOf peer entries' = samplesOf peer entries)
    (window : Span)
    (now : Moment) :
    recent window entries' peer now =
      recent window entries peer now := by
  unfold recent
  rw [h]

theorem length_recent_le
    (window : Span)
    (entries : List Entry)
    (peer : Endpoint)
    (now : Moment) :
    (recent window entries peer now).length ≤ maxSamples :=
  Nat.le_trans (List.length_filter_le _ _)
    (length_rtake_le _ maxSamples)

/-
  The totals are the sums of what was recorded, in whatever
  order, and fit a word at every step if they do in the end.
  The speed of a peer is the mean over its recent samples,
  if there are any, and depends on nothing but the samples
  of that peer.
-/
theorem noteAll_faithful
    (window : Span)
    (entries : List Entry) :
    let log := (start window).noteAll entries
    (log.uploaded = Word.total (sent entries) ∧
        log.downloaded = Word.total (received entries) ∧
        Word.sum? (sent entries) = Word.ofNat? log.uploaded ∧
        Word.sum? (received entries) =
          Word.ofNat? log.downloaded) ∧
      (∀ entries',
        entries'.Perm entries →
          let log' := (start window).noteAll entries'
          log'.uploaded = log.uploaded ∧
            log'.downloaded = log.downloaded) ∧
      ∀ peer now,
        let samples := recent window entries peer now
        (log.averageSpeed? peer now =
            if samples = [] then none
            else some (mean (samples.map Sample.speed))) ∧
          (log.averageSpeed? peer now = none ↔
            samples = []) ∧
          samples.length ≤ maxSamples ∧
          (∀ s ∈ samples,
            Span.ofMicros 1 ≤ s.duration ∧
              s.speed =
                s.bytes.toFloat / Span.seconds s.duration) ∧
          ∀ entries',
            samplesOf peer entries' = samplesOf peer entries →
              ((start window).noteAll entries').averageSpeed?
                  peer now =
                log.averageSpeed? peer now := by
  intro log
  have hTells := tells_noteAll window entries
  refine ⟨⟨?_, ?_, ?_, ?_⟩, ?_, ?_⟩
  · exact hTells.uploaded_eq
  · exact hTells.downloaded_eq
  · rw [Word.sum?_eq, hTells.uploaded_eq]
  · rw [Word.sum?_eq, hTells.downloaded_eq]
  · intro entries' hPerm log'
    have hTells' := tells_noteAll window entries'
    rw [hTells'.uploaded_eq, hTells.uploaded_eq,
      hTells'.downloaded_eq, hTells.downloaded_eq]
    exact ⟨Word.total_perm (hPerm.filterMap _),
      Word.total_perm (hPerm.filterMap _)⟩
  · intro peer now samples
    have hSpeed : log.averageSpeed? peer now = _ :=
      (averageSpeed?_noteAll window entries peer now).trans
        (meanSpeed?_eq samples)
    refine ⟨hSpeed, ?_, ?_, ?_, ?_⟩
    · rw [hSpeed]
      simp
    · exact length_recent_le window entries peer now
    · intro s _
      exact ⟨Nat.le_max_right _ _, rfl⟩
    · intro entries' hSame
      rw [averageSpeed?_noteAll, averageSpeed?_noteAll,
        recent_of_samplesOf_eq hSame]

/-
  The first sample of a peer leaves the window.  What the
  other peer sent in between does not count.
-/
example :
    let peer : Endpoint := ⟨.loopback, 1⟩
    let other : Endpoint := ⟨.loopback, 2⟩
    let log :=
      (start defaultWindow).noteAll
        [.download peer ⟨16000, 0, Span.ofSeconds 2⟩,
          .download other ⟨1, 0, Span.ofSeconds 3⟩,
          .download peer
            ⟨16000, Span.ofSeconds 3, Span.ofSeconds 4⟩]
    log.downloaded = 32001 ∧
      log.averageSpeed? peer (Span.ofSeconds 102) =
        some 12000.0 ∧
      log.averageSpeed? peer (Span.ofSeconds 103) =
        some 16000.0 ∧
      log.averageSpeed? peer (Span.ofSeconds 105) = none := by
  decide +kernel

end TransferLog

end PeerShare
