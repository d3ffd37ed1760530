import Mathlib.Data.List.Chain
import PeerShare.Proofs.Fetch.Silence

/-
  How often a peer that does not answer is asked.

  Passes at least half a second apart ask the single peer of
  a file three times for the same chunks, then strike it for
  them until it has four strikes, and then ask nobody.  With
  `k` chunks that takes `3 + ⌈4 / k⌉` passes.

  Key definitions include:
    * `Transfer.Stands`
    * `Session.Retries`

  Key theorems include:
    * `Transfer.Stands.tick`
    * `Session.retries_run`
    * `Session.silent_peer_evicted`
-/

------------------------------------------------------------
-- Passes over One Transfer
------------------------------------------------------------

namespace PeerShare

/-
  The pass in which a silent peer with `k` chunks is
  evicted: the third, and four divided by `k` more, rounded
  up.
-/
def evictionPass
    (k : Nat) : Nat :=
  3 + (4 + k - 1) / k

theorem three_lt_evictionPass
    {k : Nat}
    (hPos : 0 < k) :
    3 < evictionPass k :=
  Nat.lt_add_of_pos_right (Nat.div_pos (by omega) hPos)

/- When a peer has collected four strikes. -/
theorem evictionPass_le_iff
    {k n : Nat}
    (hPos : 0 < k) :
    evictionPass k ≤ n ↔ 3 < (n - 3) * k := by
  have hFirst := three_lt_evictionPass hPos
  have hStrikes :
      (4 + k - 1) / k < n - 3 + 1 ↔
        4 + k - 1 < (n - 3 + 1) * k :=
    Nat.div_lt_iff_lt_mul hPos
  rw [Nat.succ_mul] at hStrikes
  unfold evictionPass at hFirst ⊢
  omega

/- Whom some requests go to, with the chunks they name. -/
def targets
    (requests : List ChunkRequest) :
    List (Endpoint × List Nat) :=
  requests.map fun r => (r.peer, r.indices.map UInt16.toNat)

namespace Transfer

variable {t t' : Transfer}
variable {peer : Endpoint}
variable {holder : Holder}
variable {held : ChunkSet}
variable {wanted : List Nat}
variable {n : Nat}
variable {now : Moment}

/- One more pass has gone by. -/
theorem IsSilent.ask
    {asked : List Nat}
    {strikes : Nat}
    (h : t.IsSilent peer holder held wanted n)
    (hRegular : t'.IsRegular)
    (hSame : t.SameProgress t')
    (hPeers :
      t'.peers =
        Table.empty.insert peer (holder.ask now asked strikes))
    (hStrikes : strikes = (n + 1 - 3) * wanted.length)
    (hTries :
      ∀ i,
        (if i ∈ wanted.take maxRequest then min n 3 else 0) +
            (if i ∈ asked then 1 else 0) =
          if i ∈ wanted.take maxRequest then min (n + 1) 3
          else 0) :
    t'.IsSilent peer (holder.ask now asked strikes) held
      wanted (n + 1) where
  regular := hRegular
  incomplete := hSame.isComplete_eq.trans h.incomplete
  peers_eq := hPeers
  held_eq := by
    rw [Holder.heldAmong_ask, hSame.chunkCount_eq]
    exact h.held_eq
  wanted_eq := by
    rw [offered_ask]
    unfold offered
    rw [hSame.chunkCount_eq, hSame.chunks_eq]
    exact h.wanted_eq
  strikes_eq := hStrikes
  tries_eq i r hRecord := by
    rw [Holder.record?_ask] at hRecord
    have hNext := hTries i
    by_cases hAsked : i ∈ asked
    · rw [if_pos hAsked] at hRecord hNext
      rcases Option.map_eq_some_iff.mp hRecord with
        ⟨old, hOld, rfl⟩
      rw [← hNext, ← h.tries_eq i old hOld]
      rfl
    · rw [if_neg hAsked] at hRecord hNext
      rw [← hNext]
      exact h.tries_eq i r hRecord

theorem IsSilent.of_sameProgress
    (h : t.IsSilent peer holder held wanted n)
    (hSame : t.SameProgress t')
    (hPeers : t'.peers = t.peers)
    (hEvicted : t'.evicted = t.evicted) :
    t'.IsSilent peer holder held wanted n where
  regular := h.regular.of_sameProgress hSame hPeers hEvicted
  incomplete := hSame.isComplete_eq.trans h.incomplete
  peers_eq := hPeers.trans h.peers_eq
  held_eq := by
    rw [hSame.chunkCount_eq]
    exact h.held_eq
  wanted_eq := by
    unfold offered
    rw [hSame.chunkCount_eq, hSame.chunks_eq]
    exact h.wanted_eq
  strikes_eq := h.strikes_eq
  tries_eq := h.tries_eq

/-
  How a file with a silent peer stands after some passes,
  when the next one is now.
-/
def Stands
    (t : Transfer)
    (peer : Endpoint)
    (held : ChunkSet)
    (wanted : List Nat)
    (n : Nat)
    (now : Moment) : Prop :=
  if evictionPass wanted.length ≤ n then
    t.IsDeserted peer held
  else
    ∃ holder,
      t.IsSilent peer holder held wanted n ∧
        holder.AllDue now

/- One pass that asks the silent peer. -/
theorem IsSilent.tick_asks
    (h : t.IsSilent peer holder held wanted n)
    (hCount : t.chunkCount ≤ 65536)
    (hDue : holder.AllDue now)
    (hFirst : n < 3)
    (hSome : wanted ≠ [])
    (log : TransferLog) :
    ∃ t',
      (t.tick now log).2 = some t' ∧
        targets (t.tick now log).1.requests =
          [(peer, wanted.take maxRequest)] ∧
        t.SameProgress t' ∧
        t'.peers =
          Table.empty.insert peer
            (holder.ask now (wanted.take maxRequest) 0) := by
  rcases @tick_of_not_isComplete t now log h.incomplete with
    ⟨t₀, hSame, hPeers, hEvicted, hRequests, -, hRest⟩
  have hSilent := h.of_sameProgress hSame hPeers hEvicted
  have hSchedule :=
    hSilent.schedule_asks
      (hSame.chunkCount_eq.symm ▸ hCount) hDue hFirst hSome log
  have hSmall : ∀ i ∈ wanted.take maxRequest, i < 65536 := by
    intro i hi
    have hMem := List.mem_of_mem_take hi
    rw [← h.wanted_eq] at hMem
    rcases (mem_offered_iff.mp hMem).2 with ⟨chunk, hGet, -⟩
    exact Nat.lt_of_lt_of_le
      (Array.getElem?_eq_some_iff.mp hGet).1 hCount
  refine ⟨_, hRest, ?_,
    hSame.trans (sameProgress_schedule t₀ now log), ?_⟩
  · rw [hRequests, hSchedule]
    unfold targets
    rw [List.map_map, List.map_singleton, Function.comp_apply,
      map_toNat_ofNat hSmall]
  · rw [hSchedule]

/- One pass that does not ask it. -/
theorem IsSilent.tick_of_le
    (h : t.IsSilent peer holder held wanted n)
    (hCount : t.chunkCount ≤ 65536)
    (hDue : holder.AllDue now)
    (hLater : 3 ≤ n)
    (log : TransferLog) :
    ∃ t',
      (t.tick now log).2 = some t' ∧
        (t.tick now log).1.requests = [] ∧
        t.SameProgress t' ∧
        ((n - 2) * wanted.length ≤ 3 →
          t'.peers =
            Table.empty.insert peer
              (holder.ask now [] ((n - 2) * wanted.length))) ∧
        (3 < (n - 2) * wanted.length →
          t'.IsDeserted peer held) := by
  rcases @tick_of_not_isComplete t now log h.incomplete with
    ⟨t₀, hSame, hPeers, hEvicted, hRequests, -, hRest⟩
  have hSilent := h.of_sameProgress hSame hPeers hEvicted
  have hSmall : t₀.chunkCount ≤ 65536 := by
    rw [hSame.chunkCount_eq]
    exact hCount
  have hAfter :=
    hSame.trans (sameProgress_schedule t₀ now log)
  refine ⟨_, hRest, ?_, hAfter, ?_, ?_⟩
  · rcases Nat.lt_or_ge 3 ((n - 2) * wanted.length) with
      hLimit | hStays
    · rw [hRequests,
        hSilent.schedule_evicts hSmall hDue hLater hLimit]
      rfl
    · rw [hRequests,
        hSilent.schedule_strikes hSmall hDue hLater hStays]
      rfl
  · intro hStays
    rw [hSilent.schedule_strikes hSmall hDue hLater hStays]
  · intro hLimit
    refine ⟨hAfter.isComplete_eq.trans h.incomplete, ?_, ?_⟩
    · rw [hSilent.schedule_evicts hSmall hDue hLater hLimit]
    · rw [hSilent.schedule_evicts hSmall hDue hLater hLimit]
      exact Table.get?_insert_self _ _ _

/- One pass when nobody is left to ask. -/
theorem IsDeserted.tick
    (h : t.IsDeserted peer held)
    (now : Moment)
    (log : TransferLog) :
    ∃ t',
      (t.tick now log).2 = some t' ∧
        (t.tick now log).1.requests = [] ∧
        t.SameProgress t' ∧ t'.IsDeserted peer held := by
  rcases @tick_of_not_isComplete t now log h.incomplete with
    ⟨t₀, hSame, hPeers, hEvicted, hRequests, -, hRest⟩
  have hRanked : t₀.rankedPeers now log = [] := by
    have hPerm := t₀.perm_rankedPeers now log
    rw [hPeers, h.peers_eq] at hPerm
    exact List.perm_nil.mp hPerm
  have hSchedule : t₀.schedule now log = ([], t₀) := by
    unfold schedule
    rw [hRanked]
    rfl
  refine ⟨_, hRest, ?_, ?_, ?_⟩
  · rw [hRequests, hSchedule]
    rfl
  · rw [hSchedule]
    exact hSame
  · rw [hSchedule]
    exact ⟨hSame.isComplete_eq.trans h.incomplete,
      hPeers.trans h.peers_eq, hEvicted ▸ h.evicted_eq⟩

/- The peer was asked once more. -/
theorem IsSilent.stands_of_asked
    (h : t.IsSilent peer holder held wanted n)
    (hDue : holder.AllDue now)
    (hFirst : n < 3)
    (hSome : wanted ≠ [])
    (hRegular : t'.IsRegular)
    (hSame : t.SameProgress t')
    (hPeers :
      t'.peers =
        Table.empty.insert peer
          (holder.ask now (wanted.take maxRequest) 0))
    {later : Moment}
    (hLater : Span.ofMillis 500 ≤ elapsed now later) :
    t'.Stands peer held wanted (n + 1) later := by
  have hNone : n + 1 - 3 = 0 := by omega
  have hStays : ¬ evictionPass wanted.length ≤ n + 1 := by
    rw [evictionPass_le_iff (List.length_pos_of_ne_nil hSome),
      hNone, Nat.zero_mul]
    decide
  unfold Stands
  rw [if_neg hStays]
  refine ⟨_, h.ask hRegular hSame hPeers ?_ ?_,
    hDue.ask hLater⟩
  · rw [hNone, Nat.zero_mul]
  · intro i
    split <;> omega

/- The peer was not asked, and may have been evicted. -/
theorem IsSilent.stands_of_le
    (h : t.IsSilent peer holder held wanted n)
    (hDue : holder.AllDue now)
    (hAsked : 3 ≤ n)
    (hSome : wanted ≠ [])
    (hRegular : t'.IsRegular)
    (hSame : t.SameProgress t')
    (hStays :
      (n - 2) * wanted.length ≤ 3 →
        t'.peers =
          Table.empty.insert peer
            (holder.ask now [] ((n - 2) * wanted.length)))
    (hEvicted :
      3 < (n - 2) * wanted.length → t'.IsDeserted peer held)
    {later : Moment}
    (hLater : Span.ofMillis 500 ≤ elapsed now later) :
    t'.Stands peer held wanted (n + 1) later := by
  have hEnd :=
    evictionPass_le_iff (n := n + 1)
      (List.length_pos_of_ne_nil hSome)
  have hNext : n + 1 - 3 = n - 2 := by omega
  rw [hNext] at hEnd
  unfold Stands
  rcases Nat.lt_or_ge 3 ((n - 2) * wanted.length) with
    hLimit | hFew
  · rw [if_pos (hEnd.mpr hLimit)]
    exact hEvicted hLimit
  · rw [if_neg (mt hEnd.mp (Nat.not_lt_of_le hFew))]
    refine ⟨_, h.ask hRegular hSame (hStays hFew) ?_ ?_,
      hDue.ask hLater⟩
    · rw [hNext]
    · intro i
      rw [if_neg List.not_mem_nil]
      split <;> omega

/-
  What a pass asks for, and how the file stands after it
  when the next pass comes half a second later.
-/
theorem Stands.tick
    (h : t.Stands peer held wanted n now)
    (hCount : t.chunkCount ≤ 65536)
    (hSome : wanted ≠ [])
    (log : TransferLog) :
    ∃ t',
      (t.tick now log).2 = some t' ∧
        targets (t.tick now log).1.requests =
          (if n + 1 ≤ 3 then [(peer, wanted.take maxRequest)]
          else []) ∧
        t.SameProgress t' ∧
        (t'.IsRegular →
          ∀ later,
            Span.ofMillis 500 ≤ elapsed now later →
              t'.Stands peer held wanted (n + 1) later) := by
  have hFirst :=
    three_lt_evictionPass (List.length_pos_of_ne_nil hSome)
  unfold Stands at h
  by_cases hGone : evictionPass wanted.length ≤ n
  · rw [if_pos hGone] at h
    have hLate : ¬ n + 1 ≤ 3 := by omega
    rcases h.tick now log with
      ⟨t', hRest, hRequests, hSame, hDeserted⟩
    refine ⟨t', hRest, ?_, hSame, ?_⟩
    · rw [hRequests, if_neg hLate]
      rfl
    · intro _ later _
      unfold Stands
      rw [if_pos (Nat.le_succ_of_le hGone)]
      exact hDeserted
  · rw [if_neg hGone] at h
    rcases h with ⟨holder, hSilent, hDue⟩
    rcases Nat.lt_or_ge n 3 with hEarly | hAsked
    · rcases hSilent.tick_asks hCount hDue hEarly hSome log
        with ⟨t', hRest, hRequests, hSame, hPeers⟩
      refine ⟨t', hRest, ?_, hSame, ?_⟩
      · rw [hRequests, if_pos (Nat.succ_le_of_lt hEarly)]
      · intro hRegular later hLater
        exact hSilent.stands_of_asked hDue hEarly hSome
          hRegular hSame hPeers hLater
    · rcases hSilent.tick_of_le hCount hDue hAsked log with
        ⟨t', hRest, hRequests, hSame, hStays, hEvicted⟩
      refine ⟨t', hRest, ?_, hSame, ?_⟩
      · rw [hRequests, if_neg (by omega)]
        rfl
      · intro hRegular later hLater
        exact hSilent.stands_of_le hDue hAsked hSome hRegular
          hSame hStays hEvicted hLater

end Transfer

end PeerShare

------------------------------------------------------------
-- Sessions
------------------------------------------------------------

namespace PeerShare

namespace Session

/- Some passes, as events of a session. -/
def passes
    (ticks : List (Moment × TransferLog)) : List Event :=
  ticks.map fun (now, log) => .tick now log

/-
  What a pass does for a file whose one peer does not
  answer, if it is the nth.
-/
structure Retries
    (s : Session)
    (name : String)
    (peer : Endpoint)
    (held : ChunkSet)
    (wanted : List Nat)
    (now : Moment)
    (log : TransferLog)
    (n : Nat) : Prop where
  /- The first chunks are asked for three times. -/
  targets_eq :
    targets
        ((s.downloads.tick now log).1.requests.filter
          (·.name = name)) =
      if n ≤ 3 then [(peer, wanted.take 100)] else []
  stays :
    n < evictionPass wanted.length →
      ∃ t' holder',
        (s.downloads.tick now log).2.transfer? name = some t' ∧
          t'.peers = Table.empty.insert peer holder'
  leaves :
    evictionPass wanted.length ≤ n →
      ∃ t',
        (s.downloads.tick now log).2.transfer? name = some t' ∧
          t'.peers = Table.empty ∧
          t'.evicted.get? peer = some held

variable {s : Session}
variable {name : String}
variable {t : Transfer}
variable {peer : Endpoint}
variable {holder : Holder}
variable {held : ChunkSet}
variable {wanted : List Nat}
variable {n : Nat}
variable {now : Moment}

/- The step from one pass to the next. -/
theorem retries_of_stands
    (hReachable : s.IsReachable)
    (hGet : s.downloads.transfer? name = some t)
    (hCount : t.chunkCount ≤ 65536)
    (hSome : wanted ≠ [])
    (hStands : t.Stands peer held wanted n now)
    (log : TransferLog) :
    s.Retries name peer held wanted now log (n + 1) ∧
      ∃ t',
        (s.after (.tick now log)).downloads.transfer? name =
            some t' ∧
          t'.chunkCount = t.chunkCount ∧
          ∀ later,
            Span.ofMillis 500 ≤ elapsed now later →
              t'.Stands peer held wanted (n + 1) later := by
  rcases hStands.tick hCount hSome log with
    ⟨t', hRest, hTargets, hSame, hNext⟩
  have hAfter := transfer?_after_tick hGet hRest
  have hLater :=
    hNext ((hReachable.after (.tick now log)).isRegular hAfter)
  have hOwn :=
    hLater (now + Span.ofMillis 500)
      (Nat.le_of_eq (Nat.add_sub_cancel_left _ _).symm)
  unfold Transfer.Stands at hOwn
  refine ⟨⟨?_, ?_, ?_⟩, t', hAfter, hSame.chunkCount_eq,
    hLater⟩
  · rw [Downloads.filter_requests_tick hReachable.name_eq hGet]
    exact hTargets
  · intro hLt
    rw [if_neg (Nat.not_le_of_lt hLt)] at hOwn
    rcases hOwn with ⟨holder', hSilent, -⟩
    exact ⟨t', holder', hAfter, hSilent.peers_eq⟩
  · intro hLe
    rw [if_pos hLe] at hOwn
    exact ⟨t', hAfter, hOwn.peers_eq, hOwn.evicted_eq⟩

/- All passes, one after another. -/
theorem retries_run
    {ticks earlier later : List (Moment × TransferLog)}
    {log : TransferLog}
    (hReachable : s.IsReachable)
    (hGet : s.downloads.transfer? name = some t)
    (hCount : t.chunkCount ≤ 65536)
    (hSome : wanted ≠ [])
    (hStands :
      ∀ first ∈ (ticks.map Prod.fst).head?,
        t.Stands peer held wanted n first)
    (hSpaced :
      (ticks.map Prod.fst).IsChain fun a b =>
        Span.ofMillis 500 ≤ elapsed a b)
    (hSplit : ticks = earlier ++ (now, log) :: later) :
    (s.run (passes earlier)).Retries name peer held wanted
      now log (n + earlier.length + 1) := by
  induction earlier generalizing s t n ticks with
  | nil =>
      rw [hSplit] at hStands
      exact (retries_of_stands hReachable hGet hCount hSome
        (hStands now rfl) log).1
  | cons first earlier ih =>
      rw [hSplit, List.cons_append, List.map_cons]
        at hStands hSpaced
      rcases (retries_of_stands hReachable hGet hCount hSome
          (hStands first.1 rfl) first.2).2 with
        ⟨t', hAfter, hSame, hNext⟩
      have hLength :
          n + (first :: earlier).length + 1 =
            n + 1 + earlier.length + 1 := by
        rw [List.length_cons]
        omega
      rw [hLength]
      exact ih (hReachable.after _) hAfter
        (hSame.symm ▸ hCount)
        (fun second hSecond =>
          hNext second (hSpaced.rel_head? hSecond))
        hSpaced.tail rfl

/-
  A single peer that does not answer is asked three times
  for the first of the missing chunks that it holds, and is
  evicted after four strikes for them.  The numbers of the
  chunks have to fit the requests.
-/
theorem silent_peer_evicted
    (hReachable : s.IsReachable)
    (hGet : s.downloads.transfer? name = some t)
    (hIncomplete : t.isComplete = false)
    (hCount : t.chunkCount ≤ 65536)
    (hUntried : t.IsUntried peer holder)
    (hSome : t.offered holder ≠ [])
    (ticks : List (Moment × TransferLog))
    (hSpaced :
      (ticks.map Prod.fst).IsChain fun a b =>
        Span.ofMillis 500 ≤ elapsed a b) :
    ∀ earlier now log later,
      ticks = earlier ++ (now, log) :: later →
        (s.run (passes earlier)).Retries name peer
          (holder.heldAmong t.chunkCount)
          (t.offered holder) now log
          (earlier.length + 1) := by
  intro earlier now log later hSplit
  have hSilent :=
    hUntried.isSilent (hReachable.isRegular hGet) hIncomplete
  have hFirst :=
    three_lt_evictionPass (List.length_pos_of_ne_nil hSome)
  have hStands :
      ∀ first,
        t.Stands peer (holder.heldAmong t.chunkCount)
          (t.offered holder) 0 first := by
    intro first
    unfold Transfer.Stands
    rw [if_neg (by omega)]
    exact ⟨holder, hSilent, hUntried.allDue first⟩
  have hRun :=
    retries_run hReachable hGet hCount hSome
      (fun first _ => hStands first) hSpaced hSplit
  rw [Nat.zero_add] at hRun
  exact hRun

/- With one chunk the seventh pass evicts the peer. -/
theorem silent_peer_evicted_of_one_chunk :
    let peer : Endpoint := ⟨.loopback, 1⟩
    let log := TransferLog.start TransferLog.defaultWindow
    let file : FileRecord :=
      ⟨"a", 1, .ofBytes [], [.ofBytes []]⟩
    let s :=
      (blank Disk.empty).run
        [.request "a" 0,
          .start file "a" false [(peer, [0x80])] 0]
    let earlier : List (Moment × TransferLog) :=
      [0, 500, 1000, 1500, 2000, 2500].map fun n =>
        (Span.ofMillis n, log)
    evictionPass 1 = 7 ∧
      (s.run (passes earlier)).Retries "a" peer
        ⟨#[true]⟩ [0] (Span.ofMillis 3000) log 7 := by
  intro peer log file s earlier
  refine ⟨rfl, ?_⟩
  let holder : Holder := ⟨#[some RequestRecord.fresh], 0⟩
  have hAll :
      (s.downloads.transfer? "a").map (fun t =>
          (t.isComplete, t.chunkCount, t.offered holder,
            t.peers)) =
        some
          (false, 1, [0], Table.empty.insert peer holder) := by
    decide +kernel
  rcases Option.map_eq_some_iff.mp hAll with ⟨t, hGet, hFacts⟩
  simp only [Prod.mk.injEq] at hFacts
  rcases hFacts with ⟨hIncomplete, hCount, hOffered, hPeers⟩
  have hFresh :
      ∀ i r,
        holder.record? i = some r → r = RequestRecord.fresh := by
    intro i r hRecord
    cases i with
    | zero => exact (Option.some.inj hRecord).symm
    | succ i => cases hRecord
  have hRun :=
    silent_peer_evicted (isReachable_run_blank _ _) hGet
      hIncomplete (by rw [hCount]; decide)
      ⟨hPeers, rfl, hFresh⟩ (by rw [hOffered]; decide)
      (earlier ++ [(Span.ofMillis 3000, log)]) (by decide)
      earlier (Span.ofMillis 3000) log [] rfl
  rw [hCount, hOffered] at hRun
  exact hRun

end Session

namespace Transfer

/- What the one peer with one chunk can offer. -/
theorem IsLone.exists_untried
    {t : Transfer}
    {peer : Endpoint}
    {index : Nat}
    (h : t.IsLone peer index RequestRecord.fresh 0) :
    ∃ holder,
      t.IsUntried peer holder ∧ t.offered holder = [index] := by
  rcases h.exists_holder with
    ⟨holder, hPeers, hOnly, hStrikes⟩
  refine ⟨holder, ⟨hPeers, hStrikes, ?_⟩, ?_⟩
  · intro i r hRecord
    rw [hOnly i] at hRecord
    split at hRecord
    · exact (Option.some.inj hRecord).symm
    · cases hRecord
  · apply List.perm_singleton.mp
    rw [List.perm_ext_iff_of_nodup (t.nodup_offered holder)
      (List.nodup_singleton index)]
    intro i
    rw [mem_offered_iff, List.mem_singleton]
    unfold Holder.holds
    rw [hOnly i]
    constructor
    · rintro ⟨hHolds, -⟩
      split at hHolds
      · assumption
      · cases hHolds
    · rintro rfl
      have hChunk := Array.getElem?_eq_getElem h.lt_chunkCount
      exact ⟨by rw [if_pos rfl]; rfl, _, hChunk,
        h.fresh _ _ hChunk⟩

end Transfer

namespace Session

variable {s : Session}
variable {name : String}
variable {peer : Endpoint}

/- A chunk whose number does not fit is never requested. -/
theorem HasLone.not_retries
    {n : Nat}
    (h : s.HasLone name n peer 65536 RequestRecord.fresh 0)
    (hReachable : s.IsReachable)
    (now : Moment)
    (log : TransferLog) :
    ∃ t holder,
      s.downloads.transfer? name = some t ∧
        t.isComplete = false ∧
        t.IsUntried peer holder ∧
        t.offered holder = [65536] ∧
        ∀ held,
          ¬ s.Retries name peer held (t.offered holder) now log
            1 := by
  rcases h with ⟨t, hGet, -, hLone⟩
  rcases hLone.exists_untried with ⟨holder, hUntried, hOffered⟩
  rcases @Transfer.IsLone.tick_asks t peer 65536
      RequestRecord.fresh 0 now hLone rfl (by decide) log with
    ⟨t', -, -, -, hRequests⟩
  refine ⟨t, holder, hGet, hLone.isComplete_eq, hUntried,
    hOffered, ?_⟩
  intro held hRetries
  have hTargets := hRetries.targets_eq
  rw [Downloads.filter_requests_tick hReachable.name_eq hGet,
    hRequests, hOffered] at hTargets
  have hZero : [(peer, [0])] = [(peer, [65536])] := hTargets
  simp at hZero

/-
  The chunk 65536 is requested under the number zero, so it
  is not requested although it is the one chunk on offer.
-/
theorem not_retries_of_shared_number :
    let peer : Endpoint := ⟨.loopback, 1⟩
    let log := TransferLog.start TransferLog.defaultWindow
    let file : FileRecord :=
      ⟨"a", 1, .ofBytes [], List.replicate 65537 (.ofBytes [])⟩
    let s :=
      (blank Disk.empty).run
        [.request "a" 0,
          .start file "a" false
            [(peer, Packing.ofIndices [65536])] 0]
    ∃ t holder,
      s.downloads.transfer? "a" = some t ∧
        t.isComplete = false ∧
        t.IsUntried peer holder ∧
        t.offered holder = [65536] ∧
        ∀ held,
          ¬ s.Retries "a" peer held (t.offered holder) 0 log
            1 := by
  intro peer log file s
  have hStart := hasLone_awaiting (Nat.lt_succ_self 65536) peer
  have hReachable : s.IsReachable := isReachable_run_blank _ _
  exact HasLone.not_retries hStart hReachable 0 log

end Session

end PeerShare
