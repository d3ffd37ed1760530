import Mathlib.Data.List.Sort
import PeerShare.Proofs.Fetch.Rarest

/-
  A single peer that does not answer.

  The peer is asked for the same chunks in three passes, the
  first of those that it holds and that are missing.  From
  then on each of these chunks is a strike in every pass,
  until the peer is evicted; after that there is nobody to
  ask.

  Key definitions include:
    * `Transfer.offered`
    * `Transfer.IsUntried`
    * `Transfer.IsSilent`
    * `Transfer.IsDeserted`

  Key theorems include:
    * `Transfer.filter_missing_eq_offered`
    * `Transfer.IsSilent.schedule_asks`
    * `Transfer.IsSilent.schedule_strikes`
    * `Transfer.IsSilent.schedule_evicts`
-/

------------------------------------------------------------
-- Answers that are Waited for
------------------------------------------------------------

namespace PeerShare

theorem RequestRecord.isDue_mono
    {r : RequestRecord}
    {now later : Moment}
    (h : r.isDue now = true)
    (hLater : now ≤ later) :
    r.isDue later = true := by
  unfold RequestRecord.isDue elapsed at *
  cases hLast : r.lastRequested with
  | none => rfl
  | some moment =>
      rw [hLast] at h
      have hPassed := of_decide_eq_true h
      exact decide_eq_true
        (Nat.le_trans hPassed (Nat.sub_le_sub_right hLater _))

namespace Holder

variable {h : Holder}
variable {now later : Moment}
variable {asked : List Nat}
variable {strikes : Nat}

/- Whether no answer is waited for from a peer. -/
def AllDue
    (h : Holder)
    (now : Moment) : Prop :=
  ∀ i r, h.record? i = some r → r.isDue now = true

/- Half a second later no answer is waited for any more. -/
theorem AllDue.ask
    (hDue : h.AllDue now)
    (hLater : Span.ofMillis 500 ≤ elapsed now later) :
    (h.ask now asked strikes).AllDue later := by
  intro i r hRecord
  rw [record?_ask] at hRecord
  split at hRecord
  · rcases Option.map_eq_some_iff.mp hRecord with
      ⟨old, -, rfl⟩
    exact decide_eq_true hLater
  · have hLe : now ≤ later := by
      apply Nat.le_of_not_lt
      intro hLt
      unfold elapsed at hLater
      rw [Nat.sub_eq_zero_of_le (Nat.le_of_lt hLt)] at hLater
      exact absurd hLater (by decide)
    exact RequestRecord.isDue_mono (hDue i r hRecord) hLe

theorem holds_ask
    (h : Holder)
    (now : Moment)
    (asked : List Nat)
    (strikes i : Nat) :
    (h.ask now asked strikes).holds i = h.holds i := by
  unfold holds
  rw [record?_ask]
  split
  · exact Option.isSome_map
  · rfl

theorem heldAmong_ask
    (h : Holder)
    (now : Moment)
    (asked : List Nat)
    (strikes n : Nat) :
    (h.ask now asked strikes).heldAmong n = h.heldAmong n := by
  unfold heldAmong
  simp only [holds_ask]

theorem holds_of_isAskable
    {i : Nat}
    (hAskable : h.isAskable i = true) :
    h.holds i = true :=
  Option.isSome_of_any hAskable

theorem holds_of_isSpent
    {i : Nat}
    (hSpent : h.isSpent i = true) :
    h.holds i = true :=
  Option.isSome_of_any hSpent

/-
  A chunk that stands before all chunks that the peer may be
  asked for is reached.
-/
theorem mem_reach_of_rel
    {R : Nat → Nat → Prop}
    {list : List Nat}
    {i : Nat}
    (hAsymm : ∀ a b, R a b → ¬ R b a)
    (hSorted : list.Pairwise R)
    (hMem : i ∈ list)
    (hBefore : ∀ last ∈ h.askable list, R i last)
    (limit : Nat) :
    i ∈ h.reach limit list := by
  unfold reach
  cases hLast : (h.askable list)[limit - 1]? with
  | none => exact hMem
  | some last =>
      have hAskable := List.mem_of_getElem? hLast
      have hFirst := hBefore last hAskable
      rcases List.eq_append_cons_of_mem
          (List.mem_filter.mp hAskable).1 with
        ⟨front, rest, rfl, hNot⟩
      have hFront :
          (front ++ last :: rest).takeWhile (· ≠ last) =
            front := by
        rw [List.takeWhile_append_of_pos,
          List.takeWhile_cons_of_neg (by simp),
          List.append_nil]
        intro k hk
        apply decide_eq_true
        rintro rfl
        exact hNot hk
      dsimp only
      rw [hFront]
      rcases List.mem_append.mp hMem with hOwn | hOther
      · exact hOwn
      · exfalso
        rcases List.mem_cons.mp hOther with rfl | hRest
        · exact hAsymm _ _ hFirst hFirst
        · have hTail := (List.pairwise_append.mp hSorted).2.1
          exact hAsymm _ _ hFirst
            (List.rel_of_pairwise_cons hTail hRest)

end Holder

end PeerShare

------------------------------------------------------------
-- Chunks on Offer
------------------------------------------------------------

namespace PeerShare

namespace Transfer

variable {t : Transfer}
variable {peer : Endpoint}
variable {holder : Holder}
variable {now : Moment}

/-
  The chunks that a peer holds and that have not arrived, in
  order of number.
-/
def offered
    (t : Transfer)
    (holder : Holder) : List Nat :=
  (List.range t.chunkCount).filter fun i =>
    holder.holds i &&
      (t.chunks[i]?).any fun chunk => !chunk.downloaded

theorem pairwise_offered
    (t : Transfer)
    (holder : Holder) :
    (t.offered holder).Pairwise (· < ·) :=
  List.pairwise_lt_range.sublist List.filter_sublist

theorem nodup_offered
    (t : Transfer)
    (holder : Holder) :
    (t.offered holder).Nodup :=
  (t.pairwise_offered holder).imp Nat.ne_of_lt

theorem mem_offered_iff
    {i : Nat} :
    i ∈ t.offered holder ↔
      holder.holds i = true ∧
        ∃ chunk,
          t.chunks[i]? = some chunk ∧
            chunk.downloaded = false := by
  unfold offered
  rw [List.mem_filter, List.mem_range, Bool.and_eq_true,
    Option.any_eq_true]
  constructor
  · rintro ⟨-, hHolds, chunk, hGet, hFresh⟩
    exact ⟨hHolds, chunk, hGet, by simpa using hFresh⟩
  · rintro ⟨hHolds, chunk, hGet, hFresh⟩
    refine ⟨?_, hHolds, chunk, hGet, by simp [hFresh]⟩
    exact (Array.getElem?_eq_some_iff.mp hGet).1

/- Only what the peer holds counts. -/
theorem offered_ask
    (t : Transfer)
    (holder : Holder)
    (now : Moment)
    (asked : List Nat)
    (strikes : Nat) :
    t.offered (holder.ask now asked strikes) =
      t.offered holder := by
  unfold offered
  simp only [Holder.holds_ask]

theorem holderCount_of_lone
    (hPeers : t.peers = Table.empty.insert peer holder)
    (i : Nat) :
    t.holderCount i = if holder.holds i then 1 else 0 := by
  have hValues : t.peers.values = [holder] := by
    rw [hPeers]
    rfl
  unfold holderCount
  rw [hValues, List.countP_singleton]

theorem isInFlight_of_lone
    (hPeers : t.peers = Table.empty.insert peer holder)
    (hDue : holder.AllDue now)
    (i : Nat) :
    t.isInFlight i now = false := by
  have hValues : t.peers.values = [holder] := by
    rw [hPeers]
    rfl
  unfold isInFlight
  rw [hValues, List.any_cons, List.any_nil, Bool.or_false]
  exact Holder.isAwaiting_eq_false (hDue i)

/- What the one peer holds is missing in order of number. -/
theorem filter_missing_eq_offered
    (hFormed : t.WellFormed)
    (hPeers : t.peers = Table.empty.insert peer holder)
    (hDue : holder.AllDue now) :
    (t.missing now).filter holder.holds = t.offered holder := by
  have hSorted :
      ((t.missing now).filter holder.holds).Pairwise
        (· < ·) := by
    have hRarer :=
      (pairwise_missing hFormed now).sublist
        (List.filter_sublist (p := holder.holds))
    apply hRarer.imp_of_mem
    intro a b ha hb hBefore
    have hCounts : t.holderCount a = t.holderCount b := by
      rw [holderCount_of_lone hPeers,
        holderCount_of_lone hPeers,
        if_pos (List.mem_filter.mp ha).2,
        if_pos (List.mem_filter.mp hb).2]
    rcases hBefore with hFewer | hLower
    · exact absurd hCounts (Nat.ne_of_lt hFewer)
    · exact hLower.2
  apply hSorted.eq_of_mem_iff (t.pairwise_offered holder)
  intro i
  rw [List.mem_filter, mem_missing_iff hFormed,
    mem_offered_iff]
  have hIdle := isInFlight_of_lone hPeers hDue i
  constructor
  · rintro ⟨⟨chunk, hGet, hFresh, -⟩, hHolds⟩
    exact ⟨hHolds, chunk, hGet, hFresh⟩
  · rintro ⟨hHolds, chunk, hGet, hFresh⟩
    exact ⟨⟨chunk, hGet, hFresh, hIdle⟩, hHolds⟩

theorem filter_missing_of_imp
    {p : Nat → Bool}
    (hFormed : t.WellFormed)
    (hPeers : t.peers = Table.empty.insert peer holder)
    (hDue : holder.AllDue now)
    (hImp : ∀ i, p i = true → holder.holds i = true) :
    (t.missing now).filter p = (t.offered holder).filter p := by
  rw [← filter_missing_eq_offered hFormed hPeers hDue,
    List.filter_filter]
  apply List.filter_congr
  intro i _
  cases hp : p i with
  | false => rfl
  | true => rw [hImp i hp, Bool.true_and]

end Transfer

end PeerShare

------------------------------------------------------------
-- The Schedule for a Silent Peer
------------------------------------------------------------

namespace PeerShare

namespace Transfer

/-
  A transfer with a single peer that was not asked for
  anything and has no strikes.
-/
structure IsUntried
    (t : Transfer)
    (peer : Endpoint)
    (holder : Holder) : Prop where
  peers_eq : t.peers = Table.empty.insert peer holder
  strikes_eq : holder.strikes = 0
  fresh :
    ∀ i r,
      holder.record? i = some r → r = RequestRecord.fresh

/-
  The same transfer after some passes without an answer, as
  long as the peer is there.
-/
structure IsSilent
    (t : Transfer)
    (peer : Endpoint)
    (holder : Holder)
    (held : ChunkSet)
    (wanted : List Nat)
    (n : Nat) : Prop where
  regular : t.IsRegular
  incomplete : t.isComplete = false
  peers_eq : t.peers = Table.empty.insert peer holder
  held_eq : holder.heldAmong t.chunkCount = held
  wanted_eq : t.offered holder = wanted
  strikes_eq : holder.strikes = (n - 3) * wanted.length
  tries_eq :
    ∀ i r,
      holder.record? i = some r →
        r.tries =
          if i ∈ wanted.take maxRequest then min n 3 else 0

/- The same transfer after the peer was evicted. -/
structure IsDeserted
    (t : Transfer)
    (peer : Endpoint)
    (held : ChunkSet) : Prop where
  incomplete : t.isComplete = false
  peers_eq : t.peers = Table.empty
  evicted_eq : t.evicted.get? peer = some held

variable {t t' : Transfer}
variable {peer : Endpoint}
variable {holder : Holder}
variable {held : ChunkSet}
variable {wanted : List Nat}
variable {n : Nat}
variable {now : Moment}

theorem IsUntried.isSilent
    (h : t.IsUntried peer holder)
    (hRegular : t.IsRegular)
    (hIncomplete : t.isComplete = false) :
    t.IsSilent peer holder (holder.heldAmong t.chunkCount)
      (t.offered holder) 0 where
  regular := hRegular
  incomplete := hIncomplete
  peers_eq := h.peers_eq
  held_eq := rfl
  wanted_eq := rfl
  strikes_eq := by
    rw [h.strikes_eq, Nat.zero_sub, Nat.zero_mul]
  tries_eq i r hRecord := by
    rw [h.fresh i r hRecord]
    split <;> rfl

theorem IsUntried.allDue
    (h : t.IsUntried peer holder)
    (now : Moment) :
    holder.AllDue now := by
  intro i r hRecord
  rw [h.fresh i r hRecord]
  rfl

namespace IsSilent

theorem nodup
    (h : t.IsSilent peer holder held wanted n) :
    wanted.Nodup := by
  rw [← h.wanted_eq]
  exact t.nodup_offered holder

theorem exists_record
    (h : t.IsSilent peer holder held wanted n)
    {i : Nat}
    (hMem : i ∈ wanted) :
    ∃ r, holder.record? i = some r := by
  rw [← h.wanted_eq] at hMem
  exact Option.isSome_iff_exists.mp (mem_offered_iff.mp hMem).1

/- At first the peer may be asked for all that it holds. -/
theorem isAskable_of_lt
    (h : t.IsSilent peer holder held wanted n)
    (hFirst : n < 3)
    {i : Nat}
    (hHolds : holder.holds i = true) :
    holder.isAskable i = true ∧ holder.isSpent i = false := by
  rcases Option.isSome_iff_exists.mp hHolds with ⟨r, hRecord⟩
  apply Holder.isAskable_of_record hRecord
  rw [h.tries_eq i r hRecord]
  unfold maxTries
  split <;> omega

theorem isSpent_of_mem
    (h : t.IsSilent peer holder held wanted n)
    (hLater : 3 ≤ n)
    {i : Nat}
    (hMem : i ∈ wanted.take maxRequest) :
    holder.isSpent i = true ∧ holder.isAskable i = false := by
  rcases h.exists_record (List.mem_of_mem_take hMem) with
    ⟨r, hRecord⟩
  apply Holder.isSpent_of_record hRecord
  rw [h.tries_eq i r hRecord, if_pos hMem]
  unfold maxTries
  omega

theorem isAskable_of_not_mem
    (h : t.IsSilent peer holder held wanted n)
    {i : Nat}
    (hHolds : holder.holds i = true)
    (hNot : i ∉ wanted.take maxRequest) :
    holder.isAskable i = true ∧ holder.isSpent i = false := by
  rcases Option.isSome_iff_exists.mp hHolds with ⟨r, hRecord⟩
  apply Holder.isAskable_of_record hRecord
  rw [h.tries_eq i r hRecord, if_neg hNot]
  decide

/- What the peer may be asked for, of what is missing. -/
theorem askable_missing
    (h : t.IsSilent peer holder held wanted n)
    (hDue : holder.AllDue now) :
    holder.askable (t.missing now) =
      wanted.filter holder.isAskable := by
  unfold Holder.askable
  rw [filter_missing_of_imp h.regular.wellFormed h.peers_eq
    hDue (fun _ => Holder.holds_of_isAskable), h.wanted_eq]

theorem share_of_lt
    (h : t.IsSilent peer holder held wanted n)
    (hDue : holder.AllDue now)
    (hFirst : n < 3) :
    holder.share maxRequest (t.missing now) =
      wanted.take maxRequest := by
  have hAll : wanted.filter holder.isAskable = wanted := by
    apply List.filter_eq_self.mpr
    intro i hi
    rw [← h.wanted_eq] at hi
    exact (h.isAskable_of_lt hFirst
      (mem_offered_iff.mp hi).1).1
  unfold Holder.share
  rw [h.askable_missing hDue, hAll]

theorem struck_of_lt
    (h : t.IsSilent peer holder held wanted n)
    (hFirst : n < 3)
    (list : List Nat) :
    holder.struck maxRequest list = [] := by
  apply List.filter_eq_nil_iff.mpr
  intro i _ hSpent
  have hHolds := Holder.holds_of_isSpent hSpent
  rw [(h.isAskable_of_lt hFirst hHolds).2] at hSpent
  cases hSpent

/- Later the peer may be asked for the other chunks only. -/
theorem askable_of_le
    (h : t.IsSilent peer holder held wanted n)
    (hDue : holder.AllDue now)
    (hLater : 3 ≤ n) :
    holder.askable (t.missing now) =
      wanted.drop maxRequest := by
  rw [h.askable_missing hDue]
  conv => lhs; rw [← List.take_append_drop maxRequest wanted]
  have hNone :
      (wanted.take maxRequest).filter holder.isAskable = [] := by
    apply List.filter_eq_nil_iff.mpr
    intro i hi
    rw [(h.isSpent_of_mem hLater hi).2]
    exact Bool.false_ne_true
  have hAll :
      (wanted.drop maxRequest).filter holder.isAskable =
        wanted.drop maxRequest := by
    apply List.filter_eq_self.mpr
    intro i hi
    have hHolds : holder.holds i = true := by
      have hMem := List.mem_of_mem_drop hi
      rw [← h.wanted_eq] at hMem
      exact (mem_offered_iff.mp hMem).1
    apply (h.isAskable_of_not_mem hHolds ?_).1
    intro hTake
    exact List.disjoint_take_drop h.nodup (Nat.le_refl _)
      hTake hi
  rw [List.filter_append, hNone, hAll, List.nil_append]

/- All chunks that were asked for too often are strikes. -/
theorem take_subset_struck
    (h : t.IsSilent peer holder held wanted n)
    (hDue : holder.AllDue now)
    (hLater : 3 ≤ n) :
    wanted.take maxRequest ⊆
      holder.struck maxRequest (t.missing now) := by
  intro i hi
  have hSorted := t.pairwise_offered holder
  rw [h.wanted_eq, ← List.take_append_drop maxRequest wanted]
    at hSorted
  have hOffered : i ∈ t.offered holder := by
    rw [h.wanted_eq]
    exact List.mem_of_mem_take hi
  refine List.mem_filter.mpr
    ⟨?_, (h.isSpent_of_mem hLater hi).1⟩
  apply Holder.mem_reach_of_rel (fun _ _ => IsRarer.asymm)
    (pairwise_missing h.regular.wellFormed now)
  · rw [← filter_missing_eq_offered h.regular.wellFormed
      h.peers_eq hDue] at hOffered
    exact (List.mem_filter.mp hOffered).1
  · intro last hLast
    have hHolds : holder.holds last = true :=
      Holder.holds_of_isAskable (List.mem_filter.mp hLast).2
    rw [h.askable_of_le hDue hLater] at hLast
    refine Or.inr ⟨?_, ?_⟩
    · rw [holderCount_of_lone h.peers_eq,
        holderCount_of_lone h.peers_eq, if_pos hHolds,
        if_pos (mem_offered_iff.mp hOffered).1]
    · exact (List.pairwise_append.mp hSorted).2.2 i hi last
        hLast

theorem length_take_le_struck
    (h : t.IsSilent peer holder held wanted n)
    (hDue : holder.AllDue now)
    (hLater : 3 ≤ n) :
    min maxRequest wanted.length ≤
      (holder.struck maxRequest (t.missing now)).length := by
  have hNodup : (wanted.take maxRequest).Nodup :=
    h.nodup.sublist (List.take_sublist _ _)
  rw [← List.length_take]
  exact (List.subperm_of_subset hNodup
    (h.take_subset_struck hDue hLater)).length_le

/- Later a peer with few chunks is asked for nothing. -/
theorem share_of_le
    (h : t.IsSilent peer holder held wanted n)
    (hDue : holder.AllDue now)
    (hLater : 3 ≤ n)
    (hFew : wanted.length ≤ maxRequest) :
    holder.share maxRequest (t.missing now) = [] ∧
      (holder.struck maxRequest (t.missing now)).length =
        wanted.length := by
  have hNone : holder.askable (t.missing now) = [] := by
    rw [h.askable_of_le hDue hLater]
    exact List.drop_of_length_le hFew
  have hReach :
      holder.reach maxRequest (t.missing now) =
        t.missing now := by
    unfold Holder.reach
    rw [hNone]
    rfl
  have hAll : wanted.filter holder.isSpent = wanted := by
    apply List.filter_eq_self.mpr
    intro i hi
    rw [← List.take_of_length_le hFew] at hi
    exact (h.isSpent_of_mem hLater hi).1
  constructor
  · unfold Holder.share
    rw [hNone]
    rfl
  · unfold Holder.struck
    rw [hReach,
      filter_missing_of_imp h.regular.wellFormed h.peers_eq
        hDue (fun _ => Holder.holds_of_isSpent), h.wanted_eq,
      hAll]

/- The schedule is what is decided about the one peer. -/
theorem schedule_eq_allot
    (h : t.IsSilent peer holder held wanted n)
    (hCount : t.chunkCount ≤ 65536)
    (now : Moment)
    (log : TransferLog) :
    t.schedule now log =
      let s := (t.unvisited now).allot now peer
      (s.requests, s.transfer) := by
  rw [(schedule_eq_allotment h.regular hCount now log).1]
  unfold allotment
  rw [rankedPeers_of_lone h.peers_eq]
  rfl

theorem get?_eq
    (h : t.IsSilent peer holder held wanted n) :
    (t.unvisited now).transfer.peers.get? peer =
      some holder := by
  unfold unvisited
  rw [h.peers_eq]
  exact Table.get?_insert_self _ _ _

/- A peer that stays is asked for its share. -/
theorem schedule_of_stays
    (h : t.IsSilent peer holder held wanted n)
    (hCount : t.chunkCount ≤ 65536)
    (hStays :
      holder.strikesWith maxRequest (t.missing now) ≤
        maxStrikes)
    (log : TransferLog) :
    let share := holder.share maxRequest (t.missing now)
    t.schedule now log =
      (withRequest [] peer (share.map UInt16.ofNat),
        { t with
          peers :=
            Table.empty.insert peer
              (holder.ask now share
                (holder.strikesWith maxRequest
                  (t.missing now))) }) := by
  intro share
  rw [h.schedule_eq_allot hCount,
    Schedule.allot_of_stays h.get?_eq hStays]
  unfold Schedule.ask unvisited
  dsimp only
  rw [h.peers_eq, Table.insert_insert_self]

/- In the first passes the peer is asked. -/
theorem schedule_asks
    (h : t.IsSilent peer holder held wanted n)
    (hCount : t.chunkCount ≤ 65536)
    (hDue : holder.AllDue now)
    (hFirst : n < 3)
    (hSome : wanted ≠ [])
    (log : TransferLog) :
    t.schedule now log =
      ([(peer, (wanted.take maxRequest).map UInt16.ofNat)],
        { t with
          peers :=
            Table.empty.insert peer
              (holder.ask now (wanted.take maxRequest) 0) }) := by
  have hStrikes :
      holder.strikesWith maxRequest (t.missing now) = 0 := by
    unfold Holder.strikesWith
    rw [h.struck_of_lt hFirst, h.strikes_eq,
      Nat.sub_eq_zero_of_le (Nat.le_of_lt hFirst),
      Nat.zero_mul]
    rfl
  have hRequest :
      withRequest [] peer
          ((wanted.take maxRequest).map UInt16.ofNat) =
        [(peer,
          (wanted.take maxRequest).map UInt16.ofNat)] := by
    unfold withRequest
    rw [if_neg (by simp [maxRequest, hSome])]
    rfl
  rw [h.schedule_of_stays hCount (hStrikes ▸ Nat.zero_le _),
    h.share_of_lt hDue hFirst, hStrikes, hRequest]

/- In later passes the peer gets strikes. -/
theorem schedule_strikes
    (h : t.IsSilent peer holder held wanted n)
    (hCount : t.chunkCount ≤ 65536)
    (hDue : holder.AllDue now)
    (hLater : 3 ≤ n)
    (hStays : (n - 2) * wanted.length ≤ 3)
    (log : TransferLog) :
    t.schedule now log =
      ([],
        { t with
          peers :=
            Table.empty.insert peer
              (holder.ask now []
                ((n - 2) * wanted.length)) }) := by
  have hNext : n - 2 = n - 3 + 1 := by omega
  have hFew : wanted.length ≤ maxRequest := by
    rw [hNext, Nat.succ_mul] at hStays
    unfold maxRequest
    omega
  rcases h.share_of_le hDue hLater hFew with ⟨hShare, hStruck⟩
  have hStrikes :
      holder.strikesWith maxRequest (t.missing now) =
        (n - 2) * wanted.length := by
    unfold Holder.strikesWith
    rw [hStruck, h.strikes_eq, hNext, Nat.succ_mul]
  rw [h.schedule_of_stays hCount (hStrikes ▸ hStays), hShare,
    hStrikes]
  rfl

/- With the fourth strike the peer is evicted. -/
theorem schedule_evicts
    (h : t.IsSilent peer holder held wanted n)
    (hCount : t.chunkCount ≤ 65536)
    (hDue : holder.AllDue now)
    (hLater : 3 ≤ n)
    (hLimit : 3 < (n - 2) * wanted.length)
    (log : TransferLog) :
    t.schedule now log =
      ([],
        { t with
          peers := Table.empty
          evicted := t.evicted.insert peer held }) := by
  have hStruck := h.length_take_le_struck hDue hLater
  have hStrikes :
      maxStrikes <
        holder.strikesWith maxRequest (t.missing now) := by
    have hNext : n - 2 = n - 3 + 1 := by omega
    rw [hNext, Nat.succ_mul] at hLimit
    unfold Holder.strikesWith maxStrikes
    rw [h.strikes_eq]
    unfold maxRequest at hStruck ⊢
    omega
  have hErase :
      (Table.empty.insert peer holder).erase peer =
        Table.empty :=
    Table.erase_insert_of_get?_eq_none (Table.get?_empty _) _
  rw [h.schedule_eq_allot hCount,
    Schedule.allot_of_evicted h.get?_eq hStrikes]
  unfold Schedule.evict unvisited
  dsimp only
  rw [h.peers_eq, hErase, h.held_eq]

end IsSilent

end Transfer

end PeerShare
