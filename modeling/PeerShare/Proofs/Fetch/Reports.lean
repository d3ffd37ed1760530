import PeerShare.Proofs.Fetch.Eviction

/-
  What a list of reports makes of the peers of a transfer.

  A list of reports acts on each address alone, by the sets
  of chunks that it names for that address, one after
  another.  So a list that names no address twice may be
  taken in any order, and any list may be taken twice: what
  it has made of the peers is what it tells of them.

  Key definitions include:
    * `Holder.IsConfirmedBy`
    * `Transfer.Sight`
    * `Transfer.Confirms`
    * `Transfer.Merges`

  Key theorems include:
    * `Holder.foldl_report_eq_iff`
    * `Transfer.sight_applyPeers`
    * `Transfer.applyPeers_unchanged_iff`
    * `Transfer.confirms_applyPeers`
    * `Transfer.applyPeers_of_perm`
    * `Session.reports_merged`
-/

------------------------------------------------------------
-- Reports on One Peer
------------------------------------------------------------

namespace PeerShare

namespace Holder

/- The set of the chunks that a peer holds. -/
def heldSet
    (h : Holder) : ChunkSet where
  flags := h.records.map Option.isSome

/-
  Whether a row of reports tells what is known of a peer:
  the last one names the chunks that it holds, and no report
  leaves out a chunk that was requested from it.
-/
structure IsConfirmedBy
    (h : Holder)
    (sets : List ChunkSet) : Prop where
  last : sets.getLast? = some h.heldSet
  kept :
    ∀ s ∈ sets, ∀ i r,
      h.record? i = some r →
        s.has i = true ∨ r = RequestRecord.fresh

variable {h : Holder}
variable {s : ChunkSet}
variable {sets : List ChunkSet}
variable {i : Nat}
variable {r : RequestRecord}

theorem has_heldSet
    (h : Holder)
    (i : Nat) :
    h.heldSet.has i = (h.record? i).isSome := by
  rw [ChunkSet.has_eq_getElem?, heldSet, Array.getElem?_map,
    record?, Array.getD_eq_getD_getElem?]
  cases h.records[i]? <;> rfl

theorem heldSet_report
    (h : Holder)
    (s : ChunkSet) :
    (h.report s).heldSet = s := by
  apply ChunkSet.eq_of_has_eq
  · simp [heldSet, report, ChunkSet.chunkCount]
  · intro i
    rw [has_heldSet, record?_report]
    cases s.has i <;> rfl

/- Peers with the same chunks and records are the same. -/
theorem eq_of_record?_eq
    {h h' : Holder}
    (hHeld : h.heldSet = h'.heldSet)
    (hRecord : ∀ i, h.record? i = h'.record? i)
    (hStrikes : h.strikes = h'.strikes) :
    h = h' := by
  have hSize := congrArg ChunkSet.chunkCount hHeld
  simp only [heldSet, ChunkSet.chunkCount, Array.size_map]
    at hSize
  rcases h with ⟨records, strikes⟩
  rcases h' with ⟨records', strikes'⟩
  dsimp only at hSize hStrikes
  subst hStrikes
  congr 1
  apply Array.ext hSize
  intro i hi hi'
  have hEq := hRecord i
  simp only [record?, Array.getD_eq_getD_getElem?,
    Array.getElem?_eq_getElem hi,
    Array.getElem?_eq_getElem hi', Option.getD_some] at hEq
  exact hEq

theorem strikes_foldl_report
    (h : Holder)
    (sets : List ChunkSet) :
    (sets.foldl report h).strikes = h.strikes := by
  induction sets generalizing h with
  | nil => rfl
  | cons s sets ih => exact ih (h.report s)

/- A record that has been lost or is new is never old again. -/
theorem record?_foldl_report_of_fresh
    (hFresh :
      ∀ r, h.record? i = some r → r = RequestRecord.fresh)
    (sets : List ChunkSet) :
    ∀ r,
      (sets.foldl report h).record? i = some r →
        r = RequestRecord.fresh := by
  induction sets generalizing h with
  | nil => exact hFresh
  | cons s sets ih =>
      apply ih
      intro r hRecord
      rw [record?_report] at hRecord
      split at hRecord
      · cases hOld : h.record? i with
        | none =>
            rw [hOld] at hRecord
            cases hRecord
            rfl
        | some old =>
            rw [hOld] at hRecord
            cases hRecord
            exact hFresh old hOld
      · cases hRecord

/- A record stays while its chunk is reported. -/
theorem record?_foldl_report_of_has
    (hRecord : h.record? i = some r)
    (hHas : ∀ s ∈ sets, s.has i = true) :
    (sets.foldl report h).record? i = some r := by
  induction sets generalizing h with
  | nil => exact hRecord
  | cons s sets ih =>
      rcases List.forall_mem_cons.mp hHas with
        ⟨hFirst, hLater⟩
      apply ih _ hLater
      rw [record?_report, if_pos hFirst, hRecord]
      rfl

/- What is reported last is what the peer then holds. -/
theorem heldSet_foldl_report
    (h : Holder)
    (hLast : sets.getLast? = some s) :
    (sets.foldl report h).heldSet = s := by
  rcases List.getLast?_eq_some_iff.mp hLast with ⟨before, rfl⟩
  rw [List.foldl_append, List.foldl_cons, List.foldl_nil]
  exact heldSet_report _ _

/- A record that was left out once is new if it is back. -/
theorem record?_foldl_report_of_not_has
    (hMem : s ∈ sets)
    (hHas : s.has i = false)
    (h : Holder) :
    ∀ r,
      (sets.foldl report h).record? i = some r →
        r = RequestRecord.fresh := by
  rcases List.append_of_mem hMem with ⟨before, later, rfl⟩
  rw [List.foldl_append, List.foldl_cons]
  apply record?_foldl_report_of_fresh
  intro r hRecord
  rw [record?_report, hHas] at hRecord
  cases hRecord

/- What reports have made of a peer is what they tell. -/
theorem isConfirmedBy_foldl_report
    (h : Holder)
    (hSome : sets ≠ []) :
    (sets.foldl report h).IsConfirmedBy sets where
  last := by
    have hLast := List.getLast?_eq_some_getLast hSome
    rw [heldSet_foldl_report h hLast]
    exact hLast
  kept s hMem i r hRecord := by
    cases hHas : s.has i with
    | true => exact Or.inl rfl
    | false =>
        exact Or.inr
          (record?_foldl_report_of_not_has hMem hHas h r
            hRecord)

/- A peer that is new has no record that could be left out. -/
theorem isConfirmedBy_foldl_report_fresh
    (hSome : sets ≠ [])
    (earlier : List ChunkSet) :
    (sets.foldl report Holder.fresh).IsConfirmedBy
      (earlier ++ sets) where
  last := by
    rw [List.getLast?_append_of_ne_nil _ hSome]
    exact (isConfirmedBy_foldl_report Holder.fresh hSome).last
  kept _ _ i r hRecord := by
    refine Or.inr
      (record?_foldl_report_of_fresh ?_ sets r hRecord)
    intro old hOld
    cases hOld

/-
  A row of reports leaves a peer as it is just if it tells
  what is known of the peer.
-/
theorem foldl_report_eq_iff
    (hSome : sets ≠ []) :
    sets.foldl report h = h ↔ h.IsConfirmedBy sets := by
  have hLast := List.getLast?_eq_some_getLast hSome
  generalize sets.getLast hSome = last at hLast
  have hHeld := heldSet_foldl_report h hLast
  constructor
  · intro hEq
    have hConfirmed := h.isConfirmedBy_foldl_report hSome
    rw [hEq] at hConfirmed
    exact hConfirmed
  · intro hConfirmed
    have hSame : last = h.heldSet :=
      Option.some.inj (hLast.symm.trans hConfirmed.last)
    apply eq_of_record?_eq (hHeld.trans hSame) ?_
      (strikes_foldl_report h sets)
    intro i
    have hAfter := has_heldSet (sets.foldl report h) i
    rw [hHeld, hSame, has_heldSet] at hAfter
    cases hRecord : h.record? i with
    | none =>
        rw [hRecord] at hAfter
        exact Option.isSome_eq_false_iff.mp hAfter.symm
          |> Option.isNone_iff_eq_none.mp
    | some r =>
        rw [hRecord] at hAfter
        by_cases hAll : ∀ s ∈ sets, s.has i = true
        · exact record?_foldl_report_of_has hRecord hAll
        · have hFresh : r = RequestRecord.fresh := by
            rcases not_forall₂.mp hAll with ⟨s, hMem, hNot⟩
            exact (hConfirmed.kept s hMem i r
              hRecord).resolve_left hNot
          rcases Option.isSome_iff_exists.mp hAfter.symm with
            ⟨r', hNew⟩
          rw [hNew, hFresh]
          congr 1
          refine record?_foldl_report_of_fresh ?_ sets r' hNew
          intro old hOld
          rw [hRecord] at hOld
          cases hOld
          exact hFresh

end Holder

end PeerShare

------------------------------------------------------------
-- Reports on All Peers
------------------------------------------------------------

namespace PeerShare

namespace Transfer

/- What a transfer knows of an address. -/
abbrev Sight :=
  Option Holder × Option ChunkSet

/- What a transfer knows of an address. -/
def sight
    (t : Transfer)
    (peer : Endpoint) : Sight :=
  (t.peers.get? peer, t.evicted.get? peer)

/- What is known of an address after a report. -/
def Sight.note :
    Sight → ChunkSet → Sight
  | (holder, some held), s =>
      if held = s then (holder, some held)
      else (some ((holder.getD Holder.fresh).report s), none)
  | (holder, none), s =>
      (some ((holder.getD Holder.fresh).report s), none)

/- The sets of chunks that are reported for an address. -/
def reported
    (chunkCount : Nat)
    (peers : List (Endpoint × Bytes))
    (peer : Endpoint) : List ChunkSet :=
  (peers.filter fun e => e.1 = peer).map fun e =>
    ChunkSet.ofBytes e.2 chunkCount

/-
  Whether reports tell of an address what is known already:
  that an evicted peer holds just what it held, or that a
  peer holds just what it holds.
-/
def Confirms
    (t : Transfer)
    (peers : List (Endpoint × Bytes))
    (peer : Endpoint) : Prop :=
  let sets := reported t.chunkCount peers peer
  match t.evicted.get? peer with
  | some held => ∀ s ∈ sets, s = held
  | none =>
      ∃ holder,
        t.peers.get? peer = some holder ∧
          holder.IsConfirmedBy sets

variable {t : Transfer}
variable {peer : Endpoint}
variable {peers : List (Endpoint × Bytes)}
variable {sets : List ChunkSet}

/- Nothing is reported for an address that is not listed. -/
theorem reported_of_not_mem
    (hNot : peer ∉ peers.map Prod.fst)
    (n : Nat) :
    reported n peers peer = [] := by
  rw [reported, List.map_eq_nil_iff, List.filter_eq_nil_iff]
  intro e hEntry hPeer
  exact hNot (List.mem_map.mpr
    ⟨e, hEntry, by simpa using hPeer⟩)

theorem reported_ne_nil
    (hMem : peer ∈ peers.map Prod.fst)
    (n : Nat) :
    reported n peers peer ≠ [] := by
  rcases List.mem_map.mp hMem with ⟨e, hEntry, hPeer⟩
  exact List.ne_nil_of_mem (List.mem_map.mpr
    ⟨e, List.mem_filter.mpr ⟨hEntry, by simpa using hPeer⟩,
      rfl⟩)

/- One set is reported for an address that is listed once. -/
theorem reported_of_mem
    {bitfield : Bytes}
    (hNodup : (peers.map Prod.fst).Nodup)
    (hMem : (peer, bitfield) ∈ peers)
    (n : Nat) :
    reported n peers peer = [ChunkSet.ofBytes bitfield n] := by
  rcases List.append_of_mem hMem with ⟨front, back, rfl⟩
  rw [List.map_append, List.map_cons, List.nodup_middle,
    List.nodup_cons, List.mem_append, not_or] at hNodup
  have hFront := reported_of_not_mem hNodup.1.1 n
  have hBack := reported_of_not_mem hNodup.1.2 n
  unfold reported at hFront hBack ⊢
  rw [List.filter_append, List.map_append, hFront,
    List.nil_append, List.filter_cons_of_pos (by simp),
    List.map_cons, hBack]

/- A report is noted for its address alone. -/
theorem sight_applyPeer
    (t : Transfer)
    (peer other : Endpoint)
    (bitfield : Bytes) :
    (t.applyPeer other bitfield).sight peer =
      if other = peer then
        (t.sight peer).note
          (ChunkSet.ofBytes bitfield t.chunkCount)
      else t.sight peer := by
  split
  · rename_i hSame
    subst hSame
    unfold applyPeer sight
    dsimp only
    cases hEvicted : t.evicted.get? other with
    | none =>
        simp only [reportPeer, Table.get?_insert_self,
          hEvicted, Sight.note]
    | some held =>
        by_cases hHeld :
            held = ChunkSet.ofBytes bitfield t.chunkCount
        · simp only [if_pos hHeld, hEvicted, Sight.note]
        · simp only [if_neg hHeld, reportPeer,
            Table.get?_insert_self, Table.get?_erase_self,
            Sight.note]
  · rename_i hOther
    have hSame :=
      t.get?_applyPeer_of_ne bitfield (Ne.symm hOther)
    exact Prod.ext hSame.1 hSame.2

/- The reports on an address are noted in their order. -/
theorem sight_applyPeers
    (t : Transfer)
    (peers : List (Endpoint × Bytes))
    (peer : Endpoint) :
    (t.applyPeers peers).sight peer =
      (reported t.chunkCount peers peer).foldl Sight.note
        (t.sight peer) := by
  unfold applyPeers
  induction peers generalizing t with
  | nil => rfl
  | cons e peers ih =>
      have hCount :=
        (remembers_applyPeer t e.1 e.2).chunkCount_eq
      rw [List.foldl_cons, ih, hCount, sight_applyPeer]
      unfold reported
      by_cases hSame : e.1 = peer
      · rw [if_pos hSame,
          List.filter_cons_of_pos (by simpa using hSame),
          List.map_cons, List.foldl_cons]
      · rw [if_neg hSame,
          List.filter_cons_of_neg (by simpa using hSame)]

/- A peer that is not evicted gets all reports. -/
theorem foldl_note_of_none
    (hSome : sets ≠ [])
    (holder : Option Holder) :
    sets.foldl Sight.note (holder, none) =
      (some
          (sets.foldl Holder.report
            (holder.getD Holder.fresh)),
        none) := by
  induction sets generalizing holder with
  | nil => exact absurd rfl hSome
  | cons s sets ih =>
      rw [List.foldl_cons, List.foldl_cons]
      cases sets with
      | nil => rfl
      | cons s' sets => exact ih (by simp) _

/- Reports on a peer that is evicted change nothing just if
  all of them name what it held. -/
theorem foldl_note_of_some_eq_iff
    {held : ChunkSet}
    (holder : Option Holder) :
    sets.foldl Sight.note (holder, some held) =
        (holder, some held) ↔
      ∀ s ∈ sets, s = held := by
  induction sets with
  | nil => simp
  | cons s sets ih =>
      rw [List.foldl_cons, List.forall_mem_cons]
      by_cases hSame : held = s
      · have hNote :
            Sight.note (holder, some held) s =
              (holder, some held) := if_pos hSame
        rw [hNote, ih]
        simp [hSame]
      · have hNote :
            Sight.note (holder, some held) s =
              (some ((holder.getD Holder.fresh).report s),
                none) := if_neg hSame
        rw [hNote]
        refine iff_of_false ?_ fun h => hSame h.1.symm
        intro hEq
        have hEvicted := congrArg Prod.snd hEq
        cases sets with
        | nil => cases hEvicted
        | cons s' sets =>
            rw [foldl_note_of_none (by simp)] at hEvicted
            cases hEvicted

/- What is known of an address stays if it is confirmed. -/
theorem sight_applyPeers_eq_iff
    (hMem : peer ∈ peers.map Prod.fst) :
    (t.applyPeers peers).sight peer = t.sight peer ↔
      t.Confirms peers peer := by
  have hSome := reported_ne_nil hMem t.chunkCount
  rw [sight_applyPeers]
  unfold Confirms sight
  dsimp only
  cases t.evicted.get? peer with
  | some held => exact foldl_note_of_some_eq_iff _
  | none =>
      rw [foldl_note_of_none hSome]
      cases t.peers.get? peer with
      | none => simp
      | some holder =>
          have hIff :=
            Holder.foldl_report_eq_iff (h := holder) hSome
          simp [hIff]

/-
  The peers of a transfer stay as they are just if every
  address that is listed is confirmed.
-/
theorem applyPeers_unchanged_iff
    (t : Transfer)
    (peers : List (Endpoint × Bytes)) :
    (t.applyPeers peers).peers = t.peers ∧
        (t.applyPeers peers).evicted = t.evicted ↔
      ∀ peer ∈ peers.map Prod.fst, t.Confirms peers peer := by
  constructor
  · rintro ⟨hPeers, hEvicted⟩ peer hMem
    refine (sight_applyPeers_eq_iff hMem).mp ?_
    unfold sight
    rw [hPeers, hEvicted]
  · intro h
    have hSight :
        ∀ peer,
          (t.applyPeers peers).sight peer = t.sight peer := by
      intro peer
      by_cases hMem : peer ∈ peers.map Prod.fst
      · exact (sight_applyPeers_eq_iff hMem).mpr (h peer hMem)
      · rw [sight_applyPeers, reported_of_not_mem hMem]
        rfl
    exact ⟨
      Table.eq_of_get?_eq fun peer =>
        congrArg Prod.fst (hSight peer),
      Table.eq_of_get?_eq fun peer =>
        congrArg Prod.snd (hSight peer)⟩

end Transfer

end PeerShare

------------------------------------------------------------
-- Lists of Reports
------------------------------------------------------------

namespace PeerShare

namespace Transfer

variable {t : Transfer}
variable {peer : Endpoint}
variable {peers : List (Endpoint × Bytes)}
variable {sets : List ChunkSet}

/- Reports change nothing but what is known of addresses. -/
theorem applyPeer_eq
    (t : Transfer)
    (peer : Endpoint)
    (bitfield : Bytes) :
    t.applyPeer peer bitfield =
      { t with
        peers := (t.applyPeer peer bitfield).peers
        evicted := (t.applyPeer peer bitfield).evicted } := by
  unfold applyPeer
  dsimp only
  split
  · rfl
  · split <;> rfl

theorem applyPeers_eq
    (t : Transfer)
    (peers : List (Endpoint × Bytes)) :
    t.applyPeers peers =
      { t with
        peers := (t.applyPeers peers).peers
        evicted := (t.applyPeers peers).evicted } := by
  induction peers generalizing t with
  | nil => rfl
  | cons e peers ih =>
      have hFirst := t.applyPeer_eq e.1 e.2
      have hRest := ih (t.applyPeer e.1 e.2)
      have hBoth :
          t.applyPeers (e :: peers) =
            (t.applyPeer e.1 e.2).applyPeers peers := rfl
      rw [hBoth]
      generalize t.applyPeer e.1 e.2 = t₁ at hFirst hRest ⊢
      generalize t₁.applyPeers peers = t₂ at hRest ⊢
      exact hRest.trans (by rw [hFirst])

/- So they come out alike if they do for every address. -/
theorem applyPeers_eq_of_sight_eq
    {other : List (Endpoint × Bytes)}
    (h :
      ∀ peer,
        (t.applyPeers other).sight peer =
          (t.applyPeers peers).sight peer) :
    t.applyPeers other = t.applyPeers peers := by
  have hPeers :
      (t.applyPeers other).peers = (t.applyPeers peers).peers :=
    Table.eq_of_get?_eq fun peer => congrArg Prod.fst (h peer)
  have hEvicted :
      (t.applyPeers other).evicted =
        (t.applyPeers peers).evicted :=
    Table.eq_of_get?_eq fun peer => congrArg Prod.snd (h peer)
  calc t.applyPeers other
      = { t with
          peers := (t.applyPeers other).peers
          evicted := (t.applyPeers other).evicted } :=
        t.applyPeers_eq other
    _ = { t with
          peers := (t.applyPeers peers).peers
          evicted := (t.applyPeers peers).evicted } := by
        rw [hPeers, hEvicted]
    _ = t.applyPeers peers := (t.applyPeers_eq peers).symm

/-
  An evicted peer stays out while the reports name what it
  held, and gets all reports from the first other one on.
-/
theorem foldl_note_of_some_cases
    (sets : List ChunkSet)
    (holder : Option Holder)
    (held : ChunkSet) :
    (∀ s ∈ sets, s = held) ∨
      ∃ earlier later,
        sets = earlier ++ later ∧ later ≠ [] ∧
          sets.foldl Sight.note (holder, some held) =
            (some
                (later.foldl Holder.report
                  (holder.getD Holder.fresh)),
              none) := by
  induction sets with
  | nil => exact Or.inl (List.forall_mem_nil _)
  | cons s sets ih =>
      rw [List.foldl_cons, List.forall_mem_cons]
      by_cases hSame : held = s
      · have hNote :
            Sight.note (holder, some held) s =
              (holder, some held) := if_pos hSame
        rw [hNote]
        rcases ih with hAll | ⟨earlier, later, hSplit, hLater⟩
        · exact Or.inl ⟨hSame.symm, hAll⟩
        · exact Or.inr
            ⟨s :: earlier, later, congrArg (s :: ·) hSplit,
              hLater⟩
      · have hNote :
            Sight.note (holder, some held) s =
              Sight.note (holder, none) s := if_neg hSame
        refine Or.inr ⟨[], s :: sets, rfl, by simp, ?_⟩
        rw [hNote, ← List.foldl_cons]
        exact foldl_note_of_none (by simp) holder

/- A list of reports tells what it has made of a peer. -/
theorem confirms_applyPeers
    (hApart : t.Apart)
    (hMem : peer ∈ peers.map Prod.fst) :
    (t.applyPeers peers).Confirms peers peer := by
  have hSome := reported_ne_nil hMem t.chunkCount
  have hSight := t.sight_applyPeers peers peer
  unfold Confirms
  dsimp only
  rw [(remembers_applyPeers t peers).chunkCount_eq]
  generalize reported t.chunkCount peers peer = sets
    at hSome hSight ⊢
  unfold sight at hSight
  cases hEvicted : t.evicted.get? peer with
  | none =>
      rw [hEvicted, foldl_note_of_none hSome,
        Prod.mk.injEq] at hSight
      rw [hSight.2]
      exact ⟨_, hSight.1,
        Holder.isConfirmedBy_foldl_report _ hSome⟩
  | some held =>
      have hNone : t.peers.get? peer = none := by
        rcases hApart peer with hNone | hNone
        · exact hNone
        · rw [hEvicted] at hNone
          cases hNone
      rw [hEvicted, hNone] at hSight
      rcases foldl_note_of_some_cases sets none held with
        hAll | ⟨earlier, later, rfl, hLater, hFold⟩
      · rw [(foldl_note_of_some_eq_iff none).mpr hAll,
          Prod.mk.injEq] at hSight
        rw [hSight.2]
        exact hAll
      · rw [hFold, Prod.mk.injEq] at hSight
        rw [hSight.2]
        exact ⟨_, hSight.1,
          Holder.isConfirmedBy_foldl_report_fresh hLater
            earlier⟩

/- A list of reports that is taken twice counts once. -/
theorem applyPeers_applyPeers
    (hApart : t.Apart)
    (peers : List (Endpoint × Bytes)) :
    (t.applyPeers peers).applyPeers peers =
      t.applyPeers peers := by
  have hSame :=
    ((t.applyPeers peers).applyPeers_unchanged_iff peers).mpr
      fun _ hMem => confirms_applyPeers hApart hMem
  rw [(t.applyPeers peers).applyPeers_eq peers, hSame.1,
    hSame.2]

/- Where no address is listed twice, the order is no matter. -/
theorem applyPeers_of_perm
    {other : List (Endpoint × Bytes)}
    (hNodup : (peers.map Prod.fst).Nodup)
    (hPerm : other.Perm peers) :
    t.applyPeers other = t.applyPeers peers := by
  have hKeys := hPerm.map Prod.fst
  apply applyPeers_eq_of_sight_eq
  intro peer
  rw [sight_applyPeers, sight_applyPeers]
  congr 1
  by_cases hMem : peer ∈ peers.map Prod.fst
  · rcases List.mem_map.mp hMem with ⟨⟨_, bitfield⟩, hEntry, rfl⟩
    rw [reported_of_mem hNodup hEntry,
      reported_of_mem (hKeys.nodup_iff.mpr hNodup)
        (hPerm.mem_iff.mpr hEntry)]
  · rw [reported_of_not_mem hMem,
      reported_of_not_mem (mt hKeys.mem_iff.mp hMem)]

/-
  What a list of reports that names no address twice makes
  of a transfer.
-/
structure Merges
    (t : Transfer)
    (peers : List (Endpoint × Bytes))
    (t' : Transfer) : Prop where
  /- A peer stays evicted while it holds what it held. -/
  evicted :
    ∀ peer bitfield held,
      (peer, bitfield) ∈ peers →
        t.evicted.get? peer = some held →
          held.IsReportedBy bitfield →
            t'.peers.get? peer = none ∧
              t'.evicted.get? peer = some held
  /- Others hold just what is reported, with old records. -/
  listed :
    ∀ peer bitfield,
      (peer, bitfield) ∈ peers →
        (∀ held,
          t.evicted.get? peer = some held →
            ¬ held.IsReportedBy bitfield) →
          t'.evicted.get? peer = none ∧
            ∃ holder,
              t'.peers.get? peer = some holder ∧
                holder.strikes =
                  ((t.peers.get? peer).map
                    (·.strikes)).getD 0 ∧
                ∀ i,
                  holder.record? i =
                    if i ∈ Packing.toIndices bitfield ∧
                        i < t.chunkCount then
                      some
                        ((t.record? peer i).getD
                          { lastRequested := none, tries := 0 })
                    else none
  unlisted :
    ∀ peer ∉ peers.map Prod.fst,
      t'.peers.get? peer = t.peers.get? peer ∧
        t'.evicted.get? peer = t.evicted.get? peer
  rest :
    t' = { t with peers := t'.peers, evicted := t'.evicted }

/- A listed peer that is not left evicted gets its report. -/
theorem sight_applyPeers_of_mem
    {bitfield : Bytes}
    (hNodup : (peers.map Prod.fst).Nodup)
    (hMem : (peer, bitfield) ∈ peers)
    (hOther :
      ∀ held,
        t.evicted.get? peer = some held →
          held ≠ ChunkSet.ofBytes bitfield t.chunkCount) :
    (t.applyPeers peers).sight peer =
      (some
          (((t.peers.get? peer).getD Holder.fresh).report
            (ChunkSet.ofBytes bitfield t.chunkCount)),
        none) := by
  rw [sight_applyPeers, reported_of_mem hNodup hMem]
  unfold sight
  rw [List.foldl_cons, List.foldl_nil]
  cases hEvicted : t.evicted.get? peer with
  | none => rfl
  | some held => exact if_neg (hOther held hEvicted)

theorem merges_applyPeers
    (hApart : t.Apart)
    (hRegular : t.HasRegularPeers)
    (hNodup : (peers.map Prod.fst).Nodup) :
    t.Merges peers (t.applyPeers peers) where
  evicted peer bitfield held hMem hEvicted hReported := by
    have hCount := hRegular.evicted peer held hEvicted
    have hSight := t.sight_applyPeers peers peer
    rw [reported_of_mem hNodup hMem, ← hCount,
      ChunkSet.ofBytes_eq_iff.mpr hReported] at hSight
    unfold sight at hSight
    rw [hEvicted, (foldl_note_of_some_eq_iff _).mpr (by simp),
      Prod.mk.injEq] at hSight
    refine ⟨hSight.1.trans ?_, hSight.2⟩
    rcases hApart peer with hNone | hNone
    · exact hNone
    · rw [hEvicted] at hNone
      cases hNone
  listed peer bitfield hMem hOther := by
    have hNe :
        ∀ held,
          t.evicted.get? peer = some held →
            held ≠ ChunkSet.ofBytes bitfield t.chunkCount := by
      intro held hEvicted hEq
      have hCount := hRegular.evicted peer held hEvicted
      rw [← hCount] at hEq
      exact hOther held hEvicted
        (ChunkSet.ofBytes_eq_iff.mp hEq.symm)
    have hSight := sight_applyPeers_of_mem hNodup hMem hNe
    unfold sight at hSight
    rw [Prod.mk.injEq] at hSight
    refine ⟨hSight.2, _, hSight.1, ?_, ?_⟩
    · cases t.peers.get? peer <;> rfl
    · intro i
      have hRecord :
          ((t.peers.get? peer).getD Holder.fresh).record? i =
            t.record? peer i := by
        unfold record?
        cases t.peers.get? peer <;> rfl
      rw [Holder.record?_report, hRecord, ChunkSet.has_ofBytes]
      simp only [decide_eq_true_eq]
      rfl
  unlisted peer hNot := by
    have hSight := t.sight_applyPeers peers peer
    rw [reported_of_not_mem hNot, List.foldl_nil] at hSight
    exact ⟨congrArg Prod.fst hSight, congrArg Prod.snd hSight⟩
  rest := t.applyPeers_eq peers

end Transfer

namespace Session

variable {s : Session}
variable {name : String}
variable {t : Transfer}

/-
  A list of reports on the peers of a file counts once,
  however often it is taken.  If it names no address twice,
  it may be taken in any order.
-/
theorem reports_merged
    (hReachable : s.IsReachable)
    (hGet : s.downloads.transfer? name = some t)
    (peers : List (Endpoint × Bytes)) :
    (t.applyPeers peers).applyPeers peers =
        t.applyPeers peers ∧
      ((peers.map Prod.fst).Nodup →
        t.Merges peers (t.applyPeers peers) ∧
          ∀ other,
            other.Perm peers →
              t.applyPeers other = t.applyPeers peers) := by
  have hApart := (hReachable.wellFormed hGet).2.apart
  have hRegular := hReachable.hasRegularPeers hGet
  refine ⟨Transfer.applyPeers_applyPeers hApart peers, ?_⟩
  intro hNodup
  exact ⟨Transfer.merges_applyPeers hApart hRegular hNodup,
    fun other hPerm => Transfer.applyPeers_of_perm hNodup hPerm⟩

/-
  Of three chunks, a peer that was evicted is reported with
  the one it held.  Another one was asked for two chunks and
  is reported with one of them and a further one, and a
  third peer for the first time.
-/
theorem reports_merged_of_three_peers :
    let peer : UInt16 → Endpoint := fun port => ⟨.loopback, port⟩
    let log := TransferLog.start TransferLog.defaultWindow
    let file : FileRecord :=
      ⟨"a", 40000, .ofBytes [],
        List.replicate 3 (.ofBytes [])⟩
    let s :=
      (((awaiting "a").after
            (.start file "a" false [(peer 1, [0x80])] 0)).run
          (ticks log
            [0, 500, 1000, 1500, 1600, 1700, 1800])).run
        [.applyPeers "a" [(peer 2, [0x60])],
          .tick (Span.ofMillis 1900) log]
    let peers : List (Endpoint × Bytes) :=
      [(peer 1, [0x9F, 0x80]), (peer 2, [0xC0]),
        (peer 3, [0xE0])]
    ∃ t,
      s.downloads.transfer? "a" = some t ∧
        t.evicted.get? (peer 1) =
          some ⟨#[true, false, false]⟩ ∧
        (t.applyPeers peers).applyPeers peers =
          t.applyPeers peers ∧
        t.Merges peers (t.applyPeers peers) ∧
        t.applyPeers peers.reverse = t.applyPeers peers ∧
        [peer 1, peer 2, peer 3].map
            (fun other =>
              ((t.applyPeers peers).peers.get? other).map
                (·.records)) =
          [none,
            some
              #[some RequestRecord.fresh,
                some ⟨some (Span.ofMillis 1900), 1⟩, none],
            some (Array.replicate 3 (some .fresh))] := by
  intro peer log file s peers
  have hReachable : s.IsReachable :=
    (((isReachable_awaiting "a").after _).run _).run _
  have hEvaluated :
      (s.downloads.transfer? "a").map
          (fun t =>
            (t.evicted.get? (peer 1),
              [peer 1, peer 2, peer 3].map fun other =>
                ((t.applyPeers peers).peers.get? other).map
                  (·.records))) =
        some
          (some ⟨#[true, false, false]⟩,
            [none,
              some
                #[some RequestRecord.fresh,
                  some ⟨some (Span.ofMillis 1900), 1⟩, none],
              some (Array.replicate 3 (some .fresh))]) := by
    dsimp only [s]
    delta run after Downloads.tick Download.tick Transfer.tick
      Transfer.schedule Schedule.visit
    rw [Transfer.missing_eq_insertionSort,
      Transfer.rankedPeers_eq_insertionSort,
      restore_eq_insertionSort]
    decide +kernel
  rcases Option.map_eq_some_iff.mp hEvaluated with
    ⟨t, hGet, hFacts⟩
  rcases Prod.mk.inj hFacts with ⟨hEvicted, hRecords⟩
  rcases reports_merged hReachable hGet peers with
    ⟨hTwice, hOnce⟩
  rcases hOnce (by decide) with ⟨hMerges, hOrder⟩
  exact ⟨t, hGet, hEvicted, hTwice, hMerges,
    hOrder _ (List.reverse_perm peers), hRecords⟩

end Session

end PeerShare
