import PeerShare.Proofs.Fetch.Visits

/-
  What a walk comes to, without its steps.

  Of the chunks that are missing a peer may be asked for
  some, and was asked too often for others.  Its share is
  the first of the former, up to the limit, and it gets a
  strike for each of the latter that stands before the end
  of a full share.  A walk finds just these, and a peer with
  too many strikes is evicted.

  Key definitions include:
    * `Holder.askable`
    * `Holder.share`
    * `Holder.reach`
    * `Holder.struck`
    * `Holder.strikesWith`
    * `Holder.ask`
    * `Walk.Follows`

  Key theorems include:
    * `Walk.evicted_or_follows_walk`
    * `restore_of_perm`
-/

------------------------------------------------------------
-- Shares and Strikes
------------------------------------------------------------

namespace PeerShare

namespace Holder

/- Whether a peer may be asked for a chunk once more. -/
def isAskable
    (h : Holder)
    (i : Nat) : Bool :=
  (h.record? i).any fun r => r.tries < maxTries

/- Whether a peer was asked too often for a chunk. -/
def isSpent
    (h : Holder)
    (i : Nat) : Bool :=
  (h.record? i).any fun r => maxTries ≤ r.tries

/- The chunks of a list that a peer may be asked for. -/
def askable
    (h : Holder)
    (list : List Nat) : List Nat :=
  list.filter h.isAskable

/- The first of these, up to a limit. -/
def share
    (h : Holder)
    (limit : Nat)
    (list : List Nat) : List Nat :=
  (h.askable list).take limit

/-
  The part of a list that stands before the last chunk of a
  full share; all of it if there is no full share.
-/
def reach
    (h : Holder)
    (limit : Nat)
    (list : List Nat) : List Nat :=
  match (h.askable list)[limit - 1]? with
  | none => list
  | some last => list.takeWhile (· ≠ last)

/- The chunks for which a peer gets a strike each. -/
def struck
    (h : Holder)
    (limit : Nat)
    (list : List Nat) : List Nat :=
  (h.reach limit list).filter h.isSpent

/- The strikes of a peer with those for one list. -/
def strikesWith
    (h : Holder)
    (limit : Nat)
    (list : List Nat) : Nat :=
  h.strikes + (h.struck limit list).length

/- A peer that was asked for some chunks. -/
def ask
    (h : Holder)
    (now : Moment)
    (asked : List Nat)
    (strikes : Nat) : Holder where
  records :=
    h.records.mapIdx fun i r =>
      if i ∈ asked then r.map (·.stamp now) else r
  strikes := strikes

variable {h h' : Holder}
variable {i limit spare : Nat}
variable {list : List Nat}
variable {r : RequestRecord}

theorem isAskable_of_record
    (hRecord : h.record? i = some r)
    (hTries : r.tries < maxTries) :
    h.isAskable i = true ∧ h.isSpent i = false := by
  simp [isAskable, isSpent, hRecord, hTries]

theorem isSpent_of_record
    (hRecord : h.record? i = some r)
    (hTries : maxTries ≤ r.tries) :
    h.isSpent i = true ∧ h.isAskable i = false := by
  simp [isAskable, isSpent, hRecord, hTries]

theorem not_isAskable_of_none
    (hRecord : h.record? i = none) :
    h.isAskable i = false ∧ h.isSpent i = false := by
  simp [isAskable, isSpent, hRecord]

/- A share is a part of the list, in the same order. -/
theorem share_sublist
    (h : Holder)
    (limit : Nat)
    (list : List Nat) :
    (h.share limit list).Sublist list :=
  (List.take_sublist _ _).trans List.filter_sublist

/- All that counts is what is noted about the listed chunks. -/
theorem askable_congr
    (hSame : ∀ i ∈ list, h'.record? i = h.record? i) :
    h'.askable list = h.askable list := by
  apply List.filter_congr
  intro i hi
  unfold isAskable
  rw [hSame i hi]

theorem share_congr
    (hSame : ∀ i ∈ list, h'.record? i = h.record? i)
    (limit : Nat) :
    h'.share limit list = h.share limit list := by
  unfold share
  rw [askable_congr hSame]

theorem reach_subset
    (h : Holder)
    (limit : Nat)
    (list : List Nat) :
    h.reach limit list ⊆ list := by
  unfold reach
  split
  · exact List.Subset.refl _
  · exact (List.takeWhile_sublist _).subset

theorem struck_congr
    (hSame : ∀ i ∈ list, h'.record? i = h.record? i)
    (limit : Nat) :
    h'.struck limit list = h.struck limit list := by
  have hReach :
      h'.reach limit list = h.reach limit list := by
    unfold reach
    rw [askable_congr hSame]
  unfold struck
  rw [hReach]
  apply List.filter_congr
  intro i hi
  unfold isSpent
  rw [hSame i (h.reach_subset limit list hi)]

/- A chunk that the peer may not be asked for is skipped. -/
theorem askable_cons_of_not
    (hNot : h.isAskable i = false)
    (list : List Nat) :
    h.askable (i :: list) = h.askable list := by
  unfold askable
  rw [List.filter_cons, hNot]
  rfl

theorem share_cons_of_not
    (hNot : h.isAskable i = false)
    (limit : Nat)
    (list : List Nat) :
    h.share limit (i :: list) = h.share limit list := by
  unfold share
  rw [askable_cons_of_not hNot]

theorem reach_cons_of_not
    (hNot : h.isAskable i = false)
    (limit : Nat)
    (list : List Nat) :
    h.reach limit (i :: list) = i :: h.reach limit list := by
  unfold reach
  rw [askable_cons_of_not hNot]
  cases hLast : (h.askable list)[limit - 1]? with
  | none => rfl
  | some last =>
      have hMem := List.mem_of_getElem? hLast
      have hAskable := (List.mem_filter.mp hMem).2
      have hNe : i ≠ last := by
        rintro rfl
        rw [hNot] at hAskable
        cases hAskable
      simp [hNe]

/- A chunk that the peer may be asked for is in its share. -/
theorem askable_cons
    (hAskable : h.isAskable i = true)
    (list : List Nat) :
    h.askable (i :: list) = i :: h.askable list := by
  unfold askable
  rw [List.filter_cons, if_pos hAskable]

theorem share_cons
    (hAskable : h.isAskable i = true)
    (spare : Nat)
    (list : List Nat) :
    h.share (spare + 1) (i :: list) =
      i :: h.share spare list := by
  unfold share
  rw [askable_cons hAskable, List.take_succ_cons]

theorem struck_cons_of_not
    (hNot : h.isAskable i = false ∧ h.isSpent i = false)
    (limit : Nat)
    (list : List Nat) :
    h.struck limit (i :: list) = h.struck limit list := by
  unfold struck
  rw [reach_cons_of_not hNot.1, List.filter_cons, hNot.2]
  rfl

theorem struck_cons_of_spent
    (hSpent : h.isSpent i = true ∧ h.isAskable i = false)
    (limit : Nat)
    (list : List Nat) :
    h.struck limit (i :: list) =
      i :: h.struck limit list := by
  unfold struck
  rw [reach_cons_of_not hSpent.2, List.filter_cons,
    if_pos hSpent.1]

/- No strike comes after a share that is full. -/
theorem struck_one_cons
    (hAskable : h.isAskable i = true)
    (list : List Nat) :
    h.struck 1 (i :: list) = [] := by
  unfold struck reach
  rw [askable_cons hAskable]
  simp

theorem struck_cons
    (hAskable : h.isAskable i = true ∧ h.isSpent i = false)
    (hNew : i ∉ list)
    (spare : Nat) :
    h.struck (spare + 2) (i :: list) =
      h.struck (spare + 1) list := by
  have hReach :
      h.reach (spare + 2) (i :: list) =
        i :: h.reach (spare + 1) list := by
    unfold reach
    rw [askable_cons hAskable.1, Nat.add_sub_cancel,
      Nat.add_succ_sub_one, List.getElem?_cons_succ]
    cases hLast : (h.askable list)[spare]? with
    | none => rfl
    | some last =>
        have hMem := List.mem_of_getElem? hLast
        have hNe : i ≠ last := by
          rintro rfl
          exact hNew (List.mem_filter.mp hMem).1
        simp [hNe]
  unfold struck
  rw [hReach, List.filter_cons, hAskable.2]
  rfl

theorem record?_ask
    (h : Holder)
    (now : Moment)
    (asked : List Nat)
    (strikes i : Nat) :
    (h.ask now asked strikes).record? i =
      if i ∈ asked then (h.record? i).map (·.stamp now)
      else h.record? i := by
  unfold ask record?
  rw [Array.getD_eq_getD_getElem?, Array.getElem?_mapIdx,
    Array.getD_eq_getD_getElem?]
  cases h.records[i]? with
  | none => simp
  | some r => simp

/- A peer that is asked for nothing. -/
theorem ask_nil
    (h : Holder)
    (now : Moment)
    (strikes : Nat) :
    h.ask now [] strikes = { h with strikes } := by
  unfold ask
  congr 1
  apply Array.ext_getElem?
  intro k
  simp

/- Chunks may be asked for one after another. -/
theorem ask_stamp
    (hRecord : h.record? i = some r)
    (now : Moment)
    (hNew : i ∉ list)
    (strikes : Nat) :
    (h.stamp i r now).ask now list strikes =
      h.ask now (i :: list) strikes := by
  unfold record? at hRecord
  rw [Array.getD_eq_getD_getElem?] at hRecord
  unfold ask stamp
  congr 1
  apply Array.ext_getElem?
  intro k
  rw [Array.getElem?_mapIdx, Array.getElem?_mapIdx,
    Array.getElem?_setIfInBounds]
  by_cases hEq : i = k
  · subst hEq
    cases hGet : h.records[i]? with
    | none =>
        rw [hGet] at hRecord
        cases hRecord
    | some entry =>
        rcases Array.getElem?_eq_some_iff.mp hGet with ⟨hLt, -⟩
        rw [hGet, Option.getD_some] at hRecord
        simp [hNew, hLt, hRecord]
  · simp [hEq, Ne.symm hEq]

end Holder

end PeerShare

------------------------------------------------------------
-- The Result of a Walk
------------------------------------------------------------

namespace PeerShare

namespace Walk

variable {now : Moment}
variable {w : Walk}
variable {i spare : Nat}
variable {list : List Nat}

/-
  How a walk ends that does not evict the peer.  The share
  is asked for, and all other chunks are left in order.
-/
structure Follows
    (now : Moment)
    (limit : Nat)
    (list : List Nat)
    (w w' : Walk)
    (left : List Nat) : Prop where
  holder_eq :
    w'.holder =
      w.holder.ask now (w.holder.share limit list)
        (w.holder.strikesWith limit list)
  assigned_eq :
    w'.assigned.toList =
      w.assigned.toList ++
        (w.holder.share limit list).map UInt16.ofNat
  left_eq :
    left =
      w.passed.toList ++
        list.filter (· ∉ w.holder.share limit list)
  evicted_eq : w'.evicted = w.evicted

/- A walk ends when the share is full. -/
theorem walk_of_full
    (hFull : maxRequest ≤ w.assigned.size)
    (list : List Nat) :
    walk now list w = (w, w.passed.toList ++ list) := by
  cases list with
  | nil => simp [walk]
  | cons i list => rw [walk, if_pos hFull]

/- What is noted about later chunks does not change. -/
theorem record?_assign_of_not_mem
    {r : RequestRecord}
    (hRecord : w.holder.record? i = some r)
    (now : Moment)
    (hNew : i ∉ list) :
    ∀ k ∈ list,
      (w.assign i r now).holder.record? k =
        w.holder.record? k := by
  intro k hk
  have hNe : k ≠ i := by
    rintro rfl
    exact hNew hk
  unfold Walk.assign
  dsimp only
  rw [Holder.record?_stamp r now hRecord, if_neg hNe]

namespace Follows

variable {w' : Walk}
variable {left : List Nat}
variable {limit : Nat}
variable {r : RequestRecord}

/- A walk through no chunks. -/
theorem nil
    (now : Moment)
    (limit : Nat)
    (w : Walk) :
    w.Follows now limit [] w w.passed.toList where
  holder_eq := by
    have hReach : w.holder.reach limit [] = [] :=
      List.subset_nil.mp (w.holder.reach_subset limit [])
    have hStruck : w.holder.struck limit [] = [] := by
      unfold Holder.struck
      rw [hReach]
      rfl
    have hShare : w.holder.share limit [] = [] :=
      List.sublist_nil.mp (w.holder.share_sublist limit [])
    unfold Holder.strikesWith
    rw [hStruck, hShare, Holder.ask_nil]
    rfl
  assigned_eq := by simp [Holder.share, Holder.askable]
  left_eq := by simp
  evicted_eq := rfl

/- What is left when the first chunk is not asked for. -/
theorem filter_cons_of_not
    {h : Holder}
    (hNot : h.isAskable i = false)
    (hNew : i ∉ list) :
    (i :: list).filter (· ∉ h.share limit (i :: list)) =
      i :: list.filter (· ∉ h.share limit list) := by
  have hNotShared : i ∉ h.share limit list :=
    fun hMem => hNew ((h.share_sublist limit list).subset hMem)
  rw [Holder.share_cons_of_not hNot, List.filter_cons,
    if_pos (by simpa using hNotShared)]

/- The first chunk is not held. -/
theorem pass
    (h : (w.pass i).Follows now limit list w' left)
    (hNot :
      w.holder.isAskable i = false ∧
        w.holder.isSpent i = false)
    (hNew : i ∉ list) :
    w.Follows now limit (i :: list) w' left where
  holder_eq := by
    unfold Holder.strikesWith
    rw [Holder.share_cons_of_not hNot.1,
      Holder.struck_cons_of_not hNot]
    exact h.holder_eq
  assigned_eq := by
    rw [Holder.share_cons_of_not hNot.1]
    exact h.assigned_eq
  left_eq := by
    rw [filter_cons_of_not hNot.1 hNew, h.left_eq]
    unfold Walk.pass
    rw [Array.toList_push, List.append_assoc]
    rfl
  evicted_eq := h.evicted_eq

/- The first chunk is a strike. -/
theorem strike
    (h : (w.strike.pass i).Follows now limit list w' left)
    (hSpent :
      w.holder.isSpent i = true ∧
        w.holder.isAskable i = false)
    (hNew : i ∉ list) :
    w.Follows now limit (i :: list) w' left where
  holder_eq := by
    unfold Holder.strikesWith
    rw [Holder.share_cons_of_not hSpent.2,
      Holder.struck_cons_of_spent hSpent, List.length_cons,
      Nat.add_comm _ 1, ← Nat.add_assoc]
    exact h.holder_eq
  assigned_eq := by
    rw [Holder.share_cons_of_not hSpent.2]
    exact h.assigned_eq
  left_eq := by
    rw [filter_cons_of_not hSpent.2 hNew, h.left_eq]
    unfold Walk.pass
    rw [Array.toList_push, List.append_assoc]
    rfl
  evicted_eq := h.evicted_eq

/- What is left when the first chunk is asked for. -/
theorem filter_cons
    {h : Holder}
    (hAskable : h.isAskable i = true)
    (hNew : i ∉ list) :
    (i :: list).filter
        (· ∉ h.share (spare + 1) (i :: list)) =
      list.filter (· ∉ h.share spare list) := by
  rw [Holder.share_cons hAskable, List.filter_cons,
    if_neg (by simp)]
  apply List.filter_congr
  intro k hk
  have hNe : k ≠ i := by
    rintro rfl
    exact hNew hk
  simp [hNe]

/- The first chunk is asked for. -/
theorem assign
    (h :
      (w.assign i r now).Follows now (spare + 1) list w' left)
    (hRecord : w.holder.record? i = some r)
    (hTries : r.tries < maxTries)
    (hNew : i ∉ list) :
    w.Follows now (spare + 2) (i :: list) w' left := by
  have hAskable := Holder.isAskable_of_record hRecord hTries
  have hSame := record?_assign_of_not_mem hRecord now hNew
  have hShare :=
    Holder.share_congr hSame (spare + 1)
  have hStruck :=
    Holder.struck_congr hSame (spare + 1)
  have hNotShared : i ∉ w.holder.share (spare + 1) list :=
    fun hMem =>
      hNew ((w.holder.share_sublist _ list).subset hMem)
  refine ⟨?_, ?_, ?_, h.evicted_eq⟩
  · rw [h.holder_eq]
    unfold Holder.strikesWith
    rw [hShare, hStruck, Holder.share_cons hAskable.1,
      Holder.struck_cons hAskable hNew]
    exact Holder.ask_stamp hRecord now hNotShared _
  · rw [h.assigned_eq, hShare, Holder.share_cons hAskable.1]
    simp [Walk.assign]
  · rw [h.left_eq, hShare, filter_cons hAskable.1 hNew]
    rfl

/- The first chunk is asked for, and fills the share. -/
theorem last
    (hRecord : w.holder.record? i = some r)
    (hTries : r.tries < maxTries)
    (hNew : i ∉ list) :
    w.Follows now 1 (i :: list) (w.assign i r now)
      (w.passed.toList ++ list) := by
  have hAskable := Holder.isAskable_of_record hRecord hTries
  have hShare : w.holder.share 1 (i :: list) = [i] := by
    rw [Holder.share_cons hAskable.1]
    rfl
  refine ⟨?_, ?_, ?_, rfl⟩
  · unfold Holder.strikesWith
    rw [hShare, Holder.struck_one_cons hAskable.1,
      ← Holder.ask_stamp hRecord now List.not_mem_nil,
      Holder.ask_nil]
    rfl
  · rw [hShare]
    simp [Walk.assign]
  · rw [filter_cons hAskable.1 hNew]
    simp [Holder.share]

end Follows

/-
  A walk evicts the peer if it has too many strikes with
  those for this walk, and else gives the peer its share.
  The induction is on the chunks that are still ahead.
-/
theorem evicted_or_follows_walk
    (hRoom : w.assigned.size + (spare + 1) = maxRequest)
    (hNodup : list.Nodup)
    (hDue :
      ∀ i ∈ list,
        ∀ r, w.holder.record? i = some r → r.isDue now = true)
    (hStrikes : w.holder.strikes ≤ maxStrikes) :
    (maxStrikes < w.holder.strikesWith (spare + 1) list →
        (walk now list w).1.evicted = true) ∧
      (w.holder.strikesWith (spare + 1) list ≤ maxStrikes →
        w.Follows now (spare + 1) list (walk now list w).1
          (walk now list w).2) := by
  unfold Holder.strikesWith
  induction list generalizing w spare with
  | nil =>
      have hNil := Follows.nil now (spare + 1) w
      refine ⟨?_, fun _ => hNil⟩
      intro hLt
      exact absurd hStrikes (Nat.not_le_of_lt hLt)
  | cons i list ih =>
      rw [List.nodup_cons] at hNodup
      rw [List.forall_mem_cons] at hDue
      have hSpace : w.assigned.size < maxRequest := by omega
      cases hRecord : w.holder.record? i with
      | none =>
          have hNot := Holder.not_isAskable_of_none hRecord
          have hIdle : IsIdle now w.holder i := by
            intro r hSome
            rw [hRecord] at hSome
            cases hSome
          rw [walk_cons_of_idle hSpace hIdle,
            Holder.struck_cons_of_not hNot]
          rcases @ih (w.pass i) spare hRoom hNodup.2 hDue.2
            hStrikes with ⟨hEvicted, hFollows⟩
          exact ⟨hEvicted, fun hLe =>
            (hFollows hLe).pass hNot hNodup.1⟩
      | some r =>
          have hNow := hDue.1 r hRecord
          by_cases hTries : maxTries ≤ r.tries
          · have hSpent := Holder.isSpent_of_record hRecord hTries
            rw [walk_cons_of_spent hSpace hRecord hNow hTries,
              Holder.struck_cons_of_spent hSpent,
              List.length_cons]
            by_cases hLast :
                maxStrikes < w.holder.strikes + 1
            · rw [if_pos hLast]
              exact ⟨fun _ => rfl, fun hLe => by omega⟩
            · rw [if_neg hLast]
              rcases @ih (w.strike.pass i) spare hRoom hNodup.2
                  hDue.2 (Nat.le_of_not_lt hLast) with
                ⟨hEvicted, hFollows⟩
              rw [Nat.add_comm _ 1, ← Nat.add_assoc]
              exact ⟨hEvicted, fun hLe =>
                (hFollows hLe).strike hSpent hNodup.1⟩
          · rw [Nat.not_le] at hTries
            have hAskable :=
              Holder.isAskable_of_record hRecord hTries
            rw [walk_cons_of_due hSpace hRecord hNow hTries]
            have hSize :
                (w.assign i r now).assigned.size =
                  w.assigned.size + 1 :=
              Array.size_push _
            cases spare with
            | zero =>
                rw [walk_of_full (by omega),
                  Holder.struck_one_cons hAskable.1]
                refine ⟨fun hLt => ?_, fun _ => ?_⟩
                · exact absurd hStrikes (Nat.not_le_of_lt hLt)
                · exact Follows.last hRecord hTries hNodup.1
            | succ spare =>
                have hSame :=
                  record?_assign_of_not_mem hRecord now
                    hNodup.1
                rw [Holder.struck_cons hAskable hNodup.1,
                  ← Holder.struck_congr hSame]
                rcases @ih (w.assign i r now) spare (by omega)
                    hNodup.2
                    (fun k hk r' h => hDue.2 k hk r'
                      (hSame k hk ▸ h)) hStrikes with
                  ⟨hEvicted, hFollows⟩
                exact ⟨hEvicted, fun hLe =>
                  (hFollows hLe).assign hRecord hTries
                    hNodup.1⟩

end Walk

end PeerShare

------------------------------------------------------------
-- Chunks that are Given Back
------------------------------------------------------------

namespace PeerShare

variable {list missing left : List Nat}
variable {ranks : Array Nat}

/- Every chunk of a list gets its position as its rank. -/
theorem getD_foldl_ranks
    (hNodup : list.Nodup)
    (hSmall : ∀ i ∈ list, i < ranks.size)
    (first i : Nat) :
    let after :=
      (list.zipIdx first).foldl
        (fun ranks (index, rank) =>
          ranks.setIfInBounds index rank)
        ranks
    (i ∉ list → after.getD i lastRank = ranks.getD i lastRank) ∧
      ∀ k,
        list[k]? = some i →
          after.getD i lastRank = first + k := by
  induction list generalizing ranks first with
  | nil => exact ⟨fun _ => rfl, fun k hk => by cases hk⟩
  | cons j list ih =>
      rw [List.nodup_cons] at hNodup
      rw [List.forall_mem_cons] at hSmall
      rw [List.zipIdx_cons, List.foldl_cons]
      have hSmall' :
          ∀ i ∈ list,
            i < (ranks.setIfInBounds j first).size := by
        rw [Array.size_setIfInBounds]
        exact hSmall.2
      rcases ih hNodup.2 hSmall' (first + 1) with
        ⟨hOther, hMember⟩
      constructor
      · intro hNot
        rw [List.mem_cons, not_or] at hNot
        rw [hOther hNot.2, Array.getD_eq_getD_getElem?,
          Array.getElem?_setIfInBounds_ne (Ne.symm hNot.1),
          Array.getD_eq_getD_getElem?]
      · intro k hk
        cases k with
        | zero =>
            have hEq : j = i := Option.some.inj hk
            subst hEq
            rw [hOther hNodup.1, Array.getD_eq_getD_getElem?,
              Array.getElem?_setIfInBounds_self_of_lt hSmall.1]
            rfl
        | succ k =>
            rw [hMember k hk]
            omega

theorem getD_ranksOf
    {n k i : Nat}
    (hNodup : missing.Nodup)
    (hSmall : ∀ i ∈ missing, i < n)
    (hGet : missing[k]? = some i) :
    (ranksOf n missing).getD i lastRank = k := by
  have hSize :
      ∀ i ∈ missing,
        i < (Array.replicate n lastRank).size := by
    rw [Array.size_replicate]
    exact hSmall
  have hRank :=
    (getD_foldl_ranks hNodup hSize 0 i).2 k hGet
  rw [Nat.zero_add] at hRank
  exact hRank

/- Chunks of a list stand in the order of their ranks. -/
theorem pairwise_ranksOf
    {n : Nat}
    (hNodup : missing.Nodup)
    (hSmall : ∀ i ∈ missing, i < n) :
    missing.Pairwise fun a b =>
      (ranksOf n missing).getD a lastRank <
        (ranksOf n missing).getD b lastRank := by
  rw [List.pairwise_iff_getElem]
  intro i j hi hj hLt
  rw [getD_ranksOf hNodup hSmall
      (List.getElem?_eq_getElem hi),
    getD_ranksOf hNodup hSmall (List.getElem?_eq_getElem hj)]
  exact hLt

theorem eq_of_rank_eq
    {n a b : Nat}
    (hNodup : missing.Nodup)
    (hSmall : ∀ i ∈ missing, i < n)
    (ha : a ∈ missing)
    (hb : b ∈ missing)
    (hEq :
      (ranksOf n missing).getD a lastRank =
        (ranksOf n missing).getD b lastRank) :
    a = b := by
  rcases List.mem_iff_getElem?.mp ha with ⟨k, hGet⟩
  rcases List.mem_iff_getElem?.mp hb with ⟨l, hGet'⟩
  rw [getD_ranksOf hNodup hSmall hGet,
    getD_ranksOf hNodup hSmall hGet'] at hEq
  rw [hEq, hGet'] at hGet
  exact (Option.some.inj hGet).symm

/-
  What was left and what was given back, put in order, is
  the list as it was before the walk.
-/
theorem restore_of_perm
    {n : Nat}
    {given : List UInt16}
    (hNodup : missing.Nodup)
    (hSmall : ∀ i ∈ missing, i < n)
    (hSublist : list.Sublist missing)
    (hPerm : (left ++ given.map UInt16.toNat).Perm list) :
    restore (ranksOf n missing) left given = list := by
  let rank := fun i => (ranksOf n missing).getD i lastRank
  have hSorted :
      (restore (ranksOf n missing) left given).Pairwise
        fun a b => rank a ≤ rank b := by
    have hPairwise :=
      @List.pairwise_mergeSort _
        (fun a b => decide (rank a ≤ rank b))
        (by simpa using fun _ _ _ => Nat.le_trans)
        (by simp [Nat.le_total])
        (left ++ given.map UInt16.toNat)
    exact hPairwise.imp of_decide_eq_true
  have hOrder : list.Pairwise fun a b => rank a ≤ rank b :=
    ((pairwise_ranksOf hNodup hSmall).sublist hSublist).imp
      Nat.le_of_lt
  have hSame :
      (restore (ranksOf n missing) left given).Perm list :=
    (List.mergeSort_perm _ _).trans hPerm
  apply List.Perm.eq_of_pairwise ?_ hSorted hOrder hSame
  intro a b ha hb hLe hGe
  exact eq_of_rank_eq hNodup hSmall
    (hSublist.subset (hSame.mem_iff.mp ha))
    (hSublist.subset hb) (Nat.le_antisymm hLe hGe)

end PeerShare
