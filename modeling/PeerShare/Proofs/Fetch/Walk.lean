import Mathlib.Data.List.Nodup
import PeerShare.Fetch.Schedule

/-
  The walk of one peer through the missing chunks.

  Every missing chunk is either chosen for the peer or left
  to the others.  Only chosen chunks get a new record, and
  only chunks that are due and have not been requested too
  often are chosen.

  Key definitions include:
    * `Walk.chosen`
    * `Walk.Sound`

  Key theorems include:
    * `Holder.record?_stamp`
    * `Walk.Sound.assign`
    * `Walk.sound_walk`
-/

------------------------------------------------------------
-- Records
------------------------------------------------------------

namespace PeerShare

namespace RequestRecord

/- A chunk that was just requested is not due. -/
theorem isDue_stamp
    (r : RequestRecord)
    (now : Moment) :
    (r.stamp now).isDue now = false := by
  unfold isDue stamp elapsed
  dsimp only
  rw [Nat.sub_self]
  exact decide_eq_false (by decide)

end RequestRecord

namespace Holder

/- A stamp changes the record of one chunk that is held. -/
theorem record?_stamp
    {holder : Holder}
    {index : Nat}
    {old : RequestRecord}
    (r : RequestRecord)
    (now : Moment)
    (h : holder.record? index = some old)
    (i : Nat) :
    (holder.stamp index r now).record? i =
      if i = index then some (r.stamp now)
      else holder.record? i := by
  have hLt : index < holder.records.size := by
    apply Nat.lt_of_not_le
    intro hLe
    unfold record? at h
    rw [Array.getD_eq_getD_getElem?,
      Array.getElem?_eq_none hLe] at h
    cases h
  unfold record? stamp
  dsimp only
  rw [Array.getD_eq_getD_getElem?,
    Array.getElem?_setIfInBounds]
  by_cases hEq : index = i
  · rw [if_pos hEq, if_pos hLt, if_pos hEq.symm]
    rfl
  · rw [if_neg hEq, if_neg (Ne.symm hEq),
      Array.getD_eq_getD_getElem?]

end Holder

end PeerShare

------------------------------------------------------------
-- Walks
------------------------------------------------------------

namespace PeerShare

namespace Walk

/- The numbers of the chunks the peer is to be asked for. -/
def chosen
    (w : Walk) : List Nat :=
  w.assigned.toList.map UInt16.toNat

/-
  A walk of a peer that has so far chosen some of the
  missing chunks and left the others.
-/
structure Sound
    (now : Moment)
    (holder : Holder)
    (missing : List Nat)
    (w : Walk)
    (left : List Nat) : Prop where
  perm : (w.chosen ++ left).Perm missing
  size_le : w.assigned.size ≤ maxRequest
  record_eq :
    ∀ i,
      w.holder.record? i =
        if i ∈ w.chosen then
          (holder.record? i).map (·.stamp now)
        else holder.record? i
  due :
    ∀ i ∈ w.chosen,
      ∃ r,
        holder.record? i = some r ∧ r.isDue now = true ∧
          r.tries < maxTries

namespace Sound

variable {now : Moment}
variable {holder : Holder}
variable {missing left : List Nat}
variable {w w' : Walk}

/- At the start nothing is chosen. -/
theorem start
    (now : Moment)
    (holder : Holder)
    (missing : List Nat) :
    (Walk.start holder).Sound now holder missing missing where
  perm := List.Perm.refl _
  size_le := Nat.zero_le _
  record_eq i := rfl
  due i hi := by cases hi

/- Strikes and chunks that are passed do not matter. -/
theorem congr
    (h : w.Sound now holder missing left)
    (hAssigned : w'.assigned = w.assigned)
    (hRecords : w'.holder.records = w.holder.records) :
    w'.Sound now holder missing left := by
  have hChosen : w'.chosen = w.chosen := by
    unfold chosen
    rw [hAssigned]
  have hRecord :
      ∀ i, w'.holder.record? i = w.holder.record? i := by
    intro i
    unfold Holder.record?
    rw [hRecords]
  refine ⟨?_, ?_, ?_, ?_⟩
  · rw [hChosen]
    exact h.perm
  · rw [hAssigned]
    exact h.size_le
  · intro i
    rw [hRecord, hChosen]
    exact h.record_eq i
  · rw [hChosen]
    exact h.due

/- A chunk that was left so far is chosen. -/
theorem assign
    {front rest : List Nat}
    {index : Nat}
    {r : RequestRecord}
    (h : w.Sound now holder missing (front ++ index :: rest))
    (hNodup : missing.Nodup)
    (hSmall : ∀ i ∈ missing, i < 65536)
    (hSize : w.assigned.size < maxRequest)
    (hRecord : w.holder.record? index = some r)
    (hDue : r.isDue now = true)
    (hTries : r.tries < maxTries) :
    (w.assign index r now).Sound now holder missing
      (front ++ rest) := by
  have hLeft : index ∈ front ++ index :: rest :=
    List.mem_append_right _ List.mem_cons_self
  have hMissing : index ∈ missing :=
    h.perm.mem_iff.mp (List.mem_append_right _ hLeft)
  have hNew : index ∉ w.chosen := by
    intro hOld
    have hDisjoint :=
      (List.nodup_append.mp (h.perm.nodup_iff.mpr hNodup)).2.2
    exact hDisjoint index hOld index hLeft rfl
  have hNumber : (UInt16.ofNat index).toNat = index :=
    UInt16.toNat_ofNat_of_lt' (hSmall index hMissing)
  have hChosen :
      (w.assign index r now).chosen = w.chosen ++ [index] := by
    unfold chosen Walk.assign
    dsimp only
    rw [Array.toList_push, List.map_append, List.map_singleton,
      hNumber]
  have hFirst : holder.record? index = some r := by
    rw [h.record_eq index, if_neg hNew] at hRecord
    exact hRecord
  refine ⟨?_, ?_, ?_, ?_⟩
  · rw [hChosen, List.append_assoc]
    apply List.Perm.trans ?_ h.perm
    apply List.Perm.append_left
    rw [List.singleton_append]
    exact List.perm_middle.symm
  · unfold Walk.assign
    dsimp only
    rw [Array.size_push]
    exact hSize
  · intro i
    rw [hChosen]
    unfold Walk.assign
    dsimp only
    rw [Holder.record?_stamp r now hRecord]
    by_cases hEq : i = index
    · rw [if_pos hEq, hEq, if_pos (by simp), hFirst]
      rfl
    · rw [if_neg hEq, h.record_eq i]
      simp [hEq]
  · intro i hi
    rw [hChosen] at hi
    rcases List.mem_append.mp hi with hOld | hIndex
    · exact h.due i hOld
    · rw [List.mem_singleton.mp hIndex]
      exact ⟨r, hFirst, hDue, hTries⟩

end Sound

/- What a walk chooses and leaves. -/
theorem sound_walk
    {now : Moment}
    {holder : Holder}
    {missing list : List Nat}
    {w : Walk}
    (hNodup : missing.Nodup)
    (hSmall : ∀ i ∈ missing, i < 65536)
    (h :
      w.Sound now holder missing (w.passed.toList ++ list)) :
    (walk now list w).1.Sound now holder missing
      (walk now list w).2 := by
  have hPass :
      ∀ (w : Walk) (index : Nat) (rest : List Nat),
        (w.pass index).passed.toList ++ rest =
          w.passed.toList ++ index :: rest := by
    intro w index rest
    unfold pass
    rw [Array.toList_push, List.append_assoc]
    rfl
  fun_induction walk now list w with
  | case1 w =>
      rw [List.append_nil] at h
      exact h
  | case2 w index rest hFull => exact h
  | case3 w index rest hFull hNone ih =>
      apply ih
      rw [hPass]
      exact h.congr rfl rfl
  | case4 w index rest hFull r hRecord hWaits ih =>
      apply ih
      rw [hPass]
      exact h.congr rfl rfl
  | case5 w index rest hFull r hRecord hDue hTries w' hStrikes =>
      exact h.congr rfl rfl
  | case6 w index rest hFull r hRecord hDue hTries w' hStrikes ih =>
      apply ih
      rw [hPass]
      exact h.congr rfl rfl
  | case7 w index rest hFull r hRecord hDue hTries ih =>
      apply ih
      have hDue' : r.isDue now = true := by simpa using hDue
      exact h.assign hNodup hSmall (Nat.lt_of_not_le hFull)
        hRecord hDue' (Nat.lt_of_not_le hTries)

end Walk

end PeerShare
