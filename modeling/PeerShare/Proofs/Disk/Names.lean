import PeerShare.Proofs.Disk.Tree

/-
  Plain names in a directory.

  A plain name is all of its own last segment: it is no name
  of a directory above or of the directory itself, and holds
  no slash.  The path of a plain name in a directory leads
  to the entry of that name in the place of the directory,
  so that different plain names in one directory mean
  different places.

  Key definitions include:
    * `Path.IsPlain`
    * `Path.place`

  Key theorems include:
    * `Text.splitOn_append`
    * `Path.fileName?_eq_self_iff`
    * `Path.segments_join`
    * `Path.join_injective`
    * `Path.place_join`
    * `Disk.eq_place_of_locate`
    * `Disk.file_ne_of_lookUp_join`
-/

------------------------------------------------------------
-- Cutting Text
------------------------------------------------------------

namespace PeerShare

namespace Text

/- A text is cut at a separator wherever it stands. -/
theorem splitOn_append
    (sep : Char)
    (as bs : List Char) :
    splitOn sep (as ++ sep :: bs) =
      splitOn sep as ++ splitOn sep bs := by
  induction as with
  | nil =>
      rw [List.nil_append]
      exact if_pos rfl
  | cons a as ih =>
      rw [List.cons_append, splitOn, splitOn, ih]
      by_cases hSep : a = sep
      · rw [if_pos hSep, if_pos hSep]
        rfl
      · rw [if_neg hSep, if_neg hSep]
        cases hItems : splitOn sep as with
        | nil => exact absurd hItems (splitOn_ne_nil sep as)
        | cons item items => rfl

/- A text without separators is one item. -/
theorem splitOn_of_not_mem
    {sep : Char}
    {cs : List Char}
    (h : sep ∉ cs) :
    splitOn sep cs = [cs] := by
  induction cs with
  | nil => rfl
  | cons c cs ih =>
      rw [List.mem_cons, not_or] at h
      rw [splitOn, if_neg (Ne.symm h.1), ih h.2]
      rfl

end Text

end PeerShare

------------------------------------------------------------
-- Segments
------------------------------------------------------------

namespace PeerShare

namespace Path

/- Both sides of a slash have segments of their own. -/
theorem segments_append
    {path front back : String}
    (h : path.toList = front.toList ++ '/' :: back.toList) :
    segments path = segments front ++ segments back := by
  unfold segments
  rw [h, Text.splitOn_append, List.filter_append,
    List.map_append]

/- A plain name is its only segment. -/
theorem segments_of_plain
    {name : String}
    (h : fileName? name = some name) :
    name ≠ ".." ∧ segments name = [name] := by
  unfold fileName? at h
  split at h
  · cases h
  · cases h
  · rename_i last hUp hLast
    cases h
    refine ⟨hUp, ?_⟩
    have hMem := List.mem_of_getLast? hLast
    unfold segments at hMem ⊢
    rcases List.mem_map.mp hMem with ⟨cs, hFilter, hName⟩
    rcases List.mem_filter.mp hFilter with ⟨hItem, hMeans⟩
    have hChars : name.toList = cs := by
      rw [← hName, String.toList_ofList]
    rw [hChars] at hItem ⊢
    have hSlash := Text.not_mem_of_mem_splitOn hItem
    rw [Text.splitOn_of_not_mem hSlash,
      List.filter_cons, if_pos hMeans, List.filter_nil,
      List.map_singleton, hName]

/-
  Whether a name means an entry of the directory in which it
  is looked up, and no other.
-/
def IsPlain
    (name : String) : Prop :=
  name ≠ "" ∧ name ≠ "." ∧ name ≠ ".." ∧
    '/' ∉ name.toList

instance
    (name : String) :
    Decidable (IsPlain name) := by
  unfold IsPlain
  infer_instance

/- The plain names are those that end in themselves. -/
theorem fileName?_eq_self_iff
    {name : String} :
    fileName? name = some name ↔ IsPlain name := by
  constructor
  · intro h
    rcases segments_of_plain h with ⟨hUp, hName⟩
    have hMem : name ∈ segments name := by
      rw [hName]
      exact List.mem_singleton_self name
    unfold segments at hMem
    rcases List.mem_map.mp hMem with ⟨cs, hFilter, hChars⟩
    rcases List.mem_filter.mp hFilter with ⟨hItem, hMeans⟩
    rw [Bool.not_eq_true', Bool.or_eq_false_iff,
      beq_eq_false_iff_ne, beq_eq_false_iff_ne] at hMeans
    subst hChars
    rw [IsPlain, String.toList_ofList]
    refine ⟨?_, ?_, hUp, Text.not_mem_of_mem_splitOn hItem⟩
    · intro hEq
      exact hMeans.1 (String.ofList_injective hEq)
    · intro hEq
      exact hMeans.2 (String.ofList_injective hEq)
  · rintro ⟨hEmpty, hDot, hUp, hSlash⟩
    have hMeans :
        (name.toList == [] || name.toList == ['.']) =
          false := by
      rw [Bool.or_eq_false_iff, beq_eq_false_iff_ne,
        beq_eq_false_iff_ne]
      constructor
      · intro hEq
        exact hEmpty (String.toList_injective hEq)
      · intro hEq
        exact hDot (String.toList_injective hEq)
    have hName : segments name = [name] := by
      unfold segments
      rw [Text.splitOn_of_not_mem hSlash,
        List.filter_cons, hMeans, if_pos (by rfl),
        List.filter_nil, List.map_singleton,
        String.ofList_toList]
    unfold fileName?
    rw [hName, List.getLast?_singleton]
    split
    · contradiction
    · rename_i hLast
      cases hLast
      exact absurd rfl hUp
    · rename_i last hOther hLast
      exact hLast.symm

/- The path of a plain name ends in that name. -/
theorem segments_join
    {name : String}
    (directory : String)
    (h : fileName? name = some name) :
    segments (join directory name) =
      segments directory ++ [name] := by
  rcases segments_of_plain h with ⟨-, hName⟩
  unfold join
  split
  · rename_i hEmpty
    rw [String.isEmpty_iff.mp hEmpty, hName]
    rfl
  · split
    · rename_i hSlash
      have hLast := beq_iff_eq.mp hSlash
      rcases List.getLast?_eq_some_iff.mp hLast with
        ⟨front, hFront⟩
      have hDirectory :
          segments directory =
            segments (String.ofList front) ++ segments "" := by
        apply segments_append
        rw [hFront, String.toList_ofList]
        rfl
      have hNil : segments "" = [] := rfl
      rw [hDirectory, hNil, List.append_nil, ← hName]
      apply segments_append
      rw [String.toList_append, hFront, String.toList_ofList,
        List.append_assoc]
      rfl
    · rw [← hName]
      apply segments_append
      rw [String.toList_append, String.toList_append,
        List.append_assoc]
      rfl

/- No two names have one path in a directory. -/
theorem join_injective
    {directory name name' : String}
    (h : join directory name = join directory name') :
    name = name' := by
  unfold join at h
  split at h
  · exact h
  · split at h
    · exact String.append_right_inj directory |>.mp h
    · exact String.append_right_inj (directory ++ "/") |>.mp h

end Path

end PeerShare

------------------------------------------------------------
-- Places of Paths
------------------------------------------------------------

namespace PeerShare

namespace Path

/- The place that a path means, if it means one. -/
def place
    (path : String) : Place :=
  Place.root.along (segments path)

/- A plain name stands in the place of its directory. -/
theorem place_join
    {name : String}
    (directory : String)
    (h : fileName? name = some name) :
    place (join directory name) =
      (place directory).child name := by
  rcases segments_of_plain h with ⟨hUp, -⟩
  rw [place, segments_join directory h, Place.along_append,
    Place.along, if_neg hUp]
  rfl

end Path

namespace Disk

variable {disk : Disk}
variable {directory name path : String}
variable {here p : Place}

theorem eq_along_of_follow
    {names : List String}
    (h : disk.follow here names = .ok p) :
    p = here.along names := by
  induction names generalizing here with
  | nil =>
      cases h
      rfl
  | cons name names ih =>
      rw [follow] at h
      split at h
      · cases h
      · cases h
      · unfold Place.along
        split at h
        · rename_i hUp
          rw [if_pos hUp]
          exact ih h
        · rename_i hUp
          rw [if_neg hUp]
          split at h
          · cases h
          · exact ih h

/- The tree decides whether a path means its place. -/
theorem eq_place_of_locate
    (h : disk.locate path = .ok p) :
    p = Path.place path := by
  unfold locate at h
  split at h
  · cases h
  · exact eq_along_of_follow h

theorem eq_place_of_lookUp
    {serial : Nat}
    {content : Content}
    (h : disk.lookUp path = .ok (p, .file serial content)) :
    p = Path.place path :=
  eq_place_of_locate (lookUp_eq_file_iff.mp h).1

/- Different plain names mean different files. -/
theorem file_ne_of_lookUp_join
    {other : String}
    {file file' : FileId}
    {content content' : Content}
    (hPlain : Path.fileName? name = some name)
    (hOther : Path.fileName? other = some other)
    (hNe : name ≠ other)
    (h :
      disk.lookUp (Path.join directory name) =
        .ok (file.place, .file file.serial content))
    (h' :
      disk.lookUp (Path.join directory other) =
        .ok (file'.place, .file file'.serial content')) :
    file ≠ file' := by
  have hChild := eq_place_of_lookUp h
  have hChild' := eq_place_of_lookUp h'
  rw [Path.place_join directory hPlain] at hChild
  rw [Path.place_join directory hOther] at hChild'
  intro hEq
  rw [hEq, hChild'] at hChild
  exact hNe (Place.child_injective hChild).symm

end Disk

end PeerShare
