import PeerShare.Disk

/-
  What stays when a tree changes.

  Making directories and opening files only adds entries,
  and changing the content of a file changes one entry.  No
  path to a file is lost in either way.

  Key definitions include:
    * `Disk.KeepsDirectories`
    * `Disk.Extends`
    * `Entry.MayBecome`
    * `Disk.ChangesOnly`
    * `Place.along`

  Key theorems include:
    * `Disk.lookUp_of_extends`
    * `Disk.makeParents_changesOnly`
    * `Disk.openFile_cases`
    * `Disk.openFile_eq_ok`
    * `Disk.lookUp_update_self`
    * `Disk.lookUp_update_of_ne`
-/

------------------------------------------------------------
-- Entries
------------------------------------------------------------

namespace PeerShare

theorem Place.child_injective
    {p : Place}
    {name name' : String}
    (h : p.child name = p.child name') :
    name = name' := by
  unfold child at h
  simpa using h

namespace Disk

@[simp]
theorem at?_root
    (disk : Disk) :
    disk.at? Place.root = some .directory := by
  unfold at?
  rw [if_pos rfl]

/- Below the root, an entry stands where it was put. -/
theorem at?_set_self
    (disk : Disk)
    {p : Place}
    (e : Entry)
    (h : p ≠ Place.root) :
    (disk.set p e).at? p = some e := by
  unfold at? set
  rw [if_neg h]
  exact Table.get?_insert_self _ _ _

theorem at?_set_of_ne
    (disk : Disk)
    {p q : Place}
    (e : Entry)
    (h : q ≠ p) :
    (disk.set p e).at? q = disk.at? q := by
  unfold at? set
  rw [Table.get?_insert_of_ne _ _ h]

/- Only a directory stands at the root. -/
theorem ne_root_of_at?
    {disk : Disk}
    {p : Place}
    (h : disk.at? p ≠ some .directory) :
    p ≠ Place.root := by
  rintro rfl
  exact h disk.at?_root

theorem ne_root_of_none
    {disk : Disk}
    {p : Place}
    (h : disk.at? p = none) :
    p ≠ Place.root := by
  apply ne_root_of_at?
  rw [h]
  simp

end Disk

end PeerShare

------------------------------------------------------------
-- Paths
------------------------------------------------------------

namespace PeerShare

namespace Disk

/- Every directory of one tree is one of the other. -/
def KeepsDirectories
    (disk disk' : Disk) : Prop :=
  ∀ p,
    disk.at? p = some .directory →
    disk'.at? p = some .directory

/- What stands in one tree stands in the other. -/
def Extends
    (disk disk' : Disk) : Prop :=
  ∀ p e, disk.at? p = some e → disk'.at? p = some e

theorem Extends.refl
    (disk : Disk) :
    disk.Extends disk :=
  fun _ _ h => h

theorem Extends.trans
    {disk disk' disk'' : Disk}
    (h : disk.Extends disk')
    (h' : disk'.Extends disk'') :
    disk.Extends disk'' :=
  fun p e hAt => h' p e (h p e hAt)

theorem Extends.keepsDirectories
    {disk disk' : Disk}
    (h : disk.Extends disk') :
    disk.KeepsDirectories disk' :=
  fun p hAt => h p .directory hAt

/- A path leads to the same place if directories stay. -/
theorem follow_of_keeps
    {disk disk' : Disk}
    {here p : Place}
    {names : List String}
    (hKeeps : disk.KeepsDirectories disk')
    (h : disk.follow here names = .ok p) :
    disk'.follow here names = .ok p := by
  induction names generalizing here with
  | nil => exact h
  | cons name names ih =>
      rw [follow] at h ⊢
      cases hAt : disk.at? here with
      | none =>
          rw [hAt] at h
          cases h
      | some e =>
          rw [hAt] at h
          cases e with
          | file => cases h
          | directory =>
              rw [hKeeps here hAt]
              dsimp only at h ⊢
              by_cases hUp : name = ".."
              · rw [if_pos hUp] at h ⊢
                exact ih h
              · rw [if_neg hUp] at h ⊢
                by_cases hLong : Path.isTooLong name
                · rw [if_pos hLong] at h
                  cases h
                · rw [if_neg hLong] at h ⊢
                  exact ih h

theorem locate_of_keeps
    {disk disk' : Disk}
    {path : String}
    {p : Place}
    (hKeeps : disk.KeepsDirectories disk')
    (h : disk.locate path = .ok p) :
    disk'.locate path = .ok p := by
  unfold locate at h ⊢
  by_cases hNul : Path.hasNul path
  · rw [if_pos hNul] at h
    cases h
  · rw [if_neg hNul] at h ⊢
    exact follow_of_keeps hKeeps h

/- When a path means a file. -/
theorem lookUp_eq_file_iff
    {disk : Disk}
    {path : String}
    {p : Place}
    {serial : Nat}
    {content : Content} :
    disk.lookUp path = .ok (p, .file serial content) ↔
      disk.locate path = .ok p ∧
        Path.endsInDirectory path = false ∧
        disk.at? p = some (.file serial content) := by
  unfold lookUp
  constructor
  · intro h
    cases hLocate : disk.locate path with
    | error e =>
        rw [hLocate] at h
        cases h
    | ok q =>
        rw [hLocate] at h
        dsimp only at h
        cases hAt : disk.at? q with
        | none =>
            rw [hAt] at h
            cases h
        | some e =>
            rw [hAt] at h
            cases e with
            | directory => cases h
            | file serial' content' =>
                dsimp only at h
                cases hEnd : Path.endsInDirectory path with
                | true =>
                    rw [hEnd] at h
                    cases h
                | false =>
                    rw [hEnd] at h
                    cases h
                    exact ⟨rfl, rfl, hAt⟩
  · rintro ⟨hLocate, hEnd, hAt⟩
    rw [hLocate]
    dsimp only
    rw [hAt, hEnd]
    rfl

/- A file stays under its path when entries are added. -/
theorem lookUp_of_extends
    {disk disk' : Disk}
    {path : String}
    {p : Place}
    {serial : Nat}
    {content : Content}
    (hExtends : disk.Extends disk')
    (h : disk.lookUp path = .ok (p, .file serial content)) :
    disk'.lookUp path = .ok (p, .file serial content) := by
  rcases lookUp_eq_file_iff.mp h with ⟨hLocate, hEnd, hAt⟩
  exact lookUp_eq_file_iff.mpr
    ⟨locate_of_keeps hExtends.keepsDirectories hLocate, hEnd,
      hExtends _ _ hAt⟩

/- Reading a path gives the content of its file. -/
theorem read_of_lookUp
    {disk : Disk}
    {path : String}
    {p : Place}
    {serial : Nat}
    {content : Content}
    (h : disk.lookUp path = .ok (p, .file serial content)) :
    disk.read path = .ok content := by
  unfold read
  rw [h]

/- What can be read is a file. -/
theorem exists_lookUp_of_read
    {disk : Disk}
    {path : String}
    {content : Content}
    (h : disk.read path = .ok content) :
    ∃ p serial,
      disk.lookUp path = .ok (p, .file serial content) := by
  unfold read at h
  split at h
  · cases h
  · cases h
  · rename_i p serial found hLookUp
    cases h
    exact ⟨p, serial, hLookUp⟩

end Disk

end PeerShare

------------------------------------------------------------
-- Confined Changes
------------------------------------------------------------

namespace PeerShare

namespace Entry

/-
  What may become of what stands at a place: a directory may
  be made where `isWay` holds, and a file may be made or
  changed where `isTarget` holds.
-/
inductive MayBecome
    (isWay isTarget : Prop) :
    Option Entry → Option Entry → Prop where
  | stay
      (e : Option Entry) :
      MayBecome isWay isTarget e e
  | makeDirectory
      (hWay : isWay) :
      MayBecome isWay isTarget none (some .directory)
  | openFile
      {e : Option Entry}
      (hTarget : isTarget)
      (hFile : e ≠ some .directory)
      (serial : Nat)
      (content : Content) :
      MayBecome isWay isTarget e (some (.file serial content))

namespace MayBecome

variable {isWay isWay' isTarget isTarget' : Prop}
variable {e e' e'' : Option Entry}

theorem trans
    (h : MayBecome isWay isTarget e e')
    (h' : MayBecome isWay isTarget e' e'') :
    MayBecome isWay isTarget e e'' := by
  cases h' with
  | stay => exact h
  | makeDirectory hWay =>
      cases h with
      | stay => exact .makeDirectory hWay
  | openFile hTarget hFile serial content =>
      refine .openFile hTarget ?_ serial content
      -- A directory would still be there.
      rintro rfl
      cases h with
      | stay => exact hFile rfl
      | openFile _ hNot => exact hNot rfl

theorem mono
    (h : MayBecome isWay isTarget e e')
    (hWay : isWay → isWay')
    (hTarget : isTarget → isTarget') :
    MayBecome isWay' isTarget' e e' := by
  cases h with
  | stay => exact .stay _
  | makeDirectory hOn => exact .makeDirectory (hWay hOn)
  | openFile hAt hFile serial content =>
      exact .openFile (hTarget hAt) hFile serial content

end MayBecome

end Entry

namespace Disk

/-
  Directories are made on the way only, and files are made
  or changed at the target only.
-/
def ChangesOnly
    (disk disk' : Disk)
    (way target : Place → Prop) : Prop :=
  ∀ p,
    Entry.MayBecome (way p) (target p) (disk.at? p)
      (disk'.at? p)

namespace ChangesOnly

variable {disk disk' disk'' : Disk}
variable {way way' target target' : Place → Prop}

theorem refl
    (disk : Disk)
    (way target : Place → Prop) :
    disk.ChangesOnly disk way target :=
  fun _ => .stay _

theorem trans
    (h : disk.ChangesOnly disk' way target)
    (h' : disk'.ChangesOnly disk'' way target) :
    disk.ChangesOnly disk'' way target :=
  fun p => (h p).trans (h' p)

theorem mono
    (h : disk.ChangesOnly disk' way target)
    (hWay : ∀ p, way p → way' p)
    (hTarget : ∀ p, target p → target' p) :
    disk.ChangesOnly disk' way' target' :=
  fun p => (h p).mono (hWay p) (hTarget p)

/- A directory that is made where nothing stood. -/
theorem set_directory
    {p : Place}
    (hNone : disk.at? p = none)
    (hWay : way p) :
    disk.ChangesOnly (disk.set p .directory) way target := by
  intro q
  by_cases hPlace : q = p
  · subst hPlace
    rw [at?_set_self disk .directory (ne_root_of_none hNone),
      hNone]
    exact .makeDirectory hWay
  · rw [at?_set_of_ne disk .directory hPlace]
    exact .stay _

/- A file that is made or changed. -/
theorem set_file
    {p : Place}
    (hFile : disk.at? p ≠ some .directory)
    (hTarget : target p)
    (serial : Nat)
    (content : Content) :
    disk.ChangesOnly (disk.set p (.file serial content)) way
      target := by
  intro q
  by_cases hPlace : q = p
  · subst hPlace
    rw [at?_set_self disk _ (ne_root_of_at? hFile)]
    exact .openFile hTarget hFile serial content
  · rw [at?_set_of_ne disk _ hPlace]
    exact .stay _

/- Where no file changes, entries are only added. -/
theorem toExtends
    (h : disk.ChangesOnly disk' way fun _ => False) :
    disk.Extends disk' := by
  intro p e hAt
  have hTurns := h p
  rw [hAt] at hTurns
  generalize disk'.at? p = e' at hTurns ⊢
  cases hTurns with
  | stay => rfl
  | openFile hNever => exact hNever.elim

end ChangesOnly

end Disk

end PeerShare

------------------------------------------------------------
-- Added Entries
------------------------------------------------------------

namespace PeerShare

/- The place to which names lead from another. -/
def Place.along
    (here : Place) :
    List String → Place
  | [] => here
  | name :: names =>
      if name = ".." then along here.parent names
      else along (here.child name) names

theorem Place.along_append
    (here : Place)
    (names names' : List String) :
    here.along (names ++ names') =
      (here.along names).along names' := by
  induction names generalizing here with
  | nil => rfl
  | cons name names ih =>
      rw [List.cons_append, along, along, ih, ih]
      split <;> rfl

/- Whether names lead from one place through another. -/
def Place.LeadsThrough
    (here : Place)
    (names : List String)
    (p : Place) : Prop :=
  ∃ front, front <+: names ∧ p = here.along front

/- The way goes on from the place of the first name. -/
theorem Place.LeadsThrough.cons
    {here p : Place}
    {name : String}
    {names : List String}
    (h : (here.along [name]).LeadsThrough names p) :
    here.LeadsThrough (name :: names) p := by
  rcases h with ⟨front, hFront, hPlace⟩
  refine ⟨name :: front, ?_, ?_⟩
  · exact List.cons_prefix_cons.mpr ⟨rfl, hFront⟩
  · rw [hPlace, ← along_append, List.singleton_append]

namespace Disk

variable {disk disk' : Disk}
variable {here : Place}
variable {names : List String}
variable {path : String}
variable {file : FileId}

/-
  Directories are made on the way, and nothing else, whether
  or not all of them can be made.
-/
theorem makeDirectoriesFrom_changesOnly
    (disk : Disk)
    (here : Place)
    (hasMade : Bool)
    (names : List String)
    (target : Place → Prop) :
    disk.ChangesOnly
      (disk.makeDirectoriesFrom here hasMade names).2
      (here.LeadsThrough names) target := by
  fun_induction makeDirectoriesFrom disk here hasMade names with
  | case1 => exact .refl _ _ _
  | case2 disk here hasMade names ih =>
      have hUp : here.along [".."] = here.parent := if_pos rfl
      rw [← hUp] at ih ⊢
      exact ih.mono (fun _ => .cons) fun _ => id
  | case3 => exact .refl _ _ _
  | case4 disk here hasMade name names hNotUp hLong next hAt
      ih =>
      have hNext : here.along [name] = next := if_neg hNotUp
      rw [← hNext] at ih ⊢
      exact ih.mono (fun _ => .cons) fun _ => id
  | case5 disk here hasMade name names hNotUp hLong next hAt
      ih =>
      have hNext : here.along [name] = next := if_neg hNotUp
      have hMade : here.LeadsThrough (name :: names) next :=
        ⟨[name], List.cons_prefix_cons.mpr
          ⟨rfl, List.nil_prefix⟩, hNext.symm⟩
      refine (ChangesOnly.set_directory hAt hMade).trans ?_
      rw [← hNext] at ih ⊢
      exact ih.mono (fun _ => .cons) fun _ => id
  | case6 => exact .refl _ _ _

theorem makeParents_changesOnly
    (disk : Disk)
    (path : String)
    (target : Place → Prop) :
    disk.ChangesOnly (disk.makeParents path).2
      (Place.root.LeadsThrough (Path.segments path).dropLast)
      target := by
  unfold makeParents
  split
  · exact .refl _ _ _
  · exact makeDirectoriesFrom_changesOnly _ _ _ _ target

theorem makeParents_extends
    (disk : Disk)
    (path : String) :
    disk.Extends (disk.makeParents path).2 :=
  (disk.makeParents_changesOnly path fun _ => False).toExtends

theorem set_extends
    {p : Place}
    (e : Entry)
    (h : disk.at? p = none) :
    disk.Extends (disk.set p e) := by
  intro q e' hAt
  by_cases hEq : q = p
  · rw [hEq, h] at hAt
    cases hAt
  · rw [at?_set_of_ne _ _ hEq]
    exact hAt

/-
  What opening a file does: the file of the path is there,
  or it is made without bytes where nothing stood.
-/
theorem openFile_cases
    (h : disk.openFile path = .ok (file, disk')) :
    disk.locate path = .ok file.place ∧
      Path.endsInDirectory path = false ∧
      ((∃ content,
          disk.at? file.place =
              some (.file file.serial content) ∧
            disk' = disk) ∨
        (disk.at? file.place = none ∧
          disk' =
            { disk.set file.place
                (.file file.serial (Content.ofBytes [])) with
              nextSerial := disk.nextSerial + 1 })) := by
  unfold openFile at h
  cases hLocate : disk.locate path with
  | error e =>
      rw [hLocate] at h
      cases h
  | ok p =>
      rw [hLocate] at h
      dsimp only at h
      cases hEnd : Path.endsInDirectory path with
      | true =>
          rw [hEnd] at h
          cases h
      | false =>
          rw [hEnd] at h
          cases hAt : disk.at? p with
          | none =>
              rw [hAt] at h
              cases h
              exact ⟨rfl, rfl, Or.inr ⟨hAt, rfl⟩⟩
          | some e =>
              rw [hAt] at h
              cases e with
              | directory => cases h
              | file serial content =>
                  cases h
                  exact ⟨rfl, rfl, Or.inl ⟨content, hAt, rfl⟩⟩

/-
  Opening a file only adds entries, and the path means the
  opened file then.
-/
theorem openFile_eq_ok
    (h : disk.openFile path = .ok (file, disk')) :
    disk.Extends disk' ∧
      ∃ content,
        disk'.lookUp path =
          .ok (file.place, .file file.serial content) := by
  rcases openFile_cases h with
    ⟨hLocate, hEnd, ⟨content, hAt, rfl⟩ | ⟨hNone, rfl⟩⟩
  · refine ⟨Extends.refl _, content, ?_⟩
    exact lookUp_eq_file_iff.mpr ⟨hLocate, hEnd, hAt⟩
  · let made : Entry :=
      .file file.serial (Content.ofBytes [])
    have hExtends : disk.Extends (disk.set file.place made) :=
      set_extends made hNone
    have hKeeps := hExtends.keepsDirectories
    refine ⟨hExtends, Content.ofBytes [], ?_⟩
    exact lookUp_eq_file_iff.mpr
      ⟨locate_of_keeps hKeeps hLocate, hEnd,
        at?_set_self disk made (ne_root_of_none hNone)⟩

end Disk

end PeerShare

------------------------------------------------------------
-- Changed Contents
------------------------------------------------------------

namespace PeerShare

namespace Disk

/- Changing the content of a file changes that file only. -/
theorem at?_update_of_ne
    (disk : Disk)
    (file : FileId)
    (f : Content → Content)
    {p : Place}
    (h : p ≠ file.place) :
    (disk.update file f).at? p = disk.at? p := by
  unfold update
  split
  · split
    · exact at?_set_of_ne disk _ h
    · rfl
  · rfl

/- What stands at a place of a file after a change. -/
theorem at?_update_file
    {disk : Disk}
    {p : Place}
    {serial : Nat}
    {content : Content}
    (file : FileId)
    (f : Content → Content)
    (h : disk.at? p = some (.file serial content)) :
    (disk.update file f).at? p =
      some
        (.file serial
          (if file = ⟨p, serial⟩ then f content
          else content)) := by
  rcases file with ⟨place, number⟩
  by_cases hPlace : p = place
  · subst hPlace
    have hFile : disk.at? p ≠ some .directory := by
      rw [h]
      simp
    have hRoot := ne_root_of_at? hFile
    unfold update
    rw [h]
    dsimp only
    by_cases hSerial : serial = number
    · subst hSerial
      rw [if_pos rfl, if_pos rfl]
      exact at?_set_self disk _ hRoot
    · rw [if_neg hSerial, if_neg, h]
      intro hEq
      cases hEq
      exact hSerial rfl
  · rw [at?_update_of_ne disk _ f hPlace, if_neg, h]
    intro hEq
    cases hEq
    exact hPlace rfl

theorem update_keepsDirectories
    (disk : Disk)
    (file : FileId)
    (f : Content → Content) :
    disk.KeepsDirectories (disk.update file f) := by
  intro p hAt
  by_cases hPlace : p = file.place
  · unfold update
    rw [← hPlace, hAt]
    exact hAt
  · rw [at?_update_of_ne disk file f hPlace]
    exact hAt

/- A path means the same file after a change. -/
theorem lookUp_update
    {disk : Disk}
    {path : String}
    {p : Place}
    {serial : Nat}
    {content : Content}
    (file : FileId)
    (f : Content → Content)
    (h : disk.lookUp path = .ok (p, .file serial content)) :
    (disk.update file f).lookUp path =
      .ok
        (p,
          .file serial
            (if file = ⟨p, serial⟩ then f content
            else content)) := by
  rcases lookUp_eq_file_iff.mp h with ⟨hLocate, hEnd, hAt⟩
  exact lookUp_eq_file_iff.mpr
    ⟨locate_of_keeps (update_keepsDirectories disk file f)
        hLocate,
      hEnd, at?_update_file file f hAt⟩

/- The content of the file that changes is another. -/
theorem lookUp_update_self
    {disk : Disk}
    {path : String}
    {file : FileId}
    {content : Content}
    (f : Content → Content)
    (h :
      disk.lookUp path =
        .ok (file.place, .file file.serial content)) :
    (disk.update file f).lookUp path =
      .ok (file.place, .file file.serial (f content)) := by
  rw [lookUp_update file f h, if_pos rfl]

/- The content of any other file is the same. -/
theorem lookUp_update_of_ne
    {disk : Disk}
    {path : String}
    {file changed : FileId}
    {content : Content}
    (f : Content → Content)
    (hNe : file ≠ changed)
    (h :
      disk.lookUp path =
        .ok (file.place, .file file.serial content)) :
    (disk.update changed f).lookUp path =
      .ok (file.place, .file file.serial content) := by
  rw [lookUp_update changed f h, if_neg]
  exact fun hEq => hNe hEq.symm

end Disk

end PeerShare
