import PeerShare.Proofs.Disk.Names
import PeerShare.Proofs.Disk.Writing

/-
  What making a writer changes on disk.

  Making a writer for a plain name in a directory touches
  one place besides the way to the directory: the entry of
  the name in the directory.  On the way, directories are
  made where nothing stood.

  Key definitions include:
    * `Path.LeadsThrough`

  Key theorems include:
    * `Disk.makeParents_join_changesOnly`
    * `Disk.openFile_changesOnly`
    * `Disk.update_changesOnly`
    * `ChunkWriter.create_changesOnly`
    * `ChunkWriter.place_of_create`
-/

------------------------------------------------------------
-- The Way to a Directory
------------------------------------------------------------

namespace PeerShare

/- Whether a place lies on the way that a path goes. -/
def Path.LeadsThrough
    (path : String)
    (p : Place) : Prop :=
  Place.root.LeadsThrough (segments path) p

namespace Disk

variable {disk disk' : Disk}
variable {path : String}
variable {file : FileId}

/- Only the way to a plain name is made. -/
theorem makeParents_join_changesOnly
    (disk : Disk)
    (directory : String)
    {name : String}
    (hPlain : Path.fileName? name = some name)
    (target : Place → Prop) :
    disk.ChangesOnly
      (disk.makeParents (Path.join directory name)).2
      (Path.LeadsThrough directory) target := by
  have hMade :=
    disk.makeParents_changesOnly (Path.join directory name)
      target
  rw [Path.segments_join directory hPlain,
    List.dropLast_concat] at hMade
  exact hMade

/- A file is made where its path says. -/
theorem openFile_changesOnly
    (h : disk.openFile path = .ok (file, disk'))
    (way : Place → Prop) :
    disk.ChangesOnly disk' way (· = Path.place path) := by
  rcases openFile_cases h with
    ⟨hLocate, -, ⟨content, -, rfl⟩ | ⟨hNone, rfl⟩⟩
  · exact .refl _ _ _
  · have hFile : disk.at? file.place ≠ some .directory := by
      rw [hNone]
      simp
    exact ChangesOnly.set_file hFile
      (eq_place_of_locate hLocate) _ _

/- Only the file itself changes with its content. -/
theorem update_changesOnly
    (disk : Disk)
    (file : FileId)
    (f : Content → Content)
    (way : Place → Prop) :
    disk.ChangesOnly (disk.update file f) way
      (· = file.place) := by
  unfold update
  split
  · rename_i serial content hAt
    split
    · have hFile : disk.at? file.place ≠ some .directory := by
        rw [hAt]
        simp
      refine ChangesOnly.set_file hFile ?_ _ _
      rfl
    · exact .refl _ _ _
  · exact .refl _ _ _

end Disk

end PeerShare

------------------------------------------------------------
-- New Writers
------------------------------------------------------------

namespace PeerShare

namespace ChunkWriter

variable {directory name : String}

/- A writer writes to the place that its path means. -/
theorem place_of_create
    {disk disk' : Disk}
    {path : String}
    {size : Nat}
    {w : ChunkWriter}
    (h : create disk path size = (.ok w, disk')) :
    w.file.place = Path.place path := by
  rcases create_eq_ok h with
    ⟨-, -, -, added, content, -, hLookUp, -, -⟩
  exact Disk.eq_place_of_lookUp hLookUp

/-
  Whether or not a writer can be made for a plain name, no
  file changes but that of the name in the directory.
-/
theorem create_changesOnly
    (disk : Disk)
    (directory : String)
    (hPlain : Path.fileName? name = some name)
    (size : Nat) :
    disk.ChangesOnly
      (create disk (Path.join directory name) size).2
      (Path.LeadsThrough directory)
      (· = (Path.place directory).child name) := by
  rw [← Path.place_join directory hPlain]
  have hWay :=
    disk.makeParents_join_changesOnly directory hPlain
      (· = Path.place (Path.join directory name))
  unfold create
  split
  · rename_i parents hParents
    rw [hParents] at hWay
    exact hWay
  · rename_i parents hParents
    rw [hParents] at hWay
    split
    · exact hWay
    · rename_i file added hOpen
      have hOpened :=
        Disk.openFile_changesOnly hOpen
          (Path.LeadsThrough directory)
      split
      · exact hWay.trans hOpened
      · have hResized :=
          added.update_changesOnly file
            (fun content => content.resize size)
            (Path.LeadsThrough directory)
        rcases Disk.openFile_eq_ok hOpen with
          ⟨-, content, hLookUp⟩
        rw [Disk.eq_place_of_lookUp hLookUp] at hResized
        exact (hWay.trans hOpened).trans hResized

end ChunkWriter

end PeerShare
