import PeerShare.Disk.Content
import PeerShare.Disk.Path
import PeerShare.IoFailure

/-
  A tree of directories and files.

  Every file has a number of its own, by which a file that
  has been removed is told from one made later at the same
  place.

  Key definitions include:
    * `Disk`
    * `Disk.locate`
    * `Disk.makeDirectories`
    * `Disk.openFile`
    * `Disk.update`
    * `Disk.read`
    * `Disk.store`
    * `Disk.unlink`
    * `Disk.filesUnder`
-/

------------------------------------------------------------
-- The Tree
------------------------------------------------------------

namespace PeerShare

/- What stands at a place. -/
inductive Entry where
  | file (serial : Nat) (content : Content)
  | directory
  deriving DecidableEq

/- The entries below the root, and the next file number. -/
structure Disk where
  entries : Table Place Entry
  nextSerial : Nat
  deriving DecidableEq

namespace Disk

/- A tree with nothing but its root. -/
def empty : Disk where
  entries := Table.empty
  nextSerial := 0

/- What stands at a place.  The root is a directory. -/
def at?
    (disk : Disk)
    (p : Place) : Option Entry :=
  if p = Place.root then some .directory
  else disk.entries.get? p

/- Put an entry at a place. -/
def set
    (disk : Disk)
    (p : Place)
    (e : Entry) : Disk :=
  { disk with entries := disk.entries.insert p e }

/-
  Follow names from a place; each name but the last must be
  a directory.
-/
def follow
    (disk : Disk)
    (here : Place) :
    List String → Except IoFailure Place
  | [] => .ok here
  | name :: names =>
      match disk.at? here with
      | none => .error .notFound
      | some (.file _ _) => .error .notADirectory
      | some .directory =>
          if name = ".." then follow disk here.parent names
          else if Path.isTooLong name then
            .error .invalidFilename
          else follow disk (here.child name) names

/- The place that a path means. -/
def locate
    (disk : Disk)
    (path : String) : Except IoFailure Place :=
  if Path.hasNul path then .error .invalidInput
  else disk.follow Place.root (Path.segments path)

/- The place and the entry that a path means. -/
def lookUp
    (disk : Disk)
    (path : String) :
    Except IoFailure (Place × Entry) :=
  match disk.locate path with
  | .error e => .error e
  | .ok p =>
      match disk.at? p with
      | none => .error .notFound
      | some (.file serial content) =>
          if Path.endsInDirectory path then
            .error .notADirectory
          else .ok (p, .file serial content)
      | some .directory => .ok (p, .directory)

end Disk

end PeerShare

------------------------------------------------------------
-- Changing the Tree
------------------------------------------------------------

namespace PeerShare

namespace Disk

/-
  Make the directories on the way from a place, as far as
  they are missing.  Those that are made before an error
  stay.

  A file on the way has its own name refused if directories
  have been made up to it, and the whole path otherwise.
-/
def makeDirectoriesFrom
    (disk : Disk)
    (here : Place)
    (hasMade : Bool) :
    List String → Except IoFailure Unit × Disk
  | [] => (.ok (), disk)
  | name :: names =>
      if name = ".." then
        makeDirectoriesFrom disk here.parent hasMade names
      else if Path.isTooLong name then
        (.error .invalidFilename, disk)
      else
        let next := here.child name
        match disk.at? next with
        | some .directory =>
            makeDirectoriesFrom disk next hasMade names
        | none =>
            makeDirectoriesFrom (disk.set next .directory)
              next true names
        | some (.file _ _) =>
            (.error
              (if hasMade || names.isEmpty then .alreadyExists
              else .notADirectory),
              disk)

/- Make the directories that lead to the end of a path. -/
def makeParents
    (disk : Disk)
    (path : String) : Except IoFailure Unit × Disk :=
  if Path.hasNul path then (.error .invalidInput, disk)
  else
    makeDirectoriesFrom disk Place.root false
      (Path.segments path).dropLast

/-
  Make all directories of a path, as far as they are
  missing, or leave the tree as it is.
-/
def makeDirectories
    (disk : Disk)
    (path : String) : Except IoFailure Disk :=
  if Path.hasNul path then .error .invalidInput
  else
    match
      makeDirectoriesFrom disk Place.root false
        (Path.segments path)
    with
    | (.error e, _) => .error e
    | (.ok (), disk) => .ok disk

/- A file: its place and its number. -/
structure FileId where
  place : Place
  serial : Nat
  deriving DecidableEq

/-
  Open the file of a path for writing.  A file that is
  missing is made.
-/
def openFile
    (disk : Disk)
    (path : String) :
    Except IoFailure (FileId × Disk) :=
  match disk.locate path with
  | .error e => .error e
  | .ok p =>
      if Path.endsInDirectory path then .error .isADirectory
      else
        match disk.at? p with
        | some .directory => .error .isADirectory
        | some (.file serial _) => .ok (⟨p, serial⟩, disk)
        | none =>
            let fresh : Entry :=
              .file disk.nextSerial (Content.ofBytes [])
            .ok
              (⟨p, disk.nextSerial⟩,
                { disk.set p fresh with
                  nextSerial := disk.nextSerial + 1 })

/-
  Change the content of a file.  Nothing changes when the
  file has been removed.
-/
def update
    (disk : Disk)
    (file : FileId)
    (f : Content → Content) : Disk :=
  match disk.at? file.place with
  | some (.file serial content) =>
      if serial = file.serial then
        disk.set file.place (.file serial (f content))
      else disk
  | _ => disk

/-
  Give the file of a path a content; directories on the way
  are made.  Or leave the tree as it is.
-/
def store
    (disk : Disk)
    (path : String)
    (bs : Bytes) : Except IoFailure Disk :=
  match disk.makeParents path with
  | (.error e, _) => .error e
  | (.ok (), disk) =>
      match disk.openFile path with
      | .error e => .error e
      | .ok (file, disk) =>
          .ok (disk.update file fun _ => Content.ofBytes bs)

/- Remove the file of a path. -/
def unlink
    (disk : Disk)
    (path : String) : Except IoFailure Disk :=
  match disk.lookUp path with
  | .error e => .error e
  | .ok (_, .directory) => .error .isADirectory
  | .ok (p, .file _ _) =>
      .ok { disk with entries := disk.entries.erase p }

end Disk

end PeerShare

------------------------------------------------------------
-- Reading the Tree
------------------------------------------------------------

namespace PeerShare

namespace Disk

/- The content of the file of a path. -/
def read
    (disk : Disk)
    (path : String) : Except IoFailure Content :=
  match disk.lookUp path with
  | .error e => .error e
  | .ok (_, .directory) => .error .isADirectory
  | .ok (_, .file _ content) => .ok content

/- Whether a path means a directory. -/
def isDirectory
    (disk : Disk)
    (path : String) : Except IoFailure Bool :=
  match disk.lookUp path with
  | .error e => .error e
  | .ok (_, .directory) => .ok true
  | .ok (_, .file _ _) => .ok false

/-
  The files in the directory of a path and below it, in the
  order of their places.  Each is given by the names that
  lead to it from the directory.
-/
def filesUnder
    (disk : Disk)
    (path : String) :
    Except IoFailure (List (List String)) :=
  match disk.locate path with
  | .error e => .error e
  | .ok directory =>
      .ok
        (disk.entries.entries.filterMap fun (p, e) =>
          match e with
          | .directory => none
          | .file _ _ =>
              if p.isUnder directory then
                some (p.names.drop directory.names.length)
              else none)

end Disk

end PeerShare
