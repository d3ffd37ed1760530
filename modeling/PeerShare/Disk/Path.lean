import PeerShare.Table
import PeerShare.Text.Numeral

/-
  Paths and places in a tree of directories.

  A path is a text of segments between slashes.  Empty
  segments and single dots mean nothing, and two dots mean
  the directory above.  A place is the row of names that
  leads from the root of the tree to a file or directory.

  Key definitions include:
    * `Path.segments`
    * `Path.fileName?`
    * `Path.join`
    * `Place`
    * `Place.codeOf`

  Key theorems include:
    * `Place.codeOf_injective`
-/

------------------------------------------------------------
-- Paths
------------------------------------------------------------

namespace PeerShare

namespace Path

/- The segments of a path that mean something. -/
def segments
    (path : String) : List String :=
  ((Text.splitOn '/' path.toList).filter fun segment =>
    !(segment == [] || segment == ['.'])).map String.ofList

/-
  The name at the end of a path, if there is one: a path
  may be empty, or end in the directory above.
-/
def fileName?
    (path : String) : Option String :=
  match (segments path).getLast? with
  | none => none
  | some ".." => none
  | some name => some name

/-
  Whether a path can only mean a directory, because it does
  not end in a name.
-/
def endsInDirectory
    (path : String) : Bool :=
  match (Text.splitOn '/' path.toList).getLast? with
  | none => true
  | some last => last == [] || last == ['.'] || last == ['.', '.']

/- The path of a name in a directory. -/
def join
    (directory name : String) : String :=
  if directory.isEmpty then name
  else if directory.toList.getLast? == some '/' then
    directory ++ name
  else directory ++ "/" ++ name

/- Whether a path holds a letter that no path may hold. -/
def hasNul
    (path : String) : Bool :=
  path.toList.any fun c => c.toNat == 0

/- The number of bytes in the longest name. -/
def maxName : Nat :=
  255

/- Whether a name is too long. -/
def isTooLong
    (name : String) : Bool :=
  maxName < name.utf8ByteSize

end Path

end PeerShare

------------------------------------------------------------
-- Places
------------------------------------------------------------

namespace PeerShare

/- The names on the way from the root. -/
structure Place where
  names : List String
  deriving DecidableEq

namespace Place

/- The root of the tree. -/
def root : Place where
  names := []

/- The place of a name in a directory. -/
def child
    (p : Place)
    (name : String) : Place where
  names := p.names ++ [name]

/- The directory above; the root is above itself. -/
def parent
    (p : Place) : Place where
  names := p.names.dropLast

/- Whether a place is in a directory or below it. -/
def isUnder
    (p directory : Place) : Bool :=
  directory.names.isPrefixOf p.names

/-
  The code of a row of names.  Every name ends in a number
  that is in no name, smaller than all the others, so that
  the names decide one after another.
-/
def codeOf
    (names : List String) : List Nat :=
  names.flatMap fun name => (Keyed.code name).map (· + 1) ++ [0]

theorem eq_of_terminated
    {as bs rest rest' : List Nat}
    (h :
      as.map (· + 1) ++ 0 :: rest =
        bs.map (· + 1) ++ 0 :: rest') :
    as = bs ∧ rest = rest' := by
  induction as generalizing bs with
  | nil =>
      cases bs with
      | nil => simpa using h
      | cons b bs => simp at h
  | cons a as ih =>
      cases bs with
      | nil => simp at h
      | cons b bs =>
          simp only [List.map_cons, List.cons_append,
            List.cons.injEq, Nat.add_right_cancel_iff] at h
          rcases ih h.2 with ⟨hTail, hRest⟩
          rw [h.1, hTail]
          exact ⟨rfl, hRest⟩

theorem codeOf_injective
    {as bs : List String}
    (h : codeOf as = codeOf bs) :
    as = bs := by
  induction as generalizing bs with
  | nil =>
      cases bs with
      | nil => rfl
      | cons b bs => simp [codeOf] at h
  | cons a as ih =>
      cases bs with
      | nil => simp [codeOf] at h
      | cons b bs =>
          simp only [codeOf, List.flatMap_cons,
            List.append_assoc, List.singleton_append] at h
          rcases eq_of_terminated h with ⟨hHead, hTail⟩
          rw [Keyed.code_injective hHead, ih hTail]

end Place

/- Places are ordered name by name. -/
instance : Keyed Place where
  code p := Place.codeOf p.names
  code_injective {a b} h := by
    have hNames := Place.codeOf_injective h
    cases a
    cases b
    cases hNames
    rfl

end PeerShare
