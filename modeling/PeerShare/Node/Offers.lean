import PeerShare.FileRecord
import PeerShare.Table

/-
  The files that a node offers.

  A file that was published waits until the tracker accepts
  it.  Files that were accepted, and files whose download is
  complete, are served to other nodes.

  Key definitions include:
    * `Offers`
    * `Offers.confirm`
    * `Offers.reject`
    * `Offers.publish`
    * `Offers.withdraw?`
-/

namespace PeerShare

/-
  Files that wait for the tracker, and files that are
  served, by their names.
-/
structure Offers where
  pending : Table String LocalFile
  published : Table String LocalFile
  deriving DecidableEq

namespace Offers

/- No files. -/
def empty : Offers where
  pending := Table.empty
  published := Table.empty

/- Whether a file waits or is served. -/
def contains
    (o : Offers)
    (name : String) : Bool :=
  o.pending.contains name || o.published.contains name

/- Let a file wait for the tracker. -/
def await
    (o : Offers)
    (file : LocalFile) : Offers :=
  { o with pending := o.pending.insert file.record.name file }

/- The tracker accepted a file. -/
def confirm
    (o : Offers)
    (name : String) : Offers :=
  match o.pending.get? name with
  | none => o
  | some file =>
      { pending := o.pending.erase name
        published := o.published.insert name file }

/- The tracker did not accept a file. -/
def reject
    (o : Offers)
    (name : String) : Offers :=
  { o with pending := o.pending.erase name }

/- Serve a file. -/
def publish
    (o : Offers)
    (file : LocalFile) : Offers where
  pending := o.pending.erase file.record.name
  published := o.published.insert file.record.name file

/-
  Serve a file no longer.  There is no answer if it was not
  served.
-/
def withdraw?
    (o : Offers)
    (name : String) : Option Offers :=
  if o.published.contains name then
    some { o with published := o.published.erase name }
  else none

end Offers

end PeerShare
