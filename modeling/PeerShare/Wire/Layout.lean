import PeerShare.FileRecord
import PeerShare.Wire.DecodeError

/-
  Layouts: how values are laid out in bytes.

  A layout writes a value as bytes, and reads a value off
  the front of a byte string, which also gives the rest of
  the string or the reason why there is no such value.

  Numbers have a fixed width and start with their lowest
  byte.  Texts and byte strings are led by their length and
  lists by their number of items, in four bytes.

  Key definitions include:
    * `Wire.Layout`
    * `Wire.Layout.number`
    * `Wire.Layout.block`
    * `Wire.Layout.text`
    * `Wire.Layout.digests`
    * `Wire.Layout.list`
    * `Wire.Layout.seq`
    * `Wire.Layout.fileRecord`
-/

------------------------------------------------------------
-- Layouts
------------------------------------------------------------

namespace PeerShare

namespace Wire

/- A way to write values as bytes and read them back. -/
structure Layout
    (α : Type) where
  write : α → Bytes
  read : Bytes → Except DecodeError (α × Bytes)

/-
  Take `n` bytes off the front for a field.
-/
def take
    (field : Field)
    (n : Nat)
    (bs : Bytes) :
    Except DecodeError (Bytes × Bytes) :=
  match Bytes.splitExactly n bs with
  | .ok split => .ok split
  | .error missing => .error (.truncated field missing)

namespace Layout

variable {α β : Type}

/- One value after another. -/
def seq
    (first : Layout α)
    (second : Layout β) :
    Layout (α × β) where
  write v := first.write v.1 ++ second.write v.2
  read bs :=
    match first.read bs with
    | .error e => .error e
    | .ok (a, rest) =>
        match second.read rest with
        | .error e => .error e
        | .ok (b, rest) => .ok ((a, b), rest)

/- The same layout for another form of the values. -/
def convert
    (layout : Layout α)
    (into : α → β)
    (back : β → α) :
    Layout β where
  write v := layout.write (back v)
  read bs :=
    match layout.read bs with
    | .error e => .error e
    | .ok (a, rest) => .ok (into a, rest)

/- The same layout, where not every value is allowed. -/
def refine
    (layout : Layout α)
    (into : α → Except DecodeError β)
    (back : β → α) :
    Layout β where
  write v := layout.write (back v)
  read bs :=
    match layout.read bs with
    | .error e => .error e
    | .ok (a, rest) =>
        match into a with
        | .error e => .error e
        | .ok b => .ok (b, rest)

end Layout

end Wire

end PeerShare

------------------------------------------------------------
-- Numbers
------------------------------------------------------------

namespace PeerShare

namespace Wire

namespace Layout

/- A number of a fixed width. -/
def number
    (field : Field)
    (width : Nat) :
    Layout Nat where
  write n := Bytes.ofNat width n
  read bs :=
    match take field width bs with
    | .error e => .error e
    | .ok (digits, rest) => .ok (digits.toNat, rest)

/- A number of one byte. -/
def uint8
    (field : Field) :
    Layout UInt8 :=
  (number field 1).convert UInt8.ofNat UInt8.toNat

/- A number of two bytes. -/
def uint16
    (field : Field) :
    Layout UInt16 :=
  (number field 2).convert UInt16.ofNat UInt16.toNat

/- A number of eight bytes. -/
def uint64
    (field : Field) :
    Layout UInt64 :=
  (number field 8).convert UInt64.ofNat UInt64.toNat

/- A length or a number of items. -/
def count
    (field : Field) :
    Layout Nat :=
  number field 4

end Layout

end Wire

end PeerShare

------------------------------------------------------------
-- Byte Strings and Lists
------------------------------------------------------------

namespace PeerShare

namespace Wire

namespace Layout

variable {α : Type}

/- A byte string led by its length. -/
def block
    (field : Field) :
    Layout Bytes where
  write bs := (count field).write bs.length ++ bs
  read bs :=
    match (count field).read bs with
    | .error e => .error e
    | .ok (n, rest) => take field n rest

/- A text led by its length in bytes. -/
def text
    (field : Field) :
    Layout String :=
  (block field).refine
    (fun bs =>
      match Utf8.decode bs with
      | .ok s => .ok s
      | .error fault => .error (.malformedText field fault))
    Utf8.encode

/- The bytes of a digest. -/
def digest
    (field : Field) :
    Layout Digest where
  write d := d.bytes
  read bs :=
    match take field 20 bs with
    | .error e => .error e
    | .ok (front, rest) => .ok (Digest.ofBytes front, rest)

/-
  Items of `width` bytes each, led by their number.  All of
  the items are taken at once.
-/
def table
    (field : Field)
    (width : Nat)
    (write : α → Bytes)
    (read : Bytes → α) :
    Layout (List α) where
  write items :=
    (count field).write items.length ++ items.flatMap write
  read bs :=
    match (count field).read bs with
    | .error e => .error e
    | .ok (n, rest) =>
        match take field (n * width) rest with
        | .error e => .error e
        | .ok (front, rest) =>
            .ok ((Bytes.pieces n width front).map read, rest)

/- A list of digests. -/
def digests
    (field : Field) :
    Layout (List Digest) :=
  table field 20 Digest.bytes Digest.ofBytes

/- A list of chunk numbers. -/
def indices
    (field : Field) :
    Layout (List UInt16) :=
  table field 2
    (fun i => Bytes.ofNat 2 i.toNat)
    (fun bs => UInt16.ofNat bs.toNat)

/-
  Read a number of items one after another, behind the items
  already read, which stand in reverse order.
-/
def readItems
    (item : Layout α) :
    (n : Nat) →
    List α →
    Bytes →
    Except DecodeError (List α × Bytes)
  | 0, done, bs => .ok (done.reverse, bs)
  | n + 1, done, bs =>
      match item.read bs with
      | .error e => .error e
      | .ok (a, rest) => readItems item n (a :: done) rest

/- Items led by their number. -/
def list
    (field : Field)
    (item : Layout α) :
    Layout (List α) where
  write items :=
    (count field).write items.length ++
      items.flatMap item.write
  read bs :=
    match (count field).read bs with
    | .error e => .error e
    | .ok (n, rest) => readItems item n [] rest

end Layout

end Wire

end PeerShare

------------------------------------------------------------
-- Shared Files
------------------------------------------------------------

namespace PeerShare

namespace Wire

namespace Layout

/- The description of a shared file. -/
def fileRecord : Layout FileRecord :=
  ((text .name).seq
    ((uint64 .size).seq
      ((digest .fileHash).seq (digests .chunkHashes)))).convert
    (fun (name, size, digest, chunkDigests) =>
      { name, size, digest, chunkDigests })
    (fun file =>
      (file.name, file.size, file.digest, file.chunkDigests))

end Layout

end Wire

end PeerShare
