import PeerShare.Bytes

/-
  Text as UTF-8.

  Bytes that are not the encoding of a text have a first
  fault: a place where no character can be read.  Either
  the bytes stop in the middle of a character, or a number
  of bytes start no character.

  Key definitions include:
    * `Utf8.Fault`
    * `Utf8.fault?`
    * `Utf8.encode`
    * `Utf8.decode`

  Key theorems include:
    * `Utf8.decode_encode`
    * `Utf8.encode_of_decode`
-/

------------------------------------------------------------
-- Faults
------------------------------------------------------------

namespace PeerShare

namespace Utf8

/- How the first fault of a byte string looks. -/
inductive FaultKind where
  /- The bytes stop in the middle of a character. -/
  | incomplete
  /- As many bytes as given start no character. -/
  | invalid (length : Nat)
  deriving DecidableEq

/- The first fault of a byte string, and where it is. -/
structure Fault where
  index : Nat
  kind : FaultKind
  deriving DecidableEq

/- The description of a fault. -/
def Fault.message
    (fault : Fault) : String :=
  match fault.kind with
  | .incomplete =>
      "incomplete utf-8 byte sequence from index " ++
        toString fault.index
  | .invalid length =>
      "invalid utf-8 sequence of " ++ toString length ++
        " bytes from index " ++ toString fault.index

/- Whether a byte continues a character. -/
def isContinuation
    (b : UInt8) : Bool :=
  0x80 ≤ b && b ≤ 0xBF

/-
  Whether `b` may follow the first byte `a` of a character
  of several bytes.  The limits exclude characters written
  too long, surrogates, and numbers past the last character.
-/
def mayFollow
    (a b : UInt8) : Bool :=
  if a = 0xE0 then 0xA0 ≤ b && b ≤ 0xBF
  else if a = 0xED then 0x80 ≤ b && b ≤ 0x9F
  else if a = 0xF0 then 0x90 ≤ b && b ≤ 0xBF
  else if a = 0xF4 then 0x80 ≤ b && b ≤ 0x8F
  else isContinuation b

/-
  The length of a character, by its first byte; zero for a
  byte that starts no character.
-/
def charLength
    (a : UInt8) : Nat :=
  if a < 0x80 then 1
  else if 0xC2 ≤ a && a ≤ 0xDF then 2
  else if 0xE0 ≤ a && a ≤ 0xEF then 3
  else if 0xF0 ≤ a && a ≤ 0xF4 then 4
  else 0

/-
  The fault among the bytes after the second byte of a
  character, of which `wanted` should continue it.  So far
  `seen` bytes of the character are good.
-/
def tailFault? :
    (wanted seen : Nat) →
    Bytes →
    Option FaultKind
  | 0, _, _ => none
  | _ + 1, _, [] => some .incomplete
  | wanted + 1, seen, b :: bs =>
      if isContinuation b then
        tailFault? wanted (seen + 1) bs
      else some (.invalid seen)

/- The fault of a character with the given first byte. -/
def charFault?
    (a : UInt8)
    (bs : Bytes) : Option FaultKind :=
  match charLength a with
  | 0 => some (.invalid 1)
  | 1 => none
  | length + 2 =>
      match bs with
      | [] => some .incomplete
      | b :: rest =>
          if mayFollow a b then tailFault? length 2 rest
          else some (.invalid 1)

/-
  The first fault at or after `index`, where the bytes from
  `index` on are given.  Bytes that belong to a character
  already read are skipped.
-/
def faultFrom? :
    (index skip : Nat) →
    Bytes →
    Option Fault
  | _, _, [] => none
  | index, skip + 1, _ :: bs =>
      faultFrom? (index + 1) skip bs
  | index, 0, a :: bs =>
      match charFault? a bs with
      | some kind => some ⟨index, kind⟩
      | none => faultFrom? (index + 1) (charLength a - 1) bs

/- The first fault of a byte string. -/
def fault?
    (bs : Bytes) : Option Fault :=
  faultFrom? 0 0 bs

end Utf8

end PeerShare

------------------------------------------------------------
-- Encoding and Decoding
------------------------------------------------------------

namespace PeerShare

namespace Utf8

/- The bytes of a text. -/
def encode
    (s : String) : Bytes :=
  s.toByteArray.data.toList

/-
  The text with the given bytes, or the first fault.
-/
def decode
    (bs : Bytes) : Except Fault String :=
  match String.fromUTF8? ⟨bs.toArray⟩ with
  | some s => .ok s
  | none => .error ((fault? bs).getD ⟨0, .incomplete⟩)

theorem toByteArray_of_fromUTF8?
    {a : ByteArray}
    {s : String}
    (h : String.fromUTF8? a = some s) :
    s.toByteArray = a := by
  rw [String.fromUTF8?] at h
  split at h
  · cases h
    rfl
  · cases h

theorem fromUTF8?_toByteArray
    (s : String) :
    String.fromUTF8? s.toByteArray = some s := by
  rw [String.fromUTF8?, dif_pos s.isValidUTF8]
  rfl

/- Every text is read back from its bytes. -/
@[simp]
theorem decode_encode
    (s : String) :
    decode (encode s) = .ok s := by
  have hBytes : (⟨(encode s).toArray⟩ : ByteArray) =
      s.toByteArray := rfl
  rw [decode, hBytes, fromUTF8?_toByteArray]

/- A text is read only from its own bytes. -/
theorem encode_of_decode
    {bs : Bytes}
    {s : String}
    (h : decode bs = .ok s) :
    encode s = bs := by
  rw [decode] at h
  split at h
  · rename_i s' hRead
    cases h
    rw [encode, toByteArray_of_fromUTF8? hRead]
  · cases h

end Utf8

end PeerShare
