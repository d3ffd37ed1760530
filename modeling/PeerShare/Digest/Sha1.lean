import PeerShare.Bytes

/-
  The SHA-1 digest.

  A message is padded to a multiple of 64 bytes with a one
  bit, zero bits and the length in bits.  Each block of 64
  bytes is expanded to eighty words and mixed into a state
  of five words, whose bytes are the digest.

  Key definitions include:
    * `Sha1.State`
    * `Sha1.absorb`
    * `Sha1.padding`
    * `Sha1.digest`

  Key theorems include:
    * `Sha1.length_digest`
-/

------------------------------------------------------------
-- Words
------------------------------------------------------------

namespace PeerShare

namespace Sha1

/- Rotate the bits of a word to the left. -/
def rotateLeft
    (w n : UInt32) : UInt32 :=
  (w <<< n) ||| (w >>> (32 - n))

/- The word with the given big-endian bytes. -/
def wordOfBytes
    (a b c d : UInt8) : UInt32 :=
  (a.toUInt32 <<< 24) ||| (b.toUInt32 <<< 16) |||
    (c.toUInt32 <<< 8) ||| d.toUInt32

/- The big-endian bytes of a word. -/
def bytesOfWord
    (w : UInt32) : Bytes :=
  [(w >>> 24).toUInt8, (w >>> 16).toUInt8,
    (w >>> 8).toUInt8, w.toUInt8]

/- The words of a block; left-over bytes are dropped. -/
def words : Bytes → List UInt32
  | a :: b :: c :: d :: rest =>
      wordOfBytes a b c d :: words rest
  | _ => []

/-
  The eighty words of a block.  Each word after the first
  sixteen depends on four earlier words.
-/
def expand
    (block : Bytes) : Array UInt32 :=
  (List.range 64).foldl
    (fun w t =>
      w.push
        (rotateLeft
          (w.getD (t + 13) 0 ^^^ w.getD (t + 8) 0 ^^^
            w.getD (t + 2) 0 ^^^ w.getD t 0)
          1))
    (words block).toArray

end Sha1

end PeerShare

------------------------------------------------------------
-- Mixing
------------------------------------------------------------

namespace PeerShare

namespace Sha1

/- The five words of the running state. -/
structure State where
  a : UInt32
  b : UInt32
  c : UInt32
  d : UInt32
  e : UInt32

/- The state before the first block. -/
def State.start : State where
  a := 0x67452301
  b := 0xEFCDAB89
  c := 0x98BADCFE
  d := 0x10325476
  e := 0xC3D2E1F0

/- The mixing function and constant of a round. -/
def mixing
    (t : Nat)
    (b c d : UInt32) :
    UInt32 × UInt32 :=
  if t < 20 then
    ((b &&& c) ||| ((~~~b) &&& d), 0x5A827999)
  else if t < 40 then
    (b ^^^ c ^^^ d, 0x6ED9EBA1)
  else if t < 60 then
    ((b &&& c) ||| (b &&& d) ||| (c &&& d), 0x8F1BBCDC)
  else
    (b ^^^ c ^^^ d, 0xCA62C1D6)

/- One round with the word of that round. -/
def round
    (w : Array UInt32)
    (s : State)
    (t : Nat) : State :=
  let (f, k) := mixing t s.b s.c s.d
  { a := rotateLeft s.a 5 + f + s.e + k + w.getD t 0
    b := s.a
    c := rotateLeft s.b 30
    d := s.c
    e := s.d }

/- Mix one block into the state. -/
def compress
    (s : State)
    (block : Bytes) : State :=
  let r := (List.range 80).foldl (round (expand block)) s
  { a := s.a + r.a
    b := s.b + r.b
    c := s.c + r.c
    d := s.d + r.d
    e := s.e + r.e }

/- Mix a number of blocks into the state. -/
def absorb :
    (blocks : Nat) →
    State →
    Bytes →
    State
  | 0, s, _ => s
  | blocks + 1, s, bs =>
      absorb blocks (compress s (bs.take 64)) (bs.drop 64)

end Sha1

end PeerShare

------------------------------------------------------------
-- Digest
------------------------------------------------------------

namespace PeerShare

namespace Sha1

/-
  What is put behind a message of the given length: a one
  bit, zero bits, and the number of bits in eight bytes.
-/
def padding
    (length : Nat) : Bytes :=
  0x80 ::
    (List.replicate ((119 - length % 64) % 64) 0 ++
      (Bytes.ofNat 8 (8 * length)).reverse)

/- The digest of a message. -/
def digest
    (message : Bytes) : Bytes :=
  let padded := message ++ padding message.length
  let s := absorb (padded.length / 64) State.start padded
  bytesOfWord s.a ++ bytesOfWord s.b ++ bytesOfWord s.c ++
    bytesOfWord s.d ++ bytesOfWord s.e

@[simp]
theorem length_digest
    (message : Bytes) :
    (digest message).length = 20 := rfl

end Sha1

end PeerShare
