import PeerShare.Digest.Sha1

/-
  Digests of twenty bytes, which identify a chunk or a
  whole file by its content.

  Key definitions include:
    * `Digest`
    * `Digest.of`
    * `Digest.ofBytes`

  Key theorems include:
    * `Digest.ofBytes_bytes`
    * `Digest.bytes_ofBytes`
-/

namespace PeerShare

/- A digest: twenty bytes. -/
structure Digest where
  bytes : Bytes
  length_bytes : bytes.length = 20
  deriving DecidableEq

namespace Digest

theorem ext_bytes
    {d e : Digest}
    (h : d.bytes = e.bytes) :
    d = e := by
  cases d
  cases e
  cases h
  rfl

/- The digest of a content. -/
def of
    (content : Bytes) : Digest where
  bytes := Sha1.digest content
  length_bytes := Sha1.length_digest content

/-
  The digest with the given bytes.  Bytes past the
  twentieth are dropped and missing bytes are zero.
-/
def ofBytes
    (bs : Bytes) : Digest where
  bytes := (bs ++ List.replicate 20 0).take 20
  length_bytes := by
    simp only [List.length_take, List.length_append,
      List.length_replicate]
    omega

@[simp]
theorem bytes_ofBytes
    {bs : Bytes}
    (h : bs.length = 20) :
    (ofBytes bs).bytes = bs :=
  List.take_left' h

@[simp]
theorem ofBytes_bytes
    (d : Digest) :
    ofBytes d.bytes = d :=
  ext_bytes (bytes_ofBytes d.length_bytes)

end Digest

end PeerShare
