import PeerShare.Bytes

/-
  The content of a file.

  A content is a row of runs.  A run of zeros is only
  counted, so that a large file of which little has been
  written takes little room.  What a content means is the
  byte string `Content.toBytes`.

  Key definitions include:
    * `Content`
    * `Content.toBytes`
    * `Content.resize`
    * `Content.write`
    * `Content.read`

  Key theorems include:
    * `Content.length_eq`
    * `Content.toBytes_resize`
    * `Content.toBytes_write`
    * `Content.read_eq`
-/

------------------------------------------------------------
-- Runs
------------------------------------------------------------

namespace PeerShare

/- A part of a content: some zeros, or the given bytes. -/
inductive Run where
  | zeros (n : Nat)
  | bytes (bs : Bytes)
  deriving DecidableEq

namespace Run

/- The number of bytes in a run. -/
def length : Run → Nat
  | zeros n => n
  | bytes bs => bs.length

/- The bytes of a run. -/
def toBytes : Run → Bytes
  | zeros n => List.replicate n 0
  | bytes bs => bs

/- The first `n` bytes of a run. -/
def take
    (n : Nat) : Run → Run
  | zeros m => zeros (min n m)
  | bytes bs => bytes (bs.take n)

/- What follows the first `n` bytes of a run. -/
def drop
    (n : Nat) : Run → Run
  | zeros m => zeros (m - n)
  | bytes bs => bytes (bs.drop n)

@[simp]
theorem length_toBytes
    (r : Run) :
    r.toBytes.length = r.length := by
  cases r <;> simp [toBytes, length]

@[simp]
theorem toBytes_take
    (n : Nat)
    (r : Run) :
    (r.take n).toBytes = r.toBytes.take n := by
  cases r <;> simp [toBytes, take]

@[simp]
theorem toBytes_drop
    (n : Nat)
    (r : Run) :
    (r.drop n).toBytes = r.toBytes.drop n := by
  cases r <;> simp [toBytes, drop]

end Run

end PeerShare

------------------------------------------------------------
-- Rows of Runs
------------------------------------------------------------

namespace PeerShare

namespace Run

/- The bytes of a row of runs. -/
def toBytesAll
    (rs : List Run) : Bytes :=
  rs.flatMap toBytes

/- The number of bytes in a row of runs. -/
def lengthAll
    (rs : List Run) : Nat :=
  rs.foldr (fun r n => r.length + n) 0

/- The first `n` bytes of a row of runs. -/
def takeAll :
    (n : Nat) →
    List Run →
    List Run
  | 0, _ => []
  | _ + 1, [] => []
  | n + 1, r :: rs =>
      if r.length ≤ n + 1 then
        r :: takeAll (n + 1 - r.length) rs
      else [r.take (n + 1)]

/- What follows the first `n` bytes of a row of runs. -/
def dropAll :
    (n : Nat) →
    List Run →
    List Run
  | 0, rs => rs
  | _ + 1, [] => []
  | n + 1, r :: rs =>
      if r.length ≤ n + 1 then
        dropAll (n + 1 - r.length) rs
      else r.drop (n + 1) :: rs

theorem length_toBytesAll
    (rs : List Run) :
    (toBytesAll rs).length = lengthAll rs := by
  induction rs with
  | nil => rfl
  | cons r rs ih =>
      have hCons :
          toBytesAll (r :: rs) = r.toBytes ++ toBytesAll rs :=
        rfl
      rw [hCons, List.length_append, ih, r.length_toBytes]
      rfl

theorem toBytesAll_cons
    (r : Run)
    (rs : List Run) :
    toBytesAll (r :: rs) = r.toBytes ++ toBytesAll rs := rfl

theorem toBytesAll_takeAll
    (n : Nat)
    (rs : List Run) :
    toBytesAll (takeAll n rs) = (toBytesAll rs).take n := by
  fun_induction takeAll n rs with
  | case1 => simp [toBytesAll]
  | case2 => simp [toBytesAll]
  | case3 n r rs h ih =>
      have hWhole : r.toBytes.take (n + 1) = r.toBytes :=
        List.take_of_length_le (by rwa [r.length_toBytes])
      rw [toBytesAll_cons, toBytesAll_cons, ih,
        List.take_append, hWhole, r.length_toBytes]
  | case4 n r rs h =>
      have hLen : n + 1 - r.toBytes.length = 0 := by
        rw [r.length_toBytes]
        omega
      rw [toBytesAll_cons, toBytesAll_cons, List.take_append,
        hLen, r.toBytes_take]
      rfl

theorem toBytesAll_dropAll
    (n : Nat)
    (rs : List Run) :
    toBytesAll (dropAll n rs) = (toBytesAll rs).drop n := by
  fun_induction dropAll n rs with
  | case1 => rfl
  | case2 => simp [toBytesAll]
  | case3 n r rs h ih =>
      have hNone : r.toBytes.drop (n + 1) = [] :=
        List.drop_of_length_le (by rwa [r.length_toBytes])
      rw [toBytesAll_cons, ih, List.drop_append, hNone,
        r.length_toBytes, List.nil_append]
  | case4 n r rs h =>
      have hLen : n + 1 - r.toBytes.length = 0 := by
        rw [r.length_toBytes]
        omega
      rw [toBytesAll_cons, toBytesAll_cons, List.drop_append,
        hLen, r.toBytes_drop, List.drop_zero]

end Run

end PeerShare

------------------------------------------------------------
-- Contents
------------------------------------------------------------

namespace PeerShare

/- The content of a file. -/
structure Content where
  runs : List Run
  deriving DecidableEq

namespace Content

/- The bytes of a content. -/
def toBytes
    (c : Content) : Bytes :=
  Run.toBytesAll c.runs

/- The number of bytes in a content. -/
def length
    (c : Content) : Nat :=
  Run.lengthAll c.runs

/- The content with the given bytes. -/
def ofBytes
    (bs : Bytes) : Content where
  runs := [.bytes bs]

/- The first `n` bytes of a content. -/
def take
    (c : Content)
    (n : Nat) : Content where
  runs := Run.takeAll n c.runs

/- What follows the first `n` bytes of a content. -/
def drop
    (c : Content)
    (n : Nat) : Content where
  runs := Run.dropAll n c.runs

/- One content behind another. -/
def append
    (c d : Content) : Content where
  runs := c.runs ++ d.runs

/- A number of zeros. -/
def zeros
    (n : Nat) : Content where
  runs := [.zeros n]

/- Cut a content, or fill it up with zeros, to length `n`. -/
def resize
    (c : Content)
    (n : Nat) : Content :=
  if n ≤ c.length then c.take n
  else c.append (zeros (n - c.length))

/-
  Put bytes at an offset, in place of what stood there.  A
  content that ends before the offset is filled up with
  zeros first.
-/
def write
    (c : Content)
    (offset : Nat)
    (bs : Bytes) : Content :=
  if bs.isEmpty then c
  else
    let front := c.resize offset
    let back := c.drop (offset + bs.length)
    (front.append (ofBytes bs)).append back

/- The bytes from an offset on, at most `n` of them. -/
def read
    (c : Content)
    (offset n : Nat) : Bytes :=
  ((c.drop offset).take n).toBytes

theorem length_eq
    (c : Content) :
    c.length = c.toBytes.length :=
  (Run.length_toBytesAll c.runs).symm

@[simp]
theorem toBytes_ofBytes
    (bs : Bytes) :
    (ofBytes bs).toBytes = bs := by
  simp [ofBytes, toBytes, Run.toBytesAll, Run.toBytes]

@[simp]
theorem toBytes_zeros
    (n : Nat) :
    (zeros n).toBytes = List.replicate n 0 := by
  simp [zeros, toBytes, Run.toBytesAll, Run.toBytes]

@[simp]
theorem toBytes_take
    (c : Content)
    (n : Nat) :
    (c.take n).toBytes = c.toBytes.take n :=
  Run.toBytesAll_takeAll n c.runs

@[simp]
theorem toBytes_drop
    (c : Content)
    (n : Nat) :
    (c.drop n).toBytes = c.toBytes.drop n :=
  Run.toBytesAll_dropAll n c.runs

@[simp]
theorem toBytes_append
    (c d : Content) :
    (c.append d).toBytes = c.toBytes ++ d.toBytes := by
  simp [append, toBytes, Run.toBytesAll]

/- A resized content is cut or filled up with zeros. -/
theorem toBytes_resize
    (c : Content)
    (n : Nat) :
    (c.resize n).toBytes =
      c.toBytes.take n ++
        List.replicate (n - c.toBytes.length) 0 := by
  rw [resize, length_eq]
  split
  · rename_i h
    rw [toBytes_take, Nat.sub_eq_zero_of_le h]
    simp
  · rename_i h
    rw [toBytes_append, toBytes_zeros,
      List.take_of_length_le (by omega)]

@[simp]
theorem length_toBytes_resize
    (c : Content)
    (n : Nat) :
    (c.resize n).toBytes.length = n := by
  rw [toBytes_resize, List.length_append, List.length_take,
    List.length_replicate]
  omega

/- Reading takes a part of the bytes. -/
theorem read_eq
    (c : Content)
    (offset n : Nat) :
    c.read offset n = (c.toBytes.drop offset).take n := by
  rw [read, toBytes_take, toBytes_drop]

/- Writing within a content replaces a part of the bytes. -/
theorem toBytes_write
    (c : Content)
    {offset : Nat}
    {bs : Bytes}
    (h : offset + bs.length ≤ c.toBytes.length) :
    (c.write offset bs).toBytes =
      c.toBytes.take offset ++ bs ++
        c.toBytes.drop (offset + bs.length) := by
  rw [write]
  split
  · rename_i hEmpty
    have hNil := List.isEmpty_iff.mp hEmpty
    subst hNil
    simp
  · have hFill : offset - c.toBytes.length = 0 := by omega
    simp [toBytes_resize, hFill]

end Content

end PeerShare
