import Mathlib.Data.List.Chain
import PeerShare.Proofs.Wire.Codec

/-
  How payloads are read, access by access.

  A reader takes bytes off the front of its input without a
  look, and breaks when they are not there.  So it asks for
  them first: for a number or a digest, for the bytes of a
  declared length, and once for all items of a table.  It
  notes what it takes, and how many bytes are left at the
  start of each round through a list.

  No reader breaks, whichever lengths and numbers of items
  are declared, and each finds what its layout reads.  Every
  item takes some bytes, so that the bytes that are there,
  and not the declared number, bound the rounds.

  Key definitions include:
    * `Wire.Access`
    * `Wire.Reader`
    * `Wire.Reader.rounds`
    * `Wire.Access.IsSound`
    * `Wire.Reader.Follows`
    * `Wire.Reader.Serves`
    * `Wire.Reader.ReadsWithin`

  Key theorems include:
    * `Wire.Reader.follows_take`
    * `Wire.Reader.Serves.readItems`
    * `Wire.Reader.follows_table`
    * `Wire.Reader.follows_whole`
    * `Wire.reads_within_input`
-/

------------------------------------------------------------
-- Readers
------------------------------------------------------------

namespace PeerShare

namespace Wire

/- What a reader does with its input. -/
inductive Access where
  /- Bytes are taken off the front when so many are left. -/
  | take (size left : Nat)
  /-
    So many items of a field are declared in front of the
    bytes that are left.  For each round the bytes that are
    left at its start are counted.
  -/
  | list
      (field : Field)
      (declared left : Nat)
      (rounds : List Nat)
  deriving DecidableEq

/- Why a reader gives no value. -/
inductive Stop where
  | fault (e : DecodeError)
  /- Bytes were taken that were not there. -/
  | overrun
  deriving DecidableEq

/- What a reader has done, and what came of it. -/
structure Reading
    (α : Type) where
  accesses : List Access
  outcome : Except Stop (α × Bytes)

/- A reader reads a value off the front of its input. -/
abbrev Reader
    (α : Type) :=
  Bytes → Reading α

namespace Reader

variable {α β : Type}

/- Give a value without reading. -/
def give
    (a : α) : Reader α :=
  fun bs => { accesses := [], outcome := .ok (a, bs) }

def refuse
    (e : DecodeError) : Reader α :=
  fun _ => { accesses := [], outcome := .error (.fault e) }

/- Go on with the value that has been read. -/
def andThen
    (r : Reader α)
    (next : α → Reader β) : Reader β :=
  fun bs =>
    match r bs with
    | ⟨accesses, .error stop⟩ => ⟨accesses, .error stop⟩
    | ⟨accesses, .ok (a, rest)⟩ =>
        { accesses := accesses ++ (next a rest).accesses
          outcome := (next a rest).outcome }

/- Ask whether `n` bytes are there for a field. -/
def ask
    (field : Field)
    (n : Nat) : Reader Unit :=
  fun bs =>
    if bs.length < n then
      refuse (.truncated field (n - bs.length)) bs
    else give () bs

/- Take `n` bytes, whether they are there or not. -/
def grab
    (n : Nat) : Reader Bytes :=
  fun bs =>
    { accesses := [.take n bs.length]
      outcome :=
        if bs.length < n then .error .overrun
        else .ok (bs.take n, bs.drop n) }

/- Change the value that has been read. -/
def map
    (f : α → β)
    (r : Reader α) : Reader β :=
  r.andThen fun a => give (f a)

/- Allow some of the values that may be read. -/
def refine
    (into : α → Except DecodeError β)
    (r : Reader α) : Reader β :=
  r.andThen fun a =>
    match into a with
    | .ok b => give b
    | .error e => refuse e

/- One value after another. -/
def seq
    (first : Reader α)
    (second : Reader β) : Reader (α × β) :=
  first.andThen fun a => second.map fun b => (a, b)

/- Take `n` bytes for a field, if they are there. -/
def take
    (field : Field)
    (n : Nat) : Reader Bytes :=
  (ask field n).andThen fun _ => grab n

end Reader

end Wire

end PeerShare

------------------------------------------------------------
-- Fields
------------------------------------------------------------

namespace PeerShare

namespace Wire

namespace Reader

variable {α : Type}

def number
    (field : Field)
    (width : Nat) : Reader Nat :=
  (take field width).map Bytes.toNat

def uint8
    (field : Field) : Reader UInt8 :=
  (number field 1).map UInt8.ofNat

def uint16
    (field : Field) : Reader UInt16 :=
  (number field 2).map UInt16.ofNat

def uint64
    (field : Field) : Reader UInt64 :=
  (number field 8).map UInt64.ofNat

def count
    (field : Field) : Reader Nat :=
  number field 4

/- As many bytes as are declared. -/
def block
    (field : Field) : Reader Bytes :=
  (count field).andThen (take field)

def text
    (field : Field) : Reader String :=
  (block field).refine fun bs =>
    match Utf8.decode bs with
    | .ok s => .ok s
    | .error fault => .error (.malformedText field fault)

def digest
    (field : Field) : Reader Digest :=
  (take field 20).map Digest.ofBytes

/-
  Read a number of items one after another, behind the items
  already read, which stand in reverse order.  The bytes
  that are left are counted whenever an item is begun.
-/
def readItems
    (item : Reader α) :
    (n : Nat) →
    List α →
    Bytes →
    List Nat × Reading (List α)
  | 0, done, bs => ([], give done.reverse bs)
  | n + 1, done, bs =>
      match item bs with
      | ⟨accesses, .error stop⟩ =>
          ([bs.length], ⟨accesses, .error stop⟩)
      | ⟨accesses, .ok (a, rest)⟩ =>
          let (rounds, later) := readItems item n (a :: done) rest
          (bs.length :: rounds,
            { later with accesses := accesses ++ later.accesses })

/- Go through a list of as many items as are declared. -/
def rounds
    (field : Field)
    (item : Reader α)
    (declared : Nat) : Reader (List α) :=
  fun bs =>
    let (rounds, r) := readItems item declared [] bs
    { r with
      accesses :=
        .list field declared bs.length rounds :: r.accesses }

/- A product of words, or the largest word if it is none. -/
def saturatingProduct
    (m n : Nat) : Nat :=
  min (m * n) (2 ^ 64 - 1)

/-
  Items of `width` bytes each.  All of them are asked for at
  once, and then they are read one after another.
-/
def table
    (field : Field)
    (width : Nat)
    (item : Reader α) : Reader (List α) :=
  (count field).andThen fun n =>
    (ask field (saturatingProduct n width)).andThen fun _ =>
      rounds field item n

/- Each digest is asked for once more. -/
def digests
    (field : Field) : Reader (List Digest) :=
  table field 20 (digest field)

/- Chunk numbers are taken without asking again. -/
def indices
    (field : Field) : Reader (List UInt16) :=
  table field 2 ((grab 2).map fun bs => UInt16.ofNat bs.toNat)

/- Items of any length, each of which asks for its own. -/
def list
    (field : Field)
    (item : Reader α) : Reader (List α) :=
  (count field).andThen (rounds field item)

def fileRecord : Reader FileRecord :=
  ((text .name).seq
    ((uint64 .size).seq
      ((digest .fileHash).seq (digests .chunkHashes)))).map
    fun (name, size, digest, chunkDigests) =>
      { name, size, digest, chunkDigests }

def peerEntry : Reader PeerEntry :=
  ((text .peerIdentity).seq
    ((uint16 .peerPort).seq (block .peerBitfield))).map
    fun (identity, port, bitfield) =>
      { identity, port, bitfield }

def tag : Reader Tag :=
  (uint8 .id).refine fun b =>
    match Tag.ofByte? b with
    | some tag => .ok tag
    | none => .error (.unknownTag b)

def successKind : Reader Success :=
  (uint8 .kind).refine fun b =>
    match Success.ofByte? b with
    | some kind => .ok kind
    | none => .error (.unknownSuccess b)

/- Require that nothing is left. -/
def finish : Reader Unit :=
  fun bs =>
    match bs with
    | [] => give () []
    | rest => refuse (.trailing rest.length) rest

/- A tag, the fields that belong to it, and nothing else. -/
def whole
    (fields : Tag → Reader α) : Reader α :=
  tag.andThen fun t =>
    (fields t).andThen fun a =>
      finish.map fun _ => a

end Reader

/- Read the fields of a message with a given tag. -/
def Message.fieldsReader : Tag → Reader Message
  | .init =>
      ((Reader.text .identity).seq (Reader.uint16 .port)).map
        fun (identity, port) => init identity port
  | .publish => Reader.fileRecord.map publish
  | .request => (Reader.text .name).map request
  | .holdings =>
      ((Reader.text .name).seq (Reader.block .bitfield)).map
        fun (name, bitfield) => holdings name bitfield
  | .refresh => (Reader.text .name).map refresh
  | .remove => (Reader.text .name).map remove
  | .success =>
      ((Reader.text .name).seq Reader.successKind).map
        fun (name, kind) => success name kind
  | .alreadyExists => (Reader.text .name).map alreadyExists
  | .notFound => (Reader.text .name).map notFound
  | .answer =>
      (Reader.fileRecord.seq
        (Reader.list .peers Reader.peerEntry)).map
        fun (file, peers) => answer file peers
  | .chunkRequest => Reader.refuse (.wrongChannel .chunkRequest)
  | .chunk => Reader.refuse (.wrongChannel .chunk)

def Message.reader : Reader Message :=
  Reader.whole fieldsReader

/- Read the fields of a datagram with a given tag. -/
def Datagram.fieldsReader : Tag → Reader Datagram
  | .chunkRequest =>
      ((Reader.text .name).seq (Reader.indices .indices)).map
        fun (name, indices) => request name indices
  | .chunk =>
      ((Reader.text .name).seq
        ((Reader.uint16 .index).seq (Reader.block .data))).map
        fun (name, index, data) => chunk name index data
  | tag => Reader.refuse (.wrongChannel tag)

def Datagram.reader : Reader Datagram :=
  Reader.whole fieldsReader

end Wire

end PeerShare

------------------------------------------------------------
-- Sound Accesses
------------------------------------------------------------

namespace PeerShare

namespace Wire

/- The bytes of the shortest item of a list. -/
def Field.leastItem : Field → Nat
  | .peers => 10
  | .chunkHashes => 20
  | .indices => 2
  | _ => 1

theorem Field.leastItem_pos
    (field : Field) :
    0 < field.leastItem := by
  cases field <;> decide

/-
  Whether the rounds through a list are no more than were
  declared, nor more than the bytes allow: one for each
  shortest item, and one that may fail.
-/
structure RunsShort
    (field : Field)
    (declared left : Nat)
    (rounds : List Nat) : Prop where
  length_le_declared : rounds.length ≤ declared
  length_le : rounds.length ≤ left / field.leastItem + 1
  /- Each item that is completed takes its bytes. -/
  isChain :
    rounds.IsChain fun before after =>
      after + field.leastItem ≤ before
  /- The first item is begun with all of them. -/
  head_eq : ∀ first ∈ rounds.head?, first = left

/-
  Whether the bytes that are taken are there, and the rounds
  through a list are few.
-/
def Access.IsSound : Access → Prop
  | .take size left => size ≤ left
  | .list field declared left rounds =>
      RunsShort field declared left rounds

/- What a layout reads, as an outcome of a reader. -/
def Stop.lift
    {α : Type} :
    Except DecodeError α → Except Stop α
  | .error e => .error (.fault e)
  | .ok a => .ok a

variable {α β : Type}

/- Read on behind a value that has been read. -/
def readOn
    (result : Except DecodeError (α × Bytes))
    (next : α → Bytes → Except DecodeError (β × Bytes)) :
    Except DecodeError (β × Bytes) :=
  match result with
  | .error e => .error e
  | .ok (a, rest) => next a rest

theorem mapRead_eq_readOn
    (f : α → β)
    (result : Except DecodeError (α × Bytes)) :
    mapRead f result =
      readOn result fun a rest => .ok (f a, rest) :=
  rfl

/- What is answered to who asks for `n` bytes. -/
def asked
    (field : Field)
    (n : Nat)
    (bs : Bytes) :
    Except DecodeError (Unit × Bytes) :=
  if bs.length < n then
    .error (.truncated field (n - bs.length))
  else .ok ((), bs)

theorem asked_eq_ok_iff
    {field : Field}
    {n : Nat}
    {bs rest : Bytes}
    {u : Unit} :
    asked field n bs = .ok (u, rest) ↔
      n ≤ bs.length ∧ bs = rest := by
  unfold asked
  split
  · rename_i hShort
    simp [Nat.not_le.mpr hShort]
  · rename_i hEnough
    simp [Nat.not_lt.mp hEnough]

theorem take_of_le
    (field : Field)
    {n : Nat}
    {bs : Bytes}
    (h : n ≤ bs.length) :
    take field n bs = .ok (bs.take n, bs.drop n) := by
  unfold take
  rw [Bytes.splitExactly_of_le h]

theorem take_eq_readOn
    (field : Field)
    (n : Nat)
    (bs : Bytes) :
    take field n bs =
      readOn (asked field n bs) fun _ rest =>
        .ok (rest.take n, rest.drop n) := by
  unfold asked
  by_cases hEnough : n ≤ bs.length
  · rw [take_of_le field hEnough,
      if_neg (Nat.not_lt.mpr hEnough)]
    rfl
  · have hShort := Nat.lt_of_not_le hEnough
    unfold take
    rw [Bytes.splitExactly_of_lt hShort, if_pos hShort]
    rfl

namespace Layout

variable (first : Layout α)
variable (second : Layout β)

theorem read_convert
    (into : α → β)
    (back : β → α)
    (bs : Bytes) :
    (first.convert into back).read bs =
      mapRead into (first.read bs) :=
  rfl

theorem read_refine
    (into : α → Except DecodeError β)
    (back : β → α)
    (bs : Bytes) :
    (first.refine into back).read bs =
      readOn (first.read bs) fun a rest =>
        match into a with
        | .error e => .error e
        | .ok b => .ok (b, rest) :=
  rfl

theorem read_seq
    (bs : Bytes) :
    (first.seq second).read bs =
      readOn (first.read bs) fun a rest =>
        mapRead (fun b => (a, b)) (second.read rest) :=
  rfl

theorem read_number
    (field : Field)
    (width : Nat)
    (bs : Bytes) :
    (number field width).read bs =
      mapRead Bytes.toNat (take field width bs) := by
  dsimp only [number]
  cases take field width bs <;> rfl

theorem read_digest
    (field : Field)
    (bs : Bytes) :
    (digest field).read bs =
      mapRead Digest.ofBytes (take field 20 bs) := by
  dsimp only [digest]
  cases take field 20 bs <;> rfl

theorem read_block
    (field : Field)
    (bs : Bytes) :
    (block field).read bs =
      readOn ((count field).read bs) (take field) := by
  dsimp only [block]
  cases (count field).read bs <;> rfl

theorem read_list
    (field : Field)
    (item : Layout α)
    (bs : Bytes) :
    (list field item).read bs =
      readOn ((count field).read bs) fun n =>
        readItems item n [] := by
  dsimp only [list]
  cases (count field).read bs <;> rfl

theorem read_table
    (field : Field)
    (width : Nat)
    (write : α → Bytes)
    (value : Bytes → α)
    (bs : Bytes) :
    (table field width write value).read bs =
      readOn ((count field).read bs) fun n rest =>
        readOn (asked field (n * width) rest) fun _ rest =>
          .ok
            ((Bytes.pieces n width
                (rest.take (n * width))).map value,
              rest.drop (n * width)) := by
  dsimp only [table]
  rcases (count field).read bs with e | ⟨n, rest⟩
  · rfl
  · dsimp only [readOn]
    rw [take_eq_readOn]
    cases asked field (n * width) rest <;> rfl

end Layout

/-
  Whether a reader has done nothing but sound accesses and
  has found what a layout reads.
-/
structure Reading.Finds
    (reading : Reading α)
    (result : Except DecodeError (α × Bytes)) : Prop where
  outcome_eq : reading.outcome = Stop.lift result
  isSound : ∀ access ∈ reading.accesses, access.IsSound

/- Whether a reader finds what a layout reads of any bytes. -/
def Reader.Follows
    (r : Reader α)
    (read : Bytes → Except DecodeError (α × Bytes)) : Prop :=
  ∀ bs, (r bs).Finds (read bs)

namespace Reader

variable {r : Reader α}
variable {next : α → Reader β}
variable {read : Bytes → Except DecodeError (α × Bytes)}
variable
  {readNext : α → Bytes → Except DecodeError (β × Bytes)}
variable {first : Layout α}
variable {second : Layout β}

theorem finds_give
    (a : α)
    (bs : Bytes) :
    (give a bs).Finds (.ok (a, bs)) :=
  ⟨rfl, by simp [give]⟩

theorem finds_refuse
    (e : DecodeError)
    (bs : Bytes) :
    (refuse (α := α) e bs).Finds (.error e) :=
  ⟨rfl, by simp [refuse]⟩

/- Who goes on with what was found finds what comes next. -/
theorem finds_andThen
    {bs : Bytes}
    {result : Except DecodeError (α × Bytes)}
    (h : (r bs).Finds result)
    (hNext :
      ∀ a rest,
        result = .ok (a, rest) →
          (next a rest).Finds (readNext a rest)) :
    (r.andThen next bs).Finds (readOn result readNext) := by
  rcases h with ⟨hOutcome, hSound⟩
  unfold andThen
  generalize r bs = reading at hOutcome hSound ⊢
  rcases reading with ⟨accesses, outcome⟩
  rcases result with e | ⟨a, rest⟩
  · cases hOutcome
    exact ⟨rfl, hSound⟩
  · cases hOutcome
    have hLater := hNext a rest rfl
    exact ⟨hLater.outcome_eq,
      List.forall_mem_append.mpr ⟨hSound, hLater.isSound⟩⟩

theorem Follows.andThen
    (h : r.Follows read)
    (hNext : ∀ a, (next a).Follows (readNext a)) :
    (r.andThen next).Follows fun bs =>
      readOn (read bs) readNext :=
  fun bs => finds_andThen (h bs) fun a rest _ => hNext a rest

theorem Follows.map
    (h : r.Follows read)
    (f : α → β) :
    (r.map f).Follows fun bs => mapRead f (read bs) := by
  intro bs
  dsimp only
  rw [mapRead_eq_readOn]
  exact h.andThen (fun a => finds_give (f a)) bs

theorem Follows.convert
    (h : r.Follows first.read)
    (into : α → β)
    (back : β → α) :
    (r.map into).Follows (first.convert into back).read := by
  intro bs
  rw [Layout.read_convert]
  exact h.map into bs

theorem Follows.refine
    (h : r.Follows first.read)
    (into : α → Except DecodeError β)
    (back : β → α) :
    (Reader.refine into r).Follows
      (first.refine into back).read := by
  intro bs
  rw [Layout.read_refine]
  refine h.andThen (fun a rest => ?_) bs
  cases into a with
  | error e => exact finds_refuse e rest
  | ok b => exact finds_give b rest

theorem Follows.seq
    {r' : Reader β}
    (h : r.Follows first.read)
    (h' : r'.Follows second.read) :
    (r.seq r').Follows (first.seq second).read := by
  intro bs
  rw [Layout.read_seq]
  exact h.andThen (fun a => h'.map fun b => (a, b)) bs

end Reader

end Wire

end PeerShare

------------------------------------------------------------
-- Readers Follow Layouts
------------------------------------------------------------

namespace PeerShare

namespace Wire

namespace Reader

variable {α : Type}

theorem finds_ask
    (field : Field)
    (n : Nat)
    (bs : Bytes) :
    (ask field n bs).Finds (asked field n bs) := by
  unfold ask asked
  split
  · exact finds_refuse _ bs
  · exact finds_give () bs

/- Bytes that are there may be taken. -/
theorem finds_grab
    {n : Nat}
    {bs : Bytes}
    (h : n ≤ bs.length) :
    (grab n bs).Finds (.ok (bs.take n, bs.drop n)) := by
  constructor
  · unfold grab
    rw [if_neg (Nat.not_lt.mpr h)]
    rfl
  · simpa [grab, Access.IsSound] using h

/- Who asks first never takes too many. -/
theorem follows_take
    (field : Field)
    (n : Nat) :
    (take field n).Follows (Wire.take field n) := by
  intro bs
  rw [take_eq_readOn]
  refine finds_andThen (finds_ask field n bs) ?_
  intro a rest hAsked
  rcases asked_eq_ok_iff.mp hAsked with ⟨hEnough, rfl⟩
  exact finds_grab hEnough

theorem follows_number
    (field : Field)
    (width : Nat) :
    (number field width).Follows
      (Layout.number field width).read := by
  intro bs
  rw [Layout.read_number]
  exact (follows_take field width).map Bytes.toNat bs

theorem follows_uint8
    (field : Field) :
    (uint8 field).Follows (Layout.uint8 field).read :=
  (follows_number field 1).convert _ _

theorem follows_uint16
    (field : Field) :
    (uint16 field).Follows (Layout.uint16 field).read :=
  (follows_number field 2).convert _ _

theorem follows_uint64
    (field : Field) :
    (uint64 field).Follows (Layout.uint64 field).read :=
  (follows_number field 8).convert _ _

theorem follows_count
    (field : Field) :
    (count field).Follows (Layout.count field).read :=
  follows_number field 4

theorem follows_block
    (field : Field) :
    (block field).Follows (Layout.block field).read := by
  intro bs
  rw [Layout.read_block]
  exact (follows_count field).andThen (follows_take field) bs

theorem follows_text
    (field : Field) :
    (text field).Follows (Layout.text field).read :=
  (follows_block field).refine _ _

theorem follows_digest
    (field : Field) :
    (digest field).Follows (Layout.digest field).read := by
  intro bs
  rw [Layout.read_digest]
  exact (follows_take field 20).map Digest.ofBytes bs

end Reader

end Wire

end PeerShare

------------------------------------------------------------
-- Lists
------------------------------------------------------------

namespace PeerShare

namespace Wire

variable {α : Type}
variable {field : Field}
variable {n left rest : Nat}
variable {lefts : List Nat}

theorem runsShort_nil
    (field : Field)
    (left : Nat) :
    RunsShort field 0 left [] where
  length_le_declared := Nat.le_refl 0
  length_le := Nat.zero_le _
  isChain := .nil
  head_eq := by simp

/- The last round may fail. -/
theorem runsShort_singleton
    (field : Field)
    (n left : Nat) :
    RunsShort field (n + 1) left [left] where
  length_le_declared := Nat.succ_le_succ (Nat.zero_le n)
  length_le := Nat.succ_le_succ (Nat.zero_le _)
  isChain := .singleton left
  head_eq := by simp

/- A round that takes its item leaves less to the others. -/
theorem RunsShort.cons
    (h : RunsShort field n rest lefts)
    (hTakes : rest + field.leastItem ≤ left) :
    RunsShort field (n + 1) left (left :: lefts) where
  length_le_declared := Nat.succ_le_succ h.length_le_declared
  length_le := by
    have hStep : rest / field.leastItem + 1 ≤
        left / field.leastItem := by
      rw [← Nat.add_div_right rest field.leastItem_pos]
      exact Nat.div_le_div_right hTakes
    exact Nat.succ_le_succ (h.length_le.trans hStep)
  isChain := by
    refine List.isChain_cons.mpr ⟨?_, h.isChain⟩
    intro second hSecond
    rw [h.head_eq second hSecond]
    exact hTakes
  head_eq := by simp

namespace Layout

/- Whether a layout takes the bytes of an item of a list. -/
def TakesItem
    (cell : Layout α)
    (field : Field) : Prop :=
  ∀ bs a rest,
    cell.read bs = .ok (a, rest) →
      rest.length + field.leastItem ≤ bs.length

/- An exact layout takes what it writes. -/
theorem IsExact.takesItem
    {cell : Layout α}
    {Fits : α → Prop}
    (h : cell.IsExact Fits)
    (hLeast :
      ∀ a, field.leastItem ≤ (cell.write a).length) :
    cell.TakesItem field := by
  intro bs a rest hRead
  have hWritten := (h.of_read bs a rest hRead).2
  have hItem := hLeast a
  rw [← hWritten, List.length_append]
  omega

theorem takesItem_peerEntry :
    peerEntry.TakesItem .peers := by
  apply isExact_peerEntry.takesItem
  intro entry
  simp only [Field.leastItem, peerEntry, convert, seq, text,
    refine, block, uint16, count, number, List.length_append,
    Bytes.length_ofNat]
  omega

theorem takesItem_digest
    (field : Field) :
    (digest field).TakesItem .chunkHashes := by
  apply (isExact_digest field).takesItem
  intro d
  exact Nat.le_of_eq d.length_bytes.symm

theorem takesItem_uint16
    (field : Field) :
    (uint16 field).TakesItem .indices := by
  apply (isExact_uint16 field).takesItem
  intro i
  exact Nat.le_of_eq (Bytes.length_ofNat 2 i.toNat).symm

end Layout

namespace Reader

/-
  Whether a reader follows a layout item by item, as long as
  there is enough for so many items.
-/
structure Serves
    (item : Reader α)
    (cell : Layout α)
    (Enough : Nat → Bytes → Prop) : Prop where
  finds :
    ∀ n bs, Enough (n + 1) bs → (item bs).Finds (cell.read bs)
  /- Every item leaves enough for those behind it. -/
  leaves :
    ∀ n bs a rest,
      Enough (n + 1) bs →
        cell.read bs = .ok (a, rest) → Enough n rest

variable {item : Reader α}
variable {cell : Layout α}
variable {Enough : Nat → Bytes → Prop}

theorem Follows.serves
    (h : item.Follows cell.read) :
    item.Serves cell fun _ _ => True where
  finds _ bs _ := h bs
  leaves _ _ _ _ _ _ := trivial

/- The items of a list are found in few rounds. -/
theorem Serves.readItems
    (h : item.Serves cell Enough)
    (hTakes : cell.TakesItem field)
    {bs : Bytes}
    (hEnough : Enough n bs)
    (done : List α) :
    (readItems item n done bs).2.Finds
        (Layout.readItems cell n done bs) ∧
      RunsShort field n bs.length
        (readItems item n done bs).1 := by
  induction n generalizing done bs with
  | zero => exact ⟨finds_give _ bs, runsShort_nil field _⟩
  | succ n ih =>
      rcases h.finds n bs hEnough with ⟨hOutcome, hSound⟩
      unfold Reader.readItems Layout.readItems
      generalize item bs = reading at hOutcome hSound ⊢
      rcases reading with ⟨accesses, outcome⟩
      dsimp only at hOutcome hSound
      cases hRead : cell.read bs with
      | error e =>
          rw [hRead] at hOutcome
          cases hOutcome
          exact ⟨⟨rfl, hSound⟩, runsShort_singleton field n _⟩
      | ok result =>
          rcases result with ⟨a, rest⟩
          rw [hRead] at hOutcome
          cases hOutcome
          rcases ih (h.leaves n bs a rest hEnough hRead)
              (a :: done) with
            ⟨hFinds, hRuns⟩
          refine ⟨⟨hFinds.outcome_eq, ?_⟩,
            hRuns.cons (hTakes bs a rest hRead)⟩
          exact List.forall_mem_append.mpr
            ⟨hSound, hFinds.isSound⟩

theorem Serves.rounds
    (h : item.Serves cell Enough)
    (hTakes : cell.TakesItem field)
    {bs : Bytes}
    (hEnough : Enough n bs) :
    (rounds field item n bs).Finds
      (Layout.readItems cell n [] bs) := by
  rcases h.readItems hTakes hEnough [] with
    ⟨hFinds, hRuns⟩
  exact ⟨hFinds.outcome_eq,
    List.forall_mem_cons.mpr ⟨hRuns, hFinds.isSound⟩⟩

/- Items that follow a layout are found one by one. -/
theorem follows_list
    (hItem : item.Follows cell.read)
    (hTakes : cell.TakesItem field) :
    (list field item).Follows (Layout.list field cell).read := by
  intro bs
  rw [Layout.read_list]
  exact (follows_count field).andThen
    (fun _ _ => hItem.serves.rounds hTakes trivial) bs

end Reader

end Wire

end PeerShare

------------------------------------------------------------
-- Tables
------------------------------------------------------------

namespace PeerShare

/- Bytes behind the last piece are no matter. -/
theorem Bytes.pieces_take
    (n width : Nat)
    (bs : Bytes) :
    pieces n width (bs.take (n * width)) =
      pieces n width bs := by
  induction n generalizing bs with
  | zero => rfl
  | succ n ih =>
      have hFront :
          (bs.take ((n + 1) * width)).take width =
            bs.take width := by
        rw [List.take_take, Nat.succ_mul,
          Nat.min_eq_left (Nat.le_add_left _ _)]
      have hBack :
          (bs.take ((n + 1) * width)).drop width =
            (bs.drop width).take (n * width) := by
        rw [List.drop_take, Nat.succ_mul, Nat.add_sub_cancel]
      rw [pieces_succ, pieces_succ, hFront, hBack, ih]

namespace Wire

variable {α : Type}
variable {field : Field}

/- Whether a layout reads values of one width. -/
def Layout.HasWidth
    (cell : Layout α)
    (width : Nat)
    (value : Bytes → α) : Prop :=
  ∀ bs : Bytes,
    width ≤ bs.length →
      cell.read bs = .ok (value (bs.take width), bs.drop width)

/- Items of one width are read as they are cut. -/
theorem Layout.readItems_of_hasWidth
    {cell : Layout α}
    {width : Nat}
    {value : Bytes → α}
    (h : cell.HasWidth width value)
    {n : Nat}
    {bs : Bytes}
    (hEnough : n * width ≤ bs.length)
    (done : List α) :
    readItems cell n done bs =
      .ok
        (done.reverse ++ (Bytes.pieces n width bs).map value,
          bs.drop (n * width)) := by
  induction n generalizing bs done with
  | zero => simp [readItems]
  | succ n ih =>
      rw [Nat.succ_mul] at hEnough
      have hLater : n * width ≤ (bs.drop width).length := by
        rw [List.length_drop]
        omega
      unfold readItems
      rw [h bs (by omega)]
      dsimp only
      rw [ih hLater, Bytes.pieces_succ, List.drop_drop,
        Nat.succ_mul, Nat.add_comm width]
      simp

namespace Layout

theorem hasWidth_digest
    (field : Field) :
    (digest field).HasWidth 20 Digest.ofBytes := by
  intro bs h
  rw [read_digest, take_of_le field h]
  rfl

theorem hasWidth_uint16
    (field : Field) :
    (uint16 field).HasWidth 2
      fun bs => UInt16.ofNat bs.toNat := by
  intro bs h
  unfold uint16
  rw [read_convert, read_number, take_of_le field h]
  rfl

end Layout

namespace Reader

/- A product that fits into a word is exact. -/
theorem saturatingProduct_eq
    {m n : Nat}
    (h : m * n < 2 ^ 64) :
    saturatingProduct m n = m * n :=
  Nat.min_eq_left (Nat.le_sub_one_of_lt h)

variable {item : Reader α}
variable {cell : Layout α}
variable {width : Nat}
variable {value : Bytes → α}

/- Who has asked for all items takes them one by one. -/
theorem serves_of_hasWidth
    (hWidth : cell.HasWidth width value)
    (hItem :
      ∀ bs : Bytes,
        width ≤ bs.length → (item bs).Finds (cell.read bs)) :
    item.Serves cell fun n bs => n * width ≤ bs.length where
  finds n bs hEnough := by
    rw [Nat.succ_mul] at hEnough
    exact hItem bs (by omega)
  leaves n bs a rest hEnough hRead := by
    rw [Nat.succ_mul] at hEnough
    rw [hWidth bs (by omega)] at hRead
    cases hRead
    rw [List.length_drop]
    omega

/-
  Items of one width are found in a table.  Their number has
  four bytes, so that the product of number and width is no
  larger than a word.
-/
theorem follows_table
    (hWidth : cell.HasWidth width value)
    (hItem :
      ∀ bs : Bytes,
        width ≤ bs.length → (item bs).Finds (cell.read bs))
    (hTakes : cell.TakesItem field)
    (hSmall : width ≤ 2 ^ 32)
    (write : α → Bytes) :
    (table field width item).Follows
      (Layout.table field width write value).read := by
  intro bs
  rw [Layout.read_table]
  refine finds_andThen (follows_count field bs) ?_
  intro n rest hCount
  have hDeclared : n < 2 ^ 32 :=
    ((Layout.isExact_count field).of_read bs n rest hCount).1
  have hProduct : n * width < 2 ^ 64 :=
    calc
      n * width ≤ n * 2 ^ 32 := Nat.mul_le_mul_left n hSmall
      _ < 2 ^ 32 * 2 ^ 32 :=
        Nat.mul_lt_mul_of_pos_right hDeclared (by decide)
      _ = 2 ^ 64 := by decide
  rw [saturatingProduct_eq hProduct]
  refine finds_andThen (finds_ask field (n * width) rest) ?_
  intro _ rest' hAsked
  rcases asked_eq_ok_iff.mp hAsked with ⟨hEnough, rfl⟩
  have hFinds :=
    (serves_of_hasWidth hWidth hItem).rounds hTakes hEnough
  rw [Layout.readItems_of_hasWidth hWidth hEnough] at hFinds
  rw [Bytes.pieces_take]
  exact hFinds

theorem follows_digests :
    (digests .chunkHashes).Follows
      (Layout.digests .chunkHashes).read :=
  follows_table (Layout.hasWidth_digest .chunkHashes)
    (fun bs _ => follows_digest .chunkHashes bs)
    (Layout.takesItem_digest .chunkHashes) (by decide) _

/- Chunk numbers need no further question. -/
theorem follows_indices :
    (indices .indices).Follows
      (Layout.indices .indices).read := by
  have hWidth := Layout.hasWidth_uint16 .indices
  refine follows_table hWidth ?_
    (Layout.takesItem_uint16 .indices) (by decide) _
  intro bs hEnough
  rw [hWidth bs hEnough]
  exact finds_andThen (finds_grab hEnough)
    fun _ rest _ => finds_give _ rest

theorem follows_fileRecord :
    fileRecord.Follows Layout.fileRecord.read :=
  ((follows_text .name).seq
    ((follows_uint64 .size).seq
      ((follows_digest .fileHash).seq
        follows_digests))).convert _ _

theorem follows_peerEntry :
    peerEntry.Follows Layout.peerEntry.read :=
  ((follows_text .peerIdentity).seq
    ((follows_uint16 .peerPort).seq
      (follows_block .peerBitfield))).convert _ _

theorem follows_peers :
    (list .peers peerEntry).Follows
      (Layout.list .peers Layout.peerEntry).read :=
  follows_list follows_peerEntry Layout.takesItem_peerEntry

theorem follows_tag :
    tag.Follows readTag :=
  (follows_uint8 .id).refine _ _

theorem follows_successKind :
    successKind.Follows Layout.successKind.read :=
  (follows_uint8 .kind).refine _ _

end Reader

end Wire

end PeerShare

------------------------------------------------------------
-- Messages and Datagrams
------------------------------------------------------------

namespace PeerShare

namespace Wire

variable {α : Type}

open Reader

theorem Message.follows_fieldsReader
    (tag : Tag) :
    (fieldsReader tag).Follows (readFields tag) := by
  have hName := follows_text .name
  cases tag with
  | init =>
      exact ((follows_text .identity).seq
        (follows_uint16 .port)).map _
  | publish => exact follows_fileRecord.map publish
  | request => exact hName.map request
  | holdings => exact (hName.seq (follows_block .bitfield)).map _
  | refresh => exact hName.map refresh
  | remove => exact hName.map remove
  | success => exact (hName.seq follows_successKind).map _
  | alreadyExists => exact hName.map alreadyExists
  | notFound => exact hName.map notFound
  | answer => exact (follows_fileRecord.seq follows_peers).map _
  | chunkRequest => exact finds_refuse _
  | chunk => exact finds_refuse _

theorem Datagram.follows_fieldsReader
    (tag : Tag) :
    (fieldsReader tag).Follows (readFields tag) := by
  have hName := follows_text .name
  cases tag with
  | chunkRequest => exact (hName.seq follows_indices).map _
  | chunk =>
      exact (hName.seq
        ((follows_uint16 .index).seq (follows_block .data))).map _
  | _ => exact finds_refuse _

/- What is decoded, with nothing left behind it. -/
def consumed :
    Except DecodeError α →
    Except DecodeError (α × Bytes)
  | .error e => .error e
  | .ok a => .ok (a, [])

/- Nothing may be left behind a value. -/
theorem Reader.follows_finish
    (a : α) :
    (finish.map fun _ => a).Follows fun bs =>
      consumed (Wire.finish (.ok (a, bs))) := by
  intro bs
  cases bs with
  | nil => exact ⟨rfl, by simp [map, andThen, finish, give]⟩
  | cons b bs =>
      exact ⟨rfl, by simp [map, andThen, finish, refuse]⟩

/- Who reads the fields of every tag reads the whole. -/
theorem Reader.follows_whole
    {fields : Tag → Reader α}
    {read : Tag → Bytes → Except DecodeError (α × Bytes)}
    (h : ∀ tag, (fields tag).Follows (read tag)) :
    (whole fields).Follows fun bs =>
      consumed
        (match readTag bs with
        | .error e => .error e
        | .ok (tag, rest) => Wire.finish (read tag rest)) := by
  intro bs
  have hResult :
      consumed
          (match readTag bs with
          | .error e => .error e
          | .ok (tag, rest) => Wire.finish (read tag rest)) =
        readOn (readTag bs) fun tag rest =>
          readOn (read tag rest) fun a rest =>
            consumed (Wire.finish (.ok (a, rest))) := by
    rcases readTag bs with e | ⟨tag, rest⟩
    · rfl
    · dsimp only [readOn]
      cases read tag rest <;> rfl
  dsimp only
  rw [hResult]
  exact follows_tag.andThen
    (fun tag => (h tag).andThen fun a => follows_finish a) bs

/-
  Whether a reader decodes a byte string, takes bytes only
  where they are, and runs through lists for as long as the
  bytes allow.
-/
structure Reader.ReadsWithin
    (r : Reader α)
    (decode : Bytes → Except DecodeError α)
    (bs : Bytes) : Prop where
  outcome_eq :
    (r bs).outcome = Stop.lift (consumed (decode bs))
  size_le_left :
    ∀ size left,
      .take size left ∈ (r bs).accesses → size ≤ left
  runsShort :
    ∀ field declared left rounds,
      .list field declared left rounds ∈ (r bs).accesses →
        RunsShort field declared left rounds

theorem Reader.Follows.readsWithin
    {r : Reader α}
    {decode : Bytes → Except DecodeError α}
    (h : r.Follows fun bs => consumed (decode bs))
    (bs : Bytes) :
    r.ReadsWithin decode bs where
  outcome_eq := (h bs).outcome_eq
  size_le_left _ _ hTake := (h bs).isSound _ hTake
  runsShort _ _ _ _ hList := (h bs).isSound _ hList

end Wire

end PeerShare

------------------------------------------------------------
-- Runs Through the Peers of an Answer
------------------------------------------------------------

namespace PeerShare

namespace Wire

namespace Reader

variable {α β : Type}
variable {r : Reader α}
variable {next : α → Reader β}
variable {bs rest : Bytes}
variable {a : α}

/- What is done first stays done. -/
theorem accesses_subset_andThen :
    (r bs).accesses ⊆ (r.andThen next bs).accesses := by
  unfold andThen
  rcases r bs with ⟨accesses, stop | ⟨a, rest⟩⟩
  · exact List.Subset.refl accesses
  · exact List.subset_append_left accesses _

/- What is done behind a value that was read is done. -/
theorem accesses_next_subset_andThen
    (h : (r bs).outcome = .ok (a, rest)) :
    (next a rest).accesses ⊆ (r.andThen next bs).accesses := by
  unfold andThen
  generalize r bs = reading at h ⊢
  rcases reading with ⟨accesses, outcome⟩
  cases h
  exact List.subset_append_right accesses _

theorem Follows.outcome_of_read
    {read : Bytes → Except DecodeError (α × Bytes)}
    (h : r.Follows read)
    (hRead : read bs = .ok (a, rest)) :
    (r bs).outcome = .ok (a, rest) := by
  rw [(h bs).outcome_eq, hRead]
  rfl

end Reader

theorem Reader.accesses_subset_map
    {r : Reader α}
    (f : α → β)
    (bs : Bytes) :
    (r bs).accesses ⊆ (r.map f bs).accesses :=
  accesses_subset_andThen

theorem Reader.accesses_subset_seq
    {first : Reader α}
    {second : Reader β}
    {bs rest : Bytes}
    {a : α}
    (h : (first bs).outcome = .ok (a, rest)) :
    (second rest).accesses ⊆ (first.seq second bs).accesses := by
  intro access hAccess
  apply accesses_next_subset_andThen h
  exact accesses_subset_map _ rest hAccess

theorem Reader.accesses_subset_whole
    (fields : Tag → Reader α)
    {bs rest : Bytes}
    {t : Tag}
    (h : readTag bs = .ok (t, rest)) :
    (fields t rest).accesses ⊆ (whole fields bs).accesses := by
  intro access hAccess
  apply accesses_next_subset_andThen
    (follows_tag.outcome_of_read h)
  exact accesses_subset_andThen hAccess

/- Whatever follows, a list is run through. -/
theorem Reader.exists_rounds_list
    (field : Field)
    (item : Reader α)
    {declared : Nat}
    (h : declared < 2 ^ 32)
    (rest : Bytes) :
    ∃ rounds,
      .list field declared rest.length rounds ∈
        (list field item
          ((Layout.count field).write declared ++
            rest)).accesses := by
  have hCount := (follows_count field).outcome_of_read
    ((Layout.isExact_count field).read_write declared rest h)
  have hRounds :
      .list field declared rest.length
          (readItems item declared [] rest).1 ∈
        (rounds field item declared rest).accesses :=
    List.mem_cons_self
  exact ⟨_, accesses_next_subset_andThen hCount hRounds⟩

/- The bytes of an answer up to the peers it declares. -/
def Message.announcement
    (file : FileRecord)
    (declared : Nat) : Bytes :=
  Tag.answer.toByte ::
    (Layout.fileRecord.write file ++
      (Layout.count .peers).write declared)

theorem Message.exists_rounds_announcement
    {file : FileRecord}
    {declared : Nat}
    (hFile : file.Fits)
    (hDeclared : declared < 2 ^ 32)
    (rest : Bytes) :
    ∃ rounds,
      .list .peers declared rest.length rounds ∈
        (reader (announcement file declared ++ rest)).accesses := by
  rcases Reader.exists_rounds_list .peers Reader.peerEntry
      hDeclared rest with
    ⟨rounds, hPeers⟩
  generalize hList :
    (Layout.count .peers).write declared ++ rest = peers
    at hPeers
  have hRecord := Reader.follows_fileRecord.outcome_of_read
    (Layout.isExact_fileRecord.read_write file peers hFile)
  have hBytes :
      announcement file declared ++ rest =
        Tag.answer.toByte ::
          (Layout.fileRecord.write file ++ peers) := by
    simp [announcement, ← hList]
  refine Exists.intro rounds ?_
  unfold reader
  apply Reader.accesses_subset_whole fieldsReader
    (readTag_eq_ok_iff.mpr hBytes.symm)
  unfold fieldsReader
  apply Reader.accesses_subset_map
  exact Reader.accesses_subset_seq hRecord hPeers

/-
  No count that is declared drives a decoder past its input.
  The run through the peers of an answer is bounded by what
  is left behind their number.
-/
theorem reads_within_input :
    (∀ bs, Message.reader.ReadsWithin Message.decode bs) ∧
      (∀ bs, Datagram.reader.ReadsWithin Datagram.decode bs) ∧
        ∀ (file : FileRecord) (declared : Nat) (rest : Bytes),
          file.Fits →
            declared < 2 ^ 32 →
              ∃ rounds,
                .list .peers declared rest.length rounds ∈
                    (Message.reader
                      (Message.announcement file declared ++
                        rest)).accesses ∧
                  rounds.length ≤ rest.length / 10 + 1 := by
  have hMessage (bs : Bytes) :
      Message.reader.ReadsWithin Message.decode bs :=
    (Reader.follows_whole
      Message.follows_fieldsReader).readsWithin bs
  have hDatagram (bs : Bytes) :
      Datagram.reader.ReadsWithin Datagram.decode bs :=
    (Reader.follows_whole
      Datagram.follows_fieldsReader).readsWithin bs
  refine ⟨hMessage, hDatagram, ?_⟩
  intro file declared rest hFile hDeclared
  rcases Message.exists_rounds_announcement hFile hDeclared
      rest with
    ⟨rounds, hRounds⟩
  have hShort := (hMessage _).runsShort _ _ _ _ hRounds
  exact ⟨rounds, hRounds, hShort.length_le⟩

/-
  An answer declares as many peers as it can, in front of
  one that is there and half of a length.
-/
theorem reads_within_input_of_largest_count :
    let digest := Digest.ofBytes [7]
    let file : FileRecord := ⟨"a", 1, digest, [digest]⟩
    let rest : Bytes := [0, 0, 0, 0, 1, 0, 0, 0, 0, 0, 5, 0]
    let bs := Message.announcement file (2 ^ 32 - 1) ++ rest
    (file.Fits ∧ 2 ^ 32 - 1 < 2 ^ 32) ∧
      (∃ rounds,
        .list .peers (2 ^ 32 - 1) rest.length rounds ∈
            (Message.reader bs).accesses ∧
          rounds.length ≤ rest.length / 10 + 1) ∧
      .list .peers (2 ^ 32 - 1) rest.length [12, 2] ∈
        (Message.reader bs).accesses ∧
      Message.decode bs =
        .error (.truncated .peerIdentity 2) := by
  intro digest file rest bs
  have hFits : file.Fits := by
    constructor
    · unfold Layout.FitsText
      decide +kernel
    · decide
  refine ⟨⟨hFits, by decide⟩, ?_, ?_, ?_⟩
  · exact reads_within_input.2.2 file _ rest hFits (by decide)
  · decide +kernel
  · decide +kernel

end Wire

end PeerShare
