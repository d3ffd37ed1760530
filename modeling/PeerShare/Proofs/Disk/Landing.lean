import Mathlib.Data.List.Induction
import Mathlib.Data.List.Perm.Basic
import PeerShare.Proofs.Disk.Writing

/-
  What a file holds when its writer has stopped.

  Chunks are handed to a writer while its workers are at
  work.  A worker may have written a first part of a chunk
  that still counts as waiting, and the chunks are done in
  any order.  Every chunk that was taken lands in its place,
  its number is told once, and all other bytes are those
  that the file had before, or zero.

  Key definitions include:
    * `Disk.bytesAt`
    * `Writing`
    * `Writing.Event`
    * `Writing.after`
    * `Writing.run`
    * `Writing.taken`
    * `Writing.Stops`
    * `Writing.stop`
    * `Writing.Lands`
    * `Writing.Judges`
    * `Writing.Landed`

  Key theorems include:
    * `ChunkWriter.bytesAt_create`
    * `Writing.Lands.after`
    * `Writing.lands_run`
    * `Writing.stops_stop`
    * `Writing.chunks_land`
-/

------------------------------------------------------------
-- Earlier Bytes
------------------------------------------------------------

namespace PeerShare

namespace Disk

/- The bytes of the file at a place, if there is one. -/
def bytesAt
    (disk : Disk)
    (p : Place) : Bytes :=
  match disk.at? p with
  | some (.file _ content) => content.toBytes
  | _ => []

variable {disk disk' : Disk}
variable {path : String}

theorem bytesAt_of_at?
    {p : Place}
    {serial : Nat}
    {content : Content}
    (h : disk.at? p = some (.file serial content)) :
    disk.bytesAt p = content.toBytes := by
  unfold bytesAt
  rw [h]

/- Where no file changes, no bytes change. -/
theorem bytesAt_of_changesOnly
    {way : Place → Prop}
    (h : disk.ChangesOnly disk' way fun _ => False)
    (p : Place) :
    disk'.bytesAt p = disk.bytesAt p := by
  have hTurns := h p
  unfold bytesAt
  generalize disk.at? p = e at hTurns ⊢
  generalize disk'.at? p = e' at hTurns ⊢
  cases hTurns with
  | stay => rfl
  | makeDirectory => rfl
  | openFile hNever => exact hNever.elim

theorem bytesAt_makeParents
    (disk : Disk)
    (path : String)
    (p : Place) :
    (disk.makeParents path).2.bytesAt p = disk.bytesAt p :=
  bytesAt_of_changesOnly
    (disk.makeParents_changesOnly path fun _ => False) p

/- A file that is missing is made without bytes. -/
theorem bytesAt_openFile
    {file : FileId}
    (h : disk.openFile path = .ok (file, disk'))
    (p : Place) :
    disk'.bytesAt p = disk.bytesAt p := by
  rcases openFile_cases h with
    ⟨-, -, ⟨content, -, rfl⟩ | ⟨hNone, rfl⟩⟩
  · rfl
  · let made : Entry :=
      .file file.serial (Content.ofBytes [])
    have hMade :
        (disk.set file.place made).bytesAt p =
          disk.bytesAt p := by
      unfold bytesAt
      by_cases hPlace : p = file.place
      · rw [hPlace,
          at?_set_self disk made (ne_root_of_none hNone),
          hNone]
        exact Content.toBytes_ofBytes []
      · rw [at?_set_of_ne disk made hPlace]
    exact hMade

end Disk

/- The bytes of a content that got a new length. -/
theorem Content.getElem?_resize
    (c : Content)
    {n k : Nat}
    (h : k < n) :
    (c.resize n).toBytes[k]? = some (c.toBytes.getD k 0) := by
  rw [toBytes_resize, List.getD_eq_getElem?_getD]
  by_cases hOld : k < c.toBytes.length
  · rw [List.getElem?_append_left (by
        rw [List.length_take]
        omega),
      List.getElem?_take_of_lt h,
      List.getElem?_eq_getElem hOld, Option.getD_some]
  · have hLe := Nat.le_of_not_lt hOld
    rw [List.take_of_length_le (by omega),
      List.getElem?_append_right hLe, List.getElem?_replicate,
      if_pos (by omega), List.getElem?_eq_none hLe,
      Option.getD_none]

/- Bytes outside a chunk are not changed by writing to it. -/
theorem Content.getElem?_withChunk
    {c : Content}
    {size k : Nat}
    {q : QueuedChunk}
    (hFits : q.Fits size)
    (hLength : c.length = size)
    (h : ¬ Chunking.InChunk size q.index.toNat k) :
    (c.withChunk size q).toBytes[k]? = c.toBytes[k]? := by
  rcases toBytes_withChunk hFits hLength with ⟨hWithin, hBytes⟩
  have hData := hFits.2
  have hFront :
      (c.toBytes.take
        (Chunking.chunkStart size q.index.toNat)).length =
        Chunking.chunkStart size q.index.toNat :=
    List.length_take_of_le (by omega)
  rw [hBytes, List.append_assoc]
  by_cases hBefore :
      k < Chunking.chunkStart size q.index.toNat
  · rw [List.getElem?_append_left (by rwa [hFront]),
      List.getElem?_take_of_lt hBefore]
  · have hBehind :
        Chunking.chunkStart size q.index.toNat +
            q.data.length ≤ k := by
      apply Nat.le_of_not_lt
      intro hLt
      exact h ⟨by omega, by omega⟩
    rw [List.getElem?_append_right (by omega), hFront,
      List.getElem?_append_right (by omega),
      List.getElem?_drop]
    congr 1
    omega

namespace ChunkWriter

variable {disk disk' : Disk}
variable {path : String}
variable {size : Nat}
variable {w : ChunkWriter}

/-
  A new writer has its file, resized, and the bytes of the
  file before were those at its place.
-/
theorem bytesAt_create
    (h : create disk path size = (.ok w, disk')) :
    ∃ content : Content,
      content.toBytes = disk.bytesAt w.file.place ∧
        w.WritesTo disk' (content.resize size) := by
  rcases exists_of_create h with
    ⟨file, added, hOpen, rfl, rfl⟩
  rcases Disk.openFile_eq_ok hOpen with
    ⟨-, content, hLookUp⟩
  rcases Disk.lookUp_eq_file_iff.mp hLookUp with ⟨-, -, hAt⟩
  refine ⟨content, ?_, ?_, ?_, ?_⟩
  · rw [← Disk.bytesAt_of_at? hAt,
      Disk.bytesAt_openFile hOpen,
      Disk.bytesAt_makeParents]
  · exact Disk.lookUp_update_self _ hLookUp
  · exact Content.length_resize content size
  · intro q hq
    cases hq

/- A file that could be read before is the writer's file. -/
theorem bytesAt_of_read
    {content : Content}
    (h : create disk path size = (.ok w, disk'))
    (hRead : disk.read path = .ok content) :
    disk.bytesAt w.file.place = content.toBytes := by
  rcases create_eq_ok h with
    ⟨-, -, -, added, opened, hExtends, hLookUp, -, -⟩
  rcases Disk.exists_lookUp_of_read hRead with
    ⟨p, serial, hFile⟩
  have hSame := Disk.lookUp_of_extends hExtends hFile
  rw [hLookUp] at hSame
  cases hSame
  exact Disk.bytesAt_of_at?
    (Disk.lookUp_eq_file_iff.mp hFile).2.2

end ChunkWriter

end PeerShare

------------------------------------------------------------
-- Writers at Work
------------------------------------------------------------

namespace PeerShare

/-
  A writer, the tree it writes to, and the numbers that it
  has told to be on disk, the first of them first.
-/
structure Writing where
  writer : ChunkWriter
  disk : Disk
  told : List UInt16

namespace Writing

/-
  A chunk is handed to the writer, a worker has written the
  first `n` bytes of a chunk that it is at, or a worker is
  done with a chunk.
-/
inductive Event where
  | enqueue (index : UInt16) (data : Bytes)
  | part (position n : Nat)
  | write (position : Nat)

/- A chunk is refused, or waits from now on. -/
def enqueue
    (s : Writing)
    (index : UInt16)
    (data : Bytes) : Writing :=
  match s.writer.enqueue index data with
  | .error _ => s
  | .ok w => { s with writer := w }

/- A first part of a chunk is on disk. -/
def writePart
    (s : Writing)
    (position n : Nat) : Writing :=
  match s.writer.queue[position]? with
  | none => s
  | some q =>
      { s with disk := s.writer.put (q.part n) s.disk }

/- A chunk is on disk, and its number is told. -/
def write
    (s : Writing)
    (position : Nat) : Writing :=
  match s.writer.perform position s.disk with
  | none => s
  | some (index, w, disk) =>
      { writer := w, disk, told := s.told ++ [index] }

def after
    (s : Writing) : Event → Writing
  | .enqueue index data => s.enqueue index data
  | .part position n => s.writePart position n
  | .write position => s.write position

def run
    (s : Writing)
    (events : List Event) : Writing :=
  events.foldl after s

/- Whether an event is the work of a worker. -/
def Event.isWork : Event → Bool
  | .enqueue _ _ => false
  | _ => true

/- The chunk that is taken, if one is. -/
def Event.taken?
    (size : Nat) : Event → Option QueuedChunk
  | .enqueue index data =>
      match ChunkWriter.check size index data with
      | .error _ => none
      | .ok () => some ⟨index, data⟩
  | _ => none

/- The chunks of a file of `size` bytes that are taken. -/
def taken
    (size : Nat)
    (events : List Event) : List QueuedChunk :=
  events.filterMap (·.taken? size)

/-
  The writer is stopped: its workers go on until no chunk
  waits.
-/
def Stops
    (s s' : Writing) : Prop :=
  ∃ events,
    (∀ e ∈ events, e.isWork = true) ∧
      s' = s.run events ∧ s'.writer.queue = []

/- Stop the writer: all that waits is written in order. -/
def stop
    (s : Writing) : Writing :=
  let (written, disk) := s.writer.drain s.disk
  { writer := { s.writer with queue := [] }
    disk
    told := s.told ++ written }

variable {s : Writing}
variable {path : String}
variable {size : Nat}
variable {earlier : Bytes}
variable {chunks : List QueuedChunk}
variable {content : Content}

/-
  The chunks that were taken wait, or are on disk and told,
  each once.  The bytes outside their places are those from
  before.
-/
structure Lands
    (s : Writing)
    (path : String)
    (size : Nat)
    (earlier : Bytes)
    (chunks : List QueuedChunk)
    (content : Content) : Prop
    extends s.writer.Carries s.disk content chunks where
  path_eq : s.writer.path = path
  size_eq : s.writer.size = size
  check_chunks :
    ∀ q ∈ chunks,
      ChunkWriter.check size q.index q.data = .ok ()
  perm :
    (s.told ++ s.writer.queue.map (·.index)).Perm
      (chunks.map (·.index))
  getElem?_elsewhere :
    ∀ k < size,
      (∀ q ∈ chunks,
        ¬ Chunking.InChunk size q.index.toNat k) →
      content.toBytes[k]? = some (earlier.getD k 0)

theorem taken_append
    (size : Nat)
    (events events' : List Event) :
    taken size (events ++ events') =
      taken size events ++ taken size events' :=
  List.filterMap_append

theorem taken_of_error
    {index : UInt16}
    {data : Bytes}
    {e : StorageError}
    (h : ChunkWriter.check size index data = .error e) :
    taken size [.enqueue index data] = [] := by
  unfold taken Event.taken?
  simp [h]

theorem taken_of_ok
    {index : UInt16}
    {data : Bytes}
    (h : ChunkWriter.check size index data = .ok ()) :
    taken size [.enqueue index data] = [⟨index, data⟩] := by
  unfold taken Event.taken?
  simp [h]

theorem taken_of_isWork
    {events : List Event}
    (h : ∀ e ∈ events, e.isWork = true) :
    taken size events = [] := by
  apply List.filterMap_eq_nil_iff.mpr
  intro e he
  cases e with
  | enqueue => cases h _ he
  | part => rfl
  | write => rfl

theorem run_append
    (s : Writing)
    (events events' : List Event) :
    s.run (events ++ events') = (s.run events).run events' :=
  List.foldl_append

/- A new writer has taken nothing yet. -/
theorem lands_create
    {disk disk' : Disk}
    {w : ChunkWriter}
    (h : ChunkWriter.create disk path size = (.ok w, disk')) :
    ∃ content,
      (Writing.mk w disk' []).Lands path size
        (disk.bytesAt w.file.place) [] content := by
  rcases ChunkWriter.create_eq_ok h with
    ⟨hPath, hSize, hQueue, -⟩
  rcases ChunkWriter.bytesAt_create h with
    ⟨content, hBytes, hWrites⟩
  refine ⟨content.resize size, .nil hWrites hQueue, hPath,
    hSize, ?_, ?_, ?_⟩
  · intro q hq
    cases hq
  · rw [hQueue]
    exact List.Perm.nil
  · intro k hk _
    rw [← hBytes]
    exact content.getElem?_resize hk

namespace Lands

/- A chunk is refused and changes nothing, or waits. -/
theorem enqueue
    (h : s.Lands path size earlier chunks content)
    (index : UInt16)
    (data : Bytes) :
    (s.enqueue index data).Lands path size earlier
      (chunks ++ taken size [.enqueue index data])
      content := by
  cases hEnqueue : s.writer.enqueue index data with
  | error e =>
      have hCheck :=
        ChunkWriter.enqueue_eq_error_iff.mp hEnqueue
      rw [h.size_eq] at hCheck
      unfold Writing.enqueue
      rw [hEnqueue, taken_of_error hCheck, List.append_nil]
      exact h
  | ok w =>
      have hCarries := h.toCarries.enqueue hEnqueue
      rcases ChunkWriter.enqueue_eq_ok_iff.mp hEnqueue with
        ⟨hCheck, rfl⟩
      rw [h.size_eq] at hCheck
      unfold Writing.enqueue
      rw [hEnqueue, taken_of_ok hCheck]
      refine ⟨hCarries.congr ?_, h.path_eq, h.size_eq, ?_, ?_,
        ?_⟩
      · intro q
        rw [List.mem_append, List.mem_singleton, List.mem_cons]
        exact or_comm
      · intro q hq
        rcases List.mem_append.mp hq with hq | hq
        · exact h.check_chunks q hq
        · rw [List.mem_singleton.mp hq]
          exact hCheck
      · rw [List.map_append, List.map_append,
          ← List.append_assoc]
        exact h.perm.append_right _
      · intro k hk hOutside
        apply h.getElem?_elsewhere k hk
        intro q hq
        exact hOutside q (List.mem_append_left _ hq)

theorem fits_of_mem_queue
    (h : s.Lands path size earlier chunks content)
    {q : QueuedChunk}
    (hq : q ∈ s.writer.queue) :
    q.Fits size := by
  have hCheck := h.check_queue q hq
  rw [h.size_eq] at hCheck
  exact QueuedChunk.fits_of_check hCheck

/- Bytes outside all chunks stay while one is written. -/
theorem getElem?_withChunk
    (h : s.Lands path size earlier chunks content)
    {q q' : QueuedChunk}
    (hq : q ∈ s.writer.queue)
    (hIndex : q'.index = q.index)
    (hFits : q'.Fits size)
    {k : Nat}
    (hk : k < size)
    (hOutside :
      ∀ q ∈ chunks,
        ¬ Chunking.InChunk size q.index.toNat k) :
    (content.withChunk size q').toBytes[k]? =
      some (earlier.getD k 0) := by
  have hLength : content.length = size :=
    h.length_eq.trans h.size_eq
  have hNot : ¬ Chunking.InChunk size q'.index.toNat k := by
    rw [hIndex]
    exact hOutside q (h.mem_queue q hq)
  rw [Content.getElem?_withChunk hFits hLength hNot]
  exact h.getElem?_elsewhere k hk hOutside

/- What is on disk of a chunk that waits does not matter. -/
theorem writePart
    (h : s.Lands path size earlier chunks content)
    (hDistinct : (chunks.map (·.index)).Nodup)
    (position n : Nat) :
    ∃ content',
      (s.writePart position n).Lands path size earlier chunks
        content' := by
  unfold Writing.writePart
  cases hGet : s.writer.queue[position]? with
  | none => exact ⟨content, h⟩
  | some q =>
      have hq := List.mem_of_getElem? hGet
      refine ⟨_, h.toCarries.putPart hDistinct hq n, h.path_eq,
        h.size_eq, h.check_chunks, h.perm, ?_⟩
      intro k hk hOutside
      rw [h.size_eq]
      exact h.getElem?_withChunk hq (q.index_part n)
        ((h.fits_of_mem_queue hq).part n) hk hOutside

/- A chunk that is written waits no longer, and is told. -/
theorem write
    (h : s.Lands path size earlier chunks content)
    (hDistinct : (chunks.map (·.index)).Nodup)
    (position : Nat) :
    ∃ content',
      (s.write position).Lands path size earlier chunks
        content' := by
  unfold Writing.write ChunkWriter.perform
  cases hGet : s.writer.queue[position]? with
  | none => exact ⟨content, h⟩
  | some q =>
      have hq := List.mem_of_getElem? hGet
      refine ⟨_, h.toCarries.perform hDistinct hGet, h.path_eq,
        h.size_eq, h.check_chunks, ?_, ?_⟩
      · rcases List.getElem?_eq_some_iff.mp hGet with
          ⟨hLt, rfl⟩
        have hPerm :=
          (List.getElem_cons_eraseIdx_perm hLt).map
            (·.index)
        dsimp only
        rw [List.append_assoc]
        exact (hPerm.append_left s.told).trans h.perm
      · intro k hk hOutside
        rw [h.size_eq]
        exact h.getElem?_withChunk hq rfl
          (h.fits_of_mem_queue hq) hk hOutside

theorem after
    (h : s.Lands path size earlier chunks content)
    (hDistinct : (chunks.map (·.index)).Nodup)
    (e : Event) :
    ∃ content',
      (s.after e).Lands path size earlier
        (chunks ++ taken size [e]) content' := by
  cases e with
  | enqueue index data =>
      exact ⟨content, h.enqueue index data⟩
  | part position n =>
      have hNone : taken size [.part position n] = [] := rfl
      rw [hNone, List.append_nil]
      exact h.writePart hDistinct position n
  | write position =>
      have hNone : taken size [.write position] = [] := rfl
      rw [hNone, List.append_nil]
      exact h.write hDistinct position

end Lands

/- Whatever the order of the events, the chunks land. -/
theorem lands_run
    (h : s.Lands path size earlier [] content)
    (events : List Event)
    (hDistinct :
      ((taken size events).map (·.index)).Nodup) :
    ∃ content',
      (s.run events).Lands path size earlier
        (taken size events) content' := by
  induction events using List.reverseRecOn with
  | nil => exact ⟨content, h⟩
  | append_singleton events e ih =>
      rw [taken_append, List.map_append] at hDistinct
      have hBefore := hDistinct.of_append_left
      rcases ih hBefore with ⟨content', hLands⟩
      rw [run_append, taken_append]
      exact hLands.after hBefore e

/- Writing all that waits in order is a way to stop. -/
theorem stops_stop
    (s : Writing) :
    s.Stops s.stop := by
  rcases s with ⟨⟨path, file, size, queue⟩, disk, told⟩
  induction queue generalizing disk told with
  | nil =>
      refine ⟨[], List.forall_mem_nil _, ?_, rfl⟩
      unfold stop ChunkWriter.drain
      simp [run]
  | cons q queue ih =>
      rcases ih
          (ChunkWriter.put ⟨path, file, size, q :: queue⟩ q
            disk)
          (told ++ [q.index]) with
        ⟨events, hWork, hRun, -⟩
      refine ⟨.write 0 :: events, ?_, ?_, rfl⟩
      · exact List.forall_mem_cons.mpr ⟨rfl, hWork⟩
      · unfold stop ChunkWriter.drain at hRun ⊢
        dsimp only at hRun ⊢
        rw [List.append_assoc] at hRun
        exact hRun

end Writing

end PeerShare

------------------------------------------------------------
-- Stopped Writers
------------------------------------------------------------

namespace PeerShare

/- A chunk is judged by its number, then by its length. -/
theorem ChunkWriter.enqueue_eq
    (w : ChunkWriter)
    (index : UInt16)
    (data : Bytes) :
    w.enqueue index data =
      if Chunking.chunkCount w.size ≤ index.toNat then
        .error (.invalidChunkIndex index)
      else if
        data.length = Chunking.chunkLength w.size index.toNat
      then
        .ok { w with queue := w.queue ++ [⟨index, data⟩] }
      else
        .error
          (.chunkLength index
            (Chunking.chunkLength w.size index.toNat)
            data.length) := by
  unfold enqueue check
  dsimp only
  by_cases hIndex : Chunking.chunkCount w.size ≤ index.toNat
  · rw [if_pos hIndex, if_pos hIndex]
  · rw [if_neg hIndex, if_neg hIndex]
    by_cases hLength :
        data.length = Chunking.chunkLength w.size index.toNat
    · rw [if_neg (not_not_intro hLength), if_pos hLength]
    · rw [if_pos hLength, if_neg hLength]

namespace Writing

variable {s : Writing}
variable {path : String}
variable {size : Nat}
variable {earlier : Bytes}
variable {chunks : List QueuedChunk}
variable {content : Content}

/-
  A chunk is refused for its number, is refused for its
  length, or waits behind the others.  When it is refused,
  file and queue are left as they are.
-/
structure Judges
    (s : Writing)
    (size : Nat)
    (index : UInt16)
    (data : Bytes) : Prop where
  index_iff :
    s.writer.enqueue index data =
        .error (.invalidChunkIndex index) ↔
      Chunking.chunkCount size ≤ index.toNat
  length_iff :
    s.writer.enqueue index data =
        .error
          (.chunkLength index
            (Chunking.chunkLength size index.toNat)
            data.length) ↔
      index.toNat < Chunking.chunkCount size ∧
        data.length ≠ Chunking.chunkLength size index.toNat
  waits_iff :
    s.writer.enqueue index data =
        .ok
          { s.writer with
            queue := s.writer.queue ++ [⟨index, data⟩] } ↔
      index.toNat < Chunking.chunkCount size ∧
        data.length = Chunking.chunkLength size index.toNat
  unchanged :
    ∀ e,
      s.writer.enqueue index data = .error e →
      s.after (.enqueue index data) = s

/-
  The file has its length, every chunk is in its place and
  is read from there, all other bytes are those from before
  or zero, and each chunk was told once.
-/
structure Landed
    (s : Writing)
    (path : String)
    (size : Nat)
    (earlier : Bytes)
    (chunks : List QueuedChunk) : Prop where
  exists_content :
    ∃ content,
      s.disk.read path = .ok content ∧
        content.toBytes.length = size ∧
        (∀ q ∈ chunks,
          (content.toBytes.drop
              (Chunking.chunkStart size q.index.toNat)).take
            (Chunking.chunkLength size q.index.toNat) =
              q.data) ∧
        ∀ k < size,
          (∀ q ∈ chunks,
            ¬ Chunking.InChunk size q.index.toNat k) →
          content.toBytes[k]? = some (earlier.getD k 0)
  readChunk_eq :
    ∀ q ∈ chunks,
      readChunk s.disk path size q.index = .ok q.data
  nodup_told : s.told.Nodup
  mem_told_iff :
    ∀ index, index ∈ s.told ↔ ∃ q ∈ chunks, q.index = index

/- What a writer for a file of `size` bytes says. -/
theorem judges
    (hSize : s.writer.size = size)
    (index : UInt16)
    (data : Bytes) :
    s.Judges size index data := by
  have hUnchanged :
      ∀ e,
        s.writer.enqueue index data = .error e →
        s.after (.enqueue index data) = s := by
    intro e hError
    unfold after Writing.enqueue
    dsimp only
    rw [hError]
  subst hSize
  have hEnqueue := s.writer.enqueue_eq index data
  by_cases hIndex :
      Chunking.chunkCount s.writer.size ≤ index.toNat
  · rw [if_pos hIndex] at hEnqueue
    have hNot :
        ¬ index.toNat < Chunking.chunkCount s.writer.size :=
      Nat.not_lt_of_le hIndex
    refine ⟨iff_of_true hEnqueue hIndex, iff_of_false ?_ ?_,
      iff_of_false ?_ ?_, hUnchanged⟩
    · simp [hEnqueue]
    · exact fun h => hNot h.1
    · simp [hEnqueue]
    · exact fun h => hNot h.1
  · rw [if_neg hIndex] at hEnqueue
    have hLt := Nat.lt_of_not_le hIndex
    by_cases hLength :
        data.length =
          Chunking.chunkLength s.writer.size index.toNat
    · rw [if_pos hLength] at hEnqueue
      refine ⟨iff_of_false ?_ hIndex, iff_of_false ?_ ?_,
        iff_of_true hEnqueue ⟨hLt, hLength⟩, hUnchanged⟩
      · simp [hEnqueue]
      · simp [hEnqueue]
      · exact fun h => h.2 hLength
    · rw [if_neg hLength] at hEnqueue
      refine ⟨iff_of_false ?_ hIndex,
        iff_of_true hEnqueue ⟨hLt, hLength⟩,
        iff_of_false ?_ ?_, hUnchanged⟩
      · simp [hEnqueue]
      · simp [hEnqueue]
      · exact fun h => hLength h.2

/- Once no chunk waits, all of them have landed. -/
theorem Lands.landed
    (h : s.Lands path size earlier chunks content)
    (hDistinct : (chunks.map (·.index)).Nodup)
    (hQueue : s.writer.queue = []) :
    s.Landed path size earlier chunks := by
  have hLength : content.toBytes.length = size := by
    rw [← content.length_eq, h.length_eq, h.size_eq]
  have hRead : s.disk.read path = .ok content := by
    rw [← h.path_eq]
    exact h.toWritesTo.read_eq
  have hChunk :
      ∀ q ∈ chunks,
        content.chunk size q.index.toNat = q.data := by
    intro q hq
    have hCheck := h.check_chunks q hq
    rw [← h.size_eq] at hCheck ⊢
    rcases h.waits_or_stands q hq hCheck with hWaits | hStands
    · rw [hQueue] at hWaits
      cases hWaits
    · exact hStands
  have hTold : s.told.Perm (chunks.map (·.index)) := by
    have hPerm := h.perm
    rwa [hQueue, List.map_nil, List.append_nil] at hPerm
  refine ⟨⟨content, hRead, hLength, ?_, ?_⟩, ?_, ?_, ?_⟩
  · intro q hq
    rw [← Content.read_eq]
    exact hChunk q hq
  · exact h.getElem?_elsewhere
  · intro q hq
    have hIndex :=
      (ChunkWriter.check_eq_ok_iff.mp (h.check_chunks q hq)).1
    rw [← hLength] at hIndex ⊢
    rw [readChunk_eq_ok hRead hIndex,
      ← Content.chunk_eq_chunkOf content.length_eq, hLength,
      hChunk q hq]
  · exact hTold.nodup_iff.mpr hDistinct
  · intro index
    rw [hTold.mem_iff, List.mem_map]

/-
  Chunks are handed to a new writer, with distinct numbers
  where they are taken, and its workers do them in any order
  and at any time.  The writer can always be stopped, and
  when it is, every chunk that was taken has landed.
-/
theorem chunks_land
    {disk disk' : Disk}
    {w : ChunkWriter}
    (hCreate :
      ChunkWriter.create disk path size = (.ok w, disk'))
    (events : List Event)
    (hDistinct :
      ((taken size events).map (·.index)).Nodup) :
    (∀ content,
      disk.read path = .ok content →
      disk.bytesAt w.file.place = content.toBytes) ∧
      (∀ index data,
        ((Writing.mk w disk' []).run events).Judges size
          index data) ∧
      ((Writing.mk w disk' []).run events).Stops
        ((Writing.mk w disk' []).run events).stop ∧
      ∀ s',
        ((Writing.mk w disk' []).run events).Stops s' →
        s'.Landed path size (disk.bytesAt w.file.place)
          (taken size events) := by
  rcases lands_create hCreate with ⟨content, hCreated⟩
  refine ⟨?_, ?_, stops_stop _, ?_⟩
  · exact fun content => ChunkWriter.bytesAt_of_read hCreate
  · rcases lands_run hCreated events hDistinct with
      ⟨content', hLands⟩
    exact judges hLands.size_eq
  · rintro s' ⟨work, hWork, rfl, hQueue⟩
    have hTaken :
        taken size (events ++ work) = taken size events := by
      rw [taken_append, taken_of_isWork hWork, List.append_nil]
    rw [← run_append] at hQueue ⊢
    rw [← hTaken] at hDistinct ⊢
    rcases lands_run hCreated _ hDistinct with
      ⟨content', hLands⟩
    exact hLands.landed hDistinct hQueue

/-
  Of the three chunks of a file the last is taken first, and
  the one before it is on disk first.  A chunk past the last
  and a chunk too short are refused, so that the first chunk
  keeps the bytes from before.
-/
theorem chunks_land_of_two_chunks :
    let whole : Bytes := List.replicate 16000 8
    let disk :=
      Disk.empty.set ⟨["a"]⟩
        (.file 0 (Content.ofBytes [9, 9, 9, 9, 9]))
    let events : List Event :=
      [.enqueue 2 [1, 2, 3], .enqueue 3 [7], .enqueue 1 whole,
        .enqueue 0 [7], .part 0 2, .write 1]
    ∃ w disk',
      ChunkWriter.create disk "a" 32003 = (.ok w, disk') ∧
        ((taken 32003 events).map (·.index)).Nodup ∧
        taken 32003 events = [⟨2, [1, 2, 3]⟩, ⟨1, whole⟩] ∧
        disk.bytesAt w.file.place = [9, 9, 9, 9, 9] ∧
        ((Writing.mk w disk' []).run events).stop.told =
          [1, 2] ∧
        ((Writing.mk w disk' []).run events).stop.Landed "a"
          32003 (disk.bytesAt w.file.place)
          (taken 32003 events) := by
  intro whole disk events
  have hCreate :
      ChunkWriter.create disk "a" 32003 =
        (.ok ⟨"a", ⟨⟨["a"]⟩, 0⟩, 32003, []⟩,
          (ChunkWriter.create disk "a" 32003).2) := by
    rfl
  have hLast :
      ChunkWriter.check 32003 2 [1, 2, 3] = .ok () := by
    decide
  have hPast :
      ChunkWriter.check 32003 3 [7] =
        .error (.invalidChunkIndex 3) := by
    decide
  have hWhole : ChunkWriter.check 32003 1 whole = .ok () := by
    apply ChunkWriter.check_eq_ok_iff.mpr
    rw [List.length_replicate]
    decide
  clear_value whole
  have hShort :
      ChunkWriter.check 32003 0 [7] =
        .error (.chunkLength 0 16000 1) := by
    decide +kernel
  have hTaken :
      taken 32003 events =
        [⟨2, [1, 2, 3]⟩, ⟨1, whole⟩] := by
    simp [taken, events, Event.taken?, hLast, hPast, hWhole,
      hShort]
  have hDistinct :
      ((taken 32003 events).map (·.index)).Nodup := by
    rw [hTaken]
    exact (by decide : [(2 : UInt16), 1].Nodup)
  rcases chunks_land hCreate events hDistinct with
    ⟨-, -, hStops, hLanded⟩
  refine ⟨_, _, hCreate, hDistinct, hTaken, by decide, ?_,
    hLanded _ hStops⟩
  simp [stop, run, events, after, enqueue, writePart, write,
    ChunkWriter.enqueue, ChunkWriter.perform,
    ChunkWriter.drain, hLast, hPast, hWhole, hShort]

end Writing

end PeerShare
