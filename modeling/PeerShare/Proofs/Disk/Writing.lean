import Mathlib.Data.List.Nodup
import PeerShare.Disk.Chunks
import PeerShare.Proofs.Chunking.Tiling
import PeerShare.Proofs.Disk.Tree

/-
  Writers put chunks where they belong.

  A writer whose chunks all have the right length changes
  only its own file, and there only the chunks that it
  writes.  So the order in which the chunks leave the queue
  does not matter, as long as no two of them are for the
  same place.

  Key definitions include:
    * `Content.chunk`
    * `ChunkWriter.WritesTo`
    * `ChunkWriter.Carries`
    * `ChunkWriter.Drains`

  Key theorems include:
    * `Content.chunk_withChunk`
    * `readChunk_eq_ok`
    * `ChunkWriter.exists_of_create`
    * `ChunkWriter.create_eq_ok`
    * `ChunkWriter.WritesTo.perform`
    * `ChunkWriter.Carries.perform`
    * `ChunkWriter.Carries.of_drains`
-/

------------------------------------------------------------
-- Parts of Byte Strings
------------------------------------------------------------

namespace PeerShare

namespace Bytes

/- The bytes that were put in are found where they are. -/
theorem take_drop_splice
    {bs : Bytes}
    {offset : Nat}
    (new rest : Bytes)
    (h : offset ≤ bs.length) :
    ((bs.take offset ++ new ++ rest).drop offset).take
        new.length = new := by
  have hFront : (bs.take offset).length = offset :=
    List.length_take_of_le h
  rw [List.append_assoc, List.drop_left' hFront,
    List.take_left]

/- What lies before or behind them is as it was. -/
theorem take_drop_splice_of_apart
    {bs new : Bytes}
    {offset start n : Nat}
    (h : offset + new.length ≤ bs.length)
    (hApart :
      start + n ≤ offset ∨ offset + new.length ≤ start) :
    ((bs.take offset ++ new ++
        bs.drop (offset + new.length)).drop start).take n =
      (bs.drop start).take n := by
  have hFront : (bs.take offset).length = offset :=
    List.length_take_of_le (by omega)
  have hBoth :
      (bs.take offset ++ new).length =
        offset + new.length := by
    rw [List.length_append, hFront]
  apply List.ext_getElem?
  intro k
  by_cases hk : k < n
  · rw [List.getElem?_take_of_lt hk,
      List.getElem?_take_of_lt hk, List.getElem?_drop,
      List.getElem?_drop]
    rcases hApart with hBefore | hBehind
    · rw [List.getElem?_append_left (by omega),
        List.getElem?_append_left (by omega),
        List.getElem?_take_of_lt (by omega)]
    · rw [List.getElem?_append_right (by omega), hBoth,
        List.getElem?_drop]
      congr 1
      omega
  · have hLe : n ≤ k := Nat.le_of_not_lt hk
    rw [List.getElem?_take_eq_none hLe,
      List.getElem?_take_eq_none hLe]

end Bytes

end PeerShare

------------------------------------------------------------
-- Chunks of Contents
------------------------------------------------------------

namespace PeerShare

namespace Content

/- The bytes of a chunk of a file of `size` bytes. -/
def chunk
    (c : Content)
    (size index : Nat) : Bytes :=
  c.read (Chunking.chunkStart size index)
    (Chunking.chunkLength size index)

/- The content after a chunk has been written. -/
def withChunk
    (size : Nat)
    (q : QueuedChunk)
    (c : Content) : Content :=
  c.write (Chunking.chunkStart size q.index.toNat) q.data

@[simp]
theorem length_resize
    (c : Content)
    (n : Nat) :
    (c.resize n).length = n := by
  rw [length_eq, length_toBytes_resize]

/- In a file of its own length, chunks are cut as ever. -/
theorem chunk_eq_chunkOf
    {c : Content}
    {size : Nat}
    (h : c.length = size)
    (index : Nat) :
    c.chunk size index =
      Chunking.chunkOf c.toBytes index := by
  rw [chunk, read_eq, Chunking.chunkOf, ← length_eq, h]

end Content

namespace ChunkWriter

/- Which chunks may be written. -/
theorem check_eq_ok_iff
    {size : Nat}
    {index : UInt16}
    {data : Bytes} :
    check size index data = .ok () ↔
      index.toNat < Chunking.chunkCount size ∧
        data.length =
          Chunking.chunkLength size index.toNat := by
  unfold check
  dsimp only
  constructor
  · intro h
    split at h
    · cases h
    · split at h
      · cases h
      · rename_i hIndex hLength
        exact ⟨Nat.lt_of_not_le hIndex,
          Decidable.not_not.mp hLength⟩
  · rintro ⟨hIndex, hLength⟩
    rw [if_neg (Nat.not_le_of_lt hIndex),
      if_neg (fun hNe => hNe hLength)]

end ChunkWriter

namespace QueuedChunk

/-
  Whether these bytes lie within a chunk of a file of `size`
  bytes, from the start of the chunk on.
-/
def Fits
    (q : QueuedChunk)
    (size : Nat) : Prop :=
  q.index.toNat < Chunking.chunkCount size ∧
    q.data.length ≤ Chunking.chunkLength size q.index.toNat

theorem fits_of_check
    {q : QueuedChunk}
    {size : Nat}
    (h : ChunkWriter.check size q.index q.data = .ok ()) :
    q.Fits size := by
  rcases ChunkWriter.check_eq_ok_iff.mp h with ⟨hIndex, hData⟩
  exact ⟨hIndex, Nat.le_of_eq hData⟩

/- The first bytes of a chunk. -/
def part
    (q : QueuedChunk)
    (n : Nat) : QueuedChunk :=
  { q with data := q.data.take n }

theorem index_part
    (q : QueuedChunk)
    (n : Nat) :
    (q.part n).index = q.index := rfl

theorem Fits.part
    {q : QueuedChunk}
    {size : Nat}
    (h : q.Fits size)
    (n : Nat) :
    (q.part n).Fits size := by
  refine ⟨h.1, ?_⟩
  exact Nat.le_trans (List.length_take_le' n q.data) h.2

end QueuedChunk

namespace Content

variable {c : Content}
variable {size : Nat}
variable {q : QueuedChunk}

/- What is written lies within the file. -/
theorem toBytes_withChunk
    (hFits : q.Fits size)
    (hLength : c.length = size) :
    Chunking.chunkStart size q.index.toNat + q.data.length ≤
        c.toBytes.length ∧
      (c.withChunk size q).toBytes =
        c.toBytes.take
            (Chunking.chunkStart size q.index.toNat) ++
          q.data ++
          c.toBytes.drop
            (Chunking.chunkStart size q.index.toNat +
              q.data.length) := by
  rcases hFits with ⟨hIndex, hData⟩
  have hEnd := Chunking.chunkStart_add_chunkLength_le hIndex
  have hWithin :
      Chunking.chunkStart size q.index.toNat +
          q.data.length ≤ c.toBytes.length := by
    rw [← length_eq, hLength]
    exact Nat.le_trans (Nat.add_le_add_left hData _) hEnd
  exact ⟨hWithin, toBytes_write c hWithin⟩

theorem length_withChunk
    (hFits : q.Fits size)
    (hLength : c.length = size) :
    (c.withChunk size q).length = size := by
  rcases toBytes_withChunk hFits hLength with ⟨hWithin, hBytes⟩
  have hOld : c.toBytes.length = size := by
    rw [← length_eq, hLength]
  rw [length_eq, hBytes, List.length_append,
    List.length_append, List.length_take, List.length_drop]
  omega

/- Writing to a chunk changes no other chunk. -/
theorem chunk_withChunk_of_ne
    (hFits : q.Fits size)
    (hLength : c.length = size)
    {index : Nat}
    (hIndex : index ≠ q.index.toNat) :
    (c.withChunk size q).chunk size index =
      c.chunk size index := by
  rcases toBytes_withChunk hFits hLength with ⟨hWithin, hBytes⟩
  have hEnd :
      Chunking.chunkStart size q.index.toNat +
          q.data.length ≤
        Chunking.chunkStart size q.index.toNat +
          Chunking.chunkLength size q.index.toNat :=
    Nat.add_le_add_left hFits.2 _
  rw [chunk, read_eq, hBytes, chunk, read_eq]
  apply Bytes.take_drop_splice_of_apart hWithin
  rcases Nat.lt_or_gt_of_ne hIndex with hBefore | hBehind
  · exact Or.inl (Chunking.chunk_le_chunkStart size hBefore)
  · right
    exact Nat.le_trans hEnd
      (Chunking.chunk_le_chunkStart size hBehind)

/- Writing a whole chunk changes that chunk and no other. -/
theorem chunk_withChunk
    (hCheck : ChunkWriter.check size q.index q.data = .ok ())
    (hLength : c.length = size)
    (index : Nat) :
    (c.withChunk size q).chunk size index =
      if index = q.index.toNat then q.data
      else c.chunk size index := by
  have hFits := QueuedChunk.fits_of_check hCheck
  by_cases hIndex : index = q.index.toNat
  · rcases toBytes_withChunk hFits hLength with
      ⟨hWithin, hBytes⟩
    rcases ChunkWriter.check_eq_ok_iff.mp hCheck with ⟨-, hData⟩
    rw [if_pos hIndex, hIndex, chunk, read_eq, hBytes, ← hData]
    exact Bytes.take_drop_splice _ _ (by omega)
  · rw [if_neg hIndex]
    exact chunk_withChunk_of_ne hFits hLength hIndex

end Content

end PeerShare

------------------------------------------------------------
-- Reading Chunks
------------------------------------------------------------

namespace PeerShare

/- A chunk within the count is read from its place. -/
theorem readChunk_eq_ok
    {disk : Disk}
    {path : String}
    {content : Content}
    {index : UInt16}
    (hRead : disk.read path = .ok content)
    (hIndex :
      index.toNat <
        Chunking.chunkCount content.toBytes.length) :
    readChunk disk path content.toBytes.length index =
      .ok (Chunking.chunkOf content.toBytes index.toNat) := by
  have hEnd :=
    Chunking.chunkStart_add_chunkLength_le hIndex
  have hLength := content.length_eq
  have hChunk :=
    Content.chunk_eq_chunkOf hLength index.toNat
  unfold readChunk
  rw [if_neg (Nat.not_le_of_lt hIndex), hRead]
  dsimp only
  rw [if_neg (by omega), ← hChunk]
  rfl

end PeerShare

------------------------------------------------------------
-- Writers and Their Files
------------------------------------------------------------

namespace PeerShare

namespace ChunkWriter

/-
  The writer has a file of its length under its path, and
  what waits may be written there.
-/
structure WritesTo
    (w : ChunkWriter)
    (disk : Disk)
    (content : Content) : Prop where
  lookUp_eq :
    disk.lookUp w.path =
      .ok (w.file.place, .file w.file.serial content)
  length_eq : content.length = w.size
  check_queue :
    ∀ q ∈ w.queue, check w.size q.index q.data = .ok ()

/-
  How a writer is made: the directories on the way, then the
  file, which gets its length.
-/
theorem exists_of_create
    {disk disk' : Disk}
    {path : String}
    {size : Nat}
    {w : ChunkWriter}
    (h : create disk path size = (.ok w, disk')) :
    ∃ file added,
      (disk.makeParents path).2.openFile path =
          .ok (file, added) ∧
        w = ⟨path, file, size, []⟩ ∧
        disk' =
          added.update file fun content =>
            content.resize size := by
  unfold create at h
  generalize disk.makeParents path = result at h ⊢
  rcases result with ⟨made, parents⟩
  cases made with
  | error e => cases h
  | ok =>
      dsimp only at h ⊢
      cases hOpen : parents.openFile path with
      | error e =>
          rw [hOpen] at h
          cases h
      | ok opened =>
          rcases opened with ⟨file, added⟩
          rw [hOpen] at h
          dsimp only at h
          by_cases hMax : maxSize < size
          · rw [if_pos hMax] at h
            cases h
          · rw [if_neg hMax] at h
            cases h
            exact ⟨file, added, rfl, rfl, rfl⟩

/-
  What a new writer is like.  Making it adds entries and
  resizes its file, and changes nothing else.
-/
theorem create_eq_ok
    {disk disk' : Disk}
    {path : String}
    {size : Nat}
    {w : ChunkWriter}
    (h : create disk path size = (.ok w, disk')) :
    w.path = path ∧ w.size = size ∧ w.queue = [] ∧
      ∃ added content,
        disk.Extends added ∧
          added.lookUp path =
            .ok (w.file.place, .file w.file.serial content) ∧
          disk' =
            added.update w.file (fun content =>
              content.resize size) ∧
          w.WritesTo disk' (content.resize size) := by
  rcases exists_of_create h with
    ⟨file, added, hOpen, rfl, rfl⟩
  rcases Disk.openFile_eq_ok hOpen with
    ⟨hExtends, content, hLookUp⟩
  have hAdded : disk.Extends added :=
    (disk.makeParents_extends path).trans hExtends
  refine ⟨rfl, rfl, rfl, added, content, hAdded, hLookUp,
    rfl, ?_, ?_, ?_⟩
  · exact Disk.lookUp_update_self _ hLookUp
  · exact Content.length_resize content size
  · intro q hq
    cases hq

/- A writer that cannot be made has only added entries. -/
theorem create_eq_error
    {disk disk' : Disk}
    {path : String}
    {size : Nat}
    {e : StorageError}
    (h : create disk path size = (.error e, disk')) :
    disk.Extends disk' := by
  have hExtends := disk.makeParents_extends path
  unfold create at h
  generalize disk.makeParents path = result at h hExtends
  rcases result with ⟨made, parents⟩
  cases made with
  | error e =>
      cases h
      exact hExtends
  | ok =>
      dsimp only at h hExtends
      cases hOpen : parents.openFile path with
      | error e =>
          rw [hOpen] at h
          cases h
          exact hExtends
      | ok opened =>
          rcases opened with ⟨file, added⟩
          rw [hOpen] at h
          dsimp only at h
          by_cases hMax : maxSize < size
          · rw [if_pos hMax] at h
            cases h
            exact hExtends.trans (Disk.openFile_eq_ok hOpen).1
          · rw [if_neg hMax] at h
            cases h

/- What becomes of a writer when a chunk is to wait. -/
theorem enqueue_eq_ok_iff
    {w w' : ChunkWriter}
    {index : UInt16}
    {data : Bytes} :
    w.enqueue index data = .ok w' ↔
      check w.size index data = .ok () ∧
        w' = { w with queue := w.queue ++ [⟨index, data⟩] } := by
  unfold enqueue
  constructor
  · intro h
    cases hCheck : check w.size index data with
    | error e =>
        rw [hCheck] at h
        cases h
    | ok =>
        rw [hCheck] at h
        cases h
        exact ⟨rfl, rfl⟩
  · rintro ⟨hCheck, rfl⟩
    rw [hCheck]

/- A chunk is refused for what is wrong with it alone. -/
theorem enqueue_eq_error_iff
    {w : ChunkWriter}
    {index : UInt16}
    {data : Bytes}
    {e : StorageError} :
    w.enqueue index data = .error e ↔
      check w.size index data = .error e := by
  unfold enqueue
  cases check w.size index data with
  | error e' =>
      dsimp only
      rw [Except.error.injEq, Except.error.injEq]
  | ok =>
      constructor
      · intro h
        cases h
      · intro h
        cases h

/- What becomes of a writer when it writes a chunk. -/
theorem perform_eq_some_iff
    {w w' : ChunkWriter}
    {position : Nat}
    {index : UInt16}
    {disk disk' : Disk} :
    w.perform position disk = some (index, w', disk') ↔
      ∃ q,
        w.queue[position]? = some q ∧ index = q.index ∧
          w' = { w with queue := w.queue.eraseIdx position } ∧
          disk' = w.put q disk := by
  unfold perform
  cases hGet : w.queue[position]? with
  | none => simp
  | some q =>
      constructor
      · intro h
        cases h
        exact ⟨q, rfl, rfl, rfl, rfl⟩
      · rintro ⟨q', hq, rfl, rfl, rfl⟩
        cases hq
        rfl

namespace WritesTo

variable {w w' : ChunkWriter}
variable {disk disk' : Disk}
variable {content : Content}

theorem read_eq
    (h : w.WritesTo disk content) :
    disk.read w.path = .ok content :=
  Disk.read_of_lookUp h.lookUp_eq

/- A tree in which the path means the same is as good. -/
theorem of_lookUp_eq
    (h : w.WritesTo disk content)
    (hSame : disk'.lookUp w.path = disk.lookUp w.path) :
    w.WritesTo disk' content :=
  ⟨hSame.trans h.lookUp_eq, h.length_eq, h.check_queue⟩

/- Changes of other files are not noticed. -/
theorem update_of_ne
    (h : w.WritesTo disk content)
    {file : Disk.FileId}
    (f : Content → Content)
    (hNe : w.file ≠ file) :
    w.WritesTo (disk.update file f) content := by
  have hLookUp :=
    Disk.lookUp_update_of_ne f hNe h.lookUp_eq
  exact ⟨hLookUp, h.length_eq, h.check_queue⟩

theorem enqueue
    (h : w.WritesTo disk content)
    {index : UInt16}
    {data : Bytes}
    (hEnqueue : w.enqueue index data = .ok w') :
    w'.WritesTo disk content := by
  rcases enqueue_eq_ok_iff.mp hEnqueue with ⟨hCheck, rfl⟩
  refine ⟨h.lookUp_eq, h.length_eq, ?_⟩
  intro q hq
  rcases List.mem_append.mp hq with hq | hq
  · exact h.check_queue q hq
  · rw [List.mem_singleton.mp hq]
    exact hCheck

/- Writing to a chunk changes the file as it should. -/
theorem put
    (h : w.WritesTo disk content)
    {q : QueuedChunk}
    (hFits : q.Fits w.size) :
    w.WritesTo (w.put q disk) (content.withChunk w.size q) := by
  refine ⟨?_, ?_, h.check_queue⟩
  · exact Disk.lookUp_update_self
      (Content.withChunk w.size q) h.lookUp_eq
  · exact Content.length_withChunk hFits h.length_eq

/- A chunk may be taken out of the queue. -/
theorem dequeue
    (h : w.WritesTo disk content)
    (position : Nat) :
    { w with queue := w.queue.eraseIdx position }.WritesTo
      disk content := by
  refine ⟨h.lookUp_eq, h.length_eq, ?_⟩
  intro q hq
  exact h.check_queue q (List.mem_of_mem_eraseIdx hq)

/- A chunk is taken out of the queue and written. -/
theorem perform
    (h : w.WritesTo disk content)
    {position : Nat}
    {q : QueuedChunk}
    (hGet : w.queue[position]? = some q) :
    { w with queue := w.queue.eraseIdx position }.WritesTo
      (w.put q disk) (content.withChunk w.size q) := by
  have hMem : q ∈ w.queue := List.mem_of_getElem? hGet
  have hFits := QueuedChunk.fits_of_check (h.check_queue q hMem)
  exact (h.put hFits).dequeue position

end WritesTo

end ChunkWriter

end PeerShare

------------------------------------------------------------
-- Chunks Handed to a Writer
------------------------------------------------------------

namespace PeerShare

namespace ChunkWriter

/-
  Of the chunks that were handed to a writer, those that may
  be written wait or are on disk.
-/
structure Carries
    (w : ChunkWriter)
    (disk : Disk)
    (content : Content)
    (handed : List QueuedChunk) : Prop
    extends w.WritesTo disk content where
  mem_queue : ∀ q ∈ w.queue, q ∈ handed
  waits_or_stands :
    ∀ q ∈ handed,
      check w.size q.index q.data = .ok () →
        q ∈ w.queue ∨
          content.chunk w.size q.index.toNat = q.data

/-
  A writer is stopped: its workers write the chunks that
  wait, in some order, until none is left.
-/
inductive Drains : ChunkWriter → Disk → Disk → Prop where
  | done
      {w : ChunkWriter}
      {disk : Disk}
      (h : w.queue = []) :
      Drains w disk disk
  | write
      {w w' : ChunkWriter}
      {disk disk' disk'' : Disk}
      {position : Nat}
      {index : UInt16}
      (h : w.perform position disk = some (index, w', disk'))
      (rest : Drains w' disk' disk'') :
      Drains w disk disk''

/- The queue may be emptied from its front. -/
theorem drains_drain
    (w : ChunkWriter)
    (disk : Disk) :
    w.Drains disk (w.drain disk).2 := by
  rcases w with ⟨path, file, size, queue⟩
  induction queue generalizing disk with
  | nil => exact .done rfl
  | cons q queue ih =>
      have hPerform :
          perform ⟨path, file, size, q :: queue⟩ 0 disk =
            some
              (q.index, ⟨path, file, size, queue⟩,
                put ⟨path, file, size, queue⟩ q disk) :=
        rfl
      exact .write hPerform (ih _)

namespace Carries

variable {w w' : ChunkWriter}
variable {disk disk' : Disk}
variable {content : Content}
variable {handed : List QueuedChunk}

/- A writer whose queue is empty was handed nothing. -/
theorem nil
    (h : w.WritesTo disk content)
    (hQueue : w.queue = []) :
    w.Carries disk content [] := by
  refine ⟨h, ?_, ?_⟩
  · intro q hq
    rw [hQueue] at hq
    cases hq
  · intro q hq
    cases hq

/- A chunk is handed over, and the writer takes it. -/
theorem enqueue
    (h : w.Carries disk content handed)
    {index : UInt16}
    {data : Bytes}
    (hEnqueue : w.enqueue index data = .ok w') :
    w'.Carries disk content (⟨index, data⟩ :: handed) := by
  have hWrites := h.toWritesTo.enqueue hEnqueue
  rcases enqueue_eq_ok_iff.mp hEnqueue with ⟨hCheck, rfl⟩
  refine ⟨hWrites, ?_, ?_⟩
  · intro q hq
    rcases List.mem_append.mp hq with hq | hq
    · exact List.mem_cons_of_mem _ (h.mem_queue q hq)
    · rw [List.mem_singleton.mp hq]
      exact List.mem_cons_self
  · intro q hq hCheckQ
    rcases List.mem_cons.mp hq with rfl | hq
    · exact Or.inl
        (List.mem_append_right _ List.mem_cons_self)
    · rcases h.waits_or_stands q hq hCheckQ with hWaits | hStands
      · exact Or.inl (List.mem_append_left _ hWaits)
      · exact Or.inr hStands

/- A chunk is handed over, and the writer refuses it. -/
theorem refuse
    (h : w.Carries disk content handed)
    {index : UInt16}
    {data : Bytes}
    {e : StorageError}
    (hEnqueue : w.enqueue index data = .error e) :
    w.Carries disk content (⟨index, data⟩ :: handed) := by
  refine ⟨h.toWritesTo, ?_, ?_⟩
  · intro q hq
    exact List.mem_cons_of_mem _ (h.mem_queue q hq)
  · intro q hq hCheck
    rcases List.mem_cons.mp hq with rfl | hq
    · rw [enqueue_eq_error_iff.mp hEnqueue] at hCheck
      cases hCheck
    · exact h.waits_or_stands q hq hCheck

/- Which chunks were handed over matters, not how often. -/
theorem congr
    {handed' : List QueuedChunk}
    (h : w.Carries disk content handed)
    (hSame : ∀ q, q ∈ handed ↔ q ∈ handed') :
    w.Carries disk content handed' where
  toWritesTo := h.toWritesTo
  mem_queue q hq := (hSame q).mp (h.mem_queue q hq)
  waits_or_stands q hq :=
    h.waits_or_stands q ((hSame q).mpr hq)

/- A first part of a chunk that waits may be on disk. -/
theorem putPart
    (h : w.Carries disk content handed)
    (hDistinct : (handed.map (·.index)).Nodup)
    {q : QueuedChunk}
    (hQueued : q ∈ w.queue)
    (n : Nat) :
    w.Carries (w.put (q.part n) disk)
      (content.withChunk w.size (q.part n)) handed := by
  have hFits :=
    (QueuedChunk.fits_of_check (h.check_queue q hQueued)).part n
  refine ⟨h.toWritesTo.put hFits, h.mem_queue, ?_⟩
  intro q' hq' hCheck
  by_cases hIndex : q'.index = q.index
  · have hSame : q' = q :=
      List.inj_on_of_nodup_map hDistinct hq'
        (h.mem_queue q hQueued) hIndex
    left
    rw [hSame]
    exact hQueued
  · have hNat : q'.index.toNat ≠ q.index.toNat := by
      intro hEq
      exact hIndex (UInt16.toNat_inj.mp hEq)
    rcases h.waits_or_stands q' hq' hCheck with hWaits | hStands
    · exact Or.inl hWaits
    · right
      rw [Content.chunk_withChunk_of_ne hFits h.length_eq hNat]
      exact hStands

/- Writing keeps this up if no two chunks share a number. -/
theorem perform
    (h : w.Carries disk content handed)
    (hDistinct : (handed.map (·.index)).Nodup)
    {position : Nat}
    {q : QueuedChunk}
    (hGet : w.queue[position]? = some q) :
    { w with queue := w.queue.eraseIdx position }.Carries
      (w.put q disk) (content.withChunk w.size q) handed := by
  have hQueued : q ∈ w.queue := List.mem_of_getElem? hGet
  have hHanded : q ∈ handed := h.mem_queue q hQueued
  have hChunk :=
    Content.chunk_withChunk (h.check_queue q hQueued)
      h.length_eq
  refine ⟨h.toWritesTo.perform hGet, ?_, ?_⟩
  · intro q' hq'
    exact h.mem_queue q' (List.mem_of_mem_eraseIdx hq')
  · intro q' hq' hCheck
    dsimp only
    by_cases hIndex : q'.index = q.index
    · -- No other chunk has this number, so it is `q` itself.
      have hSame : q' = q :=
        List.inj_on_of_nodup_map hDistinct hq' hHanded hIndex
      right
      rw [hChunk, hSame, if_pos rfl]
    · have hNat : q'.index.toNat ≠ q.index.toNat := by
        intro hEq
        exact hIndex (UInt16.toNat_inj.mp hEq)
      rcases h.waits_or_stands q' hq' hCheck with hWaits | hStands
      · left
        rcases List.mem_iff_getElem?.mp hWaits with ⟨i, hi⟩
        apply List.mem_eraseIdx_iff_getElem?.mpr
        refine ⟨i, ?_, hi⟩
        rintro rfl
        rw [hGet] at hi
        cases hi
        exact hIndex rfl
      · right
        rw [hChunk, if_neg hNat]
        exact hStands

/-
  Once the writer is stopped, every chunk that may be
  written is in its place, whatever the order was.
-/
theorem of_drains
    (h : w.Carries disk content handed)
    (hDistinct : (handed.map (·.index)).Nodup)
    (hDrains : w.Drains disk disk') :
    ∃ content',
      disk'.read w.path = .ok content' ∧
        content'.length = w.size ∧
        ∀ q ∈ handed,
          check w.size q.index q.data = .ok () →
            content'.chunk w.size q.index.toNat = q.data := by
  induction hDrains generalizing content with
  | done hQueue =>
      refine ⟨content, h.toWritesTo.read_eq, h.length_eq, ?_⟩
      intro q hq hCheck
      rcases h.waits_or_stands q hq hCheck with hWaits | hStands
      · rw [hQueue] at hWaits
        cases hWaits
      · exact hStands
  | write hPerform _ ih =>
      rcases perform_eq_some_iff.mp hPerform with
        ⟨q, hGet, -, rfl, rfl⟩
      exact ih (h.perform hDistinct hGet)

end Carries

end ChunkWriter

end PeerShare
