import Mathlib.Algebra.Group.Nat.Defs
import PeerShare.Wire.Datagram

/-
  Layouts are exact: they read a value just from what they
  write of it, and leave what follows.

  Not every value can be written.  Lengths and numbers of
  items have four bytes, and a value fits when none of its
  lengths needs more.  That is so if it is short as a whole.

  Key definitions include:
    * `Wire.Layout.IsExact`
    * `Wire.Layout.FitsText`
    * `FileRecord.Fits`
    * `Wire.PeerEntry.Fits`
    * `Wire.Layout.ShortFits`

  Key theorems include:
    * `Wire.Layout.IsExact.seq`
    * `Wire.Layout.IsExact.refine`
    * `Wire.Layout.IsExact.list`
    * `Wire.Layout.isExact_fileRecord`
    * `Wire.Layout.shortFits_fileRecord`
-/

------------------------------------------------------------
-- Exact Layouts
------------------------------------------------------------

namespace PeerShare

namespace Wire

theorem take_eq_ok_iff
    {field : Field}
    {n : Nat}
    {bs front rest : Bytes} :
    take field n bs = .ok (front, rest) ↔
      bs = front ++ rest ∧ front.length = n := by
  rw [← Bytes.splitExactly_eq_ok_iff]
  unfold take
  cases Bytes.splitExactly n bs <;> simp

namespace Layout

variable {α β : Type}

/-
  Whether a layout reads back the values that fit, whatever
  follows them, and reads nothing else.
-/
structure IsExact
    (layout : Layout α)
    (Fits : α → Prop) : Prop where
  read_write :
    ∀ a rest,
      Fits a →
        layout.read (layout.write a ++ rest) = .ok (a, rest)
  of_read :
    ∀ bs a rest,
      layout.read bs = .ok (a, rest) →
        Fits a ∧ layout.write a ++ rest = bs

variable {first layout item : Layout α}
variable {second : Layout β}
variable {Fits Fits' : α → Prop}
variable {FitsSecond : β → Prop}

/- The same values fit, put otherwise. -/
theorem IsExact.congr
    (h : layout.IsExact Fits)
    (hFits : ∀ a, Fits a ↔ Fits' a) :
    layout.IsExact Fits' where
  read_write a rest hFit :=
    h.read_write a rest ((hFits a).mpr hFit)
  of_read bs a rest hRead := by
    rw [← hFits a]
    exact h.of_read bs a rest hRead

theorem IsExact.seq
    (hFirst : first.IsExact Fits)
    (hSecond : second.IsExact FitsSecond) :
    (first.seq second).IsExact
      fun v => Fits v.1 ∧ FitsSecond v.2 where
  read_write := by
    rintro ⟨a, b⟩ rest ⟨hFit, hFitSecond⟩
    have hFront :=
      hFirst.read_write a (second.write b ++ rest) hFit
    have hBack := hSecond.read_write b rest hFitSecond
    simp only [Layout.seq, List.append_assoc, hFront, hBack]
  of_read := by
    intro bs v rest h
    simp only [Layout.seq] at h
    split at h
    · cases h
    · rename_i a mid hFront
      split at h
      · cases h
      · rename_i b back hBack
        cases h
        rcases hFirst.of_read bs a mid hFront with
          ⟨hFit, rfl⟩
        rcases hSecond.of_read mid b rest hBack with
          ⟨hFitSecond, rfl⟩
        exact ⟨⟨hFit, hFitSecond⟩, List.append_assoc _ _ _⟩

/- Another form of the values is as good if none is lost. -/
theorem IsExact.convert
    (h : layout.IsExact Fits)
    {into : α → β}
    {back : β → α}
    (hBack : ∀ a, Fits a → back (into a) = a)
    (hInto : ∀ b, into (back b) = b) :
    (layout.convert into back).IsExact
      fun b => Fits (back b) where
  read_write := by
    intro b rest hFit
    simp only [Layout.convert, h.read_write _ rest hFit, hInto]
  of_read := by
    intro bs b rest hRead
    simp only [Layout.convert] at hRead
    split at hRead
    · cases hRead
    · rename_i a back' hFront
      cases hRead
      rcases h.of_read bs a rest hFront with ⟨hFit, rfl⟩
      simp only [Layout.convert, hBack a hFit]
      exact ⟨hFit, trivial⟩

/- Values may be refused if the others are told apart. -/
theorem IsExact.refine
    (h : layout.IsExact Fits)
    {into : α → Except DecodeError β}
    {back : β → α}
    (hInto : ∀ a b, into a = .ok b ↔ back b = a) :
    (layout.refine into back).IsExact
      fun b => Fits (back b) where
  read_write := by
    intro b rest hFit
    have hBack : into (back b) = .ok b := (hInto _ b).mpr rfl
    simp only [Layout.refine, h.read_write _ rest hFit, hBack]
  of_read := by
    intro bs b rest hRead
    simp only [Layout.refine] at hRead
    split at hRead
    · cases hRead
    · rename_i a rest' hFront
      split at hRead
      · cases hRead
      · rename_i b' hValue
        cases hRead
        rcases h.of_read bs a rest hFront with ⟨hFit, rfl⟩
        obtain rfl := (hInto a b).mp hValue
        exact ⟨hFit, rfl⟩

end Layout

end Wire

end PeerShare

------------------------------------------------------------
-- Numbers
------------------------------------------------------------

namespace PeerShare

namespace Wire

namespace Layout

theorem isExact_number
    (field : Field)
    (width : Nat) :
    (number field width).IsExact (· < Bytes.limit width) where
  read_write := by
    intro n rest hLt
    have hTake :
        take field width (Bytes.ofNat width n ++ rest) =
          .ok (Bytes.ofNat width n, rest) :=
      take_eq_ok_iff.mpr ⟨rfl, Bytes.length_ofNat width n⟩
    simp only [number, hTake, Bytes.toNat_ofNat,
      Nat.mod_eq_of_lt hLt]
  of_read := by
    intro bs n rest h
    simp only [number] at h
    split at h
    · cases h
    · rename_i digits rest' hTake
      cases h
      rcases take_eq_ok_iff.mp hTake with ⟨rfl, rfl⟩
      simp only [number, Bytes.ofNat_toNat]
      exact ⟨Bytes.toNat_lt digits, trivial⟩

theorem isExact_uint8
    (field : Field) :
    (uint8 field).IsExact fun _ => True :=
  ((isExact_number field 1).convert
    (fun _ hLt => UInt8.toNat_ofNat_of_lt' hLt)
    (fun _ => UInt8.ofNat_toNat)).congr
      fun b => iff_of_true b.toNat_lt trivial

theorem isExact_uint16
    (field : Field) :
    (uint16 field).IsExact fun _ => True :=
  ((isExact_number field 2).convert
    (fun _ hLt => UInt16.toNat_ofNat_of_lt' hLt)
    (fun _ => UInt16.ofNat_toNat)).congr
      fun b => iff_of_true b.toNat_lt trivial

theorem isExact_uint64
    (field : Field) :
    (uint64 field).IsExact fun _ => True :=
  ((isExact_number field 8).convert
    (fun _ hLt => UInt64.toNat_ofNat_of_lt' hLt)
    (fun _ => UInt64.ofNat_toNat)).congr
      fun b => iff_of_true b.toNat_lt trivial

theorem isExact_count
    (field : Field) :
    (count field).IsExact (· < 2 ^ 32) :=
  isExact_number field 4

end Layout

end Wire

end PeerShare

------------------------------------------------------------
-- Equal Pieces
------------------------------------------------------------

namespace PeerShare

namespace Bytes

variable {α : Type}
variable {width : Nat}

/- Items of one width are cut apart again. -/
theorem pieces_flatMap
    {write : α → Bytes}
    (hLength : ∀ a, (write a).length = width)
    (items : List α) :
    pieces items.length width (items.flatMap write) =
      items.map write := by
  induction items with
  | nil => rfl
  | cons a items ih =>
      rw [List.length_cons, List.flatMap_cons, pieces_succ,
        List.take_left' (hLength a),
        List.drop_left' (hLength a), ih, List.map_cons]

theorem length_flatMap_of_width
    {write : α → Bytes}
    (hLength : ∀ a, (write a).length = width)
    (items : List α) :
    (items.flatMap write).length = items.length * width := by
  induction items with
  | nil => simp
  | cons a items ih =>
      rw [List.flatMap_cons, List.length_append, hLength, ih,
        List.length_cons, Nat.succ_mul, Nat.add_comm]

/- A string is the row of its pieces, written again. -/
theorem flatMap_pieces
    {write : α → Bytes}
    {read : Bytes → α}
    (hWrite :
      ∀ bs : Bytes, bs.length = width → write (read bs) = bs)
    {n : Nat}
    {bs : Bytes}
    (hLength : bs.length = n * width) :
    ((pieces n width bs).map read).flatMap write = bs := by
  induction n generalizing bs with
  | zero =>
      rw [Nat.zero_mul] at hLength
      rw [List.eq_nil_of_length_eq_zero hLength]
      rfl
  | succ n ih =>
      rw [Nat.succ_mul] at hLength
      have hFront : (bs.take width).length = width :=
        List.length_take_of_le (by omega)
      have hBack : (bs.drop width).length = n * width := by
        rw [List.length_drop]
        omega
      rw [pieces_succ, List.map_cons, List.flatMap_cons,
        hWrite _ hFront, ih hBack, List.take_append_drop]

end Bytes

end PeerShare

------------------------------------------------------------
-- Byte Strings and Lists
------------------------------------------------------------

namespace PeerShare

namespace Wire

namespace Layout

variable {α : Type}

theorem isExact_block
    (field : Field) :
    (block field).IsExact (·.length < 2 ^ 32) where
  read_write := by
    intro bs rest hFit
    have hCount :=
      (isExact_count field).read_write _ (bs ++ rest) hFit
    have hTake :
        take field bs.length (bs ++ rest) = .ok (bs, rest) :=
      take_eq_ok_iff.mpr ⟨rfl, rfl⟩
    simp only [block, List.append_assoc, hCount, hTake]
  of_read := by
    intro bs v rest h
    simp only [block] at h
    split at h
    · cases h
    · rename_i n mid hCount
      rcases (isExact_count field).of_read bs n mid hCount with
        ⟨hLt, rfl⟩
      rcases take_eq_ok_iff.mp h with ⟨rfl, rfl⟩
      exact ⟨hLt, List.append_assoc _ _ _⟩

/- Whether a text is short enough to be written. -/
def FitsText
    (s : String) : Prop :=
  (Utf8.encode s).length < 2 ^ 32

theorem isExact_text
    (field : Field) :
    (text field).IsExact FitsText := by
  apply (isExact_block field).refine
  intro bs s
  constructor
  · intro h
    split at h
    · rename_i s' hDecode
      cases h
      exact Utf8.encode_of_decode hDecode
    · cases h
  · rintro rfl
    rw [Utf8.decode_encode]

theorem isExact_digest
    (field : Field) :
    (digest field).IsExact fun _ => True where
  read_write := by
    intro d rest _
    have hTake :
        take field 20 (d.bytes ++ rest) = .ok (d.bytes, rest) :=
      take_eq_ok_iff.mpr ⟨rfl, d.length_bytes⟩
    simp only [digest, hTake, Digest.ofBytes_bytes]
  of_read := by
    intro bs d rest h
    simp only [digest] at h
    split at h
    · cases h
    · rename_i front rest' hTake
      cases h
      rcases take_eq_ok_iff.mp hTake with ⟨rfl, hLength⟩
      simp only [digest, Digest.bytes_ofBytes hLength]
      exact ⟨trivial, trivial⟩

/- Items of one width that are not lost in their bytes. -/
theorem isExact_table
    (field : Field)
    {width : Nat}
    {write : α → Bytes}
    {read : Bytes → α}
    (hLength : ∀ a, (write a).length = width)
    (hRead : ∀ a, read (write a) = a)
    (hWrite :
      ∀ bs : Bytes, bs.length = width → write (read bs) = bs) :
    (table field width write read).IsExact
      (·.length < 2 ^ 32) where
  read_write := by
    intro items rest hFit
    have hCount :=
      (isExact_count field).read_write _
        (items.flatMap write ++ rest) hFit
    have hTake :
        take field (items.length * width)
            (items.flatMap write ++ rest) =
          .ok (items.flatMap write, rest) :=
      take_eq_ok_iff.mpr
        ⟨rfl, Bytes.length_flatMap_of_width hLength items⟩
    have hItems : (items.map write).map read = items := by
      rw [List.map_map]
      exact List.map_id'' hRead items
    simp only [table, List.append_assoc, hCount, hTake,
      Bytes.pieces_flatMap hLength, hItems]
  of_read := by
    intro bs items rest h
    simp only [table] at h
    split at h
    · cases h
    · rename_i n mid hCount
      rcases (isExact_count field).of_read bs n mid hCount with
        ⟨hLt, rfl⟩
      split at h
      · cases h
      · rename_i front rest' hTake
        cases h
        rcases take_eq_ok_iff.mp hTake with ⟨rfl, hFront⟩
        simp only [table, List.length_map, Bytes.length_pieces,
          Bytes.flatMap_pieces hWrite hFront,
          List.append_assoc]
        exact ⟨hLt, trivial⟩

theorem isExact_digests
    (field : Field) :
    (digests field).IsExact (·.length < 2 ^ 32) :=
  isExact_table field Digest.length_bytes
    Digest.ofBytes_bytes (fun _ => Digest.bytes_ofBytes)

theorem isExact_indices
    (field : Field) :
    (indices field).IsExact (·.length < 2 ^ 32) := by
  refine isExact_table field
    (fun i => Bytes.length_ofNat 2 i.toNat) ?_ ?_
  · intro i
    have hMod : i.toNat % Bytes.limit 2 = i.toNat :=
      Nat.mod_eq_of_lt i.toNat_lt
    rw [Bytes.toNat_ofNat, hMod, UInt16.ofNat_toNat]
  · intro bs hLength
    have hLt : Bytes.toNat bs < 2 ^ 16 := by
      have := Bytes.toNat_lt bs
      rwa [hLength] at this
    rw [UInt16.toNat_ofNat_of_lt' hLt, ← hLength,
      Bytes.ofNat_toNat]

variable {item : Layout α}
variable {Fits : α → Prop}

/- Items that were written are read behind those before. -/
theorem readItems_write
    (hItem : item.IsExact Fits)
    {items : List α}
    (hFits : ∀ a ∈ items, Fits a)
    (done : List α)
    (rest : Bytes) :
    readItems item items.length done
        (items.flatMap item.write ++ rest) =
      .ok (done.reverse ++ items, rest) := by
  induction items generalizing done with
  | nil => simp [readItems]
  | cons a items ih =>
      have hFirst :=
        hItem.read_write a (items.flatMap item.write ++ rest)
          (hFits a List.mem_cons_self)
      have hOthers : ∀ b ∈ items, Fits b :=
        fun b hMem => hFits b (List.mem_cons_of_mem a hMem)
      simp only [List.flatMap_cons, List.length_cons,
        readItems, List.append_assoc, hFirst, ih hOthers,
        List.reverse_cons, List.singleton_append]

theorem of_readItems
    (hItem : item.IsExact Fits)
    {n : Nat}
    {done items : List α}
    {bs rest : Bytes}
    (h : readItems item n done bs = .ok (items, rest)) :
    ∃ new,
      items = done.reverse ++ new ∧
        new.length = n ∧
        (∀ a ∈ new, Fits a) ∧
        new.flatMap item.write ++ rest = bs := by
  induction n generalizing done bs with
  | zero =>
      cases h
      exact ⟨[], (List.append_nil _).symm, rfl, by simp, rfl⟩
  | succ n ih =>
      simp only [readItems] at h
      split at h
      · cases h
      · rename_i a mid hFirst
        rcases hItem.of_read bs a mid hFirst with ⟨hFit, rfl⟩
        rcases ih h with ⟨new, rfl, rfl, hFits, rfl⟩
        refine ⟨a :: new, ?_, rfl, ?_, ?_⟩
        · simp
        · exact List.forall_mem_cons.mpr ⟨hFit, hFits⟩
        · rw [List.flatMap_cons, List.append_assoc]

theorem IsExact.list
    (hItem : item.IsExact Fits)
    (field : Field) :
    (Layout.list field item).IsExact
      fun items =>
        items.length < 2 ^ 32 ∧ ∀ a ∈ items, Fits a where
  read_write := by
    rintro items rest ⟨hLt, hFits⟩
    have hCount :=
      (isExact_count field).read_write _
        (items.flatMap item.write ++ rest) hLt
    have hItems := readItems_write hItem hFits [] rest
    simp only [Layout.list, List.append_assoc, hCount, hItems,
      List.reverse_nil, List.nil_append]
  of_read := by
    intro bs items rest h
    simp only [Layout.list] at h
    split at h
    · cases h
    · rename_i n mid hCount
      rcases (isExact_count field).of_read bs n mid hCount with
        ⟨hLt, rfl⟩
      rcases of_readItems hItem h with
        ⟨new, rfl, rfl, hFits, rfl⟩
      exact ⟨⟨hLt, hFits⟩, List.append_assoc _ _ _⟩

end Layout

end Wire

end PeerShare

------------------------------------------------------------
-- Files and Peers
------------------------------------------------------------

namespace PeerShare

/- Whether the description of a file can be written. -/
def FileRecord.Fits
    (file : FileRecord) : Prop :=
  Wire.Layout.FitsText file.name ∧
    file.chunkDigests.length < 2 ^ 32

namespace Wire

/- Whether a peer in an answer can be written. -/
def PeerEntry.Fits
    (entry : PeerEntry) : Prop :=
  Layout.FitsText entry.identity ∧
    entry.bitfield.length < 2 ^ 32

namespace Layout

theorem isExact_fileRecord :
    fileRecord.IsExact FileRecord.Fits := by
  have hParts :=
    (isExact_text .name).seq
      ((isExact_uint64 .size).seq
        ((isExact_digest .fileHash).seq
          (isExact_digests .chunkHashes)))
  refine (hParts.convert (fun _ _ => rfl) fun _ => rfl).congr ?_
  intro file
  simp only [FileRecord.Fits, true_and]

theorem isExact_peerEntry :
    peerEntry.IsExact PeerEntry.Fits := by
  have hParts :=
    (isExact_text .peerIdentity).seq
      ((isExact_uint16 .peerPort).seq
        (isExact_block .peerBitfield))
  refine (hParts.convert (fun _ _ => rfl) fun _ => rfl).congr ?_
  intro entry
  simp only [PeerEntry.Fits, true_and]

end Layout

end Wire

end PeerShare

------------------------------------------------------------
-- Short Values
------------------------------------------------------------

namespace PeerShare

namespace Wire

namespace Layout

variable {α β : Type}

/-
  Whether every value fits that is written in so few bytes
  that their number itself fits in four.
-/
def ShortFits
    (layout : Layout α)
    (Fits : α → Prop) : Prop :=
  ∀ a, (layout.write a).length < 2 ^ 32 → Fits a

variable {first item : Layout α}
variable {second : Layout β}
variable {Fits : α → Prop}
variable {FitsSecond : β → Prop}

theorem shortFits_true
    (layout : Layout α) :
    layout.ShortFits fun _ => True :=
  fun _ _ => trivial

/- The parts of a short value are short. -/
theorem ShortFits.seq
    (hFirst : first.ShortFits Fits)
    (hSecond : second.ShortFits FitsSecond) :
    (first.seq second).ShortFits
      fun v => Fits v.1 ∧ FitsSecond v.2 := by
  intro v hShort
  rw [Layout.seq, List.length_append] at hShort
  exact ⟨hFirst v.1 (by omega), hSecond v.2 (by omega)⟩

theorem shortFits_block
    (field : Field) :
    (block field).ShortFits (·.length < 2 ^ 32) := by
  intro bs hShort
  rw [block, List.length_append] at hShort
  omega

theorem shortFits_text
    (field : Field) :
    (text field).ShortFits FitsText :=
  fun s hShort => shortFits_block field (Utf8.encode s) hShort

/- There are not more items than there are bytes of them. -/
theorem length_le_length_flatMap
    {write : α → Bytes}
    (hPos : ∀ a, 0 < (write a).length)
    (items : List α) :
    items.length ≤ (items.flatMap write).length := by
  induction items with
  | nil => exact Nat.le_refl 0
  | cons a items ih =>
      have hFirst := hPos a
      rw [List.flatMap_cons, List.length_append,
        List.length_cons]
      omega

theorem shortFits_table
    (field : Field)
    {width : Nat}
    {write : α → Bytes}
    {read : Bytes → α}
    (hPos : ∀ a, 0 < (write a).length) :
    (table field width write read).ShortFits
      (·.length < 2 ^ 32) := by
  intro items hShort
  have hItems := length_le_length_flatMap hPos items
  rw [table, List.length_append] at hShort
  omega

/- The items of a short list are few and short. -/
theorem ShortFits.list
    (hItem : item.ShortFits Fits)
    (field : Field)
    (hPos : ∀ a, 0 < (item.write a).length) :
    (Layout.list field item).ShortFits
      fun items =>
        items.length < 2 ^ 32 ∧ ∀ a ∈ items, Fits a := by
  intro items hShort
  have hItems := length_le_length_flatMap hPos items
  rw [Layout.list, List.length_append] at hShort
  refine ⟨by omega, ?_⟩
  intro a hMem
  have hLe :
      (item.write a).length ≤
        (items.flatMap item.write).length := by
    rw [List.flatMap_def]
    exact (List.sublist_flatten_of_mem
      (List.mem_map_of_mem hMem)).length_le
  exact hItem a (by omega)

theorem shortFits_fileRecord :
    fileRecord.ShortFits FileRecord.Fits := by
  intro file hShort
  have hDigests :
      (digests .chunkHashes).ShortFits (·.length < 2 ^ 32) :=
    shortFits_table .chunkHashes fun d => by
      rw [d.length_bytes]
      decide
  have hParts :=
    ((shortFits_text .name).seq
      ((shortFits_true (uint64 .size)).seq
        ((shortFits_true (digest .fileHash)).seq
          hDigests))) _ hShort
  exact ⟨hParts.1, hParts.2.2.2⟩

theorem shortFits_peerEntry :
    peerEntry.ShortFits PeerEntry.Fits := by
  intro entry hShort
  have hParts :=
    ((shortFits_text .peerIdentity).seq
      ((shortFits_true (uint16 .peerPort)).seq
        (shortFits_block .peerBitfield))) _ hShort
  exact ⟨hParts.1, hParts.2.2⟩

theorem length_write_peerEntry_pos
    (entry : PeerEntry) :
    0 < (peerEntry.write entry).length := by
  simp only [peerEntry, convert, seq, text, refine, block,
    count, number, List.length_append, Bytes.length_ofNat]
  omega

end Layout

end Wire

end PeerShare
