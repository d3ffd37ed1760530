import PeerShare.Proofs.Wire.Codec

/-
  Payloads that are cut off, and payloads with bytes behind
  them.

  A layout notices that the bytes of a value have been cut:
  reading them ends inside a field, for which bytes are
  missing.  It never finds another value, nor another fault,
  in the bytes that are left.  So a decoder tells a payload
  from everything that is left of it after a cut, and from
  everything that starts with it.

  Key definitions include:
    * `Wire.EndsInside`
    * `Wire.Layout.NoticesCuts`
    * `Wire.TellsApart`

  Key theorems include:
    * `Wire.Layout.NoticesCuts.next`
    * `Wire.Layout.NoticesCuts.seq`
    * `Wire.Layout.NoticesCuts.list`
    * `Wire.Message.tellsApart`
    * `Wire.Datagram.tellsApart`
    * `Wire.cut_and_padded_told_apart`
-/

------------------------------------------------------------
-- Cuts
------------------------------------------------------------

namespace PeerShare

/-
  A cut in a row of two parts falls inside the first part,
  or behind it and inside the second.
-/
theorem Bytes.cut_append
    {bs lost front back : Bytes}
    (h : bs ++ lost = front ++ back) :
    (∃ mid, mid ≠ [] ∧ bs ++ mid = front ∧
        mid.length ≤ lost.length) ∨
      ∃ rest, bs = front ++ rest ∧ rest ++ lost = back := by
  rcases List.append_eq_append_iff.mp h with
    ⟨mid, hFront, hLostEq⟩ | ⟨rest, hBs, hBack⟩
  · by_cases hMid : mid = []
    · right
      subst hMid
      refine ⟨[], ?_, ?_⟩
      · simp [hFront]
      · simpa using hLostEq
    · left
      refine ⟨mid, hMid, hFront.symm, ?_⟩
      rw [hLostEq, List.length_append]
      exact Nat.le_add_right _ _
  · exact Or.inr ⟨rest, hBs, hBack.symm⟩

namespace Wire

variable {α β : Type}

/-
  Whether reading ends inside a field, for which bytes are
  missing, but not more than have been `lost`.
-/
def EndsInside
    (result : Except DecodeError α)
    (lost : Nat) : Prop :=
  ∃ field missing,
    result = .error (.truncated field missing) ∧
      0 < missing ∧ missing ≤ lost

theorem EndsInside.mono
    {result : Except DecodeError α}
    {m n : Nat}
    (h : EndsInside result m)
    (hLe : m ≤ n) :
    EndsInside result n := by
  rcases h with ⟨field, missing, hResult, hPos, hMissing⟩
  exact ⟨field, missing, hResult, hPos, Nat.le_trans hMissing hLe⟩

/- A field cannot be taken from bytes that are too few. -/
theorem endsInside_take
    (field : Field)
    {bs lost : Bytes}
    (hLost : lost ≠ []) :
    EndsInside (take field (bs ++ lost).length bs)
      lost.length := by
  have hPos : 0 < lost.length := List.length_pos_iff.mpr hLost
  have hShort : bs.length < (bs ++ lost).length := by
    rw [List.length_append]
    omega
  refine ⟨field, lost.length, ?_, hPos, Nat.le_refl _⟩
  unfold take
  rw [Bytes.splitExactly_of_lt hShort, List.length_append,
    Nat.add_sub_cancel_left]

end Wire

end PeerShare

------------------------------------------------------------
-- Layouts
------------------------------------------------------------

namespace PeerShare

namespace Wire

namespace Layout

variable {α β : Type}

/-
  Whether reading ends inside a field whenever the bytes of
  a value that fits have been cut.
-/
def NoticesCuts
    (layout : Layout α)
    (Fits : α → Prop) : Prop :=
  ∀ a bs lost,
    Fits a →
      lost ≠ [] →
        bs ++ lost = layout.write a →
          EndsInside (layout.read bs) lost.length

variable {layout first item : Layout α}
variable {second : Layout β}
variable {Fits Fits' : α → Prop}
variable {FitsSecond : β → Prop}

theorem NoticesCuts.congr
    (h : layout.NoticesCuts Fits)
    (hFits : ∀ a, Fits' a → Fits a) :
    layout.NoticesCuts Fits' :=
  fun a bs lost hFit => h a bs lost (hFits a hFit)

/-
  What becomes of a cut in the bytes of a value with others
  behind it: either it is noticed, or the value is read and
  the cut is in what follows.
-/
theorem NoticesCuts.next
    (hCuts : first.NoticesCuts Fits)
    (hExact : first.IsExact Fits)
    {a : α}
    {bs lost back : Bytes}
    (hFit : Fits a)
    (h : bs ++ lost = first.write a ++ back) :
    EndsInside (first.read bs) lost.length ∨
      ∃ rest,
        first.read bs = .ok (a, rest) ∧
          rest ++ lost = back := by
  rcases Bytes.cut_append h with
    ⟨mid, hMid, hFront, hLe⟩ | ⟨rest, rfl, hBack⟩
  · exact Or.inl ((hCuts a bs mid hFit hMid hFront).mono hLe)
  · exact Or.inr ⟨rest, hExact.read_write a rest hFit, hBack⟩

theorem NoticesCuts.seq
    (hFirst : first.NoticesCuts Fits)
    (hExact : first.IsExact Fits)
    (hSecond : second.NoticesCuts FitsSecond) :
    (first.seq second).NoticesCuts
      fun v => Fits v.1 ∧ FitsSecond v.2 := by
  rintro ⟨a, b⟩ bs lost ⟨hFit, hFitSecond⟩ hLost h
  rcases hFirst.next hExact hFit h with
    ⟨field, missing, hRead, hBounds⟩ | ⟨rest, hRead, hBack⟩
  · refine ⟨field, missing, ?_, hBounds⟩
    simp only [Layout.seq, hRead]
  · rcases hSecond b rest lost hFitSecond hLost hBack with
      ⟨field, missing, hRest, hBounds⟩
    refine ⟨field, missing, ?_, hBounds⟩
    simp only [Layout.seq, hRead, hRest]

theorem NoticesCuts.convert
    (hCuts : layout.NoticesCuts Fits)
    {into : α → β}
    {back : β → α} :
    (layout.convert into back).NoticesCuts
      fun b => Fits (back b) := by
  intro b bs lost hFit hLost h
  rcases hCuts (back b) bs lost hFit hLost h with
    ⟨field, missing, hRead, hBounds⟩
  refine ⟨field, missing, ?_, hBounds⟩
  simp only [Layout.convert, hRead]

/- A value that is cut is not looked at any further. -/
theorem NoticesCuts.refine
    (hCuts : layout.NoticesCuts Fits)
    {into : α → Except DecodeError β}
    {back : β → α} :
    (layout.refine into back).NoticesCuts
      fun b => Fits (back b) := by
  intro b bs lost hFit hLost h
  rcases hCuts (back b) bs lost hFit hLost h with
    ⟨field, missing, hRead, hBounds⟩
  refine ⟨field, missing, ?_, hBounds⟩
  simp only [Layout.refine, hRead]

end Layout

end Wire

end PeerShare

------------------------------------------------------------
-- Fields
------------------------------------------------------------

namespace PeerShare

namespace Wire

namespace Layout

variable {α : Type}

theorem noticesCuts_number
    (field : Field)
    (width : Nat) :
    (number field width).NoticesCuts
      (· < Bytes.limit width) := by
  intro n bs lost _ hLost h
  have hWidth : (bs ++ lost).length = width := by
    rw [h]
    exact Bytes.length_ofNat width n
  rcases endsInside_take field hLost with
    ⟨field', missing, hTake, hBounds⟩
  rw [hWidth] at hTake
  refine ⟨field', missing, ?_, hBounds⟩
  simp only [number, hTake]

theorem noticesCuts_uint8
    (field : Field) :
    (uint8 field).NoticesCuts fun _ => True :=
  (noticesCuts_number field 1).convert.congr
    fun b _ => b.toNat_lt

theorem noticesCuts_uint16
    (field : Field) :
    (uint16 field).NoticesCuts fun _ => True :=
  (noticesCuts_number field 2).convert.congr
    fun b _ => b.toNat_lt

theorem noticesCuts_uint64
    (field : Field) :
    (uint64 field).NoticesCuts fun _ => True :=
  (noticesCuts_number field 8).convert.congr
    fun b _ => b.toNat_lt

theorem noticesCuts_count
    (field : Field) :
    (count field).NoticesCuts (· < 2 ^ 32) :=
  noticesCuts_number field 4

theorem noticesCuts_block
    (field : Field) :
    (block field).NoticesCuts (·.length < 2 ^ 32) := by
  intro v bs lost hFit hLost h
  rcases (noticesCuts_count field).next (isExact_count field)
      hFit h with
    ⟨field', missing, hCount, hBounds⟩ |
    ⟨rest, hCount, rfl⟩
  · refine ⟨field', missing, ?_, hBounds⟩
    simp only [block, hCount]
  · simp only [block, hCount]
    exact endsInside_take field hLost

/- Bytes that are left of a text are not read as text. -/
theorem noticesCuts_text
    (field : Field) :
    (text field).NoticesCuts FitsText :=
  (noticesCuts_block field).refine

theorem noticesCuts_digest
    (field : Field) :
    (digest field).NoticesCuts fun _ => True := by
  intro d bs lost _ hLost h
  have hWidth : (bs ++ lost).length = 20 := by
    rw [h]
    exact d.length_bytes
  rcases endsInside_take field hLost with
    ⟨field', missing, hTake, hBounds⟩
  rw [hWidth] at hTake
  refine ⟨field', missing, ?_, hBounds⟩
  simp only [digest, hTake]

/- The items of a table are taken only when all are there. -/
theorem noticesCuts_table
    (field : Field)
    {width : Nat}
    {write : α → Bytes}
    {read : Bytes → α}
    (hLength : ∀ a, (write a).length = width) :
    (table field width write read).NoticesCuts
      (·.length < 2 ^ 32) := by
  intro items bs lost hFit hLost h
  rcases (noticesCuts_count field).next (isExact_count field)
      hFit h with
    ⟨field', missing, hCount, hBounds⟩ |
    ⟨rest, hCount, hItems⟩
  · refine ⟨field', missing, ?_, hBounds⟩
    simp only [table, hCount]
  · have hWidth :
        (rest ++ lost).length = items.length * width := by
      rw [hItems]
      exact Bytes.length_flatMap_of_width hLength items
    rcases endsInside_take field hLost with
      ⟨field', missing, hTake, hBounds⟩
    rw [hWidth] at hTake
    refine ⟨field', missing, ?_, hBounds⟩
    simp only [table, hCount, hTake]

theorem noticesCuts_digests
    (field : Field) :
    (digests field).NoticesCuts (·.length < 2 ^ 32) :=
  noticesCuts_table field Digest.length_bytes

theorem noticesCuts_indices
    (field : Field) :
    (indices field).NoticesCuts (·.length < 2 ^ 32) :=
  noticesCuts_table field
    fun i => Bytes.length_ofNat 2 i.toNat

variable {item : Layout α}
variable {Fits : α → Prop}

/-
  A cut in a row of items is noticed by the item in which it
  falls; those in front of it are read.
-/
theorem NoticesCuts.readItems
    (hCuts : item.NoticesCuts Fits)
    (hExact : item.IsExact Fits)
    {items : List α}
    (hFits : ∀ a ∈ items, Fits a)
    (done : List α)
    {bs lost : Bytes}
    (hLost : lost ≠ [])
    (h : bs ++ lost = items.flatMap item.write) :
    EndsInside (readItems item items.length done bs)
      lost.length := by
  induction items generalizing done bs with
  | nil =>
      have hNil := (List.append_eq_nil_iff.mp h).2
      exact absurd hNil hLost
  | cons a items ih =>
      rcases List.forall_mem_cons.mp hFits with
        ⟨hFit, hOthers⟩
      rw [List.flatMap_cons] at h
      rw [List.length_cons, Layout.readItems]
      rcases hCuts.next hExact hFit h with
        ⟨field, missing, hRead, hBounds⟩ |
        ⟨rest, hRead, hBack⟩
      · refine ⟨field, missing, ?_, hBounds⟩
        simp only [hRead]
      · simp only [hRead]
        exact ih hOthers (a :: done) hBack

theorem NoticesCuts.list
    (hCuts : item.NoticesCuts Fits)
    (hExact : item.IsExact Fits)
    (field : Field) :
    (Layout.list field item).NoticesCuts
      fun items =>
        items.length < 2 ^ 32 ∧ ∀ a ∈ items, Fits a := by
  rintro items bs lost ⟨hLt, hFits⟩ hLost h
  rcases (noticesCuts_count field).next (isExact_count field)
      hLt h with
    ⟨field', missing, hCount, hBounds⟩ |
    ⟨rest, hCount, hItems⟩
  · refine ⟨field', missing, ?_, hBounds⟩
    simp only [Layout.list, hCount]
  · simp only [Layout.list, hCount]
    exact hCuts.readItems hExact hFits [] hLost hItems

end Layout

end Wire

end PeerShare

------------------------------------------------------------
-- Layouts of the Fields of Messages
------------------------------------------------------------

namespace PeerShare

namespace Wire

namespace Layout

theorem noticesCuts_fileRecord :
    fileRecord.NoticesCuts FileRecord.Fits := by
  have hHashes :=
    (noticesCuts_digest .fileHash).seq
      (isExact_digest .fileHash)
      (noticesCuts_digests .chunkHashes)
  have hSize :=
    (noticesCuts_uint64 .size).seq (isExact_uint64 .size)
      hHashes
  have hParts :=
    (noticesCuts_text .name).seq (isExact_text .name) hSize
  apply hParts.convert.congr
  rintro file ⟨hName, hDigests⟩
  exact ⟨hName, trivial, trivial, hDigests⟩

theorem noticesCuts_peerEntry :
    peerEntry.NoticesCuts PeerEntry.Fits := by
  have hPort :=
    (noticesCuts_uint16 .peerPort).seq
      (isExact_uint16 .peerPort)
      (noticesCuts_block .peerBitfield)
  have hParts :=
    (noticesCuts_text .peerIdentity).seq
      (isExact_text .peerIdentity) hPort
  apply hParts.convert.congr
  rintro entry ⟨hIdentity, hBitfield⟩
  exact ⟨hIdentity, trivial, hBitfield⟩

theorem noticesCuts_introduction :
    introduction.NoticesCuts fun v => FitsText v.1 :=
  ((noticesCuts_text .identity).seq (isExact_text .identity)
    (noticesCuts_uint16 .port)).congr
      fun _ hFit => ⟨hFit, trivial⟩

theorem noticesCuts_name :
    name.NoticesCuts FitsText :=
  noticesCuts_text .name

theorem noticesCuts_holdings :
    holdings.NoticesCuts
      fun v => FitsText v.1 ∧ v.2.length < 2 ^ 32 :=
  (noticesCuts_text .name).seq (isExact_text .name)
    (noticesCuts_block .bitfield)

theorem noticesCuts_successKind :
    successKind.NoticesCuts fun _ => True :=
  (noticesCuts_uint8 .kind).refine

theorem noticesCuts_success :
    success.NoticesCuts fun v => FitsText v.1 :=
  ((noticesCuts_text .name).seq (isExact_text .name)
    noticesCuts_successKind).congr
      fun _ hFit => ⟨hFit, trivial⟩

theorem noticesCuts_answer :
    answer.NoticesCuts
      fun v =>
        v.1.Fits ∧
          v.2.length < 2 ^ 32 ∧ ∀ e ∈ v.2, e.Fits :=
  noticesCuts_fileRecord.seq isExact_fileRecord
    (noticesCuts_peerEntry.list isExact_peerEntry .peers)

theorem noticesCuts_chunkRequest :
    chunkRequest.NoticesCuts
      fun v => FitsText v.1 ∧ v.2.length < 2 ^ 32 :=
  (noticesCuts_text .name).seq (isExact_text .name)
    (noticesCuts_indices .indices)

theorem noticesCuts_chunk :
    chunk.NoticesCuts
      fun v => FitsText v.1 ∧ v.2.2.length < 2 ^ 32 := by
  have hIndex :=
    (noticesCuts_uint16 .index).seq (isExact_uint16 .index)
      (noticesCuts_block .data)
  have hParts :=
    (noticesCuts_text .name).seq (isExact_text .name) hIndex
  apply hParts.congr
  rintro v ⟨hName, hData⟩
  exact ⟨hName, trivial, hData⟩

end Layout

end Wire

end PeerShare

------------------------------------------------------------
-- Messages and Datagrams
------------------------------------------------------------

namespace PeerShare

namespace Wire

variable {α β : Type}

/-
  Whether a decoder tells a payload from what is left of it
  after a cut, and from what starts with it.  The error says
  that bytes are missing, and not more than have been cut
  off, or how many bytes there are too many.
-/
structure TellsApart
    (decode : Bytes → Except DecodeError α)
    (payload : Bytes) : Prop where
  cut :
    ∀ bs,
      bs <+: payload →
        bs ≠ payload →
          EndsInside (decode bs) (payload.length - bs.length)
  padded :
    ∀ extra,
      extra ≠ [] →
        decode (payload ++ extra) =
          .error (.trailing extra.length)

theorem EndsInside.mapRead
    {result : Except DecodeError (α × Bytes)}
    {lost : Nat}
    (h : EndsInside result lost)
    (f : α → β) :
    EndsInside (mapRead f result) lost := by
  rcases h with ⟨field, missing, rfl, hBounds⟩
  exact ⟨field, missing, rfl, hBounds⟩

/-
  A decoder reads a tag, fields and an end.  It is as good
  as the reading of the fields.
-/
theorem tellsApart_of_readFields
    {readFields :
      Tag → Bytes → Except DecodeError (α × Bytes)}
    {decode : Bytes → Except DecodeError α}
    (hDecode :
      ∀ tag rest,
        decode (tag.toByte :: rest) =
          finish (readFields tag rest))
    (hNil : decode [] = .error (.truncated .id 1))
    {tag : Tag}
    {fields : Bytes}
    {a : α}
    (hCut :
      ∀ bs lost,
        lost ≠ [] →
          bs ++ lost = fields →
            EndsInside (readFields tag bs) lost.length)
    (hRead :
      ∀ rest, readFields tag (fields ++ rest) = .ok (a, rest)) :
    TellsApart decode (tag.toByte :: fields) where
  cut := by
    rintro bs ⟨lost, h⟩ hNe
    have hLost : lost ≠ [] := by
      rintro rfl
      exact hNe (by simpa using h)
    have hLength :
        (tag.toByte :: fields).length - bs.length =
          lost.length := by
      rw [← h, List.length_append, Nat.add_sub_cancel_left]
    rw [hLength]
    cases bs with
    | nil =>
        exact ⟨.id, 1, hNil, Nat.one_pos,
          List.length_pos_iff.mpr hLost⟩
    | cons b bs =>
        rcases List.cons.inj h with ⟨rfl, hFields⟩
        rcases hCut bs lost hLost hFields with
          ⟨field, missing, hRest, hBounds⟩
        refine ⟨field, missing, ?_, hBounds⟩
        rw [hDecode, hRest]
        rfl
  padded := by
    intro extra hExtra
    rw [List.cons_append, hDecode, hRead]
    cases extra with
    | nil => exact absurd rfl hExtra
    | cons b extra => rfl

namespace Message

/- Whatever the tag, a cut in the fields is noticed. -/
theorem endsInside_readFields
    {m : Message}
    (hFits : m.Fits)
    {bs lost : Bytes}
    (hLost : lost ≠ [])
    (h : bs ++ lost = m.fields) :
    EndsInside (readFields m.tag bs) lost.length := by
  cases m with
  | init identity port =>
      exact (Layout.noticesCuts_introduction
        (identity, port) bs lost hFits hLost h).mapRead _
  | publish file =>
      exact (Layout.noticesCuts_fileRecord
        file bs lost hFits hLost h).mapRead _
  | holdings name bitfield =>
      exact (Layout.noticesCuts_holdings
        (name, bitfield) bs lost hFits hLost h).mapRead _
  | success name kind =>
      exact (Layout.noticesCuts_success
        (name, kind) bs lost hFits hLost h).mapRead _
  | answer file peers =>
      exact (Layout.noticesCuts_answer
        (file, peers) bs lost hFits hLost h).mapRead _
  | _ name =>
      exact (Layout.noticesCuts_name
        name bs lost hFits hLost h).mapRead _

theorem tellsApart
    {m : Message}
    (hFits : m.Fits) :
    TellsApart decode m.payload := by
  have hDecode :
      ∀ tag rest,
        decode (tag.toByte :: rest) =
          finish (readFields tag rest) := by
    intro tag rest
    rw [decode, readTag_eq_ok_iff.mpr rfl]
  have hRead :
      ∀ rest,
        readFields m.tag (m.fields ++ rest) =
          .ok (m, rest) :=
    fun _ => readFields_eq_ok_iff.mpr ⟨rfl, hFits, rfl⟩
  exact tellsApart_of_readFields hDecode rfl
    (fun _ _ hLost h => endsInside_readFields hFits hLost h)
    hRead

end Message

namespace Datagram

theorem endsInside_readFields
    {d : Datagram}
    (hFits : d.Fits)
    {bs lost : Bytes}
    (hLost : lost ≠ [])
    (h : bs ++ lost = d.fields) :
    EndsInside (readFields d.tag bs) lost.length := by
  cases d with
  | request name indices =>
      exact (Layout.noticesCuts_chunkRequest
        (name, indices) bs lost hFits hLost h).mapRead _
  | chunk name index data =>
      exact (Layout.noticesCuts_chunk
        (name, index, data) bs lost hFits hLost h).mapRead _

theorem tellsApart
    {d : Datagram}
    (hFits : d.Fits) :
    TellsApart decode d.encode := by
  have hDecode :
      ∀ tag rest,
        decode (tag.toByte :: rest) =
          finish (readFields tag rest) := by
    intro tag rest
    rw [decode, readTag_eq_ok_iff.mpr rfl]
  have hRead :
      ∀ rest,
        readFields d.tag (d.fields ++ rest) =
          .ok (d, rest) :=
    fun _ => readFields_eq_ok_iff.mpr ⟨rfl, hFits, rfl⟩
  exact tellsApart_of_readFields hDecode rfl
    (fun _ _ hLost h => endsInside_readFields hFits hLost h)
    hRead

end Datagram

/-
  A message or datagram that fits is told from everything
  that is left of it after a cut, and from everything that
  starts with it.
-/
theorem cut_and_padded_told_apart :
    (∀ m : Message,
      m.Fits → TellsApart Message.decode m.payload) ∧
      ∀ d : Datagram,
        d.Fits → TellsApart Datagram.decode d.encode :=
  ⟨fun _ hFits => Message.tellsApart hFits,
    fun _ hFits => Datagram.tellsApart hFits⟩

/- A cut in a letter of two bytes, and one in an index. -/
theorem cut_and_padded_told_apart_of_two_bytes :
    let m : Message := .holdings "é" [0x80]
    let d : Datagram := .request "é" [513]
    let cut : Bytes := [5, 2, 0, 0, 0, 0xC3]
    let cut' : Bytes :=
      [11, 2, 0, 0, 0, 0xC3, 0xA9, 1, 0, 0, 0, 1]
    (m.Fits ∧ d.Fits) ∧
      (cut <+: m.payload ∧ cut ≠ m.payload) ∧
      (cut' <+: d.encode ∧ cut' ≠ d.encode) ∧
      EndsInside (Message.decode cut) 6 ∧
      EndsInside (Datagram.decode cut') 1 ∧
      Message.decode (m.payload ++ [0, 0]) =
        .error (.trailing 2) ∧
      Datagram.decode (d.encode ++ [0]) =
        .error (.trailing 1) := by
  intro m d cut cut'
  have hFits : m.Fits := by
    constructor
    · unfold Layout.FitsText
      decide +kernel
    · decide
  have hFits' : d.Fits := by
    constructor
    · unfold Layout.FitsText
      decide +kernel
    · decide
  have hCut : cut <+: m.payload ∧ cut ≠ m.payload := by
    decide +kernel
  have hCut' : cut' <+: d.encode ∧ cut' ≠ d.encode := by
    decide +kernel
  have hMessage := cut_and_padded_told_apart.1 m hFits
  have hDatagram := cut_and_padded_told_apart.2 d hFits'
  exact ⟨⟨hFits, hFits'⟩, hCut, hCut',
    hMessage.cut cut hCut.1 hCut.2,
    hDatagram.cut cut' hCut'.1 hCut'.2,
    hMessage.padded [0, 0] (by simp),
    hDatagram.padded [0] (by simp)⟩

end Wire

end PeerShare
