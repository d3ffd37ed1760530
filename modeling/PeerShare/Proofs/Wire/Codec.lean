import PeerShare.Proofs.Wire.Layout
import PeerShare.Wire.Frame

/-
  Messages and datagrams are decoded from just the bytes
  they are encoded as, and no bytes are both a message and a
  datagram.

  Key definitions include:
    * `Wire.Layout.tag`
    * `Wire.Message.Fits`
    * `Wire.Datagram.Fits`

  Key theorems include:
    * `Wire.Message.readFields_eq_ok_iff`
    * `Wire.Message.decode_eq_ok_iff`
    * `Wire.Message.fits_of_length_payload`
    * `Wire.Datagram.decode_eq_ok_iff`
    * `Wire.decode_exactly_encoded`
-/

------------------------------------------------------------
-- Layouts of the Fields
------------------------------------------------------------

namespace PeerShare

namespace Wire

namespace Layout

/- The tag that leads a message. -/
def tag : Layout Tag :=
  (uint8 .id).refine
    (fun b =>
      match Tag.ofByte? b with
      | some tag => .ok tag
      | none => .error (.unknownTag b))
    Tag.toByte

theorem isExact_tag :
    tag.IsExact fun _ => True := by
  apply (isExact_uint8 .id).refine
  intro b t
  rw [← Tag.ofByte?_eq_some_iff]
  cases Tag.ofByte? b <;> simp

theorem write_tag
    (t : Tag) :
    tag.write t = [t.toByte] := by
  cases t <;> rfl

theorem isExact_introduction :
    introduction.IsExact fun v => FitsText v.1 :=
  ((isExact_text .identity).seq (isExact_uint16 .port)).congr
    fun _ => Iff.of_eq (and_true _)

theorem isExact_name :
    name.IsExact FitsText :=
  isExact_text .name

theorem isExact_holdings :
    holdings.IsExact
      fun v => FitsText v.1 ∧ v.2.length < 2 ^ 32 :=
  (isExact_text .name).seq (isExact_block .bitfield)

theorem isExact_successKind :
    successKind.IsExact fun _ => True := by
  apply (isExact_uint8 .kind).refine
  intro b kind
  rw [← Success.ofByte?_eq_some_iff]
  cases Success.ofByte? b <;> simp

theorem isExact_success :
    success.IsExact fun v => FitsText v.1 :=
  ((isExact_text .name).seq isExact_successKind).congr
    fun _ => Iff.of_eq (and_true _)

theorem isExact_answer :
    answer.IsExact
      fun v =>
        v.1.Fits ∧
          v.2.length < 2 ^ 32 ∧ ∀ e ∈ v.2, e.Fits :=
  isExact_fileRecord.seq (isExact_peerEntry.list .peers)

theorem isExact_chunkRequest :
    chunkRequest.IsExact
      fun v => FitsText v.1 ∧ v.2.length < 2 ^ 32 :=
  (isExact_text .name).seq (isExact_indices .indices)

theorem isExact_chunk :
    chunk.IsExact
      fun v => FitsText v.1 ∧ v.2.2.length < 2 ^ 32 := by
  refine ((isExact_text .name).seq
    ((isExact_uint16 .index).seq
      (isExact_block .data))).congr ?_
  intro v
  simp only [true_and]

end Layout

end Wire

end PeerShare

------------------------------------------------------------
-- Tags and Ends
------------------------------------------------------------

namespace PeerShare

namespace Wire

variable {α β : Type}

theorem readTag_eq_ok_iff
    {tag : Tag}
    {bs rest : Bytes} :
    readTag bs = .ok (tag, rest) ↔ tag.toByte :: rest = bs := by
  constructor
  · intro h
    have hWrite := (Layout.isExact_tag.of_read bs tag rest h).2
    rwa [Layout.write_tag] at hWrite
  · rintro rfl
    have hRead :=
      Layout.isExact_tag.read_write tag rest trivial
    rw [Layout.write_tag] at hRead
    exact hRead

/- All is read just if nothing is left. -/
theorem finish_eq_ok_iff
    {result : Except DecodeError (α × Bytes)}
    {a : α} :
    finish result = .ok a ↔ result = .ok (a, []) := by
  rcases result with e | ⟨b, _ | ⟨byte, rest⟩⟩ <;>
    simp [finish]

/- An exact layout read for another form of its values. -/
theorem Layout.IsExact.mapRead_eq_ok_iff
    {layout : Layout α}
    {Fits : α → Prop}
    (h : layout.IsExact Fits)
    {f : α → β}
    {b : β}
    {bs rest : Bytes} :
    mapRead f (layout.read bs) = .ok (b, rest) ↔
      ∃ a, f a = b ∧ Fits a ∧ layout.write a ++ rest = bs := by
  constructor
  · intro hRead
    unfold mapRead at hRead
    split at hRead
    · cases hRead
    · rename_i a rest' hFront
      cases hRead
      exact ⟨a, rfl, h.of_read bs a rest hFront⟩
  · rintro ⟨a, rfl, hFit, rfl⟩
    rw [h.read_write a rest hFit]
    rfl

end Wire

end PeerShare

------------------------------------------------------------
-- Messages
------------------------------------------------------------

namespace PeerShare

namespace Wire

namespace Message

/- Whether a message can be written. -/
def Fits : Message → Prop
  | init identity _ => Layout.FitsText identity
  | publish file => file.Fits
  | request name => Layout.FitsText name
  | holdings name bitfield =>
      Layout.FitsText name ∧ bitfield.length < 2 ^ 32
  | refresh name => Layout.FitsText name
  | remove name => Layout.FitsText name
  | success name _ => Layout.FitsText name
  | alreadyExists name => Layout.FitsText name
  | notFound name => Layout.FitsText name
  | answer file peers =>
      file.Fits ∧
        peers.length < 2 ^ 32 ∧ ∀ e ∈ peers, e.Fits

/- The fields of a message are read just from its bytes. -/
theorem readFields_eq_ok_iff
    {tag : Tag}
    {m : Message}
    {bs rest : Bytes} :
    readFields tag bs = .ok (m, rest) ↔
      m.tag = tag ∧ m.Fits ∧ m.fields ++ rest = bs := by
  constructor
  · intro h
    cases tag with
    | chunkRequest => cases h
    | chunk => cases h
    | init =>
        rcases Layout.isExact_introduction.mapRead_eq_ok_iff.mp
          h with ⟨v, rfl, hFits⟩
        exact ⟨rfl, hFits⟩
    | publish =>
        rcases Layout.isExact_fileRecord.mapRead_eq_ok_iff.mp
          h with ⟨v, rfl, hFits⟩
        exact ⟨rfl, hFits⟩
    | holdings =>
        rcases Layout.isExact_holdings.mapRead_eq_ok_iff.mp
          h with ⟨v, rfl, hFits⟩
        exact ⟨rfl, hFits⟩
    | success =>
        rcases Layout.isExact_success.mapRead_eq_ok_iff.mp
          h with ⟨v, rfl, hFits⟩
        exact ⟨rfl, hFits⟩
    | answer =>
        rcases Layout.isExact_answer.mapRead_eq_ok_iff.mp
          h with ⟨v, rfl, hFits⟩
        exact ⟨rfl, hFits⟩
    | _ =>
        rcases Layout.isExact_name.mapRead_eq_ok_iff.mp
          h with ⟨v, rfl, hFits⟩
        exact ⟨rfl, hFits⟩
  · rintro ⟨rfl, hFits⟩
    cases m with
    | init identity port =>
        exact Layout.isExact_introduction.mapRead_eq_ok_iff.mpr
          ⟨(identity, port), rfl, hFits⟩
    | publish file =>
        exact Layout.isExact_fileRecord.mapRead_eq_ok_iff.mpr
          ⟨file, rfl, hFits⟩
    | holdings name bitfield =>
        exact Layout.isExact_holdings.mapRead_eq_ok_iff.mpr
          ⟨(name, bitfield), rfl, hFits⟩
    | success name kind =>
        exact Layout.isExact_success.mapRead_eq_ok_iff.mpr
          ⟨(name, kind), rfl, hFits⟩
    | answer file peers =>
        exact Layout.isExact_answer.mapRead_eq_ok_iff.mpr
          ⟨(file, peers), rfl, hFits⟩
    | _ name =>
        exact Layout.isExact_name.mapRead_eq_ok_iff.mpr
          ⟨name, rfl, hFits⟩

/- A message is decoded just from its bytes. -/
theorem decode_eq_ok_iff
    {m : Message}
    {bs : Bytes} :
    decode bs = .ok m ↔ m.Fits ∧ m.payload = bs := by
  constructor
  · intro h
    unfold decode at h
    split at h
    · cases h
    · rename_i tag rest hTag
      have hFields := finish_eq_ok_iff.mp h
      rcases readFields_eq_ok_iff.mp hFields with
        ⟨rfl, hFits, hEq⟩
      rw [List.append_nil] at hEq
      rw [payload, hEq]
      exact ⟨hFits, readTag_eq_ok_iff.mp hTag⟩
  · rintro ⟨hFits, rfl⟩
    have hTag := readTag_eq_ok_iff.mpr
      (Eq.refl (m.tag.toByte :: m.fields))
    have hFields := readFields_eq_ok_iff.mpr
      ⟨rfl, hFits, List.append_nil m.fields⟩
    simp only [decode, payload, hTag]
    exact finish_eq_ok_iff.mpr hFields

/- A message fits if its payload is short. -/
theorem fits_of_length_payload
    {m : Message}
    (h : m.payload.length < 2 ^ 32) :
    m.Fits := by
  rw [payload, List.length_cons] at h
  have hShort := Nat.lt_of_succ_lt h
  cases m with
  | init identity port =>
      exact (((Layout.shortFits_text .identity).seq
        (Layout.shortFits_true (.uint16 .port)))
          (identity, port) hShort).1
  | publish file =>
      exact Layout.shortFits_fileRecord file hShort
  | holdings name bitfield =>
      exact ((Layout.shortFits_text .name).seq
        (Layout.shortFits_block .bitfield))
          (name, bitfield) hShort
  | success name kind =>
      exact (((Layout.shortFits_text .name).seq
        (Layout.shortFits_true .successKind))
          (name, kind) hShort).1
  | answer file peers =>
      exact (Layout.shortFits_fileRecord.seq
        (Layout.shortFits_peerEntry.list .peers
          Layout.length_write_peerEntry_pos))
            (file, peers) hShort
  | _ name => exact Layout.shortFits_text .name name hShort

/- What is sent in a frame that is accepted is received. -/
theorem decode_payload
    {m : Message}
    (h : m.payload.length < 2 ^ 32) :
    decode m.payload = .ok m :=
  decode_eq_ok_iff.mpr ⟨fits_of_length_payload h, rfl⟩

theorem channel_tag
    (m : Message) :
    m.tag.channel = .tracker := by
  cases m <;> rfl

end Message

end Wire

end PeerShare

------------------------------------------------------------
-- Datagrams
------------------------------------------------------------

namespace PeerShare

namespace Wire

namespace Datagram

/- Whether a datagram can be written. -/
def Fits : Datagram → Prop
  | request name indices =>
      Layout.FitsText name ∧ indices.length < 2 ^ 32
  | chunk name _ data =>
      Layout.FitsText name ∧ data.length < 2 ^ 32

/- The fields of a datagram are read just from its bytes. -/
theorem readFields_eq_ok_iff
    {tag : Tag}
    {d : Datagram}
    {bs rest : Bytes} :
    readFields tag bs = .ok (d, rest) ↔
      d.tag = tag ∧ d.Fits ∧ d.fields ++ rest = bs := by
  constructor
  · intro h
    cases tag with
    | chunkRequest =>
        rcases Layout.isExact_chunkRequest.mapRead_eq_ok_iff.mp
          h with ⟨v, rfl, hFits⟩
        exact ⟨rfl, hFits⟩
    | chunk =>
        rcases Layout.isExact_chunk.mapRead_eq_ok_iff.mp
          h with ⟨v, rfl, hFits⟩
        exact ⟨rfl, hFits⟩
    | _ => cases h
  · rintro ⟨rfl, hFits⟩
    cases d with
    | request name indices =>
        exact Layout.isExact_chunkRequest.mapRead_eq_ok_iff.mpr
          ⟨(name, indices), rfl, hFits⟩
    | chunk name index data =>
        exact Layout.isExact_chunk.mapRead_eq_ok_iff.mpr
          ⟨(name, index, data), rfl, hFits⟩

/- A datagram is decoded just from its bytes. -/
theorem decode_eq_ok_iff
    {d : Datagram}
    {bs : Bytes} :
    decode bs = .ok d ↔ d.Fits ∧ d.encode = bs := by
  constructor
  · intro h
    unfold decode at h
    split at h
    · cases h
    · rename_i tag rest hTag
      have hFields := finish_eq_ok_iff.mp h
      rcases readFields_eq_ok_iff.mp hFields with
        ⟨rfl, hFits, hEq⟩
      rw [List.append_nil] at hEq
      rw [encode, hEq]
      exact ⟨hFits, readTag_eq_ok_iff.mp hTag⟩
  · rintro ⟨hFits, rfl⟩
    have hTag := readTag_eq_ok_iff.mpr
      (Eq.refl (d.tag.toByte :: d.fields))
    have hFields := readFields_eq_ok_iff.mpr
      ⟨rfl, hFits, List.append_nil d.fields⟩
    simp only [decode, encode, hTag]
    exact finish_eq_ok_iff.mpr hFields

theorem channel_tag
    (d : Datagram) :
    d.tag.channel = .datagram := by
  cases d <;> rfl

end Datagram

end Wire

end PeerShare

------------------------------------------------------------
-- Both Channels
------------------------------------------------------------

namespace PeerShare

namespace Wire

/-
  What fits is decoded from its bytes, and only from them:
  messages behind the length in front of their payload, and
  datagrams as they are.  No bytes are decoded as both.
-/
theorem decode_exactly_encoded :
    (∀ m : Message,
      m.Fits →
        m.payload.length < 2 ^ 32 →
          (m.frame.take 4).length = 4 ∧
            Bytes.toNat (m.frame.take 4) =
              (m.frame.drop 4).length ∧
            Message.decode (m.frame.drop 4) = .ok m) ∧
      (∀ d : Datagram,
        d.Fits → Datagram.decode d.encode = .ok d) ∧
      (∀ bs m,
        Message.decode bs = .ok m →
          m.Fits ∧ m.frame.drop 4 = bs) ∧
      (∀ bs d,
        Datagram.decode bs = .ok d →
          d.Fits ∧ d.encode = bs) ∧
      ∀ bs m d,
        Message.decode bs = .ok m →
          Datagram.decode bs ≠ .ok d := by
  have hHeader :
      ∀ m : Message,
        m.frame.take 4 = Bytes.ofNat 4 m.payload.length :=
    fun m => List.take_left' (Bytes.length_ofNat 4 _)
  have hPayload :
      ∀ m : Message, m.frame.drop 4 = m.payload :=
    fun m => List.drop_left' (Bytes.length_ofNat 4 _)
  refine ⟨?_, ?_, ?_, ?_, ?_⟩
  · intro m hFits hLt
    rw [hHeader, hPayload, Bytes.length_ofNat,
      Bytes.toNat_ofNat]
    exact ⟨rfl, Nat.mod_eq_of_lt hLt,
      Message.decode_eq_ok_iff.mpr ⟨hFits, rfl⟩⟩
  · intro d hFits
    exact Datagram.decode_eq_ok_iff.mpr ⟨hFits, rfl⟩
  · intro bs m hDecode
    rw [hPayload]
    exact Message.decode_eq_ok_iff.mp hDecode
  · intro bs d hDecode
    exact Datagram.decode_eq_ok_iff.mp hDecode
  · intro bs m d hMessage hDatagram
    have hBytes :=
      (Message.decode_eq_ok_iff.mp hMessage).2.trans
        (Datagram.decode_eq_ok_iff.mp hDatagram).2.symm
    have hTag : m.tag = d.tag :=
      Tag.toByte_injective (List.cons.inj hBytes).1
    have hChannel := congrArg Tag.channel hTag
    rw [m.channel_tag, d.channel_tag] at hChannel
    cases hChannel

/- A name of two bytes in a message and in a datagram. -/
theorem decode_exactly_encoded_of_two_bytes :
    let m : Message := .holdings "é" [0x80]
    let d : Datagram := .request "é" [513]
    let bs : Bytes :=
      [5, 2, 0, 0, 0, 0xC3, 0xA9, 1, 0, 0, 0, 0x80]
    let packet : Bytes :=
      [11, 2, 0, 0, 0, 0xC3, 0xA9, 1, 0, 0, 0, 1, 2]
    (m.Fits ∧ m.payload.length < 2 ^ 32 ∧ d.Fits ∧
        Message.decode bs = .ok m ∧
        Datagram.decode packet = .ok d) ∧
      Bytes.toNat (m.frame.take 4) = (m.frame.drop 4).length ∧
      Message.decode (m.frame.drop 4) = .ok m ∧
      Datagram.decode d.encode = .ok d ∧
      m.frame.drop 4 = bs ∧
      d.encode = packet ∧
      Datagram.decode bs ≠ .ok d := by
  intro m d bs packet
  have hFits : m.Fits := by
    constructor
    · unfold Layout.FitsText
      decide +kernel
    · decide
  have hLength : m.payload.length < 2 ^ 32 := by
    decide +kernel
  have hFits' : d.Fits := by
    constructor
    · unfold Layout.FitsText
      decide +kernel
    · decide
  have hDecode : Message.decode bs = .ok m :=
    Message.decode_eq_ok_iff.mpr ⟨hFits, by decide +kernel⟩
  have hDecode' : Datagram.decode packet = .ok d :=
    Datagram.decode_eq_ok_iff.mpr ⟨hFits', by decide +kernel⟩
  rcases decode_exactly_encoded with
    ⟨hMessage, hDatagram, hBytes, hPacket, hApart⟩
  rcases hMessage m hFits hLength with ⟨-, hHeader, hPayload⟩
  exact ⟨⟨hFits, hLength, hFits', hDecode, hDecode'⟩,
    hHeader, hPayload, hDatagram d hFits',
    (hBytes bs m hDecode).2, (hPacket packet d hDecode').2,
    hApart bs m d hDecode⟩

end Wire

end PeerShare
