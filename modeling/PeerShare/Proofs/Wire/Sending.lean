import PeerShare.Proofs.Wire.Codec
import PeerShare.Proofs.Wire.Receiving

/-
  What is received is what was sent as a whole.

  A sink takes the row of the frames of some messages as far
  as it has room for, however small the pieces are.  A send
  succeeds just if all of its frame is taken, so the bytes
  that were taken divide into the frames that were sent, and
  at most a part of one more.

  Key definitions include:
    * `Wire.Sink.sendMany`
    * `Wire.sent`

  Key theorems include:
    * `Wire.Sink.writeAll_eq`
    * `Wire.Sink.put_of_sendMany`
    * `Wire.Sink.divides_of_sendMany`
    * `Wire.receiveMany_of_sendMany`
-/

------------------------------------------------------------
-- One Write
------------------------------------------------------------

namespace PeerShare

namespace Wire

namespace Sink

variable {s : Sink}

theorem put_nil
    (s : Sink) :
    s.put [] = s := by
  rw [put, List.append_nil]

theorem put_put
    (s : Sink)
    (bs more : Bytes) :
    (s.put bs).put more = s.put (bs ++ more) := by
  simp only [put, List.append_assoc]

theorem room_put
    (s : Sink)
    (bs : Bytes) :
    (s.put bs).room = s.room - bs.length := by
  rw [room, room, put, List.length_append, Nat.sub_add_eq]

/-
  A write puts in what there is room for, and succeeds just
  if that is all.
-/
theorem writeAll_eq
    (hPiece : 0 < s.piece)
    (bs : Bytes) :
    s.writeAll bs =
      (if bs.length ≤ s.room then .ok ()
        else .error .brokenPipe,
        s.put (bs.take s.room)) := by
  fun_induction writeAll s bs with
  | case1 s =>
      rw [List.length_nil, if_pos (Nat.zero_le _),
        List.take_nil, put_nil]
  | case2 s bs hBytes hRoom =>
      have hPos := List.length_pos_iff.mpr hBytes
      rw [hRoom, if_neg (Nat.not_le_of_lt hPos),
        List.take_zero, put_nil]
  | case3 s bs hBytes hRoom hNone =>
      exact absurd hNone (Nat.ne_of_gt hPiece)
  | case4 s bs hBytes hRoom hSome n ih =>
      -- What is not written now meets the room that is left.
      have hLe : n ≤ s.room := Nat.min_le_right _ _
      have hTake :
          bs.take s.room =
            bs.take n ++
              (bs.drop n).take
                (s.room - (bs.take n).length) := by
        have hSplit := congrArg (List.take s.room)
          (List.take_append_drop n bs)
        rw [List.take_append, List.take_take,
          Nat.min_eq_right hLe] at hSplit
        exact hSplit.symm
      have hFits :
          (bs.drop n).length ≤
              s.room - (bs.take n).length ↔
            bs.length ≤ s.room := by
        rw [List.length_drop, List.length_take]
        omega
      rw [ih hPiece, put_put, room_put, hTake]
      simp only [hFits]

/- A message is sent just if there is room for its frame. -/
theorem send_eq
    (hPiece : 0 < s.piece)
    (m : Message) :
    s.send m =
      (if m.frame.length ≤ s.room then .ok ()
        else .error .brokenPipe,
        s.put (m.frame.take s.room)) :=
  writeAll_eq hPiece m.frame

end Sink

end Wire

end PeerShare

------------------------------------------------------------
-- Many Sends
------------------------------------------------------------

namespace PeerShare

namespace Wire

/- The result of sending a message. -/
abbrev SendResult :=
  Except IoFailure Unit

/- Send messages one after another. -/
def Sink.sendMany
    (s : Sink) :
    List Message →
    List SendResult × Sink
  | [] => ([], s)
  | m :: messages =>
      let (result, s) := s.send m
      let (results, s) := s.sendMany messages
      (result :: results, s)

/- The messages that were sent, by the results. -/
def sent :
    List Message →
    List SendResult →
    List Message
  | m :: messages, .ok () :: results =>
      m :: sent messages results
  | _ :: messages, .error _ :: results =>
      sent messages results
  | _, _ => []

namespace Sink

variable {s : Sink}

/- The sink takes the row of frames as far as it can. -/
theorem put_of_sendMany
    (s : Sink)
    (hPiece : 0 < s.piece)
    (messages : List Message) :
    (s.sendMany messages).2 =
      s.put ((messages.flatMap Message.frame).take s.room) := by
  induction messages generalizing s with
  | nil =>
      rw [List.flatMap_nil, List.take_nil, put_nil, sendMany]
  | cons m messages ih =>
      have hLeft :
          s.room - (m.frame.take s.room).length =
            s.room - m.frame.length := by
        rw [List.length_take]
        omega
      have hLater := ih (s.put (m.frame.take s.room)) hPiece
      rw [put_put, room_put, hLeft] at hLater
      simp only [sendMany, send_eq hPiece, hLater,
        List.flatMap_cons, List.take_append]

theorem sent_of_le
    (hPiece : 0 < s.piece)
    {m : Message}
    (hFits : m.frame.length ≤ s.room)
    (messages : List Message) :
    sent (m :: messages) (s.sendMany (m :: messages)).1 =
      m :: sent messages
        ((s.put m.frame).sendMany messages).1 := by
  simp only [sendMany, send_eq hPiece, if_pos hFits, sent,
    List.take_of_length_le hFits]

theorem sent_of_lt
    (hPiece : 0 < s.piece)
    {m : Message}
    (hCut : s.room < m.frame.length)
    (messages : List Message) :
    sent (m :: messages) (s.sendMany (m :: messages)).1 =
      sent messages
        ((s.put (m.frame.take s.room)).sendMany
          messages).1 := by
  simp only [sendMany, send_eq hPiece,
    if_neg (Nat.not_le_of_lt hCut), sent]

/-
  What was taken is the frames that were sent, and at most a
  part of the first that was not: after it there is no room.
-/
theorem divides_of_sendMany
    (s : Sink)
    (hPiece : 0 < s.piece)
    {messages : List Message}
    (hMessages :
      ∀ m ∈ messages, m.payload.length ≤ maxFrame) :
    ∃ part,
      Frame.Divides
        ((messages.flatMap Message.frame).take s.room)
        ((sent messages (s.sendMany messages).1).map
          Message.payload)
        part .closed := by
  have hEnd : Frame.IsEnd [] .closed :=
    .cutHeader (Nat.zero_lt_succ 3)
  induction messages generalizing s with
  | nil =>
      rw [List.flatMap_nil, List.take_nil]
      exact ⟨[], rfl, List.forall_mem_nil _, hEnd⟩
  | cons m messages ih =>
      rcases List.forall_mem_cons.mp hMessages with
        ⟨hFirst, hOthers⟩
      rw [List.flatMap_cons, List.take_append]
      rcases Nat.lt_or_ge s.room m.frame.length with
        hCut | hFits
      · have hTaken :
            (m.frame.take s.room).length = s.room :=
          List.length_take_of_le (Nat.le_of_lt hCut)
        have hFull : s.room - m.frame.length = 0 :=
          Nat.sub_eq_zero_of_le (Nat.le_of_lt hCut)
        rcases ih (s.put (m.frame.take s.room)) hPiece
          hOthers with ⟨part, hDivides⟩
        rw [room_put, hTaken, Nat.sub_self,
          List.take_zero] at hDivides
        rw [sent_of_lt hPiece hCut, (hDivides.eq_nil hEnd).1,
          hFull, List.take_zero, List.append_nil]
        exact ⟨_, rfl, List.forall_mem_nil _,
          Frame.isEnd_take_encode hFirst hCut⟩
      · rcases ih (s.put m.frame) hPiece hOthers with
          ⟨part, hDivides⟩
        rw [room_put] at hDivides
        rw [sent_of_le hPiece hFits, List.map_cons,
          List.take_of_length_le hFits]
        exact ⟨part, hDivides.cons hFirst⟩

end Sink

end Wire

end PeerShare

------------------------------------------------------------
-- From a Sink to a Receiver
------------------------------------------------------------

namespace PeerShare

namespace Wire

/- A sink that has taken nothing. -/
def Sink.start
    (piece capacity : Nat) : Sink where
  taken := []
  piece := piece
  capacity := capacity

theorem delivered_map_bytes
    (pieces : List Bytes) :
    delivered (pieces.map .bytes) = pieces.flatten := by
  induction pieces with
  | nil => rfl
  | cons bs pieces ih =>
      rw [List.map_cons, delivered, ih, List.flatten_cons]

theorem failures_map_bytes
    (pieces : List Bytes) :
    failures (pieces.map .bytes) = 0 := by
  induction pieces with
  | nil => rfl
  | cons bs pieces ih => rw [List.map_cons, failures, ih]

theorem mem_sent
    {messages : List Message}
    {results : List SendResult}
    {m : Message}
    (h : m ∈ sent messages results) :
    m ∈ messages := by
  fun_induction sent messages results with
  | case1 m' messages results ih =>
      rcases List.mem_cons.mp h with rfl | hLater
      · exact List.mem_cons_self
      · exact List.mem_cons_of_mem _ (ih hLater)
  | case2 m' messages e results ih =>
      exact List.mem_cons_of_mem _ (ih h)
  | case3 => cases h

/- The payloads that were sent are the messages. -/
theorem map_received_payload
    {messages : List Message}
    (hMessages :
      ∀ m ∈ messages, m.payload.length ≤ maxFrame) :
    (messages.map Message.payload).map received =
      messages.map .ok := by
  rw [List.map_map]
  apply List.map_congr_left
  intro m hMem
  have hShort := Frame.lt_of_le_maxFrame (hMessages m hMem)
  simp only [Function.comp_apply, received,
    Message.decode_payload hShort]

/-
  A sink has taken the row of the frames as far as its
  capacity goes.  However these bytes are cut into reads,
  the messages that were sent without failure are received,
  each once and in their order, and then no more.
-/
theorem receiveMany_of_sendMany
    (piece capacity : Nat)
    {messages : List Message}
    (hMessages :
      ∀ m ∈ messages, m.payload.length ≤ maxFrame)
    (hPiece : 0 < piece) :
    let row := messages.flatMap Message.frame
    let sending :=
      (Sink.start piece capacity).sendMany messages
    let taken := sending.2.taken
    taken = row.take (min capacity row.length) ∧
      ∀ pieces : List Bytes,
        [] ∉ pieces →
          pieces.flatten = taken →
            ∀ n,
              let r := Receiver.start (pieces.map .bytes)
              let results : List Received :=
                (sent messages sending.1).map .ok ++
                  List.replicate n (.error .closed)
              r.receiveMany n = results.take n := by
  intro row sending taken
  have hTaken : taken = row.take capacity := by
    have hPut := Sink.put_of_sendMany
      (Sink.start piece capacity) hPiece messages
    exact congrArg Sink.taken hPut
  refine ⟨?_, ?_⟩
  · rw [hTaken, ← List.take_take, List.take_length]
  · intro pieces hPieces hFlatten n
    obtain ⟨part, hDivides⟩ :
        ∃ part,
          Frame.Divides (row.take capacity)
            ((sent messages sending.1).map Message.payload)
            part .closed :=
      Sink.divides_of_sendMany (Sink.start piece capacity)
        hPiece hMessages
    have hPending :
        (Receiver.start (pieces.map .bytes)).pending =
          row.take capacity :=
      (delivered_map_bytes pieces).trans
        (hFlatten.trans hTaken)
    have hBytes :
        Arrival.bytes [] ∉ pieces.map .bytes := by
      intro hMem
      rcases List.mem_map.mp hMem with ⟨bs, hNil, hEq⟩
      cases hEq
      exact hPieces hNil
    rw [← hPending] at hDivides
    have hFollows := Receiver.follows hDivides hBytes n
    have hSent :
        ∀ m ∈ sent messages sending.1,
          m.payload.length ≤ maxFrame :=
      fun m hMem => hMessages m (mem_sent hMem)
    intro r results
    rw [hFollows.receiveMany_eq (failures_map_bytes pieces),
      map_received_payload hSent]

/-
  Three messages to a sink that is full in the second frame,
  and four reads of what it took.
-/
theorem receiveMany_of_cut_frame :
    let messages : List Message :=
      [.request "a", .notFound "b", .remove "c"]
    let sending := (Sink.start 3 14).sendMany messages
    let pieces : List Bytes :=
      [[6, 0], [0, 0, 6, 1, 0], [0, 0, 97, 6, 0, 0], [0]]
    let r := Receiver.start (pieces.map .bytes)
    (∀ m ∈ messages, m.payload.length ≤ maxFrame) ∧
      sent messages sending.1 = [.request "a"] ∧
      sending.2.taken = pieces.flatten ∧
      r.receiveMany 3 =
        [.ok (.request "a"), .error .closed,
          .error .closed] := by
  intro messages sending pieces r
  have hMessages :
      ∀ m ∈ messages, m.payload.length ≤ maxFrame := by
    decide +kernel
  have hSent : sent messages sending.1 = [.request "a"] := by
    decide +kernel
  have hRow :
      (messages.flatMap Message.frame).take
          (min 14 (messages.flatMap Message.frame).length) =
        pieces.flatten := by
    decide +kernel
  have hNonempty : [] ∉ pieces := by
    decide
  rcases receiveMany_of_sendMany 3 14 hMessages
    (by decide) with ⟨hTaken, hReceive⟩
  have hFlatten := hRow.symm.trans hTaken.symm
  refine ⟨hMessages, hSent, hFlatten.symm, ?_⟩
  have hResults := hReceive pieces hNonempty hFlatten 3
  dsimp only at hResults
  rw [hSent] at hResults
  exact hResults

end Wire

end PeerShare
