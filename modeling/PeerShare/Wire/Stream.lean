import PeerShare.IoFailure
import PeerShare.Wire.Frame

/-
  Receiving and sending messages on a stream.

  A stream delivers bytes in pieces of any size, and a read
  may fail.  A receiver keeps the bytes that do not yet make
  a frame.  A sink takes a limited number of bytes with each
  write, and a limited number of bytes in all.

  Key definitions include:
    * `Wire.Arrival`
    * `Wire.ReceiveError`
    * `Wire.Receiver`
    * `Wire.Receiver.receive`
    * `Wire.Sink`
    * `Wire.Sink.send`
-/

------------------------------------------------------------
-- Receiving
------------------------------------------------------------

namespace PeerShare

namespace Wire

/-
  What one read of a stream gives.  No bytes at all mean
  that the other side sends no more.
-/
inductive Arrival where
  | bytes (bs : Bytes)
  | failure (cause : IoFailure)

/- Why no message was received. -/
inductive ReceiveError where
  /- The read failed. -/
  | io (cause : IoFailure)
  /- The frame is not accepted. -/
  | frameTooLarge (length : Nat)
  /- The other side sends no more. -/
  | closed
  /- The payload is not a message. -/
  | malformed (error : DecodeError)
  deriving DecidableEq

/- The text of an error. -/
def ReceiveError.message : ReceiveError → String
  | io cause => "io error: " ++ cause.name
  | frameTooLarge length =>
      "frame too large: " ++ toString length ++ " bytes"
  | closed => "connection closed"
  | malformed error => error.message

/-
  A receiver: the bytes that wait to be read as frames, and
  what the reads still to come will give.
-/
structure Receiver where
  buffer : Bytes
  arrivals : List Arrival

/- The message of a payload. -/
def received
    (payload : Bytes) :
    Except ReceiveError Message :=
  match Message.decode payload with
  | .ok m => .ok m
  | .error e => .error (.malformed e)

/-
  Receive from a buffer and the reads still to come.  A
  frame is used up even if it is no message; a frame that is
  too large stays where it is.
-/
def receiveFrom
    (buffer : Bytes)
    (arrivals : List Arrival) :
    Except ReceiveError Message × Receiver :=
  match Frame.next buffer with
  | .frame payload rest => (received payload, ⟨rest, arrivals⟩)
  | .tooLarge length =>
      (.error (.frameTooLarge length), ⟨buffer, arrivals⟩)
  | .incomplete =>
      match arrivals with
      | [] => (.error .closed, ⟨buffer, []⟩)
      | .failure cause :: arrivals =>
          (.error (.io cause), ⟨buffer, arrivals⟩)
      | .bytes [] :: arrivals =>
          (.error .closed, ⟨buffer, arrivals⟩)
      | .bytes (b :: bs) :: arrivals =>
          receiveFrom (buffer ++ b :: bs) arrivals

namespace Receiver

/- A receiver that has read nothing. -/
def start
    (arrivals : List Arrival) : Receiver where
  buffer := []
  arrivals := arrivals

/- Receive the next message. -/
def receive
    (r : Receiver) :
    Except ReceiveError Message × Receiver :=
  receiveFrom r.buffer r.arrivals

/- The results of a number of calls of `receive`. -/
def receiveMany :
    (n : Nat) →
    Receiver →
    List (Except ReceiveError Message)
  | 0, _ => []
  | n + 1, r =>
      let (result, r) := r.receive
      result :: receiveMany n r

end Receiver

end Wire

end PeerShare

------------------------------------------------------------
-- Sending
------------------------------------------------------------

namespace PeerShare

namespace Wire

/-
  A sink that has taken some bytes, takes at most `piece`
  bytes with each write and `capacity` bytes in all.
-/
structure Sink where
  taken : Bytes
  piece : Nat
  capacity : Nat

namespace Sink

/- The number of bytes the sink still takes. -/
def room
    (s : Sink) : Nat :=
  s.capacity - s.taken.length

/- Put bytes into the sink. -/
def put
    (s : Sink)
    (bs : Bytes) : Sink :=
  { s with taken := s.taken ++ bs }

/-
  Write all bytes, piece by piece.  A write fails when there
  is no room; what was taken before stays.
-/
def writeAll
    (s : Sink)
    (bs : Bytes) :
    Except IoFailure Unit × Sink :=
  if bs = [] then (.ok (), s)
  else if s.room = 0 then (.error .brokenPipe, s)
  else if s.piece = 0 then (.error .writeZero, s)
  else
    let n := min s.piece s.room
    writeAll (s.put (bs.take n)) (bs.drop n)
termination_by bs.length
decreasing_by
  rename_i hBytes hRoom hPiece
  have hPos : 0 < bs.length := List.length_pos_iff.mpr hBytes
  simp only [List.length_drop]
  omega

/- Send a message as a frame. -/
def send
    (s : Sink)
    (m : Message) :
    Except IoFailure Unit × Sink :=
  s.writeAll m.frame

end Sink

end Wire

end PeerShare
