import PeerShare.Wire.Message

/-
  Frames: messages on a stream.

  A frame is a payload led by its length in four bytes.
  Frames with a payload of more than `maxFrame` bytes are
  not accepted.

  Key definitions include:
    * `Wire.maxFrame`
    * `Wire.Frame.encode`
    * `Wire.Frame.Next`
    * `Wire.Frame.next`
    * `Wire.Message.frame`
-/

namespace PeerShare

namespace Wire

/- The size of the largest payload that is accepted. -/
def maxFrame : Nat :=
  67108864

namespace Frame

/- The frame of a payload. -/
def encode
    (payload : Bytes) : Bytes :=
  Bytes.ofNat 4 payload.length ++ payload

/- What stands at the front of a stream. -/
inductive Next where
  /- A frame, and what follows it. -/
  | frame (payload rest : Bytes)
  /- A frame that is not accepted. -/
  | tooLarge (length : Nat)
  /- The start of a frame. -/
  | incomplete

/- The frame at the front of a stream. -/
def next
    (bs : Bytes) : Next :=
  match Bytes.splitExactly 4 bs with
  | .error _ => .incomplete
  | .ok (header, body) =>
      let length := header.toNat
      if maxFrame < length then .tooLarge length
      else
        match Bytes.splitExactly length body with
        | .error _ => .incomplete
        | .ok (payload, rest) => .frame payload rest

theorem length_rest_of_next
    {bs payload rest : Bytes}
    (h : next bs = .frame payload rest) :
    rest.length < bs.length := by
  rw [next] at h
  split at h
  · cases h
  · rename_i header body hHeader
    have hSplit := Bytes.splitExactly_eq_ok_iff.mp hHeader
    dsimp only at h
    split at h
    · cases h
    · split at h
      · cases h
      · rename_i payload' rest' hBody
        cases h
        have hSplit' := Bytes.splitExactly_eq_ok_iff.mp hBody
        rw [hSplit.1, hSplit'.1]
        simp only [List.length_append]
        omega

end Frame

/- The frame of a message. -/
def Message.frame
    (m : Message) : Bytes :=
  Frame.encode m.payload

end Wire

end PeerShare
