import Mathlib.Control.Monad.Basic
import PeerShare.Proofs.Wire.Division

/-
  What is received does not depend on how a stream arrives.

  However the bytes of a stream are cut into reads, and
  wherever reads fail in between, the calls of a receiver
  that do not fail with a read go through the frames of the
  bytes one after another and then say why there is no more.

  Key definitions include:
    * `Wire.delivered`
    * `Wire.Delivers`
    * `Wire.heard`
    * `Wire.upToEnd`
    * `Wire.Receiver.pending`
    * `Wire.Receiver.after`
    * `Wire.Receiver.Step`
    * `Wire.Receiver.Follows`
    * `Wire.Receiver.Receives`

  Key theorems include:
    * `Wire.Receiver.step_receive`
    * `Wire.Receiver.follows`
    * `Wire.Receiver.receives`
    * `Wire.Receiver.results_of_delivery`
-/

------------------------------------------------------------
-- Deliveries
------------------------------------------------------------

namespace PeerShare

namespace Wire

/- The bytes that some reads give, one after another. -/
def delivered : List Arrival → Bytes
  | [] => []
  | .bytes bs :: arrivals => bs ++ delivered arrivals
  | .failure _ :: arrivals => delivered arrivals

/- The number of reads that fail. -/
def failures : List Arrival → Nat
  | [] => 0
  | .bytes _ :: arrivals => failures arrivals
  | .failure _ :: arrivals => failures arrivals + 1

/-
  Whether some reads give a byte string: each of them gives
  some of its bytes or fails.
-/
structure Delivers
    (arrivals : List Arrival)
    (bs : Bytes) : Prop where
  delivered_eq : delivered arrivals = bs
  bytes_ne : Arrival.bytes [] ∉ arrivals

/- The results of a receiver. -/
abbrev Received :=
  Except ReceiveError Message

/- Whether a call failed only because a read failed. -/
def isTransient : Received → Bool
  | .error (.io _) => true
  | _ => false

/- Whether no frame will be received after a result. -/
def isFinal : Received → Bool
  | .error .closed => true
  | .error (.frameTooLarge _) => true
  | _ => false

/- The results but for those of failed reads. -/
def heard
    (results : List Received) : List Received :=
  results.filter fun result => !isTransient result

/- The results up to the first that is final. -/
def upToEnd : List Received → List Received
  | [] => []
  | result :: results =>
      if isFinal result then [result]
      else result :: upToEnd results

/- A payload is a message or it is not. -/
theorem isTransient_received
    (payload : Bytes) :
    isTransient (received payload) = false := by
  unfold received
  split <;> rfl

theorem isFinal_received
    (payload : Bytes) :
    isFinal (received payload) = false := by
  unfold received
  split <;> rfl

/- What is said at the end is final. -/
theorem Frame.IsEnd.isFinal
    {bs : Bytes}
    {last : ReceiveError}
    (h : Frame.IsEnd bs last) :
    isFinal (.error last) = true := by
  cases h <;> rfl

theorem Frame.IsEnd.not_isTransient
    {bs : Bytes}
    {last : ReceiveError}
    (h : Frame.IsEnd bs last) :
    isTransient (.error last) = false := by
  cases h <;> rfl

/- Payloads come before the end. -/
theorem upToEnd_map_received_append
    (payloads : List Bytes)
    (results : List Received) :
    upToEnd (payloads.map received ++ results) =
      payloads.map received ++ upToEnd results := by
  induction payloads with
  | nil => rfl
  | cons payload payloads ih =>
      simp only [List.map_cons, List.cons_append, upToEnd,
        isFinal_received, Bool.false_eq_true, if_false, ih]

/- What comes later does not change what came first. -/
theorem upToEnd_prefix_upToEnd
    {results longer : List Received}
    (h : results <+: longer) :
    upToEnd results <+: upToEnd longer := by
  induction results generalizing longer with
  | nil => exact List.nil_prefix
  | cons result results ih =>
      cases longer with
      | nil => cases List.prefix_nil.mp h
      | cons other longer =>
          rcases List.cons_prefix_cons.mp h with ⟨rfl, hLater⟩
          unfold upToEnd
          split
          · exact List.prefix_rfl
          · exact List.cons_prefix_cons.mpr ⟨rfl, ih hLater⟩

end Wire

end PeerShare

------------------------------------------------------------
-- One Call
------------------------------------------------------------

namespace PeerShare

namespace Wire

namespace Receiver

/- The bytes that are not used up, read or still to come. -/
def pending
    (r : Receiver) : Bytes :=
  r.buffer ++ delivered r.arrivals

/- The receiver after a number of calls of `receive`. -/
def after
    (r : Receiver) : (n : Nat) → Receiver
  | 0 => r
  | n + 1 => r.receive.2.after n

/-
  What a call does.  Only a frame is used up, and only a
  failed read is lost.
-/
inductive Step
    (r : Receiver) : Received → Receiver → Prop where
  | fail
      {cause : IoFailure}
      {r' : Receiver}
      (pending_eq : r'.pending = r.pending)
      (failures_eq :
        failures r.arrivals = failures r'.arrivals + 1) :
      Step r (.error (.io cause)) r'
  | take
      {payload : Bytes}
      {r' : Receiver}
      (accepted : payload.length ≤ maxFrame)
      (pending_eq :
        r.pending = Frame.encode payload ++ r'.pending)
      (failures_eq :
        failures r.arrivals = failures r'.arrivals) :
      Step r (received payload) r'
  | finish
      {last : ReceiveError}
      {r' : Receiver}
      (isEnd : Frame.IsEnd r.pending last)
      (pending_eq : r'.pending = r.pending)
      (failures_eq :
        failures r.arrivals = failures r'.arrivals) :
      Step r (.error last) r'

variable {r r' s : Receiver}
variable {result : Received}

/- It does not matter which bytes have been read already. -/
theorem Step.of_pending_eq
    (h : s.Step result r')
    (hPending : s.pending = r.pending)
    (hFailures : failures s.arrivals = failures r.arrivals) :
    r.Step result r' := by
  cases h with
  | fail pending_eq failures_eq =>
      exact .fail (pending_eq.trans hPending)
        (hFailures ▸ failures_eq)
  | take accepted pending_eq failures_eq =>
      exact .take accepted (hPending ▸ pending_eq)
        (hFailures ▸ failures_eq)
  | finish isEnd pending_eq failures_eq =>
      exact .finish (hPending ▸ isEnd)
        (pending_eq.trans hPending) (hFailures ▸ failures_eq)

/- A call does one of the three, and leaves later reads. -/
theorem step_receiveFrom
    (buffer : Bytes)
    {arrivals : List Arrival}
    (hBytes : Arrival.bytes [] ∉ arrivals) :
    Step ⟨buffer, arrivals⟩ (receiveFrom buffer arrivals).1
        (receiveFrom buffer arrivals).2 ∧
      (receiveFrom buffer arrivals).2.arrivals <:+
        arrivals := by
  fun_induction receiveFrom buffer arrivals with
  | case1 arrivals buffer payload rest hNext =>
      rcases Frame.next_eq_frame_iff.mp hNext with ⟨hLe, rfl⟩
      exact ⟨.take hLe (List.append_assoc _ _ _) rfl,
        List.suffix_rfl⟩
  | case2 arrivals buffer length hNext =>
      have hEnd := Frame.next_eq_tooLarge_iff.mp hNext
      exact ⟨.finish (hEnd.append _) rfl rfl,
        List.suffix_rfl⟩
  | case3 buffer hNext =>
      have hEnd : Frame.IsEnd (buffer ++ []) .closed := by
        rw [List.append_nil]
        exact Frame.next_eq_incomplete_iff.mp hNext
      exact ⟨.finish hEnd rfl rfl, List.suffix_rfl⟩
  | case4 buffer hNext cause arrivals =>
      exact ⟨.fail rfl rfl, List.suffix_cons _ _⟩
  | case5 buffer hNext arrivals =>
      exact absurd List.mem_cons_self hBytes
  | case6 buffer hNext b bs arrivals ih =>
      rcases ih fun hMem =>
        hBytes (List.mem_cons_of_mem _ hMem) with
        ⟨hStep, hSuffix⟩
      -- The bytes of the read move on to the buffer.
      refine ⟨hStep.of_pending_eq ?_ rfl,
        hSuffix.trans (List.suffix_cons _ _)⟩
      exact List.append_assoc _ _ _

theorem step_receive
    (hBytes : Arrival.bytes [] ∉ r.arrivals) :
    r.Step r.receive.1 r.receive.2 ∧
      Arrival.bytes [] ∉ r.receive.2.arrivals := by
  have hStep := step_receiveFrom r.buffer hBytes
  exact ⟨hStep.1, fun hMem => hBytes (hStep.2.subset hMem)⟩

/- A frame that is too large stays in the buffer. -/
theorem next_buffer_of_frameTooLarge
    {length : Nat}
    {buffer : Bytes}
    {arrivals : List Arrival}
    (h :
      (receiveFrom buffer arrivals).1 =
        .error (.frameTooLarge length)) :
    Frame.next (receiveFrom buffer arrivals).2.buffer =
      .tooLarge length := by
  fun_induction receiveFrom buffer arrivals with
  | case1 arrivals buffer payload rest hNext =>
      have hReceived :
          received payload = .error (.frameTooLarge length) := h
      have hNot := isFinal_received payload
      rw [hReceived] at hNot
      cases hNot
  | case2 arrivals buffer length hNext =>
      cases h
      exact hNext
  | case6 buffer hNext b bs arrivals ih => exact ih h
  | _ => cases h

/- From then on calls say the same and change nothing. -/
theorem receive_of_frameTooLarge
    {length : Nat}
    (h : r.receive.1 = .error (.frameTooLarge length)) :
    r.receive.2.receive =
      (.error (.frameTooLarge length), r.receive.2) := by
  have hNext := next_buffer_of_frameTooLarge h
  change Frame.next r.receive.2.buffer = _ at hNext
  generalize r.receive.2 = r' at hNext ⊢
  rw [receive, receiveFrom.eq_def, hNext]

end Receiver

end Wire

end PeerShare

------------------------------------------------------------
-- Many Calls
------------------------------------------------------------

namespace PeerShare

namespace Wire

namespace Receiver

variable {r r' : Receiver}
variable {result : Received}
variable {n : Nat}
variable {payloads : List Bytes}
variable {rest : Bytes}
variable {last : ReceiveError}

/-
  Whether the results of `n` calls go through the frames of
  some payloads and stay at the last error, but for failed
  reads, and use up the frames they go through.
-/
structure Follows
    (r : Receiver)
    (n : Nat)
    (payloads : List Bytes)
    (rest : Bytes)
    (last : ReceiveError) : Prop where
  heard_prefix :
    heard (r.receiveMany n) <+:
      payloads.map received ++
        List.replicate n (.error last)
  le_length :
    n ≤ (heard (r.receiveMany n)).length +
      failures r.arrivals
  pending_eq :
    (r.after n).pending =
      (payloads.drop
          (heard (r.receiveMany n)).length).flatMap
        Frame.encode ++ rest

theorem receiveMany_succ
    (hReceive : r.receive = (result, r'))
    (n : Nat) :
    r.receiveMany (n + 1) = result :: r'.receiveMany n := by
  rw [receiveMany, hReceive]

theorem length_receiveMany
    (r : Receiver)
    (n : Nat) :
    (r.receiveMany n).length = n := by
  induction n generalizing r with
  | zero => rfl
  | succ n ih =>
      rw [receiveMany, List.length_cons, ih]

theorem after_succ
    (hReceive : r.receive = (result, r'))
    (n : Nat) :
    r.after (n + 1) = r'.after n := by
  rw [after, hReceive]

/- More calls only go on from what was heard. -/
theorem Follows.heard_prefix_succ
    (h : r.Follows n payloads rest last) :
    heard (r.receiveMany n) <+:
      payloads.map received ++
        List.replicate (n + 1) (.error last) := by
  rw [List.replicate_succ', ← List.append_assoc]
  exact h.heard_prefix.trans (List.prefix_append _ _)

/- A failed read is not heard and uses up nothing. -/
theorem Follows.of_fail
    (h : r'.Follows n payloads rest last)
    {cause : IoFailure}
    (hReceive : r.receive = (.error (.io cause), r'))
    (hFailures :
      failures r.arrivals = failures r'.arrivals + 1) :
    r.Follows (n + 1) payloads rest last := by
  have hHeard :
      heard (r.receiveMany (n + 1)) =
        heard (r'.receiveMany n) := by
    rw [receiveMany_succ hReceive]
    rfl
  refine ⟨?_, ?_, ?_⟩
  · rw [hHeard]
    exact h.heard_prefix_succ
  · have hLe := h.le_length
    rw [hHeard]
    omega
  · rw [hHeard, after_succ hReceive]
    exact h.pending_eq

/- A frame is heard of once and used up. -/
theorem Follows.of_take
    (h : r'.Follows n payloads rest last)
    {payload : Bytes}
    (hReceive : r.receive = (received payload, r'))
    (hFailures :
      failures r.arrivals = failures r'.arrivals) :
    r.Follows (n + 1) (payload :: payloads) rest last := by
  have hHeard :
      heard (r.receiveMany (n + 1)) =
        received payload :: heard (r'.receiveMany n) := by
    rw [receiveMany_succ hReceive]
    exact List.filter_cons_of_pos
      (by rw [isTransient_received]; rfl)
  refine ⟨?_, ?_, ?_⟩
  · rw [hHeard, List.map_cons, List.cons_append,
      List.cons_prefix_cons]
    exact ⟨rfl, h.heard_prefix_succ⟩
  · have hLe := h.le_length
    rw [hHeard, List.length_cons]
    omega
  · rw [hHeard, after_succ hReceive, List.length_cons,
      List.drop_succ_cons]
    exact h.pending_eq

/- The end is heard of again and uses up nothing. -/
theorem Follows.of_finish
    (h : r'.Follows n [] rest last)
    (hEnd : isTransient (.error last) = false)
    (hReceive : r.receive = (.error last, r'))
    (hFailures :
      failures r.arrivals = failures r'.arrivals) :
    r.Follows (n + 1) [] rest last := by
  have hHeard :
      heard (r.receiveMany (n + 1)) =
        .error last :: heard (r'.receiveMany n) := by
    rw [receiveMany_succ hReceive]
    exact List.filter_cons_of_pos (by rw [hEnd]; rfl)
  refine ⟨?_, ?_, ?_⟩
  · rw [hHeard, List.map_nil, List.nil_append,
      List.replicate_succ, List.cons_prefix_cons]
    exact ⟨rfl, h.heard_prefix⟩
  · have hLe := h.le_length
    rw [hHeard, List.length_cons]
    omega
  · have hPending := h.pending_eq
    rw [List.drop_nil] at hPending
    rw [after_succ hReceive, List.drop_nil]
    exact hPending

/- Any number of calls go through the pending bytes. -/
theorem follows
    (hDivides : Frame.Divides r.pending payloads rest last)
    (hBytes : Arrival.bytes [] ∉ r.arrivals)
    (n : Nat) :
    r.Follows n payloads rest last := by
  induction n generalizing r payloads with
  | zero =>
      exact ⟨List.nil_prefix, Nat.zero_le _, hDivides.eq_append⟩
  | succ n ih =>
      rcases step_receive hBytes with ⟨hStep, hBytes'⟩
      rcases hReceive : r.receive with ⟨result, r'⟩
      rw [hReceive] at hStep hBytes'
      cases hStep with
      | fail pending_eq failures_eq =>
          rw [← pending_eq] at hDivides
          exact (ih hDivides hBytes').of_fail hReceive
            failures_eq
      | take accepted pending_eq failures_eq =>
          rw [pending_eq] at hDivides
          rcases hDivides.exists_cons accepted with
            ⟨later, rfl, hLater⟩
          exact (ih hLater hBytes').of_take hReceive failures_eq
      | finish isEnd pending_eq failures_eq =>
          rcases hDivides.eq_nil isEnd with ⟨rfl, rfl⟩
          rw [← pending_eq] at hDivides
          exact (ih hDivides hBytes').of_finish
            isEnd.not_isTransient hReceive failures_eq

end Receiver

end Wire

end PeerShare

------------------------------------------------------------
-- Whole Streams
------------------------------------------------------------

namespace PeerShare

namespace Wire

namespace Receiver

variable {r : Receiver}
variable {result : Received}
variable {n : Nat}
variable {payloads : List Bytes}
variable {rest : Bytes}
variable {last : ReceiveError}

/- With enough calls every frame is heard of, and the end. -/
theorem Follows.upToEnd_heard
    (h : r.Follows n payloads rest last)
    (hFinal : isFinal (.error last) = true)
    (hLt : payloads.length + failures r.arrivals < n) :
    upToEnd (heard (r.receiveMany n)) =
      payloads.map received ++ [.error last] := by
  have hLe := h.le_length
  have hTake := List.prefix_iff_eq_take.mp h.heard_prefix
  have hAll :
      (payloads.map received).length ≤
        (heard (r.receiveMany n)).length := by
    rw [List.length_map]
    omega
  rw [List.take_append, List.take_of_length_le hAll,
    List.take_replicate] at hTake
  have hSome :
      min ((heard (r.receiveMany n)).length -
          (payloads.map received).length) n ≠ 0 := by
    rw [List.length_map]
    omega
  rcases Nat.exists_eq_succ_of_ne_zero hSome with ⟨k, hk⟩
  rw [hk, List.replicate_succ] at hTake
  rw [hTake, upToEnd_map_received_append, upToEnd,
    if_pos hFinal]

/- With any number of calls there is nothing else. -/
theorem Follows.upToEnd_heard_prefix
    (h : r.Follows n payloads rest last)
    (hFinal : isFinal (.error last) = true) :
    upToEnd (heard (r.receiveMany n)) <+:
      payloads.map received ++ [.error last] := by
  have hPrefix := upToEnd_prefix_upToEnd h.heard_prefix
  rw [upToEnd_map_received_append] at hPrefix
  refine hPrefix.trans
    ((List.prefix_append_right_inj _).mpr ?_)
  cases n with
  | zero => exact List.nil_prefix
  | succ n =>
      have hEnd :
          upToEnd (List.replicate (n + 1) (.error last)) =
            [.error last] := by
        rw [List.replicate_succ, upToEnd, if_pos hFinal]
      exact hEnd ▸ List.prefix_rfl

/- Every call is heard of unless a read fails. -/
theorem Follows.receiveMany_eq
    (h : r.Follows n payloads rest last)
    (hFailures : failures r.arrivals = 0) :
    r.receiveMany n =
      (payloads.map received ++
        List.replicate n (Except.error last)).take n := by
  have hLe := h.le_length
  rw [hFailures, Nat.add_zero] at hLe
  have hHeard : heard (r.receiveMany n) = r.receiveMany n :=
    List.filter_sublist.eq_of_length_le
      (by rwa [length_receiveMany])
  have hTake := List.prefix_iff_eq_take.mp h.heard_prefix
  rwa [hHeard, length_receiveMany] at hTake

theorem after_succ_eq
    (r : Receiver)
    (n : Nat) :
    r.after (n + 1) = (r.after n).receive.2 := by
  induction n generalizing r with
  | zero => rfl
  | succ n ih => exact ih r.receive.2

/- A call that changes nothing gives the same ever after. -/
theorem receiveMany_of_unchanged
    (h : r.receive = (result, r))
    (n : Nat) :
    r.receiveMany n = List.replicate n result ∧
      r.after n = r := by
  induction n with
  | zero => exact ⟨rfl, rfl⟩
  | succ n ih =>
      rw [receiveMany_succ h, after_succ h, ih.1,
        List.replicate_succ]
      exact ⟨rfl, ih.2⟩

/-
  What `n` calls do with a stream that divides.  They follow
  its frames, they reach its end if they are enough, and
  from a frame that is too large on they change nothing.
-/
structure Receives
    (r : Receiver)
    (n : Nat)
    (payloads : List Bytes)
    (rest : Bytes)
    (last : ReceiveError) : Prop
    extends r.Follows n payloads rest last where
  upToEnd_eq :
    payloads.length + failures r.arrivals < n →
      upToEnd (heard (r.receiveMany n)) =
        payloads.map received ++ [.error last]
  unchanged :
    ∀ length,
      (r.after n).receive.1 =
          .error (.frameTooLarge length) →
        ∀ k,
          (r.after (n + 1)).receiveMany k =
              List.replicate k
                (.error (.frameTooLarge length)) ∧
            (r.after (n + 1)).after k = r.after (n + 1)

theorem receives
    (hDivides : Frame.Divides r.pending payloads rest last)
    (hBytes : Arrival.bytes [] ∉ r.arrivals)
    (n : Nat) :
    r.Receives n payloads rest last where
  toFollows := follows hDivides hBytes n
  upToEnd_eq :=
    (follows hDivides hBytes n).upToEnd_heard
      hDivides.isEnd.isFinal
  unchanged := by
    intro length hLarge k
    rw [after_succ_eq]
    exact receiveMany_of_unchanged
      (receive_of_frameTooLarge hLarge) k

/-
  Every byte string divides into frames, and however it is
  delivered, the calls that do not fail with a read give its
  payloads one after another, messages or not, and then the
  error of its rest.  So two deliveries of it give the same
  up to the end, as far as the calls go.
-/
theorem results_of_delivery
    (bs : Bytes) :
    (∃ payloads rest last,
      Frame.Divides bs payloads rest last) ∧
      (∀ payloads rest last arrivals n,
        Frame.Divides bs payloads rest last →
          Delivers arrivals bs →
            (start arrivals).Receives n payloads rest
              last) ∧
      ∀ arrivals arrivals' n n',
        Delivers arrivals bs →
          Delivers arrivals' bs →
            let results :=
              upToEnd (heard ((start arrivals).receiveMany n))
            let results' :=
              upToEnd
                (heard ((start arrivals').receiveMany n'))
            results <+: results' ∨ results' <+: results := by
  have hReceives :
      ∀ payloads rest last arrivals n,
        Frame.Divides bs payloads rest last →
          Delivers arrivals bs →
            (start arrivals).Receives n payloads rest
              last := by
    intro payloads rest last arrivals n hDivides hDelivers
    have hPending : (start arrivals).pending = bs :=
      hDelivers.delivered_eq
    rw [← hPending] at hDivides
    exact receives hDivides hDelivers.bytes_ne n
  refine ⟨Frame.exists_divides bs, hReceives, ?_⟩
  intro arrivals arrivals' n n' hDelivers hDelivers'
  rcases Frame.exists_divides bs with
    ⟨payloads, rest, last, hDivides⟩
  have hFinal := hDivides.isEnd.isFinal
  have hFirst := hReceives _ _ _ arrivals n hDivides hDelivers
  have hOther :=
    hReceives _ _ _ arrivals' n' hDivides hDelivers'
  exact List.prefix_or_prefix_of_prefix
    (hFirst.upToEnd_heard_prefix hFinal)
    (hOther.upToEnd_heard_prefix hFinal)

/-
  An empty payload, a request and the header of a frame that
  is too large, in four reads with two failures in between,
  and in one read.
-/
theorem results_of_four_reads :
    let request : Bytes := [6, 1, 0, 0, 0, 97]
    let bs : Bytes :=
      [0, 0, 0, 0] ++ ([6, 0, 0, 0] ++ request) ++
        [1, 0, 0, 4]
    let arrivals : List Arrival :=
      [.bytes [0, 0], .failure .connectionReset,
        .bytes [0, 0, 6, 0, 0],
        .bytes [0, 6, 1, 0, 0, 0, 97, 1, 0],
        .failure .connectionReset, .bytes [0, 4]]
    let r := start arrivals
    let last : ReceiveError := .frameTooLarge 67108865
    Frame.Divides bs [[], request] [1, 0, 0, 4] last ∧
      Delivers arrivals bs ∧
      Delivers [.bytes bs] bs ∧
      (r.after 4).receive.1 = .error last ∧
      upToEnd (heard (r.receiveMany 5)) =
        [.error (.malformed (.truncated .id 1)),
          .ok (.request "a"), .error last] ∧
      (r.after 5).receiveMany 7 =
        List.replicate 7 (.error last) ∧
      (r.after 5).pending = [1, 0, 0, 4] ∧
      (upToEnd (heard (r.receiveMany 3)) <+:
          upToEnd
            (heard ((start [.bytes bs]).receiveMany 3)) ∨
        upToEnd
            (heard ((start [.bytes bs]).receiveMany 3)) <+:
          upToEnd (heard (r.receiveMany 3))) := by
  intro request bs arrivals r last
  have hDivides :
      Frame.Divides bs [[], request] [1, 0, 0, 4] last :=
    { eq_append := by decide
      le_maxFrame := by decide
      isEnd :=
        .tooLarge [] (by decide : maxFrame < 67108865)
          (by decide) }
  have hDelivers : Delivers arrivals bs :=
    { delivered_eq := by decide
      bytes_ne := by simp [arrivals] }
  have hWhole : Delivers [.bytes bs] bs :=
    { delivered_eq := by decide
      bytes_ne := by simp [bs] }
  have hLarge : (r.after 4).receive.1 = .error last := by
    decide +kernel
  have hEmpty :
      received [] =
        .error (.malformed (.truncated .id 1)) := by
    decide +kernel
  have hRequest : received request = .ok (.request "a") := by
    decide +kernel
  have hHeard : (heard (r.receiveMany 5)).length = 3 := by
    decide +kernel
  rcases results_of_delivery bs with ⟨-, hReceives, hAgree⟩
  have hFour := hReceives _ _ _ _ 4 hDivides hDelivers
  have hFive := hReceives _ _ _ _ 5 hDivides hDelivers
  refine ⟨hDivides, hDelivers, hWhole, hLarge, ?_,
    (hFour.unchanged _ hLarge 7).1, ?_,
    hAgree _ _ 3 3 hDelivers hWhole⟩
  · rw [hFive.upToEnd_eq (by decide), List.map_cons,
      List.map_cons, List.map_nil, hEmpty, hRequest]
    rfl
  · rw [hFive.pending_eq, hHeard]
    rfl

end Receiver

end Wire

end PeerShare
