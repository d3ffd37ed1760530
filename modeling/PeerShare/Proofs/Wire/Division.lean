import Mathlib.Algebra.Group.Nat.Defs
import PeerShare.Wire.Stream

/-
  How a byte string divides into frames.

  A byte string is a row of frames that are accepted, and a
  rest that does not start with one: its header or payload
  is cut, or its frame is too large.  What stands at the
  front of a stream is a frame or such a rest, and bytes
  that come later do not change what it is.

  Key definitions include:
    * `Wire.Frame.IsEnd`
    * `Wire.Frame.Divides`

  Key theorems include:
    * `Wire.Frame.next_eq_frame_iff`
    * `Wire.Frame.next_eq_tooLarge_iff`
    * `Wire.Frame.next_eq_incomplete_iff`
    * `Wire.Frame.exists_divides`
    * `Wire.Frame.Divides.unique`
    * `Wire.Frame.Divides.append`
-/

------------------------------------------------------------
-- The Front of a Stream
------------------------------------------------------------

namespace PeerShare

namespace Wire

namespace Frame

/-
  Whether no frame that is accepted stands at the front of
  a byte string, and what a receiver says that has nothing
  else to come.
-/
inductive IsEnd : Bytes → ReceiveError → Prop where
  | cutHeader
      {rest : Bytes}
      (short : rest.length < 4) :
      IsEnd rest .closed
  | cutPayload
      {length : Nat}
      {part : Bytes}
      (accepted : length ≤ maxFrame)
      (short : part.length < length) :
      IsEnd (Bytes.ofNat 4 length ++ part) .closed
  | tooLarge
      {length : Nat}
      (part : Bytes)
      (large : maxFrame < length)
      (fits : length < 2 ^ 32) :
      IsEnd (Bytes.ofNat 4 length ++ part)
        (.frameTooLarge length)

variable {bs payload rest more : Bytes}
variable {length : Nat}
variable {last : ReceiveError}

/- What stands behind a header, if the frame is accepted. -/
theorem next_header
    (hFits : length < 2 ^ 32)
    (body : Bytes) :
    next (Bytes.ofNat 4 length ++ body) =
      if maxFrame < length then .tooLarge length
      else
        match Bytes.splitExactly length body with
        | .error _ => .incomplete
        | .ok (payload, rest) => .frame payload rest := by
  have hSplit :
      Bytes.splitExactly 4 (Bytes.ofNat 4 length ++ body) =
        .ok (Bytes.ofNat 4 length, body) :=
    Bytes.splitExactly_eq_ok_iff.mpr
      ⟨rfl, Bytes.length_ofNat 4 length⟩
  have hLength : Bytes.toNat (Bytes.ofNat 4 length) = length :=
    (Bytes.toNat_ofNat 4 length).trans (Nat.mod_eq_of_lt hFits)
  cases hBody : Bytes.splitExactly length body <;>
    simp only [next, hSplit, hLength, hBody]

theorem lt_of_le_maxFrame
    (h : length ≤ maxFrame) :
    length < 2 ^ 32 :=
  Nat.lt_of_le_of_lt h (by decide)

theorem next_encode
    (h : payload.length ≤ maxFrame)
    (rest : Bytes) :
    next (encode payload ++ rest) = .frame payload rest := by
  have hSplit :
      Bytes.splitExactly payload.length (payload ++ rest) =
        .ok (payload, rest) :=
    Bytes.splitExactly_eq_ok_iff.mpr ⟨rfl, rfl⟩
  rw [encode, List.append_assoc,
    next_header (lt_of_le_maxFrame h),
    if_neg (Nat.not_lt_of_le h), hSplit]

/- At the end there is no frame to be received. -/
theorem next_of_isEnd
    (h : IsEnd bs last) :
    last = .closed ∧ next bs = .incomplete ∨
      ∃ length,
        last = .frameTooLarge length ∧
          next bs = .tooLarge length := by
  cases h with
  | cutHeader short =>
      refine Or.inl ⟨rfl, ?_⟩
      rw [next, Bytes.splitExactly_of_lt short]
  | cutPayload accepted short =>
      refine Or.inl ⟨rfl, ?_⟩
      rw [next_header (lt_of_le_maxFrame accepted),
        if_neg (Nat.not_lt_of_le accepted),
        Bytes.splitExactly_of_lt short]
  | tooLarge part large fits =>
      refine Or.inr ⟨_, rfl, ?_⟩
      rw [next_header fits, if_pos large]

/- A header is the length it announces. -/
theorem exists_header
    (h : 4 ≤ bs.length) :
    ∃ length body,
      length < 2 ^ 32 ∧ bs = Bytes.ofNat 4 length ++ body := by
  have hLength : (bs.take 4).length = 4 :=
    List.length_take_of_le h
  have hLt := Bytes.toNat_lt (bs.take 4)
  have hDigits := Bytes.ofNat_toNat (bs.take 4)
  rw [hLength] at hLt hDigits
  refine ⟨Bytes.toNat (bs.take 4), bs.drop 4, hLt, ?_⟩
  rw [hDigits, List.take_append_drop]

/- A byte string starts with a frame or is at its end. -/
theorem exists_encode_or_isEnd
    (bs : Bytes) :
    (∃ payload rest,
        payload.length ≤ maxFrame ∧
          bs = encode payload ++ rest) ∨
      ∃ last, IsEnd bs last := by
  by_cases hHeader : bs.length < 4
  · exact Or.inr ⟨_, .cutHeader hHeader⟩
  · rcases exists_header (Nat.le_of_not_lt hHeader) with
      ⟨length, body, hFits, rfl⟩
    by_cases hLarge : maxFrame < length
    · exact Or.inr ⟨_, .tooLarge body hLarge hFits⟩
    · have hLe := Nat.le_of_not_lt hLarge
      by_cases hBody : body.length < length
      · exact Or.inr ⟨_, .cutPayload hLe hBody⟩
      · have hTake : (body.take length).length = length :=
          List.length_take_of_le (Nat.le_of_not_lt hBody)
        refine Or.inl
          ⟨body.take length, body.drop length, ?_, ?_⟩
        · rwa [hTake]
        · rw [encode, hTake, List.append_assoc,
            List.take_append_drop]

/- The three things that can stand at the front. -/
theorem next_cases
    (bs : Bytes) :
    (∃ payload rest,
        payload.length ≤ maxFrame ∧
          bs = encode payload ++ rest ∧
          next bs = .frame payload rest) ∨
      IsEnd bs .closed ∧ next bs = .incomplete ∨
        ∃ length,
          IsEnd bs (.frameTooLarge length) ∧
            next bs = .tooLarge length := by
  rcases exists_encode_or_isEnd bs with
    ⟨payload, rest, hLe, rfl⟩ | ⟨last, hEnd⟩
  · exact Or.inl ⟨payload, rest, hLe, rfl,
      next_encode hLe rest⟩
  · rcases next_of_isEnd hEnd with
      ⟨rfl, hNext⟩ | ⟨length, rfl, hNext⟩
    · exact Or.inr (Or.inl ⟨hEnd, hNext⟩)
    · exact Or.inr (Or.inr ⟨length, hEnd, hNext⟩)

theorem next_eq_frame_iff :
    next bs = .frame payload rest ↔
      payload.length ≤ maxFrame ∧
        bs = encode payload ++ rest := by
  constructor
  · intro h
    rcases next_cases bs with
      ⟨_, _, hLe, hEq, hNext⟩ | ⟨-, hNext⟩ | ⟨_, -, hNext⟩ <;>
      rw [hNext] at h <;>
      cases h
    exact ⟨hLe, hEq⟩
  · rintro ⟨hLe, rfl⟩
    exact next_encode hLe rest

theorem next_eq_tooLarge_iff :
    next bs = .tooLarge length ↔
      IsEnd bs (.frameTooLarge length) := by
  constructor
  · intro h
    rcases next_cases bs with
      ⟨_, _, -, -, hNext⟩ | ⟨-, hNext⟩ | ⟨_, hEnd, hNext⟩ <;>
      rw [hNext] at h <;>
      cases h
    exact hEnd
  · intro hEnd
    rcases next_of_isEnd hEnd with ⟨hNot, -⟩ | ⟨_, hEq, hNext⟩
    · cases hNot
    · cases hEq
      exact hNext

theorem next_eq_incomplete_iff :
    next bs = .incomplete ↔ IsEnd bs .closed := by
  constructor
  · intro h
    rcases next_cases bs with
      ⟨_, _, -, -, hNext⟩ | ⟨hEnd, hNext⟩ | ⟨_, -, hNext⟩ <;>
      rw [hNext] at h <;>
      cases h
    exact hEnd
  · intro hEnd
    rcases next_of_isEnd hEnd with ⟨-, hNext⟩ | ⟨_, hEq, -⟩
    · exact hNext
    · cases hEq

/- The bytes of a frame that is cut are no frame yet. -/
theorem isEnd_take_encode
    {n : Nat}
    (h : payload.length ≤ maxFrame)
    (hCut : n < (encode payload).length) :
    IsEnd ((encode payload).take n) .closed := by
  rw [encode, List.length_append, Bytes.length_ofNat] at hCut
  rw [encode, List.take_append, Bytes.length_ofNat]
  by_cases hHeader : n < 4
  · have hNone : n - 4 = 0 :=
      Nat.sub_eq_zero_of_le (Nat.le_of_lt hHeader)
    rw [hNone, List.take_zero, List.append_nil]
    exact .cutHeader (Nat.lt_of_le_of_lt
      (List.length_take_le _ _) hHeader)
  · have hLe := Nat.le_of_not_lt hHeader
    have hWhole :
        (Bytes.ofNat 4 payload.length).take n =
          Bytes.ofNat 4 payload.length :=
      List.take_of_length_le
        (by rwa [Bytes.length_ofNat])
    have hPart :
        (payload.take (n - 4)).length < payload.length := by
      rw [List.length_take]
      omega
    rw [hWhole]
    exact .cutPayload h hPart

/- A frame is too large whatever comes after its header. -/
theorem IsEnd.append
    (h : IsEnd bs (.frameTooLarge length))
    (more : Bytes) :
    IsEnd (bs ++ more) (.frameTooLarge length) := by
  cases h with
  | tooLarge part large fits =>
      rw [List.append_assoc]
      exact .tooLarge (part ++ more) large fits

end Frame

end Wire

end PeerShare

------------------------------------------------------------
-- Divisions
------------------------------------------------------------

namespace PeerShare

namespace Wire

namespace Frame

/-
  Whether a byte string is the row of the frames of some
  payloads that are accepted, with a rest behind them.
-/
structure Divides
    (bs : Bytes)
    (payloads : List Bytes)
    (rest : Bytes)
    (last : ReceiveError) : Prop where
  eq_append : bs = payloads.flatMap encode ++ rest
  le_maxFrame :
    ∀ payload ∈ payloads, payload.length ≤ maxFrame
  isEnd : IsEnd rest last

variable {bs payload rest rest' : Bytes}
variable {payloads : List Bytes}
variable {last last' : ReceiveError}

theorem Divides.cons
    (h : Divides bs payloads rest last)
    (hLe : payload.length ≤ maxFrame) :
    Divides (encode payload ++ bs) (payload :: payloads)
      rest last where
  eq_append := by
    rw [h.eq_append, List.flatMap_cons, List.append_assoc]
  le_maxFrame :=
    List.forall_mem_cons.mpr ⟨hLe, h.le_maxFrame⟩
  isEnd := h.isEnd

/- Every byte string divides into frames and a rest. -/
theorem exists_divides
    (bs : Bytes) :
    ∃ payloads rest last, Divides bs payloads rest last := by
  induction hLength : bs.length using Nat.strongRecOn
    generalizing bs with
  | ind n ih =>
      subst hLength
      rcases exists_encode_or_isEnd bs with
        ⟨payload, rest, hLe, hEq⟩ | ⟨last, hEnd⟩
      · have hShorter := length_rest_of_next
          (next_eq_frame_iff.mpr ⟨hLe, hEq⟩)
        rcases ih rest.length hShorter rest rfl with
          ⟨payloads, rest', last, hDivides⟩
        rw [hEq]
        exact ⟨_, _, _, hDivides.cons hLe⟩
      · exact ⟨[], bs, last, rfl, by simp, hEnd⟩

/- A frame at the front is the first of the division. -/
theorem Divides.exists_cons
    (h : Divides (encode payload ++ bs) payloads rest last)
    (hLe : payload.length ≤ maxFrame) :
    ∃ later,
      payloads = payload :: later ∧
        Divides bs later rest last := by
  have hNext := next_encode hLe bs
  rw [h.eq_append] at hNext
  cases payloads with
  | nil =>
      rcases next_of_isEnd h.isEnd with
        ⟨-, hEnd⟩ | ⟨_, -, hEnd⟩ <;>
      · rw [List.flatMap_nil, List.nil_append, hEnd] at hNext
        cases hNext
  | cons first later =>
      rcases List.forall_mem_cons.mp h.le_maxFrame with
        ⟨hFirst, hLater⟩
      rw [List.flatMap_cons, List.append_assoc,
        next_encode hFirst] at hNext
      cases hNext
      exact ⟨later, rfl, rfl, hLater, h.isEnd⟩

/- A byte string at its end has no frames. -/
theorem Divides.eq_nil
    (h : Divides bs payloads rest last)
    (hEnd : IsEnd bs last') :
    payloads = [] ∧ last = last' := by
  have hNext := next_of_isEnd hEnd
  rw [h.eq_append] at hNext
  cases payloads with
  | nil =>
      refine ⟨rfl, ?_⟩
      rw [List.flatMap_nil, List.nil_append] at hNext
      rcases next_of_isEnd h.isEnd with
        ⟨rfl, hRest⟩ | ⟨length, rfl, hRest⟩ <;>
      · rw [hRest] at hNext
        rcases hNext with ⟨rfl, hEq⟩ | ⟨_, rfl, hEq⟩ <;>
          cases hEq
        rfl
  | cons first later =>
      have hFirst := h.le_maxFrame first List.mem_cons_self
      rw [List.flatMap_cons, List.append_assoc,
        next_encode hFirst] at hNext
      rcases hNext with ⟨-, hEq⟩ | ⟨_, -, hEq⟩ <;> cases hEq

/- A byte string divides in one way. -/
theorem Divides.unique
    {payloads' : List Bytes}
    (h : Divides bs payloads rest last)
    (h' : Divides bs payloads' rest' last') :
    payloads = payloads' ∧ rest = rest' ∧ last = last' := by
  induction payloads generalizing bs payloads' with
  | nil =>
      have hRest : bs = rest := h.eq_append
      subst hRest
      rcases h'.eq_nil h.isEnd with ⟨rfl, rfl⟩
      exact ⟨rfl, h'.eq_append, rfl⟩
  | cons payload payloads ih =>
      rcases List.forall_mem_cons.mp h.le_maxFrame with
        ⟨hLe, hLater⟩
      have hEq := h.eq_append
      rw [List.flatMap_cons, List.append_assoc] at hEq
      subst hEq
      rcases h'.exists_cons hLe with ⟨later, rfl, hRest⟩
      rcases ih ⟨rfl, hLater, h.isEnd⟩ hRest with
        ⟨rfl, rfl, rfl⟩
      exact ⟨rfl, rfl, rfl⟩

/- Bytes that come later go on from the rest. -/
theorem Divides.append
    {payloads' : List Bytes}
    {more : Bytes}
    (h : Divides bs payloads rest .closed)
    (hMore : Divides (rest ++ more) payloads' rest' last) :
    Divides (bs ++ more) (payloads ++ payloads') rest'
      last where
  eq_append := by
    rw [h.eq_append, List.append_assoc, hMore.eq_append,
      List.flatMap_append, List.append_assoc]
  le_maxFrame :=
    List.forall_mem_append.mpr
      ⟨h.le_maxFrame, hMore.le_maxFrame⟩
  isEnd := hMore.isEnd

/- Nothing is accepted behind a frame that is too large. -/
theorem Divides.append_of_frameTooLarge
    {length : Nat}
    (h : Divides bs payloads rest (.frameTooLarge length))
    (more : Bytes) :
    Divides (bs ++ more) payloads (rest ++ more)
      (.frameTooLarge length) where
  eq_append := by
    rw [h.eq_append, List.append_assoc]
  le_maxFrame := h.le_maxFrame
  isEnd := h.isEnd.append more

end Frame

end Wire

end PeerShare
