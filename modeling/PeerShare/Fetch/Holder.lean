import PeerShare.ChunkSet
import PeerShare.Clock

/-
  A peer from which a file is fetched.

  For every chunk that the peer is said to hold there is a
  record of the requests made to it.  A peer that does not
  answer collects strikes.

  Key definitions include:
    * `RequestRecord`
    * `RequestRecord.isDue`
    * `Holder`
    * `Holder.report`

  Key theorems include:
    * `Holder.record?_report`
-/

namespace PeerShare

/- The requests made to one peer for one chunk. -/
structure RequestRecord where
  lastRequested : Option Moment
  tries : Nat
  deriving DecidableEq

namespace RequestRecord

/- The record of a chunk that was never requested. -/
def fresh : RequestRecord where
  lastRequested := none
  tries := 0

/- How long an answer is waited for. -/
def timeout : Span :=
  Span.ofMillis 500

/- Whether no answer is waited for any more. -/
def isDue
    (r : RequestRecord)
    (now : Moment) : Bool :=
  match r.lastRequested with
  | none => true
  | some moment => timeout ≤ elapsed moment now

/- The record after one more request. -/
def stamp
    (r : RequestRecord)
    (now : Moment) : RequestRecord where
  lastRequested := some now
  tries := r.tries + 1

end RequestRecord

/-
  A peer: a record for each chunk that it holds, and its
  strikes since the last good chunk.
-/
structure Holder where
  records : Array (Option RequestRecord)
  strikes : Nat
  deriving DecidableEq

namespace Holder

/- A peer of which nothing is known. -/
def fresh : Holder where
  records := #[]
  strikes := 0

/- The record of a chunk that the peer holds. -/
def record?
    (h : Holder)
    (index : Nat) : Option RequestRecord :=
  h.records.getD index none

/- Whether the peer holds a chunk. -/
def holds
    (h : Holder)
    (index : Nat) : Bool :=
  (h.record? index).isSome

/- The chunks that the peer holds, in increasing order. -/
def held
    (h : Holder) : List Nat :=
  Packing.positions (h.records.toList.map Option.isSome)

/- Whether an answer for a chunk is waited for. -/
def isAwaiting
    (h : Holder)
    (index : Nat)
    (now : Moment) : Bool :=
  match h.record? index with
  | none => false
  | some r => !r.isDue now

/-
  Note the chunks that the peer is now said to hold.  Chunks
  that it still holds keep their record.
-/
def report
    (h : Holder)
    (chunks : ChunkSet) : Holder :=
  { h with
    records :=
      chunks.flags.mapIdx fun index flag =>
        if flag then
          some ((h.record? index).getD RequestRecord.fresh)
        else none }

/- Note one more request for a chunk that the peer holds. -/
def stamp
    (h : Holder)
    (index : Nat)
    (r : RequestRecord)
    (now : Moment) : Holder :=
  { h with
    records :=
      h.records.setIfInBounds index (some (r.stamp now)) }

/- Give the peer a strike. -/
def strike
    (h : Holder) : Holder :=
  { h with strikes := h.strikes + 1 }

/- Forgive all strikes. -/
def forgive
    (h : Holder) : Holder :=
  { h with strikes := 0 }

/- After a report just the reported chunks are held. -/
theorem record?_report
    (h : Holder)
    (chunks : ChunkSet)
    (index : Nat) :
    (h.report chunks).record? index =
      if chunks.has index then
        some ((h.record? index).getD RequestRecord.fresh)
      else none := by
  simp only [record?, report, ChunkSet.has,
    Array.getD_eq_getD_getElem?, Array.getElem?_mapIdx]
  cases chunks.flags[index]? with
  | none => simp
  | some flag => cases flag <;> simp

end Holder

end PeerShare
