import PeerShare.Fetch.Transfer

/-
  Which chunks are requested from which peers.

  The missing chunks are put in order, those held by the
  fewest peers first.  The peers are visited in order of
  their measured speed, the slowest first, where peers that
  were never measured count as slowest.  Each peer walks
  through the missing chunks and is asked for those that it
  holds, up to a limit.  A chunk that was requested from it
  too often is a strike instead, and too many strikes evict
  the peer; the chunks it was to be asked for then go back.

  Key definitions include:
    * `Transfer.missing`
    * `Transfer.rankedPeers`
    * `Walk`
    * `walk`
    * `Transfer.schedule`
-/

------------------------------------------------------------
-- Order of Chunks and Peers
------------------------------------------------------------

namespace PeerShare

namespace Transfer

/- The number of peers that hold a chunk. -/
def holderCount
    (t : Transfer)
    (index : Nat) : Nat :=
  t.peers.values.countP fun holder => holder.holds index

/- Whether an answer for a chunk is waited for. -/
def isInFlight
    (t : Transfer)
    (index : Nat)
    (now : Moment) : Bool :=
  t.peers.values.any fun holder => holder.isAwaiting index now

/- The chunks that may be requested, in order of number. -/
def wanted
    (t : Transfer)
    (now : Moment) : List Nat :=
  (t.chunks.toList.filter fun chunk =>
    !chunk.downloaded &&
      !t.isInFlight chunk.index now).map (·.index)

/-
  The chunks that may be requested, the rarest first.  Among
  chunks that are equally rare the lowest number is first.
-/
def missing
    (t : Transfer)
    (now : Moment) : List Nat :=
  let counted :=
    (t.wanted now).map fun index => (t.holderCount index, index)
  (counted.mergeSort fun a b => a.1 ≤ b.1).map Prod.snd

/-
  The peers in order of speed, the slowest first.  Among
  peers that are equally fast the order of addresses holds.
-/
def rankedPeers
    (t : Transfer)
    (now : Moment)
    (log : TransferLog) : List Endpoint :=
  let measured :=
    t.peers.keys.map fun peer =>
      (speedKey ((log.averageSpeed? peer now).getD 0.0), peer)
  (measured.mergeSort fun a b => a.1 ≤ b.1).map Prod.snd

end Transfer

end PeerShare

------------------------------------------------------------
-- The Walk of One Peer
------------------------------------------------------------

namespace PeerShare

/- The largest number of chunks in one request. -/
def maxRequest : Nat :=
  100

/- How often a chunk is requested from one peer. -/
def maxTries : Nat :=
  3

/- The number of strikes that a peer may collect. -/
def maxStrikes : Nat :=
  3

/-
  How far the walk of a peer has come: the chunks it is to
  be asked for, and the chunks that are left to others.
-/
structure Walk where
  holder : Holder
  assigned : Array UInt16
  passed : Array Nat
  evicted : Bool
  deriving DecidableEq

namespace Walk

/- The start of the walk of a peer. -/
def start
    (holder : Holder) : Walk where
  holder := holder
  assigned := #[]
  passed := #[]
  evicted := false

/- Leave a chunk to other peers. -/
def pass
    (w : Walk)
    (index : Nat) : Walk :=
  { w with passed := w.passed.push index }

/- Ask the peer for a chunk. -/
def assign
    (w : Walk)
    (index : Nat)
    (r : RequestRecord)
    (now : Moment) : Walk :=
  { w with
    holder := w.holder.stamp index r now
    assigned := w.assigned.push (UInt16.ofNat index) }

/- Give the peer a strike. -/
def strike
    (w : Walk) : Walk :=
  { w with holder := w.holder.strike }

/- End the walk: the peer is evicted. -/
def giveUp
    (w : Walk) : Walk :=
  { w with evicted := true }

end Walk

/-
  Walk through the missing chunks.  The result is the walk,
  and the chunks that are left to others.
-/
def walk
    (now : Moment) :
    List Nat →
    Walk →
    Walk × List Nat
  | [], w => (w, w.passed.toList)
  | index :: rest, w =>
      if maxRequest ≤ w.assigned.size then
        (w, w.passed.toList ++ index :: rest)
      else
        match w.holder.record? index with
        | none => walk now rest (w.pass index)
        | some r =>
            if !r.isDue now then walk now rest (w.pass index)
            else if maxTries ≤ r.tries then
              let w := w.strike
              if maxStrikes < w.holder.strikes then
                (w.giveUp, w.passed.toList ++ index :: rest)
              else walk now rest (w.pass index)
            else walk now rest (w.assign index r now)

end PeerShare

------------------------------------------------------------
-- The Schedule
------------------------------------------------------------

namespace PeerShare

/- The rank of a chunk that was not missing. -/
def lastRank : Nat :=
  0xFFFFFFFFFFFFFFFF

/- The positions of the missing chunks in their order. -/
def ranksOf
    (chunkCount : Nat)
    (missing : List Nat) : Array Nat :=
  missing.zipIdx.foldl
    (fun ranks (index, rank) => ranks.setIfInBounds index rank)
    (Array.replicate chunkCount lastRank)

/- Put chunks that were given back in their old order. -/
def restore
    (ranks : Array Nat)
    (left : List Nat)
    (given : List UInt16) : List Nat :=
  (left ++ given.map UInt16.toNat).mergeSort fun a b =>
    ranks.getD a lastRank ≤ ranks.getD b lastRank

/- A schedule in the making. -/
structure Schedule where
  transfer : Transfer
  missing : List Nat
  requests : List (Endpoint × List UInt16)
  deriving DecidableEq

/- The visit of one peer. -/
def Schedule.visit
    (now : Moment)
    (ranks : Array Nat)
    (s : Schedule)
    (peer : Endpoint) : Schedule :=
  match s.transfer.peers.get? peer with
  | none => s
  | some holder =>
      let (w, left) := walk now s.missing (Walk.start holder)
      let assigned := w.assigned.toList
      if w.evicted then
        { s with
          transfer := s.transfer.evict peer
          missing := restore ranks left assigned }
      else
        { transfer :=
            { s.transfer with
              peers := s.transfer.peers.insert peer w.holder }
          missing := left
          requests :=
            if assigned.isEmpty then s.requests
            else s.requests ++ [(peer, assigned)] }

/- The requests of one pass, and the state after it. -/
def Transfer.schedule
    (t : Transfer)
    (now : Moment)
    (log : TransferLog) :
    List (Endpoint × List UInt16) × Transfer :=
  let missing := t.missing now
  let ranks := ranksOf t.chunkCount missing
  let s :=
    (t.rankedPeers now log).foldl (Schedule.visit now ranks)
      { transfer := t, missing, requests := [] }
  (s.requests, s.transfer)

end PeerShare
