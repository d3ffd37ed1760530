import PeerShare.Clock
import PeerShare.Endpoint

/-
  How much was transferred, and how fast each peer is.

  For every peer the log keeps the latest `maxSamples`
  chunks received from it.  The speed of a peer is the mean
  of the speeds of those samples that are not older than the
  window of the log.

  Speeds are compared in the total order of floating-point
  numbers, which is the order of a key of 64 bits.

  Key definitions include:
    * `Sample.speed`
    * `TransferLog`
    * `TransferLog.recordUpload`
    * `TransferLog.recordDownload`
    * `TransferLog.averageSpeed?`
    * `TransferLog.snapshot`
    * `speedKey`
-/

------------------------------------------------------------
-- Samples
------------------------------------------------------------

namespace PeerShare

/- A chunk that was received from a peer. -/
structure Sample where
  bytes : UInt64
  requested : Moment
  received : Moment
  deriving DecidableEq

/-
  Bytes per second.  A chunk takes at least a microsecond.
-/
def Sample.speed
    (s : Sample) : Float :=
  s.bytes.toFloat /
    Span.seconds
      (max (elapsed s.requested s.received) (Span.ofMicros 1))

/- The mean speed of some samples, if there are any. -/
def meanSpeed?
    (samples : List Sample) : Option Float :=
  if samples.isEmpty then none
  else
    let total :=
      samples.foldl (fun sum s => sum + s.speed) 0.0
    some (total / (UInt64.ofNat samples.length).toFloat)

/- The place of a number among all floating-point numbers. -/
def speedKey
    (x : Float) : UInt64 :=
  let bits := x.toBits
  if bits < 0x8000000000000000 then
    bits ||| 0x8000000000000000
  else ~~~bits

end PeerShare

------------------------------------------------------------
-- The Log
------------------------------------------------------------

namespace PeerShare

/- Totals, and the latest samples of each peer. -/
structure TransferLog where
  window : Span
  uploaded : Nat
  downloaded : Nat
  history : Table Endpoint (List Sample)
  deriving DecidableEq

namespace TransferLog

/- The number of samples kept for a peer. -/
def maxSamples : Nat :=
  1024

/- How far back samples count, if nothing else is said. -/
def defaultWindow : Span :=
  Span.ofSeconds 100

/- A log without entries. -/
def start
    (window : Span) : TransferLog where
  window := window
  uploaded := 0
  downloaded := 0
  history := Table.empty

/- The samples of a peer, the oldest first. -/
def samples
    (log : TransferLog)
    (peer : Endpoint) : List Sample :=
  (log.history.get? peer).getD []

/- Count bytes that were sent. -/
def recordUpload
    (log : TransferLog)
    (bytes : Nat) : TransferLog :=
  { log with uploaded := log.uploaded + bytes }

/- The latest samples with a new one behind them. -/
def append
    (samples : List Sample)
    (s : Sample) : List Sample :=
  let kept :=
    if maxSamples ≤ samples.length then samples.drop 1
    else samples
  kept ++ [s]

/- Note a chunk that was received from a peer. -/
def recordDownload
    (log : TransferLog)
    (peer : Endpoint)
    (s : Sample) : TransferLog :=
  { log with
    downloaded := log.downloaded + s.bytes.toNat
    history :=
      log.history.insert peer (append (log.samples peer) s) }

/- The speed of a peer over the window that ends at `now`. -/
def averageSpeed?
    (log : TransferLog)
    (peer : Endpoint)
    (now : Moment) : Option Float :=
  meanSpeed?
    ((log.samples peer).filter fun s =>
      elapsed s.received now ≤ log.window)

/- The totals and the speed of every peer, in order. -/
structure Snapshot where
  uploaded : Nat
  downloaded : Nat
  peers : List (Endpoint × Option Float)

/- The state of the log at `now`. -/
def snapshot
    (log : TransferLog)
    (now : Moment) : Snapshot where
  uploaded := log.uploaded
  downloaded := log.downloaded
  peers :=
    log.history.keys.map fun peer =>
      (peer, log.averageSpeed? peer now)

end TransferLog

end PeerShare
