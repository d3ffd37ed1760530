/-
  Moments and spans of time, in nanoseconds.

  Key definitions include:
    * `Moment`
    * `Span`
    * `elapsed`
    * `Span.ofMicros`
    * `Span.ofMillis`
    * `Span.ofSeconds`
    * `Span.seconds`
-/

namespace PeerShare

/- A moment: nanoseconds since some fixed start. -/
abbrev Moment :=
  Nat

/- A span of time in nanoseconds. -/
abbrev Span :=
  Nat

/-
  The time from `start` to `now`, or nothing when `now` is
  the earlier of the two.
-/
def elapsed
    (start now : Moment) : Span :=
  now - start

namespace Span

/- A number of microseconds. -/
def ofMicros
    (n : Nat) : Span :=
  n * 1000

/- A number of milliseconds. -/
def ofMillis
    (n : Nat) : Span :=
  n * 1000000

/- A number of seconds. -/
def ofSeconds
    (n : Nat) : Span :=
  n * 1000000000

/-
  A span in seconds: the whole seconds plus the quotient of
  the remaining nanoseconds.
-/
def seconds
    (s : Span) : Float :=
  (UInt64.ofNat (s / 1000000000)).toFloat +
    (UInt64.ofNat (s % 1000000000)).toFloat / 1000000000.0

end Span

end PeerShare
