/-
  Recency.Time.Duration — spans of time and points in time, in whole nanoseconds.

  A point in time is its distance from the clock's origin. Points 2^63 seconds or more
  from the origin do not exist, so adding a span to a point can fail.
-/

namespace Recency

structure Duration where
  nanos : Nat
  deriving DecidableEq, Repr

structure Instant where
  nanos : Nat
  deriving DecidableEq, Repr

namespace Duration

def nanosPerSecond : Nat := 1000000000

/-- Nanoseconds beyond a second carry over. -/
def ofParts (seconds nanos : Nat) : Duration := ⟨seconds * nanosPerSecond + nanos⟩

def zero : Duration := ⟨0⟩

def seconds (d : Duration) : Nat := d.nanos / nanosPerSecond

/-- The part below a second. -/
def subsecond (d : Duration) : Nat := d.nanos % nanosPerSecond

/-! ## Text -/

/-- `whole` and the fraction `part / 10 ^ places`, without trailing zeros. -/
def decimal (whole part places : Nat) : String :=
  let digits := Nat.toDigits 10 part
  let fraction := List.replicate (places - digits.length) '0' ++ digits
  match (fraction.reverse.dropWhile (· = '0')).reverse with
  | [] => toString whole
  | shown => toString whole ++ "." ++ String.ofList shown

/-- In the largest of seconds, milliseconds, microseconds and nanoseconds that leaves a
    whole part. -/
def text (d : Duration) : String :=
  let n := d.subsecond
  if d.seconds ≠ 0 then decimal d.seconds n 9 ++ "s"
  else if 1000000 ≤ n then decimal (n / 1000000) (n % 1000000) 6 ++ "ms"
  else if 1000 ≤ n then decimal (n / 1000) (n % 1000) 3 ++ "µs"
  else decimal n 0 0 ++ "ns"

end Duration

namespace Instant

/-- The first distance from the origin that is too large, 2^63 seconds. -/
def limit : Nat := UInt64.size / 2 * Duration.nanosPerSecond

/-- The point `d` after `t`, if there is one. -/
def add? (t : Instant) (d : Duration) : Option Instant :=
  if t.nanos + d.nanos < limit then some ⟨t.nanos + d.nanos⟩ else none

end Instant

end Recency
