import Recency.Time.Duration
/-
  Recency.Time.Clock — a clock that moves only when told to.

  The reading is a 64-bit count of nanoseconds. A step of more than 2^64 - 1 nanoseconds
  counts as 2^64 - 1, and the count wraps.
-/

namespace Recency

structure Clock where
  offset : UInt64
  deriving DecidableEq, Repr

namespace Clock

def origin : Clock := ⟨0⟩

def advance (c : Clock) (step : Duration) : Clock := ⟨c.offset + UInt64.ofNat (min step.nanos (UInt64.size - 1))⟩

/-- The reading as a span since the origin. -/
def elapsed (c : Clock) : Duration := ⟨c.offset.toNat⟩

/-- The reading as a point in time. -/
def now (c : Clock) : Instant := ⟨c.offset.toNat⟩

/-- When something stored now is due, if ever: never for the zero span or for a span that
    reaches past the last point in time. -/
def deadline (c : Clock) (ttl : Duration) : Option Instant :=
  if ttl = .zero then none else c.now.add? ttl

end Clock

end Recency
