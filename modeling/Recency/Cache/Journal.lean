import Recency.Cache.Operation
/-
  Recency.Cache.Journal — what happened to a cache, event by event.

  The time an entry spends in the cache is a stay; stays are numbered from zero in the
  order in which they begin. Storing under a key that is present overwrites the stay of
  that key and begins none.
-/

namespace Recency

structure Entry (κ ν : Type) where
  stay : Nat
  key : κ
  value : ν
  deadline : Option Instant
  deriving DecidableEq, Repr

/-- An entry is good up to and including its deadline. -/
def Entry.expired {κ ν : Type} (e : Entry κ ν) (now : Instant) : Bool :=
  match e.deadline with
  | none => false
  | some d => d.nanos < now.nanos

/-- Why an entry left. -/
inductive Cause where
  | capacity
  | expired
  | deleted
  | cleared
  deriving DecidableEq, Repr

/-- What the cache reports to whoever watches it. -/
inductive Note where
  | defaultBound (bound : UInt64)
  | evicted (length : UInt64)
  | reaped
  | resized (bound : UInt64) (dropped : Nat)
  | purged (dropped : Nat)
  | cleared (dropped : UInt64)
  deriving DecidableEq, Repr

namespace Note

def level : Note → String
  | .defaultBound _ => "WARN"
  | .evicted _ | .reaped => "TRACE"
  | .resized _ _ | .purged _ | .cleared _ => "DEBUG"

def message : Note → String
  | .defaultBound _ => "lru cache configured with max_size 0, using default"
  | .evicted _ => "evicted least recently used entry"
  | .reaped => "expired entry removed on read"
  | .resized _ _ => "resized lru cache"
  | .purged _ => "purged expired entries"
  | .cleared _ => "cleared lru cache"

def fields : Note → List (String × Nat)
  | .defaultBound bound => [("default", bound.toNat)]
  | .evicted length => [("len", length.toNat)]
  | .reaped => []
  | .resized bound dropped => [("new_max", bound.toNat), ("evicted", dropped)]
  | .purged dropped => [("removed", dropped)]
  | .cleared dropped => [("cleared", dropped.toNat)]

end Note

inductive Event (κ ν : Type) where
  | entered (e : Entry κ ν)
  /-- The entry as it is from now on. -/
  | overwritten (e : Entry κ ν)
  | left (e : Entry κ ν) (cause : Cause)
  /-- The eviction callback was called. -/
  | notified (e : Entry κ ν)
  /-- An operation of a callback was answered. -/
  | answered (op : Op κ ν) (reply : Reply κ ν)
  | noted (note : Note)
  deriving DecidableEq, Repr

end Recency
