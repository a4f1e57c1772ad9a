import Recency.Cache.Basic
/-
  Recency.Cache.Settings — what a cache is made from.
-/

namespace Recency

inductive TimeSource where
  /-- The clock that every program shares. A session sees it move only through `Op.advance`. -/
  | system
  /-- A clock that moves only when told to. -/
  | manual
  deriving DecidableEq, Repr

def TimeSource.inspect : TimeSource → String
  | .system => "SystemClock"
  | .manual => "ManualClock"

structure Settings where
  /-- Zero stands for the default bound. -/
  bound : UInt64
  defaultTtl : Duration
  notifies : Bool
  /-- None stands for `system`. -/
  time : Option TimeSource
  /-- Whether the index is one that others hold too. -/
  sharesIndex : Bool
  initialCapacity : Nat
  deriving DecidableEq, Repr

namespace Settings

open Text

def ofBound (bound : UInt64) : Settings := ⟨bound, .zero, false, none, false, 0⟩

def default : Settings := ofBound Cache.defaultBound

/-- An empty cache, with room for as many entries as asked for but no more than its bound. -/
def build {κ ν : Type} (s : Settings) : Cache κ ν where
  chain := .withCapacity (min s.initialCapacity (Cache.effectiveBound s.bound).toNat)
  index := .empty
  size := 0
  bound := Cache.effectiveBound s.bound
  defaultTtl := s.defaultTtl
  notifies := s.notifies
  sharesIndex := s.sharesIndex
  clock := .origin
  memory := .grants
  failing := none
  counters := .zero
  stays := 0
  journal := if s.bound = 0 then [.noted (.defaultBound Cache.defaultBound)] else []

def inspect (l : Layout) (s : Settings) : String :=
  l.record "LruBuilder" [("max_size", toString s.bound), ("default_ttl", s.defaultTtl.text),
    ("on_eviction", toString s.notifies), ("clock", l.optional (s.time.map TimeSource.inspect)),
    ("initial_capacity", toString s.initialCapacity)] false

end Settings

end Recency
