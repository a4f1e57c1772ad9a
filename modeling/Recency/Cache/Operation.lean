import Recency.Cache.Failure
import Recency.Index.Operation
import Recency.Metrics.Counters
import Recency.Text.Layout
import Recency.Time.Duration
/-
  Recency.Cache.Operation — what can be asked of a cache, and its answers, as data.
-/

namespace Recency

/-- What a store does when there is no memory for it. -/
inductive OnRefusal where
  | abort
  | report
  deriving DecidableEq, Repr

inductive Op (κ ν : Type) where
  /-- With no `ttl` of its own, the entry gets the cache's. -/
  | put (key : κ) (value : ν) (ttl : Option Duration) (refusal : OnRefusal)
  | getOrPut (key : κ) (value : ν) (ttl : Duration) (refusal : OnRefusal)
  | get (key : κ)
  | peek (key : κ)
  | has (key : κ)
  | delete (key : κ)
  /-- A bound of zero stands for the default bound. -/
  | resize (bound : UInt64)
  | purge
  | clear
  | keys
  | values
  /-- Visits at most `stopAfter` entries, or all of them when that is zero. -/
  | visit (stopAfter : Nat)
  | length
  | bound
  | isEmpty
  | defaultTtl
  | check
  | inspect (layout : Text.Layout)
  | metrics
  /-- The same as `metrics`, for those who ask any provider of snapshots. -/
  | snapshot
  | expose (family : String) (limit : Option Nat)
  | advance (step : Duration)
  | elapsed
  | abort (message : String)
  | memory (mem : Allocator)
  /-- Looks at or edits a shared index behind the cache's back. -/
  | index (op : Index.Op κ)
  /-- Makes one of the cache's uses of a shared index fail, or none. -/
  | failIndex (failure : Option Index.Failure)
  deriving DecidableEq, Repr

inductive Reply (κ ν : Type) where
  | unit
  | ok
  | refused (e : ArenaError)
  | faulty (f : Cache.Fault)
  | hit (value : Option ν)
  /-- `loaded` tells a value found from one just stored. -/
  | got (value : ν) (loaded : Bool)
  | flag (b : Bool)
  | count (n : Nat)
  | keys (ks : List κ)
  | values (vs : List ν)
  | visited (kvs : List (κ × ν))
  | span (d : Duration)
  | text (t : String)
  | snapshot (s : Snapshot)
  | index (r : Index.Reply)
  deriving DecidableEq, Repr

end Recency
