import Recency.Cache.Basic
/-
  Recency.Cache.Inspect — a cache as text: its counts and settings, not its entries.
-/

namespace Recency

open Text

def Cache.inspect {κ ν : Type} (l : Layout) (c : Cache κ ν) : String :=
  l.record "LruCache" [("len", toString c.size), ("max_size", toString c.bound),
    ("default_ttl", c.defaultTtl.text), ("on_eviction", toString c.notifies)] true

end Recency
