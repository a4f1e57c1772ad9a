import Recency.Metrics.Counters
import Recency.Text.Hex
import Recency.Text.Layout
/-
  Recency.Metrics.Inspect — a snapshot as text.
-/

namespace Recency.Snapshot

open Text

def inspect (l : Layout) (s : Snapshot) : String :=
  l.record "LruMetricsSnapshot" [("get_calls", toString s.getCalls), ("get_hits", toString s.getHits),
    ("get_misses", toString s.getMisses), ("insert_new", toString s.insertNew),
    ("insert_updates", toString s.insertUpdates), ("evicted_entries", toString s.evicted),
    ("expired_entries", toString s.expired), ("removed_entries", toString s.removed),
    ("clear_calls", toString s.clearCalls), ("cache_len", toString s.length),
    ("capacity", toString s.capacity)] false

/-- The 64 bits of the hit ratio, in hexadecimal. -/
def hitRatioBits (s : Snapshot) : String := paddedHex 16 s.hitRatio.toBits.toNat

end Recency.Snapshot
