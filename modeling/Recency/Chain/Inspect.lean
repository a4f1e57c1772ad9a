import Recency.Chain.Basic
import Recency.Arena.Inspect
/-
  Recency.Chain.Inspect — a chain as text.
-/

namespace Recency

open Text

def Chain.inspect {α : Type} (l : Layout) (value : α → String) (c : Chain α) : String :=
  l.record "IntrusiveList" [("arena", c.arena.inspect l value), ("head", inspectLink l c.head),
    ("tail", inspectLink l c.tail)] false

end Recency
