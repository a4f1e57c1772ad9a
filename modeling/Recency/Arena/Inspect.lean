import Recency.Arena.Basic
import Recency.Text.Layout
/-
  Recency.Arena.Inspect — an arena and its errors as text.
-/

namespace Recency

open Text

def inspectLink (l : Layout) (link : Option UInt32) : String := l.optional (link.map toString)

def Slot.inspect {α : Type} (l : Layout) (value : α → String) (s : Slot α) : String :=
  l.record "Slot" [("value", l.optional (s.value.map value)), ("generation", toString s.generation),
    ("prev", inspectLink l s.prev), ("next", inspectLink l s.next)] false

def Arena.inspect {α : Type} (l : Layout) (value : α → String) (a : Arena α) : String :=
  l.record "SlotArena" [("slots", l.listed (a.slots.toList.map (Slot.inspect l value))),
    ("free_head", inspectLink l a.freeHead), ("len", toString a.live)] false

def ArenaError.inspect (l : Layout) : ArenaError → String
  | .capacityOverflow => "CapacityOverflow"
  | .allocFailed requested => l.record "AllocFailed" [("requested", toString requested)] false

end Recency
