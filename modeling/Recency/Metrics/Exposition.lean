import Recency.Metrics.Counters
/-
  Recency.Metrics.Exposition — a snapshot in the text format that metric collectors read.

  Each metric is two lines: a comment with its type, and its name and value. A name is
  the metric's own, after the family name and an underscore if there is a family name.
-/

namespace Recency.Exposition

inductive Kind where
  | counter
  | gauge
  deriving DecidableEq, Repr

def Kind.name : Kind → String
  | .counter => "counter"
  | .gauge => "gauge"

structure Sample where
  kind : Kind
  name : String
  value : UInt64
  deriving DecidableEq, Repr

/-- The metrics of a snapshot, in the order in which they are written. -/
def samples (s : Snapshot) : List Sample :=
  [⟨.counter, "get_calls_total", s.getCalls⟩, ⟨.counter, "get_hits_total", s.getHits⟩,
    ⟨.counter, "get_misses_total", s.getMisses⟩, ⟨.counter, "insert_new_total", s.insertNew⟩,
    ⟨.counter, "insert_updates_total", s.insertUpdates⟩, ⟨.counter, "evicted_entries_total", s.evicted⟩,
    ⟨.counter, "expired_entries_total", s.expired⟩, ⟨.counter, "removed_entries_total", s.removed⟩,
    ⟨.counter, "clear_calls_total", s.clearCalls⟩, ⟨.gauge, "len", s.length⟩,
    ⟨.gauge, "capacity", s.capacity⟩]

def qualify (family name : String) : String := if family = "" then name else family ++ "_" ++ name

def Sample.text (family : String) (s : Sample) : String :=
  let name := qualify family s.name
  "# TYPE " ++ name ++ " " ++ s.kind.name ++ "\n" ++ name ++ " " ++ toString s.value ++ "\n"

def text (family : String) (s : Snapshot) : String := String.join ((samples s).map (Sample.text family))

/-! ## A writer that fills up -/

/-- As much of `cs` as fits in `room` bytes. -/
def fitting : Nat → List Char → List Char
  | _, [] => []
  | room, c :: cs => if c.utf8Size ≤ room then c :: fitting (room - c.utf8Size) cs else []

/-- What a writer that takes `limit` bytes, or all, has taken of a text. -/
def clip (limit : Option Nat) (text : String) : String :=
  match limit with
  | none => text
  | some n => String.ofList (fitting n text.toList)

end Recency.Exposition
