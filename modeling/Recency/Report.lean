import Recency.Cache.Failure
import Recency.Text.Quoted
/-
  Recency.Report — what a check tells its caller: a message and nothing else.
-/

namespace Recency

structure Report where
  message : String
  deriving DecidableEq, Repr

namespace Report

open Text

def ofChainFault (f : Chain.Fault) : Report := ⟨f.message⟩

def ofCacheFault (f : Cache.Fault) : Report := ⟨f.message⟩

def inspect (l : Layout) (r : Report) : String := l.wrap "InvariantError" (quote r.message)

end Report

end Recency
