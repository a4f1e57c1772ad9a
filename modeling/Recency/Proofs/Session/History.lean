import Recency.Proofs.Plain.Turns
/-
  Recency.Proofs.Session.History — what has been done to a cache, deed by deed.

  A history is the list of the deeds of a run, in the order in which they were done. When
  the callbacks stand aside, each deed is a turn of the list (`perform_turn`), and at any
  moment before it is done the operation is midway (`run_midway`). What is to be shown of all
  histories is shown of one turn (`performAll_keeps`).
-/

namespace Recency

variable {κ ν : Type}

/-- What has left since the cache was `c`, latest first. -/
def Cache.goneSince (c d : Cache κ ν) : List (Entry κ ν × Cause) :=
  (leftIn d.journal).take ((leftIn d.journal).length - (leftIn c.journal).length)

theorem Cache.goneSince_eq {c d : Cache κ ν} {gone : List (Entry κ ν × Cause)}
    (h : leftIn d.journal = gone ++ leftIn c.journal) : c.goneSince d = gone := by
  rw [goneSince, h, List.length_append, Nat.add_sub_cancel, List.take_left]

variable [DecidableEq κ]

namespace Session

def deed (op : Op κ ν) (s : Session (Cache κ ν) κ ν) : Deed κ ν where
  op := op
  time := s.cache.now
  outcome := (s.perform Cache.engine op).1
  gone := s.cache.goneSince (s.perform Cache.engine op).2.cache

/-- The deeds of the operations when they are carried out in turn. -/
def deeds : List (Op κ ν) → Session (Cache κ ν) κ ν → List (Deed κ ν)
  | [], _ => []
  | op :: ops, s => s.deed op :: deeds ops (s.perform Cache.engine op).2

variable {still : Bool} {s : Session (Cache κ ν) κ ν} {op : Op κ ν}

theorem perform_turn (hs : s.Aloof still) (hop : op.quiet = true) :
    (s.perform Cache.engine op).2.Aloof still ∧
      ∃ front rest, Plain.Turn still s.cache.view (s.deed op) front rest (s.perform Cache.engine op).2.cache.view := by
  have hn := hs.steady.keys_nodup
  obtain ⟨hs', gone, front, rest, ht⟩ :=
    perform_carries hs op hop (Plain.midway_carries op hn) (Plain.start_proceeds s.cache.glance op hn)
  have hgone : s.cache.goneSince (s.perform Cache.engine op).2.cache = gone := Cache.goneSince_eq ht.left
  refine ⟨hs', front, rest, ?_⟩
  rw [deed, hgone]
  exact ht

theorem run_midway (hs : s.Aloof still) (hop : op.quiet = true) (n : Nat)
    (hu : ∀ o, ((Machine.start Cache.engine op s).run Cache.engine n).control ≠ .finished o) :
    ∃ gone, Plain.Since still op s.cache.view gone
      ((Machine.start Cache.engine op s).run Cache.engine n).cache.view := by
  have hn := hs.steady.keys_nodup
  obtain ⟨-, ha⟩ :=
    run_carries hs op hop (Plain.midway_carries op hn) (Plain.start_proceeds s.cache.glance op hn) n
  simp only [Machine.Alone] at ha
  split at ha
  · exact ha.2.2.since
  · exact ha.2.2.since
  · rename_i o hc
    exact absurd hc (hu o)

theorem performAll_aloof {ops : List (Op κ ν)} (hops : ∀ op ∈ ops, op.quiet = true) (hs : s.Aloof still) :
    (performAll Cache.engine ops s).2.Aloof still := by
  induction ops generalizing s with
  | nil => exact hs
  | cons op ops ih => exact ih (fun op hop => hops op (by simp [hop])) (perform_turn hs (hops op (by simp))).1

/-- What every turn carries on holds of every history and of the list it leads to. -/
theorem performAll_keeps {I : List (Deed κ ν) → Plain κ ν → Prop}
    (hstep : ∀ history d p q front rest, (p.entries.map (·.key)).Nodup → Plain.Turn still p d front rest q →
      I history p → I (history ++ [d]) q)
    {ops : List (Op κ ν)} (hops : ∀ op ∈ ops, op.quiet = true) (hs : s.Aloof still) {history : List (Deed κ ν)}
    (h : I history s.cache.view) :
    I (history ++ deeds ops s) (performAll Cache.engine ops s).2.cache.view := by
  induction ops generalizing s history with
  | nil =>
    rw [deeds, List.append_nil]
    exact h
  | cons op ops ih =>
    obtain ⟨hs', front, rest, ht⟩ := perform_turn hs (hops op (by simp))
    have hrest := ih (fun op hop => hops op (by simp [hop])) hs' (hstep _ _ _ _ _ _ hs.steady.keys_nodup ht h)
    rwa [List.append_assoc] at hrest

end Session

end Recency
