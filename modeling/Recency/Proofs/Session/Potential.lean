import Recency.Proofs.Session.Runs
/-
  Recency.Proofs.Session.Potential — a run comes to its end.

  An engine is thrifty at a state when no piece of an operation costs more than it has:
  the entries it adds and the task it leaves are paid from the entries it drops and the
  task it was. From there each step of the machine ends the run or lowers its potential
  (`potential_step`), so as many steps as the potential says are enough (`run_finished`).
-/

namespace Recency

variable {σ κ ν : Type} [DecidableEq κ]

/-- What is reached leaves less than `n` to pay for. An abort leaves nothing to do. -/
def Engine.Affords (E : Engine σ κ ν) (n : Nat) : EStateM.Result Abort σ (Progress κ ν) → Prop
  | .error _ _ => True
  | .ok (.done _) s => 2 * E.length s < n
  | .ok (.release _ task) s => 2 * E.length s + task.potential + 1 < n

structure Engine.Thrifty (E : Engine σ κ ν) (s : σ) : Prop where
  resume : ∀ task, E.Affords (2 * E.length s + task.potential) (E.resume task s)
  start : ∀ op, E.Affords (2 * E.length s + 3) (E.start op s)

theorem react_potential (k : κ) (rs : List (Reaction κ ν)) :
    3 * (react k rs).1.length + sumOver Reaction.potential (react k rs).2 ≤ sumOver Reaction.potential rs := by
  induction rs with
  | nil => exact Nat.le_refl _
  | cons r rs ih =>
    simp only [react]
    split
    · -- the reaction is there to be used, so using it once pays for its operations
      rename_i ha
      have ht : 0 < r.times := by
        simp only [Reaction.answers, Bool.and_eq_true, decide_eq_true_eq] at ha
        exact ha.1
      have hp : r.potential = (r.times - 1) * (3 * r.ops.length) + 3 * r.ops.length := by
        rw [Reaction.potential, ← Nat.succ_mul, Nat.succ_eq_add_one, Nat.sub_add_cancel ht]
      simp only [sumOver, hp]
      simp only [Reaction.potential]
      omega
    · simp only [sumOver]
      omega

namespace Machine

variable {E : Engine σ κ ν}

theorem settle_potential (hrec : ∀ e s, E.length (E.record e s) = E.length s) (op : Op κ ν) (below : List (Waiting κ ν))
    (reactions : List (Reaction κ ν)) {n : Nat} {r : EStateM.Result Abort σ (Progress κ ν)} (h : E.Affords n r) :
    (∃ o, (settle E op below reactions r).control = .finished o) ∨
      (settle E op below reactions r).potential E <
        n + sumOver Waiting.potential below + sumOver Reaction.potential reactions := by
  cases r with
  | error a s => exact .inl ⟨_, rfl⟩
  | ok progress s =>
    cases progress with
    | done reply =>
      simp only [Engine.Affords] at h
      cases below with
      | nil => exact .inl ⟨_, rfl⟩
      | cons w below =>
        refine .inr ?_
        simp only [settle, answer, potential, Control.potential, sumOver, hrec, Waiting.potential]
        omega
    | release victim task =>
      refine .inr ?_
      simp only [Engine.Affords] at h
      cases victim with
      | none =>
        simp only [settle, potential, Control.potential]
        omega
      | some e =>
        simp only [settle, notify]
        split
        · have hr := react_potential e.key reactions
          simp only [potential, Control.potential, sumOver, hrec, Waiting.potential]
          omega
        · simp only [potential, Control.potential]
          omega

theorem potential_step (hrec : ∀ e s, E.length (E.record e s) = E.length s) {m : Machine σ κ ν}
    (h : E.Thrifty m.cache) (hu : ∀ o, m.control ≠ .finished o) :
    (∃ o, (step E m).control = .finished o) ∨ (step E m).potential E < m.potential E := by
  obtain ⟨⟨s, reactions⟩, control⟩ := m
  cases control with
  | running call below =>
    refine (settle_potential hrec call.op below reactions (h.resume call.task)).imp id fun hlt => ?_
    simp only [step, potential, Control.potential] at hlt ⊢
    omega
  | reacting ops call below =>
    cases ops with
    | nil =>
      refine .inr ?_
      simp only [step, potential, Control.potential, sumOver, Waiting.potential]
      omega
    | cons op ops =>
      refine (settle_potential hrec op (⟨call, ops⟩ :: below) reactions (h.start op)).imp id fun hlt => ?_
      simp only [step, potential, Control.potential, sumOver, Waiting.potential,
        List.length_cons] at hlt ⊢
      omega
  | finished o => exact absurd rfl (hu o)

omit [DecidableEq κ] in
theorem potential_pos {m : Machine σ κ ν} (hu : ∀ o, m.control ≠ .finished o) : 0 < m.potential E := by
  obtain ⟨⟨s, reactions⟩, control⟩ := m
  cases control with
  | running call below =>
    have : 0 < call.task.potential := by cases call.task <;> simp only [Task.potential] <;> omega
    simp only [potential, Control.potential]
    omega
  | reacting ops call below =>
    simp only [potential, Control.potential, sumOver, Waiting.potential]
    omega
  | finished o => exact absurd rfl (hu o)

/-- A run that stays where the engine is thrifty ends within its potential. -/
theorem run_finished (hrec : ∀ e s, E.length (E.record e s) = E.length s) {I : Machine σ κ ν → Prop}
    (hI : ∀ m, I m → E.Thrifty m.cache) (hstep : ∀ m, I m → I (step E m)) {n : Nat} {m : Machine σ κ ν} (h : I m)
    (hn : m.potential E ≤ n) : ∃ o, (m.run E n).control = .finished o := by
  induction n generalizing m with
  | zero =>
    by_cases hu : ∃ o, m.control = .finished o
    · exact hu
    · have := potential_pos (E := E) fun o ho => hu ⟨o, ho⟩
      omega
  | succ n ih =>
    unfold Machine.run
    split
    · rename_i o hc
      exact ⟨o, hc⟩
    · rename_i hu
      rcases potential_step hrec (hI m h) hu with ⟨o, ho⟩ | hlt
      · refine ⟨o, ?_⟩
        cases n with
        | zero => exact ho
        | succ n => simp only [Machine.run, ho]
      · exact ih (hstep m h) (by omega)

/-! ## The outcome -/

/-- Only a run that stopped early is unfinished. -/
theorem settle_concluded (op : Op κ ν) (below : List (Waiting κ ν)) (reactions : List (Reaction κ ν))
    (r : EStateM.Result Abort σ (Progress κ ν)) : (settle E op below reactions r).control ≠ .finished .unfinished := by
  cases r with
  | error a s => simp [settle]
  | ok progress s =>
    cases progress with
    | done reply => cases below <;> simp [settle, answer]
    | release victim task =>
      cases victim with
      | none => simp [settle]
      | some e =>
        simp only [settle, notify]
        split <;> simp

theorem step_concluded {m : Machine σ κ ν} (h : m.control ≠ .finished .unfinished) :
    (step E m).control ≠ .finished .unfinished := by
  obtain ⟨⟨s, reactions⟩, control⟩ := m
  cases control with
  | running call below => exact settle_concluded call.op below reactions _
  | reacting ops call below =>
    cases ops with
    | nil => simp [step]
    | cons op ops => exact settle_concluded op (⟨call, ops⟩ :: below) reactions _
  | finished o => exact h

theorem run_concluded {n : Nat} {m : Machine σ κ ν} (h : m.control ≠ .finished .unfinished) :
    (m.run E n).control ≠ .finished .unfinished := by
  induction n generalizing m with
  | zero => exact h
  | succ n ih =>
    unfold Machine.run
    split
    · exact h
    · exact ih (step_concluded h)

theorem perform_concluded (hrec : ∀ e s, E.length (E.record e s) = E.length s) {I : Machine σ κ ν → Prop}
    (hI : ∀ m, I m → E.Thrifty m.cache) (hstep : ∀ m, I m → I (step E m)) {op : Op κ ν} {s : Session σ κ ν}
    (h : I (start E op s)) : (s.perform E op).1 ≠ .unfinished := by
  obtain ⟨o, ho⟩ := run_finished hrec hI hstep h (Nat.le_refl _)
  have hs : (start E op s).control ≠ .finished .unfinished := settle_concluded op [] s.reactions _
  have hc := run_concluded (E := E) (n := (start E op s).potential E) hs
  simp only [Session.perform, outcome, ho]
  rw [ho] at hc
  exact fun e => hc (e ▸ rfl)

end Machine

end Recency
