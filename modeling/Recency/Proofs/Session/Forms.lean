import Recency.Proofs.Cache.Consistent
import Recency.Proofs.Session.Runs
/-
  Recency.Proofs.Session.Forms — the two forms of a store.

  A store may report that there is no memory for it, or abort. The two forms do the same,
  piece by piece, whatever the cache is like; only the last piece is answered differently
  (`resume_forms`). And nobody else can tell which form it is that waits: an operation of a
  callback goes on above the one as above the other (`settle_nested_forms`). So two runs
  that differ in the form of the store keep step, callbacks and all (`run_forms`).
-/

namespace Recency

variable {σ κ ν : Type}

/-! ## Runs and their ends -/

namespace Machine

variable [DecidableEq κ] {E : Engine σ κ ν}

theorem run_of_finished {m : Machine σ κ ν} {o : Outcome κ ν} (h : m.control = .finished o) (n : Nat) :
    m.run E n = m := by
  cases n with
  | zero => rfl
  | succ n =>
    unfold Machine.run
    rw [h]

theorem step_of_finished {m : Machine σ κ ν} {o : Outcome κ ν} (h : m.control = .finished o) : step E m = m := by
  unfold step
  rw [h]

theorem run_succ (n : Nat) (m : Machine σ κ ν) : m.run E (n + 1) = step E (m.run E n) := by
  induction n generalizing m with
  | zero =>
    unfold Machine.run
    split
    · rename_i o hc
      exact (step_of_finished hc).symm
    · rfl
  | succ n ih =>
    unfold Machine.run
    split
    · rename_i o hc
      exact (step_of_finished hc).symm
    · exact ih (step E m)

theorem run_add (n k : Nat) (m : Machine σ κ ν) : m.run E (n + k) = (m.run E n).run E k := by
  induction k with
  | zero => rfl
  | succ k ih => rw [← Nat.add_assoc, run_succ, run_succ, ih]

/-- The steps after the last change nothing. -/
theorem run_beyond {m : Machine σ κ ν} {n : Nat} {o : Outcome κ ν} (h : (m.run E n).control = .finished o) (k : Nat) :
    m.run E (n + k) = m.run E n := by
  rw [run_add, run_of_finished h]

end Machine

/-- What an operation that comes to its end leaves is there after any run that is long enough. -/
theorem Session.perform_eq_run [DecidableEq κ] {E : Engine σ κ ν} {op : Op κ ν} {s : Session σ κ ν}
    (h : (s.perform E op).1 ≠ .unfinished) (k : Nat) :
    let m := (Machine.start E op s).run E ((Machine.start E op s).potential E + k)
    m.control = .finished (s.perform E op).1 ∧ m.toSession = (s.perform E op).2 := by
  have hend : ((Machine.start E op s).run E ((Machine.start E op s).potential E)).control =
      .finished (s.perform E op).1 := by
    simp only [perform, Machine.outcome] at h ⊢
    split at h
    · rename_i o hc
      exact hc
    · exact absurd rfl h
  rw [Machine.run_beyond hend]
  exact ⟨hend, rfl⟩

/-- An operation that is answered at once is over with its first piece. -/
theorem Session.perform_of_done [DecidableEq κ] {E : Engine σ κ ν} {op : Op κ ν} {s : Session σ κ ν}
    {reply : Reply κ ν} {d : σ} (h : E.start op s.cache = .ok (.done reply) d) :
    s.perform E op = (.returned reply, ⟨d, s.reactions⟩) := by
  have hstart : Machine.start E op s = ⟨⟨d, s.reactions⟩, .finished (.returned reply)⟩ := by
    unfold Machine.start
    rw [h]
    rfl
  have hover : (Machine.start E op s).control = .finished (.returned reply) := by rw [hstart]
  simp only [Session.perform, Machine.run_of_finished hover]
  rw [hstart]
  rfl

/-! ## The two forms -/

/-- The key that is to be stored, of a store that reports a refusal. -/
def Op.tries? : Op κ ν → Option κ
  | .put key _ _ .report | .getOrPut key _ _ .report => some key
  | _ => none

/-- The form that aborts. -/
def Op.forced : Op κ ν → Op κ ν
  | .put key value ttl _ => .put key value ttl .abort
  | .getOrPut key value ttl _ => .getOrPut key value ttl .abort
  | op => op

/-- What is left of a store, in its two forms. -/
inductive Task.Forms : Task κ ν → Task κ ν → Prop
  | put (k : κ) (value : ν) (deadline : Option Instant) :
      Forms (.put k value deadline .report) (.put k value deadline .abort)
  | getOrPut (k : κ) (value : ν) (ttl : Duration) : Forms (.getOrPut k value ttl .report) (.getOrPut k value ttl .abort)

inductive Outcome.Forms : Outcome κ ν → Outcome κ ν → Prop
  | refused (e : ArenaError) : Forms (.returned (.refused e)) (.aborted (.refused e))
  | stored : Forms (.returned .ok) (.returned .unit)
  | got (value : ν) (loaded : Bool) : Forms (.returned (.got value loaded)) (.returned (.got value loaded))
  | aborted (a : Abort) : Forms (.aborted a) (.aborted a)

/-- Unless it aborts anyway, the one form aborts just when the other reports a refusal. -/
theorem Outcome.Forms.aborted_iff {o o' : Outcome κ ν} (h : o.Forms o') (ho : ∀ a, o ≠ .aborted a) (a : Abort) :
    o' = .aborted a ↔ ∃ e, a = .refused e ∧ o = .returned (.refused e) := by
  cases h with
  | refused e =>
    constructor
    · intro h
      cases h
      exact ⟨e, rfl, rfl⟩
    · rintro ⟨e', rfl, h⟩
      cases h
      rfl
  | stored => exact ⟨fun h => (by cases h), fun ⟨_, _, h⟩ => (by cases h)⟩
  | got value loaded => exact ⟨fun h => (by cases h), fun ⟨_, _, h⟩ => (by cases h)⟩
  | aborted a => exact absurd rfl (ho a)

/-- What a piece of a store comes to, in its two forms. -/
inductive Engine.Forms : EStateM.Result Abort σ (Progress κ ν) → EStateM.Result Abort σ (Progress κ ν) → Prop
  | refused (e : ArenaError) (s : σ) : Forms (.ok (.done (.refused e)) s) (.error (.refused e) s)
  | stored (s : σ) : Forms (.ok (.done .ok) s) (.ok (.done .unit) s)
  | got (value : ν) (loaded : Bool) (s : σ) :
      Forms (.ok (.done (.got value loaded)) s) (.ok (.done (.got value loaded)) s)
  | aborted (a : Abort) (s : σ) : Forms (.error a s) (.error a s)
  | released (victim : Option (Entry κ ν)) {task task' : Task κ ν} (h : task.Forms task') (s : σ) :
      Forms (.ok (.release victim task) s) (.ok (.release victim task') s)

/-! ## One piece -/

namespace Cache

open Recency.Action

variable [DecidableEq κ]

theorem enter_forms (k : κ) (value : ν) (deadline : Option Instant) {reply reply' : Reply κ ν}
    (hr : ∀ d : Cache κ ν, Engine.Forms (.ok (.done reply) d) (.ok (.done reply') d)) (c : Cache κ ν) :
    Engine.Forms
      ((do match ← Cache.enter k value deadline with
           | .error e => Cache.refuse .report e
           | .ok () => return .done reply : Action κ ν (Progress κ ν)) c)
      ((do match ← Cache.enter k value deadline with
           | .error e => Cache.refuse .abort e
           | .ok () => return .done reply' : Action κ ν (Progress κ ν)) c) := by
  simp only [bind_apply]
  cases Cache.enter k value deadline c with
  | error a d => exact .aborted a d
  | ok entered d =>
    cases entered with
    | error e => exact .refused e d
    | ok u => exact hr d

theorem makeRoom_forms {finish finish' : Action κ ν (Progress κ ν)} (hf : ∀ c, Engine.Forms (finish c) (finish' c))
    {task task' : Task κ ν} (ht : task.Forms task') (c : Cache κ ν) :
    Engine.Forms
      ((do if (← get).hasRoom then finish
           else match ← evict with
             | none => finish
             | some victim => return .release victim task : Action κ ν (Progress κ ν)) c)
      ((do if (← get).hasRoom then finish'
           else match ← evict with
             | none => finish'
             | some victim => return .release victim task' : Action κ ν (Progress κ ν)) c) := by
  simp only [bind_apply, get_apply]
  cases c.hasRoom with
  | true => exact hf c
  | false =>
    simp only [Bool.false_eq_true, if_false, bind_apply]
    cases evict c with
    | error a d => exact .aborted a d
    | ok victim d =>
      cases victim with
      | none => exact hf d
      | some e => exact .released (some e) ht d

theorem resume_forms {task task' : Task κ ν} (h : task.Forms task') (c : Cache κ ν) :
    Engine.Forms (Cache.resume task c) (Cache.resume task' c) := by
  cases h with
  | put k value deadline =>
    simp only [Cache.resume, resumePut, bind_apply]
    cases locate k c with
    | error a d => exact .aborted a d
    | ok found d =>
      cases found with
      | some p =>
        simp only [bind_apply]
        cases overwrite p.1 p.2 value deadline d with
        | error a d => exact .aborted a d
        | ok u d => exact .stored d
      | none => exact makeRoom_forms (enter_forms k value deadline .stored) (.put k value deadline) d
  | getOrPut k value ttl =>
    have hfinish : ∀ c : Cache κ ν, Engine.Forms (finishGetOrPut k value ttl .report c)
        (finishGetOrPut k value ttl .abort c) := fun c =>
      enter_forms k value (c.clock.deadline ttl) (.got value false) { c with counters := c.counters.bump .getMiss }
    simp only [Cache.resume, resumeGetOrPut, bind_apply]
    cases locate k c with
    | error a d => exact .aborted a d
    | ok found d =>
      cases found with
      | some p =>
        simp only [bind_apply, get_apply]
        cases p.2.expired d.now with
        | true =>
          simp only [if_true, bind_apply]
          cases detach p.1 .expired d with
          | error a d => exact .aborted a d
          | ok reaped d => cases reaped <;> exact .released _ (.getOrPut k value ttl) _
        | false => exact .got _ _ _
      | none => exact makeRoom_forms hfinish (.getOrPut k value ttl) d

theorem start_forms {op : Op κ ν} {k : κ} (h : op.tries? = some k) (c : Cache κ ν) :
    Engine.Forms (Cache.start op c) (Cache.start op.forced c) := by
  cases op with
  | put k' value ttl refusal =>
    cases refusal with
    | report => exact resume_forms (.put k' value (c.clock.deadline (ttl.getD c.defaultTtl))) c
    | abort => cases h
  | getOrPut k' value ttl refusal =>
    cases refusal with
    | report => exact resume_forms (.getOrPut k' value ttl) c
    | abort => cases h
  | _ => cases h

end Cache

/-! ## Runs that keep step -/

/-- The same is under way, but for the form of the outermost operation. -/
inductive Control.Forms (op op' : Op κ ν) : Control κ ν → Control κ ν → Prop
  | running {task task' : Task κ ν} (h : task.Forms task') :
      Forms op op' (.running ⟨op, task⟩ []) (.running ⟨op', task'⟩ [])
  | reacting {task task' : Task κ ν} (h : task.Forms task') (ops : List (Op κ ν)) :
      Forms op op' (.reacting ops ⟨op, task⟩ []) (.reacting ops ⟨op', task'⟩ [])
  | runningAbove {task task' : Task κ ν} (h : task.Forms task') (call : Call κ ν) (above : List (Waiting κ ν))
      (ops : List (Op κ ν)) :
      Forms op op' (.running call (above ++ [⟨⟨op, task⟩, ops⟩])) (.running call (above ++ [⟨⟨op', task'⟩, ops⟩]))
  | reactingAbove {task task' : Task κ ν} (h : task.Forms task') (now : List (Op κ ν)) (call : Call κ ν)
      (above : List (Waiting κ ν)) (ops : List (Op κ ν)) :
      Forms op op' (.reacting now call (above ++ [⟨⟨op, task⟩, ops⟩]))
        (.reacting now call (above ++ [⟨⟨op', task'⟩, ops⟩]))
  | finished {o o' : Outcome κ ν} (h : o.Forms o') : Forms op op' (.finished o) (.finished o')

namespace Machine

variable [DecidableEq κ] {E : Engine σ κ ν} {op op' : Op κ ν}

/-- The two runs are at the same session, and in step. -/
structure Forms (op op' : Op κ ν) (m m' : Machine σ κ ν) : Prop where
  session : m'.toSession = m.toSession
  control : m.control.Forms op op' m'.control

theorem settle_forms (reactions : List (Reaction κ ν)) {r r' : EStateM.Result Abort σ (Progress κ ν)}
    (h : Engine.Forms r r') : Forms op op' (settle E op [] reactions r) (settle E op' [] reactions r') := by
  cases h with
  | refused e s => exact ⟨rfl, .finished (.refused e)⟩
  | stored s => exact ⟨rfl, .finished .stored⟩
  | got value loaded s => exact ⟨rfl, .finished (.got value loaded)⟩
  | aborted a s => exact ⟨rfl, .finished (.aborted a)⟩
  | released victim ht s =>
    cases victim with
    | none => exact ⟨rfl, .running ht⟩
    | some e =>
      simp only [settle, notify]
      split
      · exact ⟨rfl, .reacting ht _⟩
      · exact ⟨rfl, .running ht⟩

theorem settle_nested_forms {task task' : Task κ ν} (ht : task.Forms task') (ops : List (Op κ ν)) (inner : Op κ ν)
    (above : List (Waiting κ ν)) (reactions : List (Reaction κ ν)) (r : EStateM.Result Abort σ (Progress κ ν)) :
    Forms op op' (settle E inner (above ++ [⟨⟨op, task⟩, ops⟩]) reactions r)
      (settle E inner (above ++ [⟨⟨op', task'⟩, ops⟩]) reactions r) := by
  cases r with
  | error a s => exact ⟨rfl, .finished (.aborted a)⟩
  | ok progress s =>
    cases progress with
    | done reply =>
      cases above with
      | nil => exact ⟨rfl, .reacting ht ops⟩
      | cons w above => exact ⟨rfl, .reactingAbove ht w.ops w.call above ops⟩
    | release victim rest =>
      cases victim with
      | none => exact ⟨rfl, .runningAbove ht _ above ops⟩
      | some e =>
        simp only [settle, notify]
        split
        · exact ⟨rfl, .reactingAbove ht _ _ above ops⟩
        · exact ⟨rfl, .runningAbove ht _ above ops⟩

theorem step_forms
    (hE : ∀ {task task' : Task κ ν} s, task.Forms task' → Engine.Forms (E.resume task s) (E.resume task' s))
    {m m' : Machine σ κ ν} (h : Forms op op' m m') : Forms op op' (step E m) (step E m') := by
  obtain ⟨⟨s, reactions⟩, control⟩ := m
  obtain ⟨session, control'⟩ := m'
  obtain ⟨rfl, hc⟩ := h
  simp only at hc
  cases hc with
  | running ht => exact settle_forms reactions (hE s ht)
  | reacting ht ops =>
    cases ops with
    | nil => exact ⟨rfl, .running ht⟩
    | cons inner ops => exact settle_nested_forms ht ops inner [] reactions (E.start inner s)
  | runningAbove ht call above ops => exact settle_nested_forms ht ops call.op above reactions (E.resume call.task s)
  | reactingAbove ht now call above ops =>
    cases now with
    | nil => exact ⟨rfl, .runningAbove ht call above ops⟩
    | cons inner now => exact settle_nested_forms ht ops inner (⟨call, now⟩ :: above) reactions (E.start inner s)
  | finished ho => exact ⟨rfl, .finished ho⟩

theorem run_forms
    (hE : ∀ {task task' : Task κ ν} s, task.Forms task' → Engine.Forms (E.resume task s) (E.resume task' s))
    (n : Nat) {m m' : Machine σ κ ν} (h : Forms op op' m m') : Forms op op' (m.run E n) (m'.run E n) := by
  induction n with
  | zero => exact h
  | succ n ih =>
    rw [run_succ, run_succ]
    exact step_forms hE ih

end Machine

namespace Session

variable [DecidableEq κ]

/-- Both forms of a store leave the same session, and come to what their form comes to. -/
theorem perform_forms {s : Session (Cache κ ν) κ ν} {op : Op κ ν} {k : κ} (hop : op.tries? = some k)
    (hend : ∀ op, (s.perform Cache.engine op).1 ≠ .unfinished) :
    (s.perform Cache.engine op).1.Forms (s.perform Cache.engine op.forced).1 ∧
      (s.perform Cache.engine op.forced).2 = (s.perform Cache.engine op).2 := by
  let n := (Machine.start Cache.engine op s).potential Cache.engine
  let n' := (Machine.start Cache.engine op.forced s).potential Cache.engine
  obtain ⟨hc, hs⟩ := perform_eq_run (hend op) n'
  obtain ⟨hc', hs'⟩ := perform_eq_run (hend op.forced) n
  rw [Nat.add_comm n' n] at hc' hs'
  have hstart : Machine.Forms op op.forced (Machine.start Cache.engine op s) (Machine.start Cache.engine op.forced s) :=
    Machine.settle_forms s.reactions (Cache.start_forms hop s.cache)
  obtain ⟨hsession, hcontrol⟩ :=
    Machine.run_forms (E := Cache.engine) (fun c ht => Cache.resume_forms ht c) (n + n') hstart
  rw [hc, hc'] at hcontrol
  rw [hs, hs'] at hsession
  cases hcontrol with
  | finished ho => exact ⟨ho, hsession⟩

end Session

end Recency
