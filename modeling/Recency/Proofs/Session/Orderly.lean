import Recency.Proofs.Cache.Moves
import Recency.Proofs.Plain.Refinement
/-
  Recency.Proofs.Session.Orderly — runs in which no callback aborts.

  An abort inside a callback takes with it every operation that waits for the callback,
  and with them what they had yet to do. In an orderly run that never happens: only an
  operation that nobody waits for may abort.

  What is to hold along such a run may then speak of the tasks under way: `J` holds of the
  cache and of those tasks. It is enough that every piece of an operation lasts it
  (`Reach.lasts`).

  The cache is sound as long as no use of the index is made to fail, whatever the index
  says otherwise.
-/

namespace Recency

/-- Makes no use of a shared index fail. -/
def Op.calm {κ ν : Type} : Op κ ν → Bool
  | .failIndex (some _) => false
  | _ => true

/-- An operation waits for what is under way. -/
def Control.nested {κ ν : Type} : Control κ ν → Bool
  | .running _ below => !below.isEmpty
  | .reacting _ _ _ => true
  | .finished _ => false

def Control.aborted {κ ν : Type} : Control κ ν → Bool
  | .finished (.aborted _) => true
  | _ => false

/-- What is left of the operations under way, innermost first. -/
def Control.tasks {κ ν : Type} : Control κ ν → List (Task κ ν)
  | .running call below | .reacting _ call below => call.task :: below.map (·.call.task)
  | .finished _ => []

variable {σ κ ν : Type} [DecidableEq κ]

/-- The next step does not abort a callback. -/
def Machine.Orderly (E : Engine σ κ ν) (m : Machine σ κ ν) : Prop :=
  m.control.nested = true → (step E m).control.aborted = false

instance (E : Engine σ κ ν) (m : Machine σ κ ν) : Decidable (m.Orderly E) :=
  inferInstanceAs (Decidable (_ → _))

/-- What is reached goes on with `J`, above the operations that left the tasks `ts`. -/
def Engine.Lasts (E : Engine σ κ ν) (J : σ → List (Task κ ν) → Prop) (ts : List (Task κ ν)) :
    EStateM.Result Abort σ (Progress κ ν) → Prop
  | .error _ s => ts = [] → J s []
  | .ok (.done _) s => J s ts
  | .ok (.release none task) s => J s (task :: ts)
  | .ok (.release (some e) task) s => J (if E.notifies s then E.record (.notified e) s else s) (task :: ts)

namespace Machine

variable {E : Engine σ κ ν} {P : Op κ ν → Prop} {I : σ → Prop} {J : σ → List (Task κ ν) → Prop}

theorem settle_lasts (hans : ∀ op reply s ts, J s ts → J (E.record (.answered op reply) s) ts) (op : Op κ ν)
    (below : List (Waiting κ ν)) (reactions : List (Reaction κ ν)) {r : EStateM.Result Abort σ (Progress κ ν)}
    (ho : below ≠ [] → (settle E op below reactions r).control.aborted = false)
    (h : E.Lasts J (below.map (·.call.task)) r) :
    J (settle E op below reactions r).cache (settle E op below reactions r).control.tasks := by
  cases r with
  | error a s =>
    cases below with
    | nil => exact h rfl
    | cons w below => exact absurd (ho (by simp)) (by simp [settle, Control.aborted])
  | ok progress s =>
    cases progress with
    | done reply =>
      cases below with
      | nil => exact h
      | cons w below => exact hans _ _ _ _ h
    | release victim task =>
      cases victim with
      | none => exact h
      | some e =>
        simp only [Engine.Lasts] at h
        simp only [settle, notify]
        split at h
        · rename_i hn
          rw [if_pos hn]
          exact h
        · rename_i hn
          rw [if_neg hn]
          exact h

theorem step_lasts (hans : ∀ op reply s ts, J s ts → J (E.record (.answered op reply) s) ts)
    (hresume : ∀ task ts s, I s → J s (task :: ts) → E.Lasts J ts (E.resume task s))
    (hstart : ∀ op ts s, P op → I s → J s ts → E.Lasts J ts (E.start op s)) {m : Machine σ κ ν} (hu : m.Upholds P)
    (hI : I m.cache) (ho : m.Orderly E) (h : J m.cache m.control.tasks) :
    J (step E m).cache (step E m).control.tasks := by
  obtain ⟨⟨s, reactions⟩, control⟩ := m
  cases control with
  | running call below =>
    refine settle_lasts hans call.op below reactions (fun hb => ho ?_) (hresume call.task _ s hI h)
    simpa [Control.nested] using hb
  | reacting ops call below =>
    cases ops with
    | nil => exact h
    | cons op ops =>
      refine settle_lasts hans op (⟨call, ops⟩ :: below) reactions (fun _ => ho rfl) ?_
      exact hstart op _ s (hu.pending op (by simp [Control.pending])) hI h
  | finished o => exact h

theorem Reach.lasts (hans : ∀ op reply s ts, J s ts → J (E.record (.answered op reply) s) ts)
    (hresume : ∀ task ts s, I s → J s (task :: ts) → E.Lasts J ts (E.resume task s))
    (hstart : ∀ op ts s, P op → I s → J s ts → E.Lasts J ts (E.start op s)) {s : Session σ κ ν} {m : Machine σ κ ν}
    (h : Reach E P (Orderly E) s m) (hs : ∀ r ∈ s.reactions, ∀ op ∈ r.ops, P op)
    (hI : ∀ {m}, Reach E P (Orderly E) s m → I m.cache) (hJ : J s.cache []) : J m.cache m.control.tasks := by
  induction h with
  | idle => exact hJ
  | start op hm hc hP ih =>
    rw [hc] at ih
    exact settle_lasts hans op [] _ (fun hb => absurd rfl hb) (hstart op [] _ hP (hI hm) ih)
  | step hm ho ih => exact step_lasts hans hresume hstart (hm.upholds hs) (hI hm) ho ih

end Machine

/-! ## A cache whose index does not fail -/

namespace Cache

omit [DecidableEq κ] in
/-- What holds of a cache whatever its index says, as long as no step of it fails. -/
structure Sound (c : Cache κ ν) : Prop where
  chain : c.chain.WellFormed
  size_eq : c.size.toNat = c.entries.length
  failing : c.failing = none
  bound_pos : 0 < c.bound.toNat

omit [DecidableEq κ] in
theorem Frame.sound {c d : Cache κ ν} (h : Frame c d) (hc : c.Sound) : d.Sound :=
  ⟨h.chain, h.size_eq hc.size_eq, h.failing hc.failing, h.bound ▸ hc.bound_pos⟩

omit [DecidableEq κ] in
theorem Moves.sound {c : Cache κ ν} {pending : List (Entry κ ν)} {r : EStateM.Result Abort (Cache κ ν) (Progress κ ν)}
    (h : Moves c pending r) (hc : c.Sound) : Engine.Keeps Sound r := by
  cases h with
  | breaks _ h => exact (h.2 hc.failing).sound hc
  | keeps _ h _ => exact h.sound hc
  | overwrites _ h => exact h.sound hc
  | enters _ h => exact h.sound hc
  | releases h _ => exact h.sound hc

omit [DecidableEq κ] in
theorem Sound.primed {c : Cache κ ν} (h : c.Sound) {op : Op κ ν} (hop : op.calm = true) : (c.primed op).Sound := by
  cases op with
  | resize asked => exact ⟨h.chain, h.size_eq, h.failing, effectiveBound_pos asked⟩
  | failIndex step =>
    cases step with
    | some step => cases hop
    | none => exact ⟨h.chain, h.size_eq, by simp only [Cache.primed]; split <;> rfl, h.bound_pos⟩
  | _ => exact h

omit [DecidableEq κ] in
/-- Getting ready for an operation changes none of this. -/
theorem primed_same (c : Cache κ ν) (op : Op κ ν) :
    (c.primed op).stays = c.stays ∧ enteredIn (c.primed op).journal = enteredIn c.journal ∧
      storedIn (c.primed op).journal = storedIn c.journal ∧
      notifiedIn (c.primed op).journal = notifiedIn c.journal := by
  cases op with
  | resize asked =>
    by_cases e : asked = 0
    · subst e; exact ⟨rfl, rfl, rfl, rfl⟩
    · have hj : (c.primed (.resize asked)).journal = c.journal := if_neg e
      rw [hj]
      exact ⟨rfl, rfl, rfl, rfl⟩
  | _ => exact ⟨rfl, rfl, rfl, rfl⟩

theorem Steady.sound {c : Cache κ ν} (h : c.Steady) : c.Sound := ⟨h.chain, h.size_eq, h.failing, h.bound_pos⟩

end Cache

namespace Machine

/-- A step carries out one piece of an operation, or leaves the cache alone. -/
theorem step_piece {m : Machine (Cache κ ν) κ ν} (hc : m.cache.Sound) (hu : m.Upholds fun op => op.calm = true) :
    (step Cache.engine m).cache = m.cache ∨
      ∃ ready op below pending r, (m.cache.primed ready).Sound ∧ Cache.Moves (m.cache.primed ready) pending r ∧
        step Cache.engine m = settle Cache.engine op below m.reactions r := by
  obtain ⟨⟨c, reactions⟩, control⟩ := m
  cases control with
  | running call below =>
    -- a task needs no getting ready, like an operation that only reads
    exact .inr ⟨.length, call.op, below, _, _, hc, Cache.resume_moves hc.chain call.task, rfl⟩
  | reacting ops call below =>
    cases ops with
    | nil => exact .inl rfl
    | cons op ops =>
      have hop : op.calm = true := hu.pending op (by simp [Control.pending])
      exact .inr ⟨op, op, ⟨call, ops⟩ :: below, _, _, hc.primed hop, Cache.start_moves hc.chain op, rfl⟩
  | finished o => exact .inl rfl

end Machine

theorem Machine.Reach.sound {cfg : Settings} {rs : List (Reaction κ ν)} {A : Machine (Cache κ ν) κ ν → Prop}
    {m : Machine (Cache κ ν) κ ν} (h : Reach Cache.engine (fun op => op.calm = true) A ⟨cfg.build, rs⟩ m)
    (hrs : ∀ r ∈ rs, ∀ op ∈ r.ops, op.calm = true) : m.cache.Sound :=
  h.keeps (I := Cache.Sound) (fun _ _ h => ⟨h.chain, h.size_eq, h.failing, h.bound_pos⟩)
    (fun task _ h => (Cache.resume_moves h.chain task).sound h)
    (fun op _ hop h => (Cache.start_moves h.chain op).sound (h.primed hop)) hrs (Cache.build_steady cfg).1.sound

end Recency
