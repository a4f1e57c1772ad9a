import Recency.Proofs.Plain.Simulation
/-
  Recency.Proofs.Session.Alone — operations whose callbacks stand aside.

  A callback stands aside when nothing that it does is a use of the cache: it may look at
  the clock, move it, change how memory is granted, or look at a shared index. Then no
  operation waits for another, and what an operation has done is what its own pieces did,
  one after the other.

  So `M` is to hold of each task that waits for a callback and of the list as the callback
  finds it, and `F` of the outcome and of the list that is left. It is enough that the
  beginning leads to one of them, and every task from `M` to one of them (`run_carries`,
  `perform_carries`).
-/

namespace Recency

variable {σ κ ν : Type}

/-- Leaves the cache alone; and the clock too, if that is to keep `still`. -/
def Op.aside (still : Bool) : Op κ ν → Bool
  | .advance _ => !still
  | .elapsed | .memory _ | .failIndex none => true
  | .index op => !op.edits
  | _ => false

theorem Op.quiet_of_aside {still : Bool} {op : Op κ ν} (h : op.aside still = true) : op.quiet = true := by
  cases op with
  | index op => exact h
  | failIndex step => cases step with
    | none => rfl
    | some step => cases h
  | _ => rfl

/-! ## One operation at a time -/

/-- What is reached: a task that is to go on, with `Mid`, or an outcome, with `Final`. -/
def Engine.Leads (Mid : Task κ ν → σ → Prop) (Final : Outcome κ ν → σ → Prop) :
    EStateM.Result Abort σ (Progress κ ν) → Prop
  | .error a s => Final (.aborted a) s
  | .ok (.done reply) s => Final (.returned reply) s
  | .ok (.release _ task) s => Mid task s

/-- Tasks lead on from `Mid`, which outlasts callbacks of the kind `P`. -/
structure Engine.Abides [DecidableEq κ] (E : Engine σ κ ν) (P : Op κ ν → Prop) (Mid : Task κ ν → σ → Prop)
    (Final : Outcome κ ν → σ → Prop) : Prop where
  resume : ∀ task s, Mid task s → Engine.Leads Mid Final (E.resume task s)
  aside : ∀ op task s, P op → Mid task s → ∃ reply d, E.start op s = .ok (.done reply) d ∧ Mid task d
  notified : ∀ e task s, Mid task s → Mid task (E.record (.notified e) s)
  answered : ∀ op reply task s, Mid task s → Mid task (E.record (.answered op reply) s)

namespace Machine

variable {Mid : Task κ ν → σ → Prop} {Final : Outcome κ ν → σ → Prop}

/-- At most one operation is under way, and it is `Mid` the way. -/
def Alone (Mid : Task κ ν → σ → Prop) (Final : Outcome κ ν → σ → Prop) (m : Machine σ κ ν) : Prop :=
  match m.control with
  | .running call below | .reacting _ call below => below = [] ∧ Mid call.task m.cache
  | .finished o => Final o m.cache

variable [DecidableEq κ] {E : Engine σ κ ν} {P : Op κ ν → Prop}

theorem settle_alone (h : E.Abides P Mid Final) (op : Op κ ν) (reactions : List (Reaction κ ν))
    {r : EStateM.Result Abort σ (Progress κ ν)} (hr : Engine.Leads Mid Final r) :
    (settle E op [] reactions r).Alone Mid Final := by
  cases r with
  | error a s => exact hr
  | ok progress s =>
    cases progress with
    | done reply => exact hr
    | release victim task =>
      cases victim with
      | none => exact ⟨rfl, hr⟩
      | some e =>
        simp only [settle, notify]
        split
        · exact ⟨rfl, h.notified e task s hr⟩
        · exact ⟨rfl, hr⟩

theorem step_alone (h : E.Abides P Mid Final) {m : Machine σ κ ν} (hu : m.Upholds P) (hm : m.Alone Mid Final) :
    (step E m).Alone Mid Final := by
  obtain ⟨⟨s, reactions⟩, control⟩ := m
  cases control with
  | running call below =>
    obtain ⟨rfl, hmid⟩ := hm
    exact settle_alone h call.op reactions (h.resume call.task s hmid)
  | reacting ops call below =>
    obtain ⟨rfl, hmid⟩ := hm
    cases ops with
    | nil => exact ⟨rfl, hmid⟩
    | cons op ops =>
      -- the callback's operation is done at once, and the call waits on
      obtain ⟨reply, d, hd, hmid'⟩ := h.aside op call.task s (hu.pending op (by simp [Control.pending])) hmid
      simp only [step, hd]
      exact ⟨rfl, h.answered op reply call.task d hmid'⟩
  | finished o => exact hm

theorem run_alone (h : E.Abides P Mid Final) (n : Nat) {m : Machine σ κ ν} (hu : m.Upholds P)
    (hm : m.Alone Mid Final) : (m.run E n).Upholds P ∧ (m.run E n).Alone Mid Final := by
  induction n generalizing m with
  | zero => exact ⟨hu, hm⟩
  | succ n ih =>
    unfold Machine.run
    split
    · exact ⟨hu, hm⟩
    · exact ih (upholds_step E hu) (step_alone h hu hm)

end Machine

/-! ## The cache -/

/-- All that matters to the entries is as it was. -/
structure Plain.Beside (still : Bool) (p q : Plain κ ν) : Prop where
  entries : q.entries = p.entries
  bound : q.bound = p.bound
  defaultTtl : q.defaultTtl = p.defaultTtl
  places : q.room.places = p.room.places
  left : leftIn q.journal = leftIn p.journal
  clock : still = true → q.clock = p.clock

theorem Plain.Beside.record {still : Bool} {e : Event κ ν} (he : e.left? = none) (p : Plain κ ν) :
    p.Beside still (p.record e) :=
  ⟨rfl, rfl, rfl, rfl, List.filterMap_cons_none he, fun _ => rfl⟩

variable [DecidableEq κ]

theorem Plain.start_aside (look : Index.Op κ → Reply κ ν) {still : Bool} {op : Op κ ν} (h : op.aside still = true)
    (p : Plain κ ν) : ∃ reply q, Plain.start look op p = .ok (.done reply) q ∧ p.Beside still q := by
  cases op with
  | advance step => exact ⟨_, _, rfl, rfl, rfl, rfl, rfl, rfl, fun hs => by simp [Op.aside, hs] at h⟩
  | elapsed => exact ⟨_, _, rfl, rfl, rfl, rfl, rfl, rfl, fun _ => rfl⟩
  | memory memory => exact ⟨_, _, rfl, rfl, rfl, rfl, rfl, rfl, fun _ => rfl⟩
  | index op => exact ⟨_, _, rfl, rfl, rfl, rfl, rfl, rfl, fun _ => rfl⟩
  | failIndex step => exact ⟨_, _, rfl, rfl, rfl, rfl, rfl, rfl, fun _ => rfl⟩
  | _ => cases h

/-- Tasks lead on from `M`, and nothing that stands aside ends `M`. -/
structure Plain.Carries (still : Bool) (M : Task κ ν → Plain κ ν → Prop) (F : Outcome κ ν → Plain κ ν → Prop) :
    Prop where
  beside : ∀ task p q, p.Beside still q → M task p → M task q
  resume : ∀ task p, (p.entries.map (·.key)).Nodup → M task p → Engine.Leads M F (p.resume task)

/-- An operation that has nothing left to do but to answer. -/
theorem Plain.answers_carries {still : Bool} {reply : Reply κ ν} {F : Outcome κ ν → Plain κ ν → Prop}
    (h : ∀ p, F (.returned reply) p) : Plain.Carries still (fun task _ => task = .notify [] none reply) F where
  beside _ _ _ _ ht := ht
  resume task p _ ht := by
    subst ht
    exact h p

namespace Cache

theorem Agrees.leads {M : Task κ ν → Plain κ ν → Prop} {F : Outcome κ ν → Plain κ ν → Prop}
    {r : EStateM.Result Abort (Cache κ ν) (Progress κ ν)} {p : Plain.Result κ ν} (h : Agrees r p)
    (hp : Engine.Leads M F p) :
    Engine.Leads (fun task c => Steady c ∧ M task c.view) (fun o c => Steady c ∧ F o c.view) r := by
  cases h with
  | error a hs => exact ⟨hs, hp⟩
  | ok progress hs => cases progress <;> exact ⟨hs, hp⟩

theorem Agrees.ok_eq {α : Type} {r : EStateM.Result Abort (Cache κ ν) α} {a : α} {p : Plain κ ν}
    (h : Agrees r (.ok a p)) : ∃ d, r = .ok a d ∧ d.Steady ∧ d.view = p := by
  cases h with | ok _ hs => exact ⟨_, rfl, hs, rfl⟩

theorem start_aside {c : Cache κ ν} (h : c.Steady) {still : Bool} {op : Op κ ν} (hop : op.aside still = true) :
    ∃ reply d, Cache.start op c = .ok (.done reply) d ∧ d.Steady ∧ c.view.Beside still d.view := by
  obtain ⟨reply, q, hq, hb⟩ := Plain.start_aside c.glance hop c.view
  have ha := start_agrees h (Op.quiet_of_aside hop)
  rw [hq] at ha
  obtain ⟨d, hd, hs, rfl⟩ := ha.ok_eq
  exact ⟨reply, d, hd, hs, hb⟩

theorem abides {still : Bool} {M : Task κ ν → Plain κ ν → Prop} {F : Outcome κ ν → Plain κ ν → Prop}
    (h : Plain.Carries still M F) :
    Cache.engine.Abides (fun op => op.aside still = true) (fun task c => Steady c ∧ M task c.view)
      (fun o c => Steady c ∧ F o c.view) where
  resume task c hc := (resume_agrees hc.1 task).leads (h.resume task c.view hc.1.keys_nodup hc.2)
  aside op task c hop hc := by
    obtain ⟨reply, d, hd, hs, hb⟩ := start_aside hc.1 hop
    exact ⟨reply, d, hd, hs, h.beside task _ _ hb hc.2⟩
  notified e task c hc := ⟨hc.1.record _, h.beside task c.view _ (.record rfl c.view) hc.2⟩
  answered op reply task c hc := ⟨hc.1.record _, h.beside task c.view _ (.record rfl c.view) hc.2⟩

end Cache

namespace Session

/-- Nobody edits the index, and every callback stands aside. -/
structure Aloof (still : Bool) (s : Session (Cache κ ν) κ ν) : Prop where
  steady : s.cache.Steady
  aside : ∀ r ∈ s.reactions, ∀ op ∈ r.ops, op.aside still = true

variable {still : Bool} {M : Task κ ν → Plain κ ν → Prop} {F : Outcome κ ν → Plain κ ν → Prop}
  {s : Session (Cache κ ν) κ ν}

theorem build_aloof (cfg : Settings) {rs : List (Reaction κ ν)} (hrs : ∀ r ∈ rs, ∀ op ∈ r.ops, op.aside still = true) :
    Aloof still ⟨cfg.build, rs⟩ := ⟨(Cache.build_steady cfg).1, hrs⟩

theorem run_carries (hs : s.Aloof still) (op : Op κ ν) (hop : op.quiet = true) (h : Plain.Carries still M F)
    (hstart : Engine.Leads M F (Plain.start s.cache.glance op s.cache.view)) (n : Nat) :
    ((Machine.start Cache.engine op s).run Cache.engine n).Upholds (fun op => op.aside still = true) ∧
      ((Machine.start Cache.engine op s).run Cache.engine n).Alone (fun task c => c.Steady ∧ M task c.view)
        (fun o c => c.Steady ∧ F o c.view) :=
  Machine.run_alone (Cache.abides h) n (Machine.upholds_start Cache.engine hs.aside op)
    (Machine.settle_alone (Cache.abides h) op s.reactions ((Cache.start_agrees hs.steady hop).leads hstart))

theorem perform_carries (hs : s.Aloof still) (op : Op κ ν) (hop : op.quiet = true) (h : Plain.Carries still M F)
    (hstart : Engine.Leads M F (Plain.start s.cache.glance op s.cache.view)) :
    (s.perform Cache.engine op).2.Aloof still ∧
      F (s.perform Cache.engine op).1 (s.perform Cache.engine op).2.cache.view := by
  have hend := perform_ends hs.steady.chain op
  obtain ⟨hu, ha⟩ := run_carries hs op hop h hstart ((Machine.start Cache.engine op s).potential Cache.engine)
  simp only [perform, Machine.outcome] at hend ⊢
  simp only [Machine.Alone] at ha
  split at ha
  · rename_i hc
    simp only [hc] at hend
    exact absurd rfl hend
  · rename_i hc
    simp only [hc] at hend
    exact absurd rfl hend
  · rename_i o hc
    simp only [hc]
    exact ⟨⟨ha.1, hu.reactions⟩, ha.2⟩

end Session

end Recency
