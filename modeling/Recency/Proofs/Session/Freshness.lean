import Recency.Proofs.Session.HitOrInsert
/-
  Recency.Proofs.Session.Freshness — whether what was just stored can be read.

  A store reckons its deadline when it begins. Then it makes room, and calls the callback
  for each entry that it drops, and only then it puts its own entry in front, with the
  deadline reckoned at the beginning. If the callbacks have moved the clock past that
  deadline, the entry has expired before it is stored, and a read that comes next drops it
  again. That is the only way in which the read can miss: whatever else the callbacks have
  done, the last piece of the store is its own (`put_leads`).

  What the callbacks did is never looked at. Only the outermost call matters: all the while
  it waits in a task of its own, and its last piece ends the run, unless an abort inside a
  callback does (`Outermost`).
-/

namespace Recency

variable {κ ν : Type} [DecidableEq κ]

namespace Plain

/-- What is reached: a task of the kind `T`, or an outcome with `F`. -/
abbrev Comes (T : Task κ ν → Prop) (F : Outcome κ ν → Plain κ ν → Prop) : Result κ ν → Prop :=
  Engine.Leads (fun task _ => T task) F

/-- Tasks of the kind `T` lead to such tasks or to `F`, and an abort at any moment to `F`. -/
structure Pursues (T : Task κ ν → Prop) (F : Outcome κ ν → Plain κ ν → Prop) : Prop where
  resume : ∀ task (p : Plain κ ν), T task → Comes T F (p.resume task)
  aborted : ∀ a p, F (.aborted a) p

end Plain

namespace Machine

variable {T : Task κ ν → Prop} {F : Outcome κ ν → Plain κ ν → Prop} {m : Machine (Cache κ ν) κ ν}

/-! ## The outermost call -/

/-- The outermost call waits in a task of the kind `T`. -/
def AwaitsIn (T : Task κ ν → Prop) (calls : List (Call κ ν)) : Prop := ∀ call, calls.getLast? = some call → T call.task

/-- Nobody edits the index; the outermost call waits in a task of the kind `T`, or all is over
    with `F`. -/
structure Outermost (T : Task κ ν → Prop) (F : Outcome κ ν → Plain κ ν → Prop) (m : Machine (Cache κ ν) κ ν) :
    Prop where
  steady : m.cache.Steady
  quiet : m.Upholds fun op => op.quiet = true
  waits : AwaitsIn T m.control.calls
  ended : ∀ o, m.control = .finished o → F o m.cache.view

theorem settle_awaits {op : Op κ ν} {below : List (Waiting κ ν)} (reactions : List (Reaction κ ν))
    {r : EStateM.Result Abort (Cache κ ν) (Progress κ ν)} {p : Plain.Result κ ν} (hr : Cache.Agrees r p)
    (hbelow : AwaitsIn T (below.map Waiting.call)) (hp : below = [] → Plain.Comes T F p) :
    AwaitsIn T (settle Cache.engine op below reactions r).control.calls := by
  refine settle_lands (E := Cache.engine) (J := fun _ calls => AwaitsIn T calls) (fun _ _ _ h => h)
    (fun _ _ _ _ h => h) op below reactions ?_
  cases hr with
  | error a _ => exact fun _ h => by cases h
  | ok progress _ =>
    cases progress with
    | done reply => exact hbelow
    | release victim task =>
      intro call hlast
      cases below with
      | nil =>
        cases hlast
        exact hp rfl
      | cons w below => exact hbelow call (List.getLast?_cons_cons.symm.trans hlast)

/-- Only the outermost call can bring a run to its end, or an abort. -/
theorem settle_ended (hT : Plain.Pursues T F) {op : Op κ ν} {below : List (Waiting κ ν)}
    (reactions : List (Reaction κ ν)) {r : EStateM.Result Abort (Cache κ ν) (Progress κ ν)} {p : Plain.Result κ ν}
    (hr : Cache.Agrees r p) (hp : below = [] → Plain.Comes T F p) {o : Outcome κ ν}
    (ho : (settle Cache.engine op below reactions r).control = .finished o) :
    F o (settle Cache.engine op below reactions r).cache.view := by
  cases hr with
  | error a _ =>
    cases ho
    exact hT.aborted a _
  | @ok progress d _ =>
    cases progress with
    | done reply =>
      cases below with
      | nil =>
        cases ho
        exact hp rfl
      | cons w below => cases ho
    | release victim task =>
      cases victim with
      | none => cases ho
      | some e =>
        simp only [settle, notify] at ho
        split at ho <;> cases ho

theorem step_outermost (hT : Plain.Pursues T F) (h : m.Outermost T F) : (step Cache.engine m).Outermost T F := by
  have hsteady := steady_step h.steady h.quiet
  have hquiet := upholds_step Cache.engine h.quiet
  suffices hboth : AwaitsIn T (step Cache.engine m).control.calls ∧
      ∀ o, (step Cache.engine m).control = .finished o → F o (step Cache.engine m).cache.view from
    ⟨hsteady, hquiet, hboth.1, hboth.2⟩
  obtain ⟨⟨c, reactions⟩, control⟩ := m
  cases control with
  | running call below =>
    have hr := Cache.resume_agrees h.steady call.task
    have hp : below = [] → Plain.Comes T F (c.view.resume call.task) := by
      rintro rfl
      exact hT.resume call.task c.view (h.waits call rfl)
    have hbelow : AwaitsIn T (below.map Waiting.call) := by
      intro w hlast
      cases below with
      | nil => cases hlast
      | cons b below => exact h.waits w (List.getLast?_cons_cons.trans hlast)
    exact ⟨settle_awaits reactions hr hbelow hp, fun o ho => settle_ended hT reactions hr hp ho⟩
  | reacting ops call below =>
    cases ops with
    | nil => exact ⟨h.waits, fun o ho => by cases ho⟩
    | cons op ops =>
      have hop : op.quiet = true := h.quiet.pending op (by simp [Control.pending])
      have hr := Cache.start_agrees h.steady hop
      have hp : (⟨call, ops⟩ :: below : List (Waiting κ ν)) = [] →
          Plain.Comes T F (c.view.start c.glance op) := fun hnil => by cases hnil
      exact ⟨settle_awaits reactions hr h.waits hp, fun o ho => settle_ended hT reactions hr hp ho⟩
  | finished o => exact ⟨h.waits, h.ended⟩

theorem run_outermost (hT : Plain.Pursues T F) (h : m.Outermost T F) (n : Nat) :
    (m.run Cache.engine n).Outermost T F := by
  induction n with
  | zero => exact h
  | succ n ih =>
    rw [run_succ]
    exact step_outermost hT ih

end Machine

namespace Session

variable {T : Task κ ν → Prop} {F : Outcome κ ν → Plain κ ν → Prop} {s : Session (Cache κ ν) κ ν}

/-- What an operation comes to, if every piece of it leads on, whatever its callbacks do. -/
theorem perform_outermost (hT : Plain.Pursues T F) (hs : s.cache.Steady)
    (hrs : ∀ r ∈ s.reactions, ∀ op ∈ r.ops, op.quiet = true) (op : Op κ ν) (hop : op.quiet = true)
    (hstart : Plain.Comes T F (s.cache.view.start s.cache.glance op)) :
    (s.perform Cache.engine op).2.cache.Steady ∧
      (∀ r ∈ (s.perform Cache.engine op).2.reactions, ∀ op ∈ r.ops, op.quiet = true) ∧
      F (s.perform Cache.engine op).1 (s.perform Cache.engine op).2.cache.view := by
  have hr := Cache.start_agrees hs hop
  have hnone : Machine.AwaitsIn T (([] : List (Waiting κ ν)).map Waiting.call) := fun _ h => by cases h
  have hbegun : (Machine.start Cache.engine op s).Outermost T F :=
    { steady := Machine.settle_keeps (fun e _ h => h.record e) op [] s.reactions hr.keeps
      quiet := Machine.upholds_start Cache.engine hrs op
      waits := Machine.settle_awaits s.reactions hr hnone fun _ => hstart
      ended := fun o ho => Machine.settle_ended hT s.reactions hr (fun _ => hstart) ho }
  obtain ⟨hover, hleft⟩ := perform_eq_run (perform_ends hs.chain op) 0
  have hrun := Machine.run_outermost hT hbegun ((Machine.start Cache.engine op s).potential Cache.engine + 0)
  rw [← hleft]
  exact ⟨hrun.steady, hrun.quiet.reactions, hrun.ended _ hover⟩

end Session

namespace Plain

variable {p : Plain κ ν} {k : κ} {value : ν} {deadline : Option Instant} {refusal : OnRefusal}

/-! ## Stores -/

/-- If the store was made, its entry is in front. -/
def Stored (k : κ) (value : ν) (deadline : Option Instant) (refusal : OnRefusal) (o : Outcome κ ν) (q : Plain κ ν) :
    Prop :=
  o = .returned (Cache.stored refusal) → ∃ stay rest, q.entries = ⟨stay, k, value, deadline⟩ :: rest

omit [DecidableEq κ] in
theorem finishPut_leads (T : Task κ ν → Prop) (p : Plain κ ν) :
    Comes T (Stored k value deadline refusal) (p.finishPut k value deadline refusal) := by
  unfold finishPut
  cases hq : p.enter k value deadline with
  | error e => cases refusal <;> exact fun h => by cases h
  | ok q =>
    obtain ⟨room, -, rfl⟩ := enter_ok hq
    exact fun _ => ⟨_, _, rfl⟩

theorem put_leads (k : κ) (value : ν) (deadline : Option Instant) (refusal : OnRefusal) (p : Plain κ ν) :
    Comes (· = .put k value deadline refusal) (Stored k value deadline refusal)
      (p.resumePut k value deadline refusal) := by
  unfold resumePut
  cases hk : p.find? k with
  | some e =>
    obtain ⟨-, rfl⟩ := find?_eq_some hk
    exact fun _ => ⟨_, _, rfl⟩
  | none =>
    simp only
    split
    · exact finishPut_leads _ p
    · cases p.evict? with
      | none => exact finishPut_leads _ p
      | some r => exact rfl

theorem put_pursues (k : κ) (value : ν) (deadline : Option Instant) (refusal : OnRefusal) :
    Pursues (· = .put k value deadline refusal) (Stored k value deadline refusal) where
  resume task p ht := by
    subst ht
    exact put_leads k value deadline refusal p
  aborted a p h := by cases h

/-! ## Reads -/

/-- Nothing was read. -/
def Missed (o : Outcome κ ν) (_ : Plain κ ν) : Prop := o = .returned (.hit none) ∨ ∃ a, o = .aborted a

theorem missed_pursues : Pursues (κ := κ) (ν := ν) (· = .notify [] none (.hit none)) Missed where
  resume task p ht := by
    subst ht
    exact .inl rfl
  aborted a p := .inr ⟨a, rfl⟩

theorem read_of_expired {e : Entry κ ν} (h : p.find? k = some e) (hx : e.expired p.now = true) (touch : Bool) :
    Comes (· = .notify [] none (.hit none)) Missed (p.read k touch) := by
  simp only [read, h, hx, if_true]
  exact rfl

end Plain

/-! ## A read after a store -/

omit [DecidableEq κ] in
theorem Entry.expired_iff {e : Entry κ ν} {now : Instant} :
    e.expired now = true ↔ ∃ due ∈ e.deadline, due.nanos < now.nanos := by
  unfold Entry.expired
  cases e.deadline <;> simp

namespace Machine

variable {cfg : Settings} {rs : List (Reaction κ ν)} {m : Machine (Cache κ ν) κ ν}

/-- After a store that was made, a read of its key hits what was stored, unless the callbacks of
    the store have moved the clock past the deadline that was reckoned when it began: then it
    misses, or is aborted by the callback for the entry that it drops. In particular it hits
    when the clock is where it was. -/
theorem Reach.read_after_store (h : Reach Cache.engine (fun op => op.quiet = true) (fun _ => True) ⟨cfg.build, rs⟩ m)
    (hrs : ∀ r ∈ rs, ∀ op ∈ r.ops, op.quiet = true) (rs' : List (Reaction κ ν))
    (hrs' : ∀ r ∈ rs', ∀ op ∈ r.ops, op.quiet = true) (k : κ) (value : ν) (ttl : Option Duration)
    (refusal : OnRefusal) :
    let stored := Session.perform Cache.engine (.put k value ttl refusal) ⟨m.cache, rs'⟩
    let read := Session.perform Cache.engine (.get k) stored.2
    let late := ∃ due ∈ m.cache.clock.deadline (ttl.getD m.cache.defaultTtl),
      due.nanos < stored.2.cache.now.nanos
    stored.1 = .returned (Cache.stored refusal) →
      (¬late → read.1 = .returned (.hit (some value))) ∧
        (late → read.1 = .returned (.hit none) ∨ ∃ a, read.1 = .aborted a) ∧
        (stored.2.cache.clock = m.cache.clock → ¬late) := by
  intro stored read late hmade
  let deadline := m.cache.clock.deadline (ttl.getD m.cache.defaultTtl)
  have hc : m.cache.Steady := h.steady hrs
  have hput := Plain.put_pursues k value deadline refusal
  have hstart := Plain.put_leads k value deadline refusal m.cache.view
  obtain ⟨hsteady, hquiet, hfront⟩ :=
    Session.perform_outermost (s := ⟨m.cache, rs'⟩) hput hc hrs' (.put k value ttl refusal) rfl hstart
  obtain ⟨stay, rest, hentries⟩ := hfront hmade
  let e : Entry κ ν := ⟨stay, k, value, deadline⟩
  have hlate : e.expired stored.2.cache.now = true ↔ late := Entry.expired_iff
  refine ⟨fun hin => ?_, fun hover => ?_, fun hclock hover => ?_⟩
  · have hfresh : e.expired stored.2.cache.now = false := Bool.eq_false_iff.mpr fun hx => hin (hlate.mp hx)
    exact get_of_good hsteady (Plain.good?_of_front hentries rfl hfresh) stored.2.reactions
  · have hfind : stored.2.cache.view.find? k = some e := by
      rw [Plain.find?, hentries]
      exact List.find?_cons_of_pos (decide_eq_true rfl)
    exact (Session.perform_outermost Plain.missed_pursues hsteady hquiet (.get k) rfl
      (Plain.read_of_expired hfind (hlate.mpr hover) true)).2.2
  · have hfresh : e.expired stored.2.cache.clock.now = false := by
      rw [hclock]
      exact Plain.deadline_fresh m.cache.clock (ttl.getD m.cache.defaultTtl) stay k value
    exact absurd (hlate.mpr hover) (Bool.eq_false_iff.mp hfresh)

/-- The callback stores under the key itself, moves the clock up to the deadline, and makes room
    for more. -/
theorem Reach.read_after_store_entered :
    let s : Session (Cache Nat Nat) Nat Nat :=
      ⟨Settings.build ⟨1, .zero, true, none, false, 0⟩, []⟩
    let m := Machine.start Cache.engine (.put 1 10 none .abort) s
    let rs : List (Reaction Nat Nat) := [⟨some 1, 1, [.put 2 99 (some ⟨1⟩) .report, .advance ⟨5⟩, .resize 3]⟩]
    let stored := Session.perform Cache.engine (.put 2 20 (some ⟨5⟩) .abort) ⟨m.cache, rs⟩
    Reach Cache.engine (fun op => op.quiet = true) (fun _ => True) s m ∧
      (∀ r ∈ rs, ∀ op ∈ r.ops, op.quiet = true) ∧ stored.1 = .returned .unit ∧
      (Session.perform Cache.engine (.get 2) stored.2).1 = .returned (.hit (some 20)) := by
  intro s m rs stored
  have hm : Reach Cache.engine (fun op => op.quiet = true) (fun _ => True) s m := .start _ .idle rfl rfl
  have hrs : ∀ r ∈ rs, ∀ op ∈ r.ops, op.quiet = true := by decide
  have hmade : stored.1 = .returned .unit := by decide +kernel
  have hin : ¬∃ due ∈ m.cache.clock.deadline ⟨5⟩, due.nanos < stored.2.cache.now.nanos := by decide +kernel
  have hread := hm.read_after_store (fun _ hr => absurd hr List.not_mem_nil) rs hrs 2 20 (some ⟨5⟩) .abort hmade
  exact ⟨hm, hrs, hmade, hread.1 hin⟩

/-- The callback moves the clock ten seconds on while a store with five seconds to live waits. The
    store is made, and a read of its key that comes next misses. -/
theorem stored_too_late :
    let cfg : Settings := ⟨1, .zero, true, none, false, 0⟩
    let rs : List (Reaction Nat Nat) := [⟨none, 1, [.advance (.ofParts 10 0)]⟩]
    let filled := Session.perform Cache.engine (.put 1 10 none .abort) ⟨cfg.build, rs⟩
    let stored := Session.perform Cache.engine (.put 2 20 (some (.ofParts 5 0)) .abort) filled.2
    let read := Session.perform Cache.engine (.get 2) stored.2
    stored.1 = .returned .unit ∧ read.1 = .returned (.hit none) ∧ read.2.cache.clock = stored.2.cache.clock := by
  decide +kernel

end Machine

end Recency
