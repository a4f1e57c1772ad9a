import Recency.Proofs.Plain.Changes
import Recency.Proofs.Session.Agreement
/-
  Recency.Proofs.Session.Trail — a run, piece by piece.

  A trail lists the pieces of operations that a run has carried out, latest first: whose
  piece it was, how many calls waited for it, what it found and what it made of that. So it
  tells what the cache does not show: which bounds have been in force, which calls were
  answered and how, and whether an abort unwound a callback.

  What is to hold along a run may speak of the pieces so far, of the cache and of the calls
  under way. It is enough that every piece leads on from it (`Trail.carries`). A call under
  way waits in one of the tasks of its operation, whatever the index says (`resume_waits`,
  `start_waits`); `Trail.carries_waiting` adds that to what a resumed piece may rely on, and
  `Trail.began` gives what held where the latest piece began.

  While nobody meddles with the index the cache goes like a list, and every piece goes by
  changes of that list (`Trail.carries_goes`).
-/

namespace Recency

variable {σ κ ν : Type}

/-- A piece of an operation that was carried out. -/
structure Piece (σ κ ν : Type) where
  op : Op κ ν
  /-- How many calls waited for the operation. -/
  depth : Nat
  before : σ
  result : EStateM.Result Abort σ (Progress κ ν)

namespace Piece

def after (p : Piece σ κ ν) : σ :=
  match p.result with
  | .ok _ s | .error _ s => s

/-- The answer, of a piece that was the last of its operation. -/
def reply? (p : Piece σ κ ν) : Option (Reply κ ν) :=
  match p.result with
  | .ok (.done reply) _ => some reply
  | _ => none

def abort? (p : Piece σ κ ν) : Option Abort :=
  match p.result with
  | .ok _ _ => none
  | .error a _ => some a

def refusal? (p : Piece σ κ ν) : Option ArenaError := Engine.refusal? p.result

theorem keeps_iff {I : σ → Prop} (p : Piece σ κ ν) : Engine.Keeps I p.result ↔ I p.after := by
  obtain ⟨op, depth, before, result⟩ := p
  cases result <;> rfl

end Piece

/-- The operations under way, innermost first. -/
def Control.calls : Control κ ν → List (Call κ ν)
  | .running call below | .reacting _ call below => call :: below.map Waiting.call
  | .finished _ => []

/-- What is reached goes on with `J`, when `calls` wait for `op`. An abort ends them all. -/
def Engine.Lands (J : σ → List (Call κ ν) → Prop) (op : Op κ ν) (calls : List (Call κ ν)) :
    EStateM.Result Abort σ (Progress κ ν) → Prop
  | .error _ s => J s []
  | .ok (.done _) s => J s calls
  | .ok (.release _ task) s => J s (⟨op, task⟩ :: calls)

/-- `J` may be put together from what is reached however it is reached, and from what goes on
    under a condition. -/
theorem Engine.lands_of {C : Prop} {I : σ → Prop} {J K : σ → List (Call κ ν) → Prop} {op : Op κ ν}
    {calls : List (Call κ ν)} {r : EStateM.Result Abort σ (Progress κ ν)} (hI : Engine.Keeps I r)
    (hK : C → Engine.Lands K op calls r) (h : ∀ s calls, I s → (C → K s calls) → J s calls) :
    Engine.Lands J op calls r := by
  cases r with
  | error a s => exact h s [] hI hK
  | ok progress s =>
    cases progress with
    | done reply => exact h s calls hI hK
    | release victim task => exact h s (⟨op, task⟩ :: calls) hI hK

theorem Engine.Lands.imp {J K : σ → List (Call κ ν) → Prop} {op : Op κ ν} {calls : List (Call κ ν)}
    {r : EStateM.Result Abort σ (Progress κ ν)} (h : Engine.Lands J op calls r)
    (hJ : ∀ s calls, J s calls → K s calls) : Engine.Lands K op calls r := by
  cases r with
  | error a s => exact hJ s _ h
  | ok progress s => cases progress <;> exact hJ s _ h

/-- Every piece of what is under way, and of the operations `P`, goes on with `J`. -/
structure Engine.Hands (E : Engine σ κ ν) (P : Op κ ν → Prop) (J : σ → List (Call κ ν) → Prop) : Prop where
  start : ∀ op calls s, P op → J s calls → Engine.Lands J op calls (E.start op s)
  resume : ∀ call calls s, J s (call :: calls) → Engine.Lands J call.op calls (E.resume call.task s)
  notified : ∀ e s calls, J s calls → J (E.record (.notified e) s) calls
  answered : ∀ op reply s calls, J s calls → J (E.record (.answered op reply) s) calls

namespace Machine

variable [DecidableEq κ] (E : Engine σ κ ν)

/-- The piece that the next step carries out, if it is not the end of a callback. -/
def piece? (m : Machine σ κ ν) : Option (Piece σ κ ν) :=
  match m.control with
  | .running call below => some ⟨call.op, below.length, m.cache, E.resume call.task m.cache⟩
  | .reacting (op :: _) _ below => some ⟨op, below.length + 1, m.cache, E.start op m.cache⟩
  | _ => none

/-- The machines of the runs from `s` that begin only operations of the kind `P`, each with
    the pieces carried out before it. -/
inductive Trail (P : Op κ ν → Prop) (s : Session σ κ ν) : List (Piece σ κ ν) → Machine σ κ ν → Prop
  | idle : Trail P s [] (idle s)
  | start {ps : List (Piece σ κ ν)} {m : Machine σ κ ν} {o : Outcome κ ν} (op : Op κ ν) :
      Trail P s ps m → m.control = .finished o → P op →
        Trail P s (⟨op, 0, m.cache, E.start op m.cache⟩ :: ps) (start E op m.toSession)
  | step {ps : List (Piece σ κ ν)} {m : Machine σ κ ν} :
      Trail P s ps m → Trail P s ((m.piece? E).toList ++ ps) (step E m)

variable {E} {P : Op κ ν → Prop} {s : Session σ κ ν} {ps : List (Piece σ κ ν)} {m : Machine σ κ ν}

theorem Trail.reach (h : Trail E P s ps m) : Reach E P (fun _ => True) s m := by
  induction h with
  | idle => exact .idle
  | start op _ hc hP ih => exact .start op ih hc hP
  | step _ ih => exact .step ih trivial

theorem settle_lands {J : σ → List (Call κ ν) → Prop}
    (hnotified : ∀ e s calls, J s calls → J (E.record (.notified e) s) calls)
    (hanswered : ∀ op reply s calls, J s calls → J (E.record (.answered op reply) s) calls) (op : Op κ ν)
    (below : List (Waiting κ ν)) (reactions : List (Reaction κ ν)) {r : EStateM.Result Abort σ (Progress κ ν)}
    (h : Engine.Lands J op (below.map Waiting.call) r) :
    J (settle E op below reactions r).cache (settle E op below reactions r).control.calls := by
  cases r with
  | error a s => exact h
  | ok progress s =>
    cases progress with
    | done reply =>
      cases below with
      | nil => exact h
      | cons w below => exact hanswered _ _ _ _ h
    | release victim task =>
      cases victim with
      | none => exact h
      | some e =>
        simp only [settle, notify]
        split
        · exact hnotified _ _ _ h
        · exact h

theorem step_lands {J : σ → List (Call κ ν) → Prop} (hE : E.Hands P J) (hu : m.Upholds P)
    (h : J m.cache m.control.calls) : J (step E m).cache (step E m).control.calls := by
  obtain ⟨⟨c, reactions⟩, control⟩ := m
  cases control with
  | running call below =>
    have hl := hE.resume call (below.map Waiting.call) c h
    exact settle_lands hE.notified hE.answered call.op below reactions hl
  | reacting ops call below =>
    cases ops with
    | nil => exact h
    | cons op ops =>
      have hl := hE.start op (call :: below.map Waiting.call) c (hu.pending op (by simp [Control.pending])) h
      exact settle_lands hE.notified hE.answered op (⟨call, ops⟩ :: below) reactions hl
  | finished o => exact h

theorem run_lands {J : σ → List (Call κ ν) → Prop} (hE : E.Hands P J) (n : Nat) (hu : m.Upholds P)
    (h : J m.cache m.control.calls) : J (m.run E n).cache (m.run E n).control.calls := by
  induction n generalizing m with
  | zero => exact h
  | succ n ih =>
    unfold Machine.run
    split
    · exact h
    · exact ih (upholds_step E hu) (step_lands hE hu h)

/-- What every piece leads on from holds all along. -/
theorem Trail.carries {J : List (Piece σ κ ν) → σ → List (Call κ ν) → Prop}
    (hnotified : ∀ ps e s calls, J ps s calls → J ps (E.record (.notified e) s) calls)
    (hanswered : ∀ ps op reply s calls, J ps s calls → J ps (E.record (.answered op reply) s) calls)
    (hstart : ∀ ps op calls s, P op → J ps s calls →
      Engine.Lands (J (⟨op, calls.length, s, E.start op s⟩ :: ps)) op calls (E.start op s))
    (hresume : ∀ ps call calls s, J ps s (call :: calls) →
      Engine.Lands (J (⟨call.op, calls.length, s, E.resume call.task s⟩ :: ps)) call.op calls (E.resume call.task s))
    (h : Trail E P s ps m) (hs : ∀ r ∈ s.reactions, ∀ op ∈ r.ops, P op) (hJ : J [] s.cache []) :
    J ps m.cache m.control.calls := by
  induction h with
  | idle => exact hJ
  | start op _ hc hP ih =>
    rw [hc] at ih
    exact settle_lands (hnotified _) (hanswered _) op [] _ (hstart _ op [] _ hP ih)
  | @step ps m hm ih =>
    have hu := hm.reach.upholds hs
    obtain ⟨⟨c, reactions⟩, control⟩ := m
    cases control with
    | running call below =>
      have hl := hresume ps call (below.map Waiting.call) c ih
      rw [List.length_map] at hl
      exact settle_lands (hnotified _) (hanswered _) call.op below reactions hl
    | reacting ops call below =>
      cases ops with
      | nil => exact ih
      | cons op ops =>
        have hop : P op := hu.pending op (by simp [Control.pending])
        have hl := hstart ps op (call :: below.map Waiting.call) c hop ih
        rw [List.length_cons, List.length_map] at hl
        exact settle_lands (hnotified _) (hanswered _) op (⟨call, ops⟩ :: below) reactions hl
    | finished o => exact ih

end Machine

/-- Tells what the machine does, not what happens to the entries. -/
def Event.ofMachine : Event κ ν → Bool
  | .notified _ | .answered _ _ => true
  | _ => false

/-! ## What waits -/

/-- Waits, if it does, in a task of `op`. -/
def Progress.Waits [DecidableEq κ] (op : Op κ ν) : Progress κ ν → Prop
  | .done _ => True
  | .release _ task => ∃ p, Plain.Awaits p op task

namespace Cache

open Recency.Action

variable [DecidableEq κ] {c : Cache κ ν} {op : Op κ ν}

omit [DecidableEq κ] in
/-- Whatever an action does, what comes after it is `good`. -/
theorem meets_after {α β : Type} {x : Action κ ν α} {f : α → Action κ ν β} {good : β → Cache κ ν → Prop}
    (h : ∀ a d, Meets good (fun _ => True) (f a d)) : Meets good (fun _ => True) ((x >>= f) c) := by
  refine yields_bind ?_
  cases x c with
  | ok a d => exact h a d
  | error e d => trivial

/-- What every piece of `op` comes to. -/
abbrev MeetsWaits (op : Op κ ν) : EStateM.Result Abort (Cache κ ν) (Progress κ ν) → Prop :=
  Meets (fun progress _ => progress.Waits op) fun _ => True

theorem refuse_waits (refusal : OnRefusal) (e : ArenaError) : MeetsWaits op (Cache.refuse refusal e c) := by
  cases refusal <;> trivial

theorem finishPut_waits (k : κ) (value : ν) (deadline : Option Instant) (refusal : OnRefusal) :
    MeetsWaits op (Cache.finishPut k value deadline refusal c) := by
  refine meets_after fun found d => ?_
  cases found with
  | error e => exact refuse_waits refusal e
  | ok u => trivial

theorem finishGetOrPut_waits (k : κ) (value : ν) (ttl : Duration) (refusal : OnRefusal) :
    MeetsWaits op (Cache.finishGetOrPut k value ttl refusal c) := by
  refine meets_after fun _ d => yields_get (meets_after fun found d => ?_)
  cases found with
  | error e => exact refuse_waits refusal e
  | ok u => trivial

/-- A store that did not find its key waits, if it does, to try again. -/
theorem makeRoom_waits {finish : Action κ ν (Progress κ ν)} (hf : ∀ d, MeetsWaits op (finish d)) {task : Task κ ν}
    {p : Plain κ ν} (ha : Plain.Awaits p op task) :
    MeetsWaits op
      ((do if (← get).hasRoom then finish
           else match ← evict with
             | none => finish
             | some victim => return .release victim task : Action κ ν (Progress κ ν)) c) := by
  refine yields_get ?_
  split
  · exact hf c
  · refine meets_after fun victim d => ?_
    cases victim with
    | none => exact hf d
    | some e => exact ⟨p, ha⟩

theorem resumePut_waits {p : Plain κ ν} (k : κ) (value : ν) (ttl : Option Duration) (refusal : OnRefusal) :
    MeetsWaits (.put k value ttl refusal)
      (Cache.resumePut k value (p.clock.deadline (ttl.getD p.defaultTtl)) refusal c) := by
  refine meets_after fun found d => ?_
  cases found with
  | some found => exact meets_after fun _ _ => trivial
  | none => exact makeRoom_waits (fun _ => finishPut_waits ..) (Plain.Awaits.put (p := p) k value ttl refusal)

theorem resumeGetOrPut_waits (k : κ) (value : ν) (ttl : Duration) (refusal : OnRefusal) :
    MeetsWaits (.getOrPut k value ttl refusal) (Cache.resumeGetOrPut k value ttl refusal c) := by
  have ha := Plain.Awaits.getOrPut (p := c.view) k value ttl refusal
  refine meets_after fun found d => ?_
  cases found with
  | some found =>
    refine yields_get ?_
    split
    · refine meets_after fun reaped d => ?_
      split
      · exact meets_after fun _ _ => ⟨_, ha⟩
      · exact ⟨_, ha⟩
    · exact meets_after fun _ _ => meets_after fun _ _ => trivial
  | none => exact makeRoom_waits (fun _ => finishGetOrPut_waits ..) ha

theorem resumeShrink_waits (asked bound : UInt64) (dropped : Nat) :
    MeetsWaits (.resize asked) (Cache.resumeShrink bound dropped c) := by
  refine yields_get ?_
  split
  · refine meets_after fun victim d => ?_
    cases victim with
    | none => exact meets_after fun _ _ => trivial
    | some e => exact ⟨c.view, .resize asked bound (dropped + 1)⟩
  · exact meets_after fun _ _ => trivial

/-- What hands out entries waits with those that are left. -/
theorem notify_waits {p : Plain κ ν} {reply : Reply κ ν}
    (ha : ∀ victims ending, Plain.Awaits p op (.notify victims ending reply)) (victims : List (Entry κ ν))
    (ending : Option Note) : MeetsWaits op (Cache.resume (.notify victims ending reply) c) := by
  cases victims with
  | cons victim victims => exact ⟨p, ha victims ending⟩
  | nil => exact meets_after fun _ _ => trivial

theorem resume_waits {p : Plain κ ν} {task : Task κ ν} (h : Plain.Awaits p op task) :
    MeetsWaits op (Cache.resume task c) := by
  cases h with
  | put k value ttl refusal => exact resumePut_waits k value ttl refusal
  | getOrPut k value ttl refusal => exact resumeGetOrPut_waits k value ttl refusal
  | get k => trivial
  | peek k => trivial
  | delete k => trivial
  | resize asked bound dropped => exact resumeShrink_waits asked bound dropped
  | purge victims ending n => exact notify_waits (p := p) (fun victims ending => .purge victims ending n) victims ending
  | clear victims ending => exact notify_waits (p := p) (fun victims ending => .clear victims ending) victims ending

theorem read_waits {k : κ} {touch : Bool} (ha : Plain.Awaits c.view op (.notify [] none (.hit none))) :
    MeetsWaits op (Cache.read k touch c) := by
  refine meets_after fun found d => ?_
  split
  · exact meets_after fun _ _ => trivial
  refine meets_after fun found d => ?_
  cases found with
  | none => exact meets_after fun _ _ => trivial
  | some found =>
    refine yields_get ?_
    split
    · refine meets_after fun reaped d => meets_after fun _ d => ?_
      split
      · exact meets_after fun _ _ => meets_after fun _ _ => ⟨_, ha⟩
      · exact ⟨_, ha⟩
    · split
      · exact meets_after fun _ _ => meets_after fun _ _ => trivial
      · exact meets_after fun _ _ => trivial

theorem delete_waits (k : κ) : MeetsWaits (.delete k) (Cache.delete k c) := by
  refine meets_after fun found d => ?_
  split
  · trivial
  refine meets_after fun found d => ?_
  cases found with
  | none => trivial
  | some found =>
    refine meets_after fun gone d => ?_
    cases gone with
    | none => trivial
    | some e => exact meets_after fun _ _ => ⟨c.view, .delete k⟩

theorem start_waits (op : Op κ ν) : MeetsWaits op (Cache.start op c) := by
  cases op with
  | put k value ttl refusal => exact resumePut_waits (p := c.view) k value ttl refusal
  | getOrPut k value ttl refusal => exact resumeGetOrPut_waits k value ttl refusal
  | get k => exact read_waits (.get k)
  | peek k => exact read_waits (.peek k)
  | delete k => exact delete_waits k
  | resize asked => exact meets_after fun _ _ => resumeShrink_waits asked _ 0
  | purge =>
    refine yields_get (meets_after fun victims d => ?_)
    exact notify_waits (p := d.view) (fun rest ending => .purge rest ending victims.length) _ _
  | clear =>
    refine yields_get (meets_after fun victims d => meets_after fun _ d => ?_)
    exact notify_waits (p := d.view) (fun rest ending => .clear rest ending) _ _
  | index op =>
    refine yields_get ?_
    split
    · exact meets_after fun _ _ => trivial
    · trivial
  | abort message => trivial
  | _ => exact meets_after fun _ _ => trivial

end Cache

namespace Machine

variable [DecidableEq κ] {P : Op κ ν → Prop} {s : Session (Cache κ ν) κ ν}

/-- What every piece leads on from holds all along, and a piece may rely on what its
    operation waited for. -/
theorem Trail.carries_waiting {J : List (Piece (Cache κ ν) κ ν) → Cache κ ν → List (Call κ ν) → Prop}
    (hrecord : ∀ ps e c calls, e.ofMachine = true → J ps c calls → J ps { c with journal := e :: c.journal } calls)
    (hstart : ∀ ps op calls c, P op → J ps c calls →
      Engine.Lands (J (⟨op, calls.length, c, Cache.start op c⟩ :: ps)) op calls (Cache.start op c))
    (hresume : ∀ ps p op task calls c, Plain.Awaits p op task → J ps c (⟨op, task⟩ :: calls) →
      Engine.Lands (J (⟨op, calls.length, c, Cache.resume task c⟩ :: ps)) op calls (Cache.resume task c))
    {ps : List (Piece (Cache κ ν) κ ν)} {m : Machine (Cache κ ν) κ ν} (h : Trail Cache.engine P s ps m)
    (hs : ∀ r ∈ s.reactions, ∀ op ∈ r.ops, P op) (hJ : J [] s.cache []) : J ps m.cache m.control.calls := by
  let Waits (calls : List (Call κ ν)) : Prop := ∀ call ∈ calls, ∃ p, Plain.Awaits p call.op call.task
  have hlands : ∀ (J' : Cache κ ν → List (Call κ ν) → Prop) op calls r, Waits calls → Cache.MeetsWaits op r →
      Engine.Lands J' op calls r → Engine.Lands (fun c calls => J' c calls ∧ Waits calls) op calls r := by
    intro J' op calls r hw hm hl
    match r, hm, hl with
    | .error a d, _, hl => exact ⟨hl, fun _ hc => (nomatch hc)⟩
    | .ok (.done reply) d, _, hl => exact ⟨hl, hw⟩
    | .ok (.release v task) d, hm, hl =>
      refine ⟨hl, fun call hc => ?_⟩
      rcases List.mem_cons.mp hc with rfl | hc
      · exact hm
      · exact hw call hc
  refine (h.carries (J := fun ps c calls => J ps c calls ∧ Waits calls) ?_ ?_ ?_ ?_ hs ⟨hJ, fun _ hc => (nomatch hc)⟩).1
  · exact fun ps e c calls h => ⟨hrecord ps _ c calls rfl h.1, h.2⟩
  · exact fun ps op reply c calls h => ⟨hrecord ps _ c calls rfl h.1, h.2⟩
  · exact fun ps op calls c hP h => hlands _ op calls _ h.2 (Cache.start_waits op) (hstart ps op calls c hP h.1)
  · intro ps call calls c h
    obtain ⟨p, ha⟩ := h.2 call List.mem_cons_self
    exact hlands _ call.op calls _ (fun call' hc => h.2 call' (List.mem_cons_of_mem _ hc)) (Cache.resume_waits ha)
      (hresume ps p call.op call.task calls c ha h.1)

/-- Where a piece came from: `J` held there, of the calls that waited for its operation. -/
inductive Began (P : Op κ ν → Prop) (J : Cache κ ν → List (Call κ ν) → Prop) (p : Piece (Cache κ ν) κ ν) : Prop
  | start (calls : List (Call κ ν)) :
      calls.length = p.depth → P p.op → p.result = Cache.start p.op p.before → J p.before calls → Began P J p
  | resume {begun : Plain κ ν} {task : Task κ ν} (calls : List (Call κ ν)) :
      calls.length = p.depth → Plain.Awaits begun p.op task → p.result = Cache.resume task p.before →
        J p.before (⟨p.op, task⟩ :: calls) → Began P J p

/-- What every piece leads on from held where the latest began. -/
theorem Trail.began {J : List (Piece (Cache κ ν) κ ν) → Cache κ ν → List (Call κ ν) → Prop}
    (hrecord : ∀ ps e c calls, e.ofMachine = true → J ps c calls → J ps { c with journal := e :: c.journal } calls)
    (hstart : ∀ ps op calls c, P op → J ps c calls →
      Engine.Lands (J (⟨op, calls.length, c, Cache.start op c⟩ :: ps)) op calls (Cache.start op c))
    (hresume : ∀ ps p op task calls c, Plain.Awaits p op task → J ps c (⟨op, task⟩ :: calls) →
      Engine.Lands (J (⟨op, calls.length, c, Cache.resume task c⟩ :: ps)) op calls (Cache.resume task c))
    {p : Piece (Cache κ ν) κ ν} {ps : List (Piece (Cache κ ν) κ ν)} {m : Machine (Cache κ ν) κ ν}
    (h : Trail Cache.engine P s (p :: ps) m) (hs : ∀ r ∈ s.reactions, ∀ op ∈ r.ops, P op) (hJ : J [] s.cache []) :
    Began P (J ps) p := by
  let K (all : List (Piece (Cache κ ν) κ ν)) (c : Cache κ ν) (calls : List (Call κ ν)) : Prop :=
    J all c calls ∧ ∀ p ps, all = p :: ps → Began P (J ps) p
  have hlands : ∀ ps p calls, Began P (J ps) p → Engine.Lands (J (p :: ps)) p.op calls p.result →
      Engine.Lands (K (p :: ps)) p.op calls p.result := by
    intro ps p calls hb hl
    refine hl.imp fun c calls hJ => ⟨hJ, ?_⟩
    intro p' ps' he
    cases he
    exact hb
  refine (h.carries_waiting (J := K) ?_ ?_ ?_ hs ⟨hJ, fun _ _ he => nomatch he⟩).2 p ps rfl
  · exact fun ps e c calls he h => ⟨hrecord ps e c calls he h.1, h.2⟩
  · intro ps op calls c hP h
    exact hlands ps ⟨op, _, c, _⟩ calls (.start calls rfl hP rfl h.1) (hstart ps op calls c hP h.1)
  · intro ps begun op task calls c ha h
    exact hlands ps ⟨op, _, c, _⟩ calls (.resume calls rfl ha rfl h.1) (hresume ps begun op task calls c ha h.1)

end Machine

/-! ## Quiet trails -/

namespace Cache

/-- A result with its cache as a plain list. -/
def seen {α : Type} : EStateM.Result Abort (Cache κ ν) α → EStateM.Result Abort (Plain κ ν) α
  | .ok a c => .ok a c.view
  | .error e c => .error e c.view

variable [DecidableEq κ]

theorem Agrees.seen_eq {α : Type} {r : EStateM.Result Abort (Cache κ ν) α} {p : EStateM.Result Abort (Plain κ ν) α}
    (h : Agrees r p) : seen r = p := by
  cases h <;> rfl

end Cache

section Quiet

variable [DecidableEq κ]

/-- A piece that leaves a steady cache, to which it comes by changes of the list. -/
structure Piece.Steadily (p : Piece (Cache κ ν) κ ν) : Prop where
  steady : p.after.Steady
  goes : ∃ ready, (ready = p.before.view ∨ ready = p.before.view.primed p.op) ∧ ready.Goes (Cache.seen p.result)

theorem Piece.Steadily.of_agrees {p : Piece (Cache κ ν) κ ν} {r : Plain.Result κ ν} (h : Cache.Agrees p.result r)
    {ready : Plain κ ν} (hready : ready = p.before.view ∨ ready = p.before.view.primed p.op) (hg : ready.Goes r) :
    p.Steadily := by
  refine ⟨?_, ready, hready, h.seen_eq ▸ hg⟩
  obtain ⟨op, depth, before, result⟩ := p
  cases h with
  | ok a h => exact h
  | error e h => exact h

omit [DecidableEq κ] in
theorem Piece.keeps_seen {I : Plain κ ν → Prop} {p : Piece (Cache κ ν) κ ν} (h : Engine.Keeps I (Cache.seen p.result)) :
    I p.after.view := by
  obtain ⟨op, depth, before, result⟩ := p
  cases result <;> exact h

omit [DecidableEq κ] in
theorem Piece.refusal_seen (p : Piece (Cache κ ν) κ ν) : Engine.refusal? (Cache.seen p.result) = p.refusal? := by
  obtain ⟨op, depth, before, result⟩ := p
  cases result <;> rfl

theorem Cache.glance_grants (c : Cache κ ν) (op : Index.Op κ) :
    (Progress.done (c.glance op) : Progress κ ν).refusal? = none := by
  unfold Cache.glance
  split <;> rfl

namespace Machine

/-- What leads on through every piece that goes by changes holds all along a quiet run. -/
theorem Trail.carries_goes {I : List (Piece (Cache κ ν) κ ν) → Plain κ ν → Prop}
    (hrecord : ∀ ps e p, e.ofMachine = true → I ps p → I ps (p.record e))
    (hpiece : ∀ ps p, p.Steadily → I ps p.before.view → I (p :: ps) p.after.view) {cfg : Settings}
    {rs : List (Reaction κ ν)} {ps : List (Piece (Cache κ ν) κ ν)} {m : Machine (Cache κ ν) κ ν}
    (h : Trail Cache.engine (fun op => op.quiet = true) ⟨cfg.build, rs⟩ ps m)
    (hrs : ∀ r ∈ rs, ∀ op ∈ r.ops, op.quiet = true) (hI : I [] (Plain.ofSettings cfg)) : I ps m.cache.view := by
  obtain ⟨hsteady, hview⟩ := Cache.build_steady (κ := κ) (ν := ν) cfg
  let J (ps : List (Piece (Cache κ ν) κ ν)) (c : Cache κ ν) (_ : List (Call κ ν)) : Prop := c.Steady ∧ I ps c.view
  have hlands : ∀ ps (p : Piece (Cache κ ν) κ ν) calls, p.Steadily → I ps p.before.view →
      Engine.Lands (J (p :: ps)) p.op calls p.result := by
    intro ps p calls hp hI
    have hafter : Engine.Keeps (fun d : Cache κ ν => d.Steady ∧ I (p :: ps) d.view) p.result :=
      p.keeps_iff.mpr ⟨hp.steady, hpiece ps p hp hI⟩
    exact Engine.lands_of (C := False) (K := fun _ _ => True) hafter False.elim fun _ _ h _ => h
  refine (h.carries_waiting (J := J) ?_ ?_ ?_ hrs ⟨hsteady, hview ▸ hI⟩).2
  · exact fun ps e c calls he h => ⟨h.1.record e, hrecord ps e c.view he h.2⟩
  · intro ps op calls c hop h
    have hg := Plain.start_goes (p := c.view) c.glance_grants op h.1.keys_nodup
    exact hlands ps ⟨op, _, c, _⟩ calls (.of_agrees (Cache.start_agrees h.1 hop) (.inr rfl) hg) h.2
  · intro ps p op task calls c ha h
    have hg := Plain.resume_goes ha c.view
    exact hlands ps ⟨op, _, c, _⟩ calls (.of_agrees (Cache.resume_agrees h.1 task) (.inl rfl) hg) h.2

end Machine

end Quiet

end Recency
