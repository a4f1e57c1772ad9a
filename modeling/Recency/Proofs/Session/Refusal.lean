import Recency.Proofs.Session.Forms
import Recency.Proofs.Session.Orderly
import Recency.Proofs.Session.Touches
import Recency.Proofs.Session.Trail
/-
  Recency.Proofs.Session.Refusal — a store that is refused has changed nothing.

  A store is refused only in its last piece, and only when every place is in use
  (`resume_tried`). That piece leaves the cache as it found it. A piece before that would
  have dropped an entry, and so have left a place free (`Spare`); the next piece of the
  store can then only be refused if a callback has filled the place in between.

  So the piece that is refused is the first of its operation, or it comes right after a
  callback has returned (`refused_after`). If callbacks do not use the cache, a free place
  stays free, and a store that is refused has never called one.
-/

namespace Recency

variable {κ ν : Type}

/-- There is a place that no entry uses. -/
def Plain.Spare (p : Plain κ ν) : Prop := p.entries.length < p.room.places

/-- Does not use the cache: it stands aside, or aborts. -/
def Op.apart : Op κ ν → Bool
  | .abort _ => true
  | op => op.aside false

theorem Op.apart_cases {op : Op κ ν} (h : op.apart = true) :
    op.aside false = true ∨ ∃ message, op = .abort message := by
  cases op with
  | abort message => exact .inr ⟨message, rfl⟩
  | _ => exact .inl h

theorem Op.inserts_of_tries {op : Op κ ν} {k : κ} (h : op.tries? = some k) : op.inserts? = some k := by
  cases op with
  | put _ _ _ refusal => cases refusal <;> cases h; rfl
  | getOrPut _ _ _ refusal => cases refusal <;> cases h; rfl
  | _ => cases h

namespace Cache

/-- With the miss counted that `op` counts even when it is refused. -/
def missed (op : Op κ ν) (c : Cache κ ν) : Cache κ ν :=
  match op with
  | .getOrPut .. => { c with counters := c.counters.bump .getMiss }
  | _ => c

variable [DecidableEq κ] {c : Cache κ ν} {op : Op κ ν} {k : κ}

omit [DecidableEq κ] in
theorem missed_spare (op : Op κ ν) (c : Cache κ ν) : (c.missed op).view.Spare ↔ c.view.Spare := by
  cases op <;> exact Iff.rfl

theorem Steady.missed (h : c.Steady) (op : Op κ ν) : (c.missed op).Steady := by
  cases op with
  | getOrPut => exact h.count .getMiss
  | _ => exact h

theorem Steady.within_places (h : c.Steady) : c.view.entries.length ≤ c.view.room.places := by
  have hle := h.chain.length_le.1
  show c.entries.length ≤ _
  rwa [entries, Chain.values, List.length_map]

theorem missed_node? (op : Op κ ν) (c : Cache κ ν) (k : κ) : (c.missed op).node? k = c.node? k := by
  cases op <;> rfl

/-- What a piece of a store that reports a refusal comes to. -/
inductive Tried (op : Op κ ν) (k : κ) (c : Cache κ ν) : EStateM.Result Abort (Cache κ ν) (Progress κ ν) → Prop
  | refused (e : ArenaError) : c.node? k = none → ¬c.view.Spare → Tried op k c (.ok (.done (.refused e)) (c.missed op))
  | answered {reply : Reply κ ν} (h : ∀ e, reply ≠ .refused e) (d : Cache κ ν) : Tried op k c (.ok (.done reply) d)
  | released (victim : Option (Entry κ ν)) (task : Task κ ν) {d : Cache κ ν} :
      d.view.Spare → Tried op k c (.ok (.release victim task) d)

omit [DecidableEq κ] in
theorem not_spare_of_refused {p : Plain κ ν} {value : ν} {deadline : Option Instant} {e : ArenaError}
    (h : p.enter k value deadline = .error e) : ¬p.Spare := by
  intro hspare
  have hlt : p.entries.length < p.room.places := hspare
  have htake : p.room.take p.entries.length = .ok p.room := by rw [Room.take, if_pos hlt]
  rw [Plain.enter, htake] at h
  cases h

/-- The end of a store that did not find its key. -/
theorem enter_tried (op : Op κ ν) (h : c.Steady) (hk : c.node? k = none) (value : ν) (deadline : Option Instant)
    {reply : Reply κ ν} (hr : ∀ e, reply ≠ .refused e) :
    Tried op k c ((do match ← Cache.enter k value deadline with
                      | .error e => Cache.refuse .report e
                      | .ok () => return .done reply : Action κ ν (Progress κ ν)) (c.missed op)) := by
  have he := enter_steady (h.missed op) ((missed_node? op c k).trans hk) value deadline
  simp only [Action.bind_apply]
  cases hp : (c.missed op).view.enter k value deadline with
  | error e =>
    rw [hp] at he
    simp only [he]
    exact .refused e hk fun hspare => not_spare_of_refused hp ((missed_spare op c).mpr hspare)
  | ok p =>
    rw [hp] at he
    obtain ⟨d, hd, -⟩ := he
    simp only [hd]
    exact .answered hr d

/-- What has dropped an entry has a place to spare. -/
theorem makeRoom_tried (h : c.Steady) {finish : Action κ ν (Progress κ ν)} (hf : Tried op k c (finish c))
    (task : Task κ ν) :
    Tried op k c
      ((do if (← get).hasRoom then finish
           else match ← evict with
             | none => finish
             | some victim => return .release victim task : Action κ ν (Progress κ ν)) c) := by
  simp only [Action.bind_apply, Action.get_apply]
  cases c.hasRoom with
  | true => exact hf
  | false =>
    have he := evict_steady h
    simp only [Bool.false_eq_true, if_false, Action.bind_apply]
    cases hp : c.view.evict? with
    | none =>
      rw [hp] at he
      simp only [he]
      exact hf
    | some r =>
      obtain ⟨victim, q⟩ := r
      rw [hp] at he
      obtain ⟨d, hd, hs, rfl⟩ := he
      obtain ⟨hlast, n, hq⟩ := Plain.evict?_eq_some hp
      have hplaces := h.within_places
      have hpos : c.view.entries ≠ [] := fun hnil => by rw [hnil] at hlast; cases hlast
      have hlen := List.length_pos_of_ne_nil hpos
      simp only [hd]
      refine .released _ task ?_
      rw [hq]
      show c.view.entries.dropLast.length < c.view.room.places
      rw [List.length_dropLast]
      omega

omit [DecidableEq κ] in
theorem stored_ne_refused (e : ArenaError) : (Cache.stored .report : Reply κ ν) ≠ .refused e := by
  intro h
  cases h

omit [DecidableEq κ] in
theorem got_ne_refused (value : ν) (loaded : Bool) (e : ArenaError) : (.got value loaded : Reply κ ν) ≠ .refused e := by
  intro h
  cases h

theorem resumePut_tried (h : c.Steady) (k : κ) (value : ν) (ttl : Option Duration) (deadline : Option Instant) :
    Tried (.put k value ttl .report) k c (Cache.resumePut k value deadline .report c) := by
  simp only [Cache.resumePut, Action.bind_apply, locate_steady h]
  cases hn : c.node? k with
  | some found =>
    obtain ⟨id, e⟩ := found
    obtain ⟨d, hd, -⟩ := overwrite_steady h (node?_eq_some hn).1 value deadline
    simp only [Action.bind_apply, hd]
    exact .answered stored_ne_refused d
  | none =>
    refine makeRoom_tried h ?_ _
    exact enter_tried (.put k value ttl .report) h hn value deadline stored_ne_refused

/-- What has reaped an entry has a place to spare. -/
theorem spare_of_reaped (h : c.Steady) {id : SlotId} {e : Entry κ ν} (hm : (id, e) ∈ c.chain.entries) {d : Cache κ ν}
    (hv : d.view = c.view.leave e .expired) : d.view.Spare := by
  have hlen := (perm_cons_filter_key h.keys_nodup (mem_entries hm)).length_eq
  have hplaces : c.entries.length ≤ c.view.room.places := h.within_places
  rw [hv]
  show (c.entries.filter (·.key ≠ e.key)).length < c.view.room.places
  rw [List.length_cons] at hlen
  omega

theorem resumeGetOrPut_tried (h : c.Steady) (k : κ) (value : ν) (ttl : Duration) :
    Tried (.getOrPut k value ttl .report) k c (Cache.resumeGetOrPut k value ttl .report c) := by
  simp only [Cache.resumeGetOrPut, Action.bind_apply, locate_steady h]
  cases hn : c.node? k with
  | some found =>
    obtain ⟨id, e⟩ := found
    have hm := (node?_eq_some hn).1
    simp only [Action.bind_apply, Action.get_apply]
    cases e.expired c.now with
    | true =>
      obtain ⟨d, hd, hs, hv, -⟩ := detach_steady h hm .expired
      simp only [if_true, Action.bind_apply, hd, Option.isSome_some, count, Action.modify_apply, Action.pure_apply]
      have hspare : d.view.Spare := spare_of_reaped h hm hv
      exact .released _ _ hspare
    | false =>
      obtain ⟨d, hd, hs, hv⟩ := promote_steady h hm
      simp only [Bool.false_eq_true, if_false, Action.bind_apply, hd, count, Action.modify_apply, Action.pure_apply]
      exact .answered (got_ne_refused e.value true) _
  | none =>
    refine makeRoom_tried h ?_ _
    exact enter_tried (.getOrPut k value ttl .report) h hn value (c.clock.deadline ttl) (got_ne_refused value false)

theorem resume_tried (h : c.Steady) {p : Plain κ ν} {task : Task κ ν} (hop : op.tries? = some k)
    (ha : Plain.Awaits p op task) : Tried op k c (Cache.resume task c) := by
  cases ha with
  | put k' value ttl refusal =>
    cases refusal with
    | abort => cases hop
    | report =>
      cases hop
      exact resumePut_tried h k value ttl _
  | getOrPut k' value ttl refusal =>
    cases refusal with
    | abort => cases hop
    | report =>
      cases hop
      exact resumeGetOrPut_tried h k value ttl
  | _ => cases hop

theorem start_tried (h : c.Steady) (hop : op.tries? = some k) : Tried op k c (Cache.start op c) := by
  cases op with
  | put k' value ttl refusal => exact resume_tried h hop (.put (p := c.view) k' value ttl refusal)
  | getOrPut k' value ttl refusal => exact resume_tried h hop (.getOrPut (p := c.view) k' value ttl refusal)
  | _ => cases hop

end Cache

namespace Machine

variable [DecidableEq κ] {op : Op κ ν} {k : κ} {m : Machine (Cache κ ν) κ ν}

/-! ## The outermost call -/

/-- The outermost call is one of `op`, and waits in a task of `op`. -/
def Outer (op : Op κ ν) (calls : List (Call κ ν)) : Prop :=
  ∀ call, calls.getLast? = some call → call.op = op ∧ ∃ p, Plain.Awaits p op call.task

/-- Under way is `op`, and nobody edits the index. -/
structure Trying (op : Op κ ν) (m : Machine (Cache κ ν) κ ν) : Prop where
  steady : m.cache.Steady
  quiet : m.Upholds fun op => op.quiet = true
  outer : Outer op m.control.calls

theorem lands_outer {inner : Op κ ν} {calls : List (Call κ ν)}
    {r : EStateM.Result Abort (Cache κ ν) (Progress κ ν)} (hr : Engine.Keeps Cache.Steady r)
    (hcalls : Outer op calls) (hinner : calls = [] → inner = op ∧ Cache.MeetsWaits op r) :
    Engine.Lands (fun c calls => c.Steady ∧ Outer op calls) inner calls r := by
  match r, hr, hinner with
  | .error a d, hs, _ => exact ⟨hs, fun _ h => by cases h⟩
  | .ok (.done reply) d, hs, _ => exact ⟨hs, hcalls⟩
  | .ok (.release victim task) d, hs, hinner =>
    refine ⟨hs, ?_⟩
    intro call hlast
    cases calls with
    | nil =>
      obtain ⟨rfl, hw⟩ := hinner rfl
      cases hlast
      exact ⟨rfl, hw⟩
    | cons c calls => exact hcalls call (List.getLast?_cons_cons.symm.trans hlast)

theorem settle_trying {inner : Op κ ν} {below : List (Waiting κ ν)} (reactions : List (Reaction κ ν))
    {r : EStateM.Result Abort (Cache κ ν) (Progress κ ν)} (hr : Engine.Keeps Cache.Steady r)
    (hcalls : Outer op (below.map Waiting.call)) (hinner : below = [] → inner = op ∧ Cache.MeetsWaits op r) :
    (settle Cache.engine inner below reactions r).cache.Steady ∧
      Outer op (settle Cache.engine inner below reactions r).control.calls :=
  settle_lands (E := Cache.engine) (J := fun c calls => c.Steady ∧ Outer op calls)
    (fun _ _ _ h => ⟨h.1.record _, h.2⟩) (fun _ _ _ _ h => ⟨h.1.record _, h.2⟩) inner below reactions
    (lands_outer hr hcalls fun h => hinner (List.map_eq_nil_iff.mp h))

theorem start_trying {s : Session (Cache κ ν) κ ν} (hs : s.cache.Steady)
    (hrs : ∀ r ∈ s.reactions, ∀ op ∈ r.ops, op.quiet = true) (hop : op.quiet = true) :
    (start Cache.engine op s).Trying op := by
  have hnone : Outer op (([] : List (Waiting κ ν)).map Waiting.call) := fun _ h => by cases h
  obtain ⟨hsteady, houter⟩ := settle_trying s.reactions (Cache.start_agrees hs hop).keeps hnone
    fun _ => ⟨rfl, Cache.start_waits op⟩
  exact ⟨hsteady, upholds_start Cache.engine hrs op, houter⟩

theorem step_trying (h : m.Trying op) : (step Cache.engine m).Trying op := by
  obtain ⟨hsteady, hquiet, houter⟩ := h
  have hquiet' := upholds_step Cache.engine hquiet
  suffices hboth : (step Cache.engine m).cache.Steady ∧ Outer op (step Cache.engine m).control.calls from
    ⟨hboth.1, hquiet', hboth.2⟩
  obtain ⟨⟨c, reactions⟩, control⟩ := m
  cases control with
  | running call below =>
    refine settle_trying reactions (Cache.resume_agrees hsteady call.task).keeps ?_ ?_
    · intro w hlast
      cases below with
      | nil => cases hlast
      | cons b below => exact houter w (List.getLast?_cons_cons.trans hlast)
    · rintro rfl
      obtain ⟨rfl, p, ha⟩ := houter call rfl
      exact ⟨rfl, Cache.resume_waits ha⟩
  | reacting ops call below =>
    cases ops with
    | nil => exact ⟨hsteady, houter⟩
    | cons inner ops =>
      have hinner : inner.quiet = true := hquiet.pending inner (by simp [Control.pending])
      exact settle_trying reactions (Cache.start_agrees hsteady hinner).keeps houter fun h => by cases h
  | finished o => exact ⟨hsteady, houter⟩

theorem run_trying (h : m.Trying op) (n : Nat) : (m.run Cache.engine n).Trying op := by
  induction n with
  | zero => exact h
  | succ n ih =>
    rw [run_succ]
    exact step_trying ih

/-- The next piece of the outermost call. -/
theorem Trying.tried {c : Cache κ ν} {reactions : List (Reaction κ ν)} {call : Call κ ν}
    (h : Trying op ⟨⟨c, reactions⟩, .running call []⟩) (hop : op.tries? = some k) :
    call.op = op ∧ Cache.Tried op k c (Cache.resume call.task c) := by
  obtain ⟨hcall, p, ha⟩ := h.outer call rfl
  exact ⟨hcall, Cache.resume_tried h.steady hop ha⟩

/-! ## Where a refusal comes from -/

/-- What a piece of the outermost call leads to: a refusal of what it found, another answer,
    or a call that waits while there is a place to spare. -/
theorem settle_tried {c : Cache κ ν} (reactions : List (Reaction κ ν))
    {r : EStateM.Result Abort (Cache κ ν) (Progress κ ν)} (h : Cache.Tried op k c r) :
    let m := settle Cache.engine op [] reactions r
    (∃ e, m = ⟨⟨c.missed op, reactions⟩, .finished (.returned (.refused e))⟩ ∧ c.node? k = none ∧ ¬c.view.Spare) ∨
      (∃ reply, m.control = .finished (.returned reply) ∧ ∀ e, reply ≠ .refused e) ∨
        m.cache.view.Spare ∧ ∃ call, m.control = .running call [] ∨ ∃ ops, m.control = .reacting ops call [] := by
  cases h with
  | refused e hk hspare => exact .inl ⟨e, rfl, hk, hspare⟩
  | answered hr d => exact .inr (.inl ⟨_, rfl, hr⟩)
  | released victim task hspare =>
    refine .inr (.inr ?_)
    cases victim with
    | none => exact ⟨hspare, _, .inl rfl⟩
    | some e =>
      simp only [settle, notify]
      split
      · exact ⟨hspare, _, .inr ⟨_, rfl⟩⟩
      · exact ⟨hspare, _, .inl rfl⟩

theorem settle_refused {c : Cache κ ν} {reactions : List (Reaction κ ν)}
    {r : EStateM.Result Abort (Cache κ ν) (Progress κ ν)} (h : Cache.Tried op k c r) {e : ArenaError}
    (hc : (settle Cache.engine op [] reactions r).control = .finished (.returned (.refused e))) :
    settle Cache.engine op [] reactions r = ⟨⟨c.missed op, reactions⟩, .finished (.returned (.refused e))⟩ ∧
      c.node? k = none ∧ ¬c.view.Spare := by
  rcases settle_tried reactions h with ⟨e', he, hk, hspare⟩ | ⟨reply, he, hr⟩ | ⟨-, call, he | ⟨ops, he⟩⟩
  · have hcontrol := hc.symm.trans (congrArg Machine.control he)
    cases hcontrol
    exact ⟨he, hk, hspare⟩
  · have hcontrol := hc.symm.trans he
    cases hcontrol
    exact absurd rfl (hr e)
  · cases hc.symm.trans he
  · cases hc.symm.trans he

theorem settle_running {c : Cache κ ν} {reactions : List (Reaction κ ν)}
    {r : EStateM.Result Abort (Cache κ ν) (Progress κ ν)} (h : Cache.Tried op k c r) {call : Call κ ν}
    (hc : (settle Cache.engine op [] reactions r).control = .running call []) :
    (settle Cache.engine op [] reactions r).cache.view.Spare := by
  rcases settle_tried reactions h with ⟨e, he, -⟩ | ⟨reply, he, -⟩ | ⟨hspare, -⟩
  · cases hc.symm.trans (congrArg Machine.control he)
  · cases hc.symm.trans he
  · exact hspare

/-- A call for which others wait does not give way to the outermost one, and does not end
    what is under way unless it aborts. -/
theorem settle_above {σ : Type} (E : Engine σ κ ν) (inner : Op κ ν) (w : Waiting κ ν) (below : List (Waiting κ ν))
    (reactions : List (Reaction κ ν)) (r : EStateM.Result Abort σ (Progress κ ν)) :
    let m := settle E inner (w :: below) reactions r
    (∀ call, m.control ≠ .running call []) ∧ ∀ o, m.control = .finished o → ∃ a, o = .aborted a := by
  cases r with
  | error a s =>
    refine ⟨fun _ h => (by cases h), fun o ho => ⟨a, ?_⟩⟩
    cases ho
    rfl
  | ok progress s =>
    cases progress with
    | done reply => exact ⟨fun _ h => (by cases h), fun _ h => (by cases h)⟩
    | release victim task =>
      cases victim with
      | none => exact ⟨fun _ h => (by cases h), fun _ h => (by cases h)⟩
      | some e =>
        simp only [settle, notify]
        split
        · exact ⟨fun _ h => (by cases h), fun _ h => (by cases h)⟩
        · exact ⟨fun _ h => (by cases h), fun _ h => (by cases h)⟩

variable {s : Session (Cache κ ν) κ ν}

/-- The outermost call goes on with a place to spare, or right after a callback. -/
theorem running_after (h : (start Cache.engine op s).Trying op) (hs : s.cache.Steady) (hop : op.tries? = some k)
    (n : Nat) (call : Call κ ν) (hc : ((start Cache.engine op s).run Cache.engine n).control = .running call []) :
    ((start Cache.engine op s).run Cache.engine n).cache.view.Spare ∨
      ∃ j, n = j + 1 ∧ ((start Cache.engine op s).run Cache.engine j).control = .reacting [] call [] ∧
        ((start Cache.engine op s).run Cache.engine j).toSession =
          ((start Cache.engine op s).run Cache.engine n).toSession := by
  cases n with
  | zero => exact .inl (settle_running (Cache.start_tried hs hop) hc)
  | succ j =>
    have ht := run_trying h j
    rw [run_succ] at hc ⊢
    generalize hm : (start Cache.engine op s).run Cache.engine j = m at ht hc ⊢
    obtain ⟨⟨c, reactions⟩, control⟩ := m
    cases control with
    | running call' below =>
      cases below with
      | nil =>
        obtain ⟨rfl, htried⟩ := ht.tried hop
        exact .inl (settle_running htried hc)
      | cons w below => exact absurd hc ((settle_above Cache.engine _ w below reactions _).1 call)
    | reacting ops call' below =>
      cases ops with
      | nil =>
        cases hc
        exact .inr ⟨j, rfl, by rw [hm], by rw [hm]; rfl⟩
      | cons inner ops => exact absurd hc ((settle_above Cache.engine _ _ below reactions _).1 call)
    | finished o => cases hc

/-- `op` was refused after `n` steps: at once, or right after a callback. In `found`, every
    place was in use and the key was missing. -/
structure RefusedAt (op : Op κ ν) (k : κ) (s : Session (Cache κ ν) κ ν) (e : ArenaError) (n : Nat)
    (found : Session (Cache κ ν) κ ν) : Prop where
  missing : found.cache.node? k = none
  full : ¬found.cache.view.Spare
  after : n = 0 ∧ found = s ∨ ∃ j call, n = j + 2 ∧
    ((start Cache.engine op s).run Cache.engine j).control = .reacting [] call [] ∧
    ((start Cache.engine op s).run Cache.engine j).toSession = found
  left : (start Cache.engine op s).run Cache.engine n =
    ⟨⟨found.cache.missed op, found.reactions⟩, .finished (.returned (.refused e))⟩

theorem refused_after (h : (start Cache.engine op s).Trying op) (hs : s.cache.Steady) (hop : op.tries? = some k)
    {e : ArenaError} (n : Nat)
    (hc : ((start Cache.engine op s).run Cache.engine n).control = .finished (.returned (.refused e))) :
    ∃ n found, RefusedAt op k s e n found := by
  induction n with
  | zero =>
    obtain ⟨hleft, hk, hfull⟩ := settle_refused (Cache.start_tried hs hop) hc
    exact ⟨0, s, hk, hfull, .inl ⟨rfl, rfl⟩, hleft⟩
  | succ n ih =>
    have ht := run_trying h n
    have hafter := running_after h hs hop n
    have hlast : (start Cache.engine op s).run Cache.engine (n + 1) = step Cache.engine _ := run_succ n _
    rw [hlast] at hc
    generalize hm : (start Cache.engine op s).run Cache.engine n = m at ht hc hafter hlast ih
    obtain ⟨⟨c, reactions⟩, control⟩ := m
    cases control with
    | running call below =>
      cases below with
      | nil =>
        obtain ⟨rfl, htried⟩ := ht.tried hop
        obtain ⟨hleft, hk, hfull⟩ := settle_refused htried hc
        rcases hafter _ rfl with hspare | ⟨j, rfl, hj, hsession⟩
        · exact absurd hspare hfull
        · exact ⟨j + 2, ⟨c, reactions⟩, hk, hfull, .inr ⟨j, call, rfl, hj, hsession⟩, hlast.trans hleft⟩
      | cons w below =>
        obtain ⟨a, ha⟩ := (settle_above Cache.engine _ w below reactions _).2 _ hc
        cases ha
    | reacting ops call below =>
      cases ops with
      | nil => cases hc
      | cons inner ops =>
        obtain ⟨a, ha⟩ := (settle_above Cache.engine _ _ below reactions _).2 _ hc
        cases ha
    | finished o => exact ih hc

/-! ## Callbacks that do not use the cache -/

/-- Every callback under way is called by the outermost call, and there is a place to spare. -/
def Sparing (m : Machine (Cache κ ν) κ ν) : Prop :=
  match m.control with
  | .running _ below | .reacting _ _ below => below = [] ∧ m.cache.view.Spare
  | .finished _ => True

theorem settle_sparing {c : Cache κ ν} (reactions : List (Reaction κ ν))
    {r : EStateM.Result Abort (Cache κ ν) (Progress κ ν)} (h : Cache.Tried op k c r) :
    (settle Cache.engine op [] reactions r).Sparing := by
  unfold Sparing
  rcases settle_tried reactions h with ⟨e, he, -⟩ | ⟨reply, he, -⟩ | ⟨hspare, call, he | ⟨ops, he⟩⟩
  · rw [he]
    trivial
  · rw [he]
    trivial
  · rw [he]
    exact ⟨rfl, hspare⟩
  · rw [he]
    exact ⟨rfl, hspare⟩

theorem step_sparing (ht : m.Trying op) (hop : op.tries? = some k) (hu : m.Upholds fun op => op.apart = true)
    (h : m.Sparing) : (step Cache.engine m).Sparing := by
  obtain ⟨⟨c, reactions⟩, control⟩ := m
  cases control with
  | running call below =>
    obtain ⟨rfl, -⟩ := h
    obtain ⟨rfl, htried⟩ := ht.tried hop
    exact settle_sparing reactions htried
  | reacting ops call below =>
    obtain ⟨rfl, hspare⟩ := h
    cases ops with
    | nil => exact ⟨rfl, hspare⟩
    | cons inner ops =>
      rcases Op.apart_cases (hu.pending inner (by simp [Control.pending])) with hside | ⟨message, rfl⟩
      · obtain ⟨reply, d, hd, -, hbeside⟩ := Cache.start_aside ht.steady hside
        have hspare' : d.view.Spare := by
          unfold Plain.Spare
          rw [hbeside.entries, hbeside.places]
          exact hspare
        simp only [step, Cache.engine, hd]
        exact ⟨rfl, hspare'⟩
      · trivial
  | finished o => trivial

theorem run_sparing (h : (start Cache.engine op s).Trying op) (hs : s.cache.Steady) (hop : op.tries? = some k)
    (hrs : ∀ r ∈ s.reactions, ∀ op ∈ r.ops, op.apart = true) (n : Nat) :
    ((start Cache.engine op s).run Cache.engine n).Upholds (fun op => op.apart = true) ∧
      ((start Cache.engine op s).run Cache.engine n).Sparing := by
  induction n with
  | zero => exact ⟨upholds_start Cache.engine hrs op, settle_sparing s.reactions (Cache.start_tried hs hop)⟩
  | succ n ih =>
    rw [run_succ]
    exact ⟨upholds_step Cache.engine ih.1, step_sparing (run_trying h n) hop ih.1 ih.2⟩

/-! ## Aborts -/

/-- As long as no callback aborts, what is under way does not. -/
theorem run_not_aborted (h : (start Cache.engine op s).Trying op) (hs : s.cache.Steady) (hop : op.tries? = some k)
    (n : Nat) (ho : ∀ j < n, ((start Cache.engine op s).run Cache.engine j).Orderly Cache.engine) :
    ((start Cache.engine op s).run Cache.engine n).control.aborted = false := by
  have htried : ∀ {c : Cache κ ν} (reactions : List (Reaction κ ν))
      {r : EStateM.Result Abort (Cache κ ν) (Progress κ ν)}, Cache.Tried op k c r →
      (settle Cache.engine op [] reactions r).control.aborted = false := by
    intro c reactions r hr
    rcases settle_tried reactions hr with ⟨e, he, -⟩ | ⟨reply, he, -⟩ | ⟨-, call, he | ⟨ops, he⟩⟩
    all_goals rw [he]; rfl
  induction n with
  | zero => exact htried s.reactions (Cache.start_tried hs hop)
  | succ n ih =>
    have ht := run_trying h n
    have horderly := ho n (Nat.lt_succ_self n)
    have hprev := ih fun j hj => ho j (Nat.lt_succ_of_lt hj)
    rw [run_succ]
    generalize (start Cache.engine op s).run Cache.engine n = m at ht horderly hprev
    obtain ⟨⟨c, reactions⟩, control⟩ := m
    cases control with
    | running call below =>
      cases below with
      | nil =>
        obtain ⟨rfl, hr⟩ := ht.tried hop
        exact htried reactions hr
      | cons w below => exact horderly rfl
    | reacting ops call below => exact horderly rfl
    | finished o => exact hprev

/-! ## Operations -/

theorem perform_refused (hs : s.cache.Steady) (hrs : ∀ r ∈ s.reactions, ∀ op ∈ r.ops, op.quiet = true)
    (hop : op.tries? = some k) {e : ArenaError} (he : (s.perform Cache.engine op).1 = .returned (.refused e)) :
    ∃ n found, RefusedAt op k s e n found ∧
      (s.perform Cache.engine op).2 = ⟨found.cache.missed op, found.reactions⟩ := by
  have hquiet : op.quiet = true := Op.quiet_of_inserts (Op.inserts_of_tries hop)
  have hstart : (start Cache.engine op s).Trying op := start_trying hs hrs hquiet
  have hend := Session.perform_eq_run (Session.perform_ends hs.chain op)
  obtain ⟨n, found, hat⟩ := refused_after hstart hs hop _ (he ▸ (hend 0).1)
  refine ⟨n, found, hat, ?_⟩
  have hbeyond := run_beyond (congrArg Machine.control hat.left) ((start Cache.engine op s).potential Cache.engine)
  rw [← (hend n).2, Nat.add_comm, hbeyond, hat.left]

/-- A store that is refused leaves the cache as it was when the last callback that it called
    returned, or as it was in the beginning if it called none, but for one miss that a
    `getOrPut` counts: nothing was added, and the key is neither in the chain nor in the index.
    If callbacks do not use the cache, a refused store has dropped nothing and called nobody.

    The form of the store that aborts leaves the same. If no callback aborts, it aborts just
    when the other form reports a refusal, and for the same reason. -/
theorem Reach.refused_leaves_all {cfg : Settings} {rs : List (Reaction κ ν)}
    (h : Reach Cache.engine (fun op => op.quiet = true) (fun _ => True) ⟨cfg.build, rs⟩ m)
    (hrs : ∀ r ∈ rs, ∀ op ∈ r.ops, op.quiet = true) (rs' : List (Reaction κ ν))
    (hrs' : ∀ r ∈ rs', ∀ op ∈ r.ops, op.quiet = true) (hop : op.tries? = some k) :
    let s : Session (Cache κ ν) κ ν := ⟨m.cache, rs'⟩
    let begun := Machine.start Cache.engine op s
    let tried := s.perform Cache.engine op
    let forced := s.perform Cache.engine op.forced
    (∀ e, tried.1 = .returned (.refused e) →
        (∃ found : Session (Cache κ ν) κ ν,
          (found = s ∧ begun.control = .finished tried.1 ∨
            ∃ n call, (begun.run Cache.engine n).control = .reacting [] call [] ∧
              (begun.run Cache.engine n).toSession = found ∧
              (begun.run Cache.engine (n + 2)).control = .finished tried.1) ∧
          tried.2 = ⟨found.cache.missed op, found.reactions⟩ ∧
          (∀ x ∈ tried.2.cache.entries, x.key ≠ k) ∧ tried.2.cache.index.get? k = none) ∧
        ((∀ r ∈ rs', ∀ op ∈ r.ops, op.apart = true) →
          begun.control = .finished tried.1 ∧ tried.2 = ⟨m.cache.missed op, rs'⟩)) ∧
      forced.2 = tried.2 ∧
      ((∀ n < begun.potential Cache.engine, (begun.run Cache.engine n).Orderly Cache.engine) →
        ∀ a, forced.1 = .aborted a ↔ ∃ e, a = .refused e ∧ tried.1 = .returned (.refused e)) := by
  intro s begun tried forced
  have hs : s.cache.Steady := h.steady hrs
  have hbegun : begun.Trying op := start_trying hs hrs' (Op.quiet_of_inserts (Op.inserts_of_tries hop))
  obtain ⟨hforms, hsession⟩ := Session.perform_forms hop (Session.perform_ends hs.chain)
  refine ⟨?_, hsession, ?_⟩
  · intro e he
    obtain ⟨n, found, hat, hleft⟩ := perform_refused hs hrs' hop he
    have hsteady : tried.2.cache.Steady := by
      have hend := Session.perform_eq_run (Session.perform_ends hs.chain op) 0
      show (s.perform Cache.engine op).2.cache.Steady
      rw [← hend.2]
      exact (run_trying hbegun _).steady
    have hmissing : tried.2.cache.node? k = none := by
      show (s.perform Cache.engine op).2.cache.node? k = none
      rw [hleft, Cache.missed_node?, hat.missing]
    have hcontrol : (begun.run Cache.engine n).control = .finished tried.1 :=
      (congrArg Machine.control hat.left).trans (congrArg Control.finished he.symm)
    refine ⟨⟨found, ?_, hleft, ?_, ?_⟩, fun hapart => ?_⟩
    · rcases hat.after with ⟨rfl, rfl⟩ | ⟨j, call, rfl, hj, hfound⟩
      · exact .inl ⟨rfl, hcontrol⟩
      · exact .inr ⟨j, call, hj, hfound, hcontrol⟩
    · intro x hx
      have hfind : tried.2.cache.view.find? k = none := by rw [Cache.find?_view, hmissing, Option.map_none]
      simpa using List.find?_eq_none.mp hfind x hx
    · rw [hsteady.get?_index, hmissing, Option.map_none]
    · rcases hat.after with ⟨rfl, rfl⟩ | ⟨j, call, rfl, hj, hfound⟩
      · exact ⟨hcontrol, hleft⟩
      · -- the place that the first piece left free is still free
        have hsparing := (run_sparing hbegun hs hop hapart j).2
        unfold Sparing at hsparing
        rw [hj] at hsparing
        have hspare : found.cache.view.Spare := hfound ▸ hsparing.2
        exact absurd hspare hat.full
  · intro horderly a
    have hnot := run_not_aborted hbegun hs hop _ horderly
    have hend := (Session.perform_eq_run (Session.perform_ends hs.chain op) 0).1
    rw [Nat.add_zero] at hend
    rw [hend] at hnot
    refine hforms.aborted_iff (fun a ha => ?_) a
    rw [ha] at hnot
    cases hnot

/-- There is no more memory when a callback fills the place that was free and then asks for
    more room: the store that waits for it is refused, and leaves what the callback left. -/
theorem Reach.refused_leaves_all_refilled :
    let built : Session (Cache Nat Nat) Nat Nat := ⟨Settings.build ⟨1, .zero, true, none, false, 1⟩, []⟩
    let m := Machine.start Cache.engine (.memory .refuses)
      (Machine.start Cache.engine (.put 1 10 none .abort) built).toSession
    let op : Op Nat Nat := .put 2 20 none .report
    let rs : List (Reaction Nat Nat) := [⟨none, 1, [.put 3 30 none .report, .resize 2]⟩]
    let begun := Machine.start Cache.engine op ⟨m.cache, rs⟩
    let tried := Session.perform Cache.engine op ⟨m.cache, rs⟩
    let forced := Session.perform Cache.engine op.forced ⟨m.cache, rs⟩
    tried.1 = .returned (.refused (.allocFailed 2)) ∧ tried.2.cache.entries.map (·.key) = [3] ∧
      (∃ n call, (begun.run Cache.engine n).control = .reacting [] call [] ∧
        (begun.run Cache.engine (n + 2)).control = .finished tried.1) ∧
      forced.1 = .aborted (.refused (.allocFailed 2)) ∧ forced.2 = tried.2 := by
  intro built m op rs begun tried forced
  have hm : Reach Cache.engine (fun op => op.quiet = true) (fun _ => True) built m :=
    .start _ (.start _ .idle rfl rfl) rfl rfl
  have htried : tried.1 = .returned (.refused (.allocFailed 2)) := by decide +kernel
  have hkeys : tried.2.cache.entries.map (·.key) = [3] := by decide +kernel
  have hnested : begun.control.nested = true := by decide +kernel
  have horderly : ∀ n < begun.potential Cache.engine, (begun.run Cache.engine n).Orderly Cache.engine := by
    decide +kernel
  have hop : op.tries? = some 2 := rfl
  have hall := Reach.refused_leaves_all hm (by decide) rs (by decide) hop
  refine ⟨htried, hkeys, ?_, (hall.2.2 horderly _).mpr ⟨_, rfl, htried⟩, hall.2.1⟩
  obtain ⟨found, hafter, -⟩ := (hall.1 _ htried).1
  rcases hafter with ⟨-, hc⟩ | ⟨n, call, hc, -, hend⟩
  · have hc : begun.control = .finished tried.1 := hc
    rw [hc] at hnested
    cases hnested
  · exact ⟨n, call, hc, hend⟩

end Machine

end Recency
