import Mathlib.Logic.Relation
import Recency.Proofs.Plain.Turns
/-
  Recency.Proofs.Plain.Changes — a list cache changes by small steps, each counted.

  What a piece of an operation does to a list cache it does by changes of a few kinds. An
  entry comes in where there is room, or leaves, and is counted when it does; an entry
  moves to the front; calls are counted. `resume_goes` and `start_goes` show that of every
  task and every operation. What each change keeps, every piece keeps, and no piece is
  opened again for it.

  A store is refused only at a moment when there is room for one more entry and yet no
  place for it is to be had (`Goes`).
-/

namespace Recency

variable {κ ν : Type}

/-- Counts calls, not entries that come or leave. -/
def Metric.ofCalls : Metric → Bool
  | .getHit | .getMiss | .clear => true
  | _ => false

def Abort.refusal? : Abort → Option ArenaError
  | .refused e => some e
  | _ => none

def Progress.refusal? : Progress κ ν → Option ArenaError
  | .done (.refused e) => some e
  | _ => none

/-- The refusal that a piece ended with, reported or not. -/
def Engine.refusal? {σ : Type} : EStateM.Result Abort σ (Progress κ ν) → Option ArenaError
  | .ok progress _ => progress.refusal?
  | .error a _ => a.refusal?

variable [DecidableEq κ]

namespace Plain

/-! ## Changes -/

inductive Change (p : Plain κ ν) : Plain κ ν → Prop
  | enter {k : κ} {value : ν} {deadline : Option Instant} {q : Plain κ ν} :
      p.hasRoom = true ∨ p.entries = [] → p.find? k = none → p.enter k value deadline = .ok q → Change p q
  | evict {e : Entry κ ν} {q : Plain κ ν} : p.evict? = some (e, q) → Change p q
  | expire {e : Entry κ ν} : e ∈ p.entries → Change p ((p.leave e .expired).count .expired)
  | remove {e : Entry κ ν} : e ∈ p.entries → Change p ((p.leave e .deleted).count .removed)
  | dropAll : Change p p.dropAll
  | front {e : Entry κ ν} : e ∈ p.entries → Change p (p.front e)
  | overwrite {e : Entry κ ν} (value : ν) (deadline : Option Instant) :
      e ∈ p.entries → Change p (p.overwrite e value deadline)
  | count {m : Metric} : m.ofCalls = true → Change p (p.count m)
  | note (n : Note) : Change p (p.note n)
  | advance (step : Duration) : Change p { p with clock := p.clock.advance step }
  | memory (memory : Allocator) : Change p { p with room := { p.room with memory } }

/-- One change after the other. -/
abbrev Changes : Plain κ ν → Plain κ ν → Prop := Relation.ReflTransGen Change

variable {p q : Plain κ ν}

theorem Change.changes (h : Change p q) : Changes p q := .single h

omit [DecidableEq κ] in
theorem enter_ok {k : κ} {value : ν} {deadline : Option Instant} (h : p.enter k value deadline = .ok q) :
    ∃ room, p.room.take p.entries.length = .ok room ∧
      q = ({ p with entries := ⟨p.stays, k, value, deadline⟩ :: p.entries, room, stays := p.stays + 1 }.record
        (.entered ⟨p.stays, k, value, deadline⟩)).count .insertNew := by
  unfold Plain.enter at h
  cases ht : p.room.take p.entries.length with
  | error e => rw [ht] at h; cases h
  | ok room => rw [ht] at h; cases h; exact ⟨room, rfl, rfl⟩

omit [DecidableEq κ] in
theorem evict?_eq_some {e : Entry κ ν} (h : p.evict? = some (e, q)) :
    p.entries.getLast? = some e ∧ ∃ n : Note,
      q = (({ p with entries := p.entries.dropLast }.record (.left e .capacity)).note n).count .evicted := by
  obtain ⟨e', hlast, h⟩ := Option.map_eq_some_iff.mp h
  cases h
  exact ⟨hlast, _, rfl⟩

theorem Change.bound_eq (h : Change p q) : q.bound = p.bound := by
  cases h with
  | enter _ _ h =>
    obtain ⟨room, -, rfl⟩ := enter_ok h
    rfl
  | evict h =>
    obtain ⟨-, n, rfl⟩ := evict?_eq_some h
    rfl
  | _ => rfl

theorem Change.keys_nodup (h : Change p q) (hn : (p.entries.map (·.key)).Nodup) : (q.entries.map (·.key)).Nodup := by
  have hsub : ∀ {l : List (Entry κ ν)}, l.Sublist p.entries → (l.map (·.key)).Nodup := fun hl => hn.sublist (hl.map _)
  have hfront : ∀ {e e' : Entry κ ν}, e ∈ p.entries → e'.key = e.key →
      ((e' :: p.entries.filter (·.key ≠ e'.key)).map (·.key)).Nodup := by
    intro e e' he hk
    have hp := (perm_cons_filter_key hn he).map (·.key)
    rw [hk, List.map_cons, hk]
    exact hp.nodup_iff.mp hn
  cases h with
  | enter _ hk h =>
    obtain ⟨he, -, -⟩ := enter_eq hk h
    rw [he, List.map_cons, List.nodup_cons]
    refine ⟨fun hm => ?_, hsub List.filter_sublist⟩
    obtain ⟨x, hx, hxk⟩ := List.mem_map.mp hm
    have := (List.mem_filter.mp hx).2
    simp [hxk] at this
  | evict h =>
    obtain ⟨-, n, rfl⟩ := evict?_eq_some h
    exact hsub (List.dropLast_sublist _)
  | expire _ => exact hsub List.filter_sublist
  | remove _ => exact hsub List.filter_sublist
  | dropAll => exact List.nodup_nil
  | front he => exact hfront he rfl
  | overwrite value deadline he => exact hfront he rfl
  | count _ => exact hn
  | note n => exact hn
  | advance step => exact hn
  | memory memory => exact hn

/-- What holds of a list cache and is kept by each change is kept by changes. -/
theorem Changes.keeps {I : Plain κ ν → Prop} (hI : ∀ {p q}, Change p q → I p → I q) (h : Changes p q) (hp : I p) :
    I q := by
  induction h with
  | refl => exact hp
  | tail _ hc ih => exact hI hc ih

theorem reap_changes (hn : (p.entries.map (·.key)).Nodup) {victims : List (Entry κ ν)}
    (hv : victims.Sublist p.entries) : Changes p (p.reap victims) := by
  induction victims generalizing p with
  | nil => exact .refl
  | cons e victims ih =>
    have he : e ∈ p.entries := hv.subset List.mem_cons_self
    have hc : Change p ((p.leave e .expired).count .expired) := .expire he
    refine .head hc (ih (hc.keys_nodup hn) ?_)
    -- the others have other keys, so they are still there
    have hne : ∀ x ∈ victims, x.key ≠ e.key := fun x hx hk => by
      have hvn := hn.sublist (hv.map _)
      rw [List.map_cons, List.nodup_cons] at hvn
      exact hvn.1 (hk ▸ List.mem_map_of_mem hx)
    have hf := ((List.sublist_cons_self e victims).trans hv).filter fun x => decide (x.key ≠ e.key)
    rwa [List.filter_eq_self.mpr fun x hx => decide_eq_true (hne x hx)] at hf

/-! ## Pieces -/

/-- A piece that began at `p` has come to its result by changes. If it was refused, there
    was room for one more entry when it asked for a place. -/
structure Goes (p : Plain κ ν) (r : Result κ ν) : Prop where
  changes : Engine.Keeps (Changes p) r
  refused : ∀ e, Engine.refusal? r = some e →
    ∃ q, Changes p q ∧ (q.hasRoom = true ∨ q.entries = []) ∧ q.room.take q.entries.length = .error e

theorem Goes.of_changes {progress : Progress κ ν} (h : Changes p q)
    (hr : progress.refusal? = none) : Goes p (.ok progress q) :=
  ⟨h, fun e he => by rw [Engine.refusal?, hr] at he; cases he⟩

/-- The end of a store that did not find its key. -/
theorem enter_goes (h : Changes p q) (hroom : q.hasRoom = true ∨ q.entries = []) {k : κ} (hk : q.find? k = none)
    (value : ν) (deadline : Option Instant) (refusal : OnRefusal) {reply : Reply κ ν}
    (hr : (Progress.done reply : Progress κ ν).refusal? = none) :
    Goes p (match q.enter k value deadline with
      | .error e => q.refuse refusal e
      | .ok q => .ok (.done reply) q) := by
  cases he : q.enter k value deadline with
  | ok q' => exact .of_changes (h.tail (.enter hroom hk he)) hr
  | error e =>
    have ht : q.room.take q.entries.length = .error e := by
      unfold Plain.enter at he
      cases ht : q.room.take q.entries.length with
      | error e' => rw [ht] at he; cases he; rfl
      | ok room => rw [ht] at he; cases he
    cases refusal with
    | abort => exact ⟨h, fun e' he' => by cases he'; exact ⟨q, h, hroom, ht⟩⟩
    | report => exact ⟨h, fun e' he' => by cases he'; exact ⟨q, h, hroom, ht⟩⟩

theorem makeRoom_goes {finish : Plain κ ν → Result κ ν} (hf : p.hasRoom = true ∨ p.entries = [] → Goes p (finish p))
    (task : Task κ ν) :
    Goes p (if p.hasRoom then finish p
      else match p.evict? with
        | none => finish p
        | some (victim, q) => .ok (.release (some victim) task) q) := by
  split
  · rename_i hr
    exact hf (.inl hr)
  · cases he : p.evict? with
    | none => exact hf (.inr (List.getLast?_eq_none_iff.mp (Option.map_eq_none_iff.mp he)))
    | some r => exact .of_changes (.single (.evict he)) rfl

theorem resumePut_goes (k : κ) (value : ν) (deadline : Option Instant) (refusal : OnRefusal) (p : Plain κ ν) :
    Goes p (p.resumePut k value deadline refusal) := by
  have hr : (Progress.done (Cache.stored refusal) : Progress κ ν).refusal? = none := by cases refusal <;> rfl
  unfold resumePut
  cases hk : p.find? k with
  | some e => exact .of_changes (.single (.overwrite value deadline (find?_eq_some hk).1)) hr
  | none => exact makeRoom_goes (fun hroom => enter_goes .refl hroom hk value deadline refusal hr) _

theorem resumeGetOrPut_goes (k : κ) (value : ν) (ttl : Duration) (refusal : OnRefusal) (p : Plain κ ν) :
    Goes p (p.resumeGetOrPut k value ttl refusal) := by
  unfold resumeGetOrPut
  cases hk : p.find? k with
  | some e =>
    have he := (find?_eq_some hk).1
    simp only
    split
    · exact .of_changes (.single (.expire he)) rfl
    · exact .of_changes ((Change.front he).changes.tail (.count rfl)) rfl
  | none =>
    have hmiss : Changes p (p.count .getMiss) := .single (.count rfl)
    refine makeRoom_goes (fun hroom => ?_) _
    unfold finishGetOrPut
    exact enter_goes (q := p.count .getMiss) hmiss hroom hk value _ refusal rfl

theorem resumeShrink_goes (bound : UInt64) (dropped : Nat) (p : Plain κ ν) :
    Goes p (p.resumeShrink bound dropped) := by
  have hend : Goes p (.ok (.done .unit) (p.note (.resized bound dropped))) := .of_changes (.single (.note _)) rfl
  unfold resumeShrink
  split
  · cases he : p.evict? with
    | none => exact hend
    | some r => exact .of_changes (.single (.evict he)) rfl
  · exact hend

/-- The end of an operation that hands out what it has dropped. -/
theorem notify_goes (h : Changes p q) (victims : List (Entry κ ν)) (ending : Option Note) {reply : Reply κ ν}
    (hr : (Progress.done reply : Progress κ ν).refusal? = none) :
    Goes p (q.resume (.notify victims ending reply)) := by
  cases victims with
  | cons victim victims => exact .of_changes h rfl
  | nil =>
    cases ending with
    | none => exact .of_changes h hr
    | some n => exact .of_changes (h.tail (.note n)) hr

theorem resume_goes {begun : Plain κ ν} {op : Op κ ν} {task : Task κ ν} (h : Awaits begun op task) (p : Plain κ ν) :
    Goes p (p.resume task) := by
  cases h with
  | put k value ttl refusal => exact resumePut_goes k value _ refusal p
  | getOrPut k value ttl refusal => exact resumeGetOrPut_goes k value ttl refusal p
  | get k => exact notify_goes .refl [] none rfl
  | peek k => exact notify_goes .refl [] none rfl
  | delete k => exact notify_goes .refl [] none rfl
  | resize asked bound dropped => exact resumeShrink_goes bound dropped p
  | purge victims ending n => exact notify_goes .refl victims ending rfl
  | clear victims ending => exact notify_goes .refl victims ending rfl

/-! ## Operations -/

/-- The list cache that an operation works on: the bound asked for is in force. -/
def primed (op : Op κ ν) (p : Plain κ ν) : Plain κ ν :=
  match op with
  | .resize asked => p.setBound asked
  | _ => p

theorem read_goes (k : κ) (touch : Bool) (p : Plain κ ν) : Goes p (p.read k touch) := by
  unfold read
  cases hk : p.find? k with
  | none => exact .of_changes (.single (.count rfl)) rfl
  | some e =>
    have he := (find?_eq_some hk).1
    simp only
    split
    · have hx : Changes p ((((p.leave e .expired).count .expired).count .getMiss).note .reaped) :=
        ((Change.expire he).changes.tail (.count rfl)).tail (.note _)
      exact .of_changes hx rfl
    · cases touch with
      | true => exact .of_changes ((Change.front he).changes.tail (.count rfl)) rfl
      | false => exact .of_changes (.single (.count rfl)) rfl

theorem delete_goes (k : κ) (p : Plain κ ν) : Goes p (p.delete k) := by
  unfold delete
  cases hk : p.find? k with
  | none => exact .of_changes .refl rfl
  | some e => exact .of_changes (.single (.remove (find?_eq_some hk).1)) rfl

theorem withSnapshot_goes (p : Plain κ ν) {f : Snapshot → Reply κ ν}
    (hf : ∀ s, (Progress.done (f s) : Progress κ ν).refusal? = none) : Goes p (p.withSnapshot f) := by
  unfold withSnapshot
  cases p.snapshot? with
  | none => exact ⟨.refl, fun e he => nomatch he⟩
  | some s => exact .of_changes .refl (hf s)

theorem start_goes {look : Index.Op κ → Reply κ ν}
    (hlook : ∀ op, (Progress.done (look op) : Progress κ ν).refusal? = none) (op : Op κ ν)
    (hn : (p.entries.map (·.key)).Nodup) : Goes (p.primed op) (start look op p) := by
  have hsame : ∀ reply, (Progress.done reply : Progress κ ν).refusal? = none → Goes p (.ok (.done reply) p) :=
    fun reply hr => .of_changes .refl hr
  cases op with
  | put k value ttl refusal => exact resumePut_goes k value _ refusal p
  | getOrPut k value ttl refusal => exact resumeGetOrPut_goes k value ttl refusal p
  | get k => exact read_goes k true p
  | peek k => exact read_goes k false p
  | delete k => exact delete_goes k p
  | resize asked => exact resumeShrink_goes _ 0 (p.setBound asked)
  | purge => exact notify_goes (reap_changes hn List.filter_sublist) _ _ rfl
  | clear => exact notify_goes (Change.dropAll.changes.tail (.count rfl)) _ _ rfl
  | check => exact hsame _ (by unfold check; split <;> rfl)
  | metrics => exact withSnapshot_goes p fun _ => rfl
  | snapshot => exact withSnapshot_goes p fun _ => rfl
  | expose family limit => exact withSnapshot_goes p fun _ => rfl
  | advance step => exact .of_changes (.single (.advance step)) rfl
  | memory memory => exact .of_changes (.single (.memory memory)) rfl
  | abort message => exact ⟨.refl, fun e he => nomatch he⟩
  | index op => exact hsame _ (hlook op)
  | _ => exact hsame _ rfl

end Plain

end Recency
