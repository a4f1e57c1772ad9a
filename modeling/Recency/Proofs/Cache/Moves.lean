import Recency.Proofs.Cache.Actions
import Recency.Proofs.Session.Potential
/-
  Recency.Proofs.Cache.Moves — what one piece of an operation can do.

  Nothing is said here of the index: it may lead anywhere, and any use of it may fail. All
  that is asked of the cache is a well-formed chain. From there a piece of an operation
  breaks off, or it drops entries and hands the first of them out, or it ends, and then it
  has dropped none, overwritten one, or begun one stay in a place that there was (`Moves`).

  `resume_moves` and `start_moves` show that of every task and every operation. What holds
  along a run is derived from the cases of `Moves`, and no piece is opened again.
-/

namespace Recency

variable {κ ν : Type}

/-- The entries that are yet to be handed out. -/
def Task.victims : Task κ ν → List (Entry κ ν)
  | .notify victims _ _ => victims
  | _ => []

theorem Task.potential_eq (task : Task κ ν) : task.potential = 3 + 2 * task.victims.length := by
  cases task <;> rfl

namespace Cache

open Recency.Action

/-! ## Moves -/

/-- What an abort leaves. Without a failing index it leaves what was there. -/
def Broken (c d : Cache κ ν) : Prop := d.chain.WellFormed ∧ (c.failing = none → Drops [] c d)

/-- How a piece that has the entries `pending` to hand out comes from `c` to its result. -/
inductive Moves (c : Cache κ ν) : List (Entry κ ν) → EStateM.Result Abort (Cache κ ν) (Progress κ ν) → Prop
  | breaks {d : Cache κ ν} (a : Abort) : Broken c d → Moves c [] (.error a d)
  | keeps {d : Cache κ ν} {gone : List (Entry κ ν)} (reply : Reply κ ν) :
      Drops gone c d → (c.notifies = true → gone = []) → Moves c [] (.ok (.done reply) d)
  | overwrites {d : Cache κ ν} {e e' : Entry κ ν} (reply : Reply κ ν) :
      Overwrites e e' c d → Moves c [] (.ok (.done reply) d)
  | enters {d : Cache κ ν} {e : Entry κ ν} (reply : Reply κ ν) : Enters e c d → Moves c [] (.ok (.done reply) d)
  | releases {d : Cache κ ν} {pending gone : List (Entry κ ν)} {victim : Entry κ ν} {task : Task κ ν} :
      Drops gone c d → gone ++ pending = victim :: task.victims → Moves c pending (.ok (.release (some victim) task) d)

theorem Drops.broken {c d : Cache κ ν} (h : Drops [] c d) : Broken c d := ⟨h.chain, fun _ => h⟩

theorem fails_broken (c : Cache κ ν) : Fails (fun _ => True) c c fun _ => Broken c :=
  fun hf _ _ h => ⟨h.wellFormed, fun hn => absurd hn hf⟩

/-! ## Tasks -/

section Pieces

variable {c : Cache κ ν}

theorem moves_of_meets {r : EStateM.Result Abort (Cache κ ν) (Progress κ ν)}
    (h : Meets (fun progress d => Moves c [] (.ok progress d)) (Broken c) r) : Moves c [] r := by
  cases r with
  | ok progress d => exact h
  | error a d => exact .breaks a h

theorem Moves.meets {r : EStateM.Result Abort (Cache κ ν) (Progress κ ν)} (h : Moves c [] r) :
    Meets (fun progress d => Moves c [] (.ok progress d)) (Broken c) r := by
  cases r with
  | ok progress d => exact h
  | error a d => cases h with | breaks _ h => exact h

theorem refuse_meets {d : Cache κ ν} (h : Drops [] c d) (refusal : OnRefusal) (e : ArenaError) :
    Meets (fun progress d => Moves c [] (.ok progress d)) (Broken c) (refuse refusal e d) := by
  cases refusal with
  | abort => exact h.broken
  | report => exact Moves.keeps _ h fun _ => rfl

/-- A count made before a piece, or a use of the index, is no move. -/
theorem Moves.of_used {counters : Counters} {failing : Option Index.Failure} (hf : c.failing = none → failing = none)
    {pending : List (Entry κ ν)} {r : EStateM.Result Abort (Cache κ ν) (Progress κ ν)}
    (h : Moves { c with counters, failing } pending r) : Moves c pending r := by
  have hframe : ∀ {d}, Frame { c with counters, failing } d → Frame c d := fun h =>
    ⟨h.chain, h.bound, h.notifies, fun hc => h.failing (hf hc), h.notified, h.size_eq⟩
  have hd : ∀ {gone d}, Drops gone { c with counters, failing } d → Drops gone c d := fun h =>
    ⟨hframe h.toFrame, h.entries, h.stays, h.entered, h.stored⟩
  cases h with
  | breaks a h => exact .breaks a ⟨h.1, fun hc => hd (h.2 (hf hc))⟩
  | keeps reply h hn => exact .keeps reply (hd h) hn
  | overwrites reply h =>
    exact .overwrites reply ⟨hframe h.toFrame, h.stay, h.key, h.entries, h.stays, h.entered, h.stored⟩
  | enters reply h =>
    exact .enters reply ⟨hframe h.toFrame, h.room, h.stay, h.entries, h.stays, h.entered, h.stored⟩
  | releases h hv => exact .releases (hd h) hv

variable [DecidableEq κ]

/-- A piece that begins with a look into the index. -/
theorem load_moves (hc : c.chain.WellFormed) (k : κ) {f : Option SlotId → Action κ ν (Progress κ ν)}
    (h : ∀ (d : Cache κ ν) found, d.chain.WellFormed → Moves d [] (f found d)) :
    Moves c [] ((load k >>= f) c) := by
  refine moves_of_meets (yields_bind (load_yields (.refl hc) (fails_broken c) k fun found failing hf => ?_))
  exact ((h { c with failing } found hc).of_used hf).meets

/-- A piece that begins with a look for a node. -/
theorem locate_moves (hc : c.chain.WellFormed) (k : κ) {f : Option (SlotId × Entry κ ν) → Action κ ν (Progress κ ν)}
    (hnone : ∀ d : Cache κ ν, d.chain.WellFormed → Moves d [] (f none d))
    (hsome : ∀ (d : Cache κ ν) id e, d.chain.WellFormed → (id, e) ∈ d.chain.entries →
      Moves d [] (f (some (id, e)) d)) :
    Moves c [] ((locate k >>= f) c) := by
  refine moves_of_meets (yields_bind (locate_yields (.refl hc) (fails_broken c) k ?_ ?_))
  · intro failing hf
    exact ((hnone { c with failing } hc).of_used hf).meets
  · intro id e failing hm _ hf
    exact ((hsome { c with failing } id e hc hm).of_used hf).meets

theorem finishPut_moves (hc : c.chain.WellFormed) (hroom : c.hasRoom = true ∨ c.entries = []) (k : κ) (value : ν)
    (deadline : Option Instant) (refusal : OnRefusal) : Moves c [] (Cache.finishPut k value deadline refusal c) := by
  refine moves_of_meets (yields_bind ?_)
  exact enter_yields (.refl hc) (fails_broken c) hroom value deadline (fun _ _ => trivial)
    (fun e => refuse_meets (.refl hc) refusal e) fun e d _ hd => Moves.enters _ hd

/-- A store ends where there is room, and else drops one entry and goes on. -/
theorem makeRoom_moves (hc : c.chain.WellFormed) {finish : Action κ ν (Progress κ ν)}
    (hfinish : c.hasRoom = true ∨ c.entries = [] → Moves c [] (finish c)) {task : Task κ ν} (ht : task.victims = []) :
    Moves c []
      ((do if (← get).hasRoom then finish
           else match ← evict with
             | none => finish
             | some victim => return .release victim task : Action κ ν (Progress κ ν)) c) := by
  refine moves_of_meets (yields_get ?_)
  by_cases hr : c.hasRoom = true
  · rw [if_pos hr]
    exact (hfinish (.inl hr)).meets
  · rw [if_neg hr]
    refine yields_bind (evict_yields (.refl hc) (fails_broken c) (fun _ => trivial)
      (fun he => (hfinish (.inr he)).meets) fun e d _ hd => ?_)
    exact Moves.releases hd (by rw [ht]; rfl)

theorem resumePut_moves (hc : c.chain.WellFormed) (k : κ) (value : ν) (deadline : Option Instant)
    (refusal : OnRefusal) : Moves c [] (Cache.resumePut k value deadline refusal c) := by
  refine locate_moves hc k (fun d hd => ?_) fun d id e hd hm => moves_of_meets ?_
  · exact makeRoom_moves hd (fun hr => finishPut_moves hd hr k value deadline refusal) rfl
  · refine yields_bind (overwrite_yields (A := fun _ => True) (.refl hd) hm value deadline trivial fun d _ hd => ?_)
    exact Moves.overwrites _ hd

theorem finishGetOrPut_moves (hc : c.chain.WellFormed) (hroom : c.hasRoom = true ∨ c.entries = []) (k : κ) (value : ν)
    (ttl : Duration) (refusal : OnRefusal) : Moves c [] (Cache.finishGetOrPut k value ttl refusal c) := by
  let d : Cache κ ν := { c with counters := c.counters.bump .getMiss }
  have hd : d.chain.WellFormed := hc
  have hm : Moves d [] (Cache.finishGetOrPut k value ttl refusal c) := by
    refine moves_of_meets (yields_modify (yields_get (yields_bind ?_)))
    exact enter_yields (.refl hd) (fails_broken d) hroom value _ (fun _ _ => trivial)
      (fun e => refuse_meets (.refl hd) refusal e) fun e d _ hd => Moves.enters _ hd
  exact hm.of_used id

theorem resumeGetOrPut_moves (hc : c.chain.WellFormed) (k : κ) (value : ν) (ttl : Duration) (refusal : OnRefusal) :
    Moves c [] (Cache.resumeGetOrPut k value ttl refusal c) := by
  refine locate_moves hc k (fun d hd => ?_) fun d id e hd hm => moves_of_meets (yields_get ?_)
  · exact makeRoom_moves hd (fun hr => finishGetOrPut_moves hd hr k value ttl refusal) rfl
  · by_cases hx : e.expired d.now = true
    · rw [if_pos hx]
      refine yields_bind (detach_yields (.refl hd) (fails_broken d) hm trivial fun d' _ hd' _ => ?_)
      exact Moves.releases (hd'.count .expired) rfl
    · rw [if_neg hx]
      refine yields_bind (promote_yields (A := fun _ => True) (.refl hd) hm fun _ _ _ hd' => ?_)
      exact Moves.keeps _ (hd'.count .getHit) fun _ => rfl

theorem resumeShrink_moves (hc : c.chain.WellFormed) (bound : UInt64) (dropped : Nat) :
    Moves c [] (Cache.resumeShrink bound dropped c) := by
  refine moves_of_meets (yields_get ?_)
  split
  · refine yields_bind (evict_yields (.refl hc) (fails_broken c) (fun _ => trivial) (fun _ => ?_)
      fun e d _ hd => Moves.releases hd rfl)
    exact Moves.keeps _ ((Drops.refl hc).note _) fun _ => rfl
  · exact Moves.keeps _ ((Drops.refl hc).note _) fun _ => rfl

/-- The end of an operation that has dropped the entries `gone` and hands them out if
    there is a callback. -/
theorem notify_moves {d : Cache κ ν} {gone : List (Entry κ ν)} (hd : Drops gone c d) {victims : List (Entry κ ν)}
    (hv : victims = if c.notifies then gone else []) (n : Note) (reply : Reply κ ν) :
    Moves c [] (resume (.notify victims (some n) reply) d) := by
  cases victims with
  | nil =>
    refine .keeps reply (hd.note n) fun hn => ?_
    rw [hv, if_pos hn]
  | cons victim victims =>
    refine .releases hd ?_
    split at hv
    · rw [List.append_nil, ← hv]; rfl
    · cases hv

theorem resume_moves (hc : c.chain.WellFormed) (task : Task κ ν) : Moves c task.victims (Cache.resume task c) := by
  cases task with
  | put k value deadline refusal => exact resumePut_moves hc k value deadline refusal
  | getOrPut k value ttl refusal => exact resumeGetOrPut_moves hc k value ttl refusal
  | shrink bound dropped => exact resumeShrink_moves hc bound dropped
  | notify victims ending reply =>
    cases victims with
    | cons victim victims => exact .releases (.refl hc) rfl
    | nil =>
      cases ending with
      | none => exact .keeps reply (.refl hc) fun _ => rfl
      | some n => exact .keeps reply ((Drops.refl hc).note n) fun _ => rfl

/-! ## Operations -/

theorem read_moves (hc : c.chain.WellFormed) (k : κ) (touch : Bool) : Moves c [] (Cache.read k touch c) := by
  have hmiss : ∀ d : Cache κ ν, d.chain.WellFormed →
      Moves d [] ((do count .getMiss; return .done (.hit none) : Action κ ν (Progress κ ν)) d) := fun d hd =>
    .keeps _ ((Drops.refl hd).count .getMiss) fun _ => rfl
  refine load_moves hc k fun d found hd => ?_
  split
  · exact hmiss d hd
  · refine locate_moves hd k hmiss fun d id e hd hm => moves_of_meets (yields_get ?_)
    by_cases hx : e.expired d.now = true
    · rw [if_pos hx]
      refine yields_bind (detach_yields (.refl hd) (fails_broken d) hm trivial fun d' _ hd' _ => ?_)
      exact Moves.releases (((hd'.count .getMiss).note .reaped).count .expired) rfl
    · rw [if_neg hx]
      cases touch with
      | true =>
        refine yields_bind (promote_yields (A := fun _ => True) (.refl hd) hm fun _ _ _ hd' => ?_)
        exact Moves.keeps _ (hd'.count .getHit) fun _ => rfl
      | false => exact Moves.keeps _ ((Drops.refl hd).count .getHit) fun _ => rfl

theorem delete_moves (hc : c.chain.WellFormed) (k : κ) : Moves c [] (Cache.delete k c) := by
  have hmiss : ∀ d : Cache κ ν, d.chain.WellFormed → Moves d [] (.ok (.done (.flag false)) d) := fun d hd =>
    .keeps _ (.refl hd) fun _ => rfl
  refine load_moves hc k fun d found hd => ?_
  split
  · exact hmiss d hd
  · refine locate_moves hd k hmiss fun d id e hd hm => moves_of_meets ?_
    refine yields_bind (detach_yields (.refl hd) (fails_broken d) hm trivial fun d' _ hd' _ => ?_)
    exact Moves.releases (hd'.count .removed) rfl

omit [DecidableEq κ] in
/-- The nodes that a purge drops are there, each once. -/
theorem due_nodes (hc : c.chain.WellFormed) :
    (∀ p ∈ c.chain.entries.filter fun p => p.2.expired c.now, p ∈ c.chain.entries) ∧
      ((c.chain.entries.filter fun p => p.2.expired c.now).map (·.1)).Nodup :=
  ⟨fun _ hp => (List.mem_filter.mp hp).1, hc.ids_nodup.sublist (List.filter_sublist.map _)⟩

theorem purge_moves (hc : c.chain.WellFormed) : Moves c [] (Cache.purge c) := by
  refine moves_of_meets (yields_get (yields_bind ?_))
  refine reap_yields (.refl hc) (fails_broken c) (fun _ => trivial) (due_nodes hc).1 (due_nodes hc).2 fun d _ hd => ?_
  exact (notify_moves hd rfl _ _).meets

theorem clear_moves (hc : c.chain.WellFormed) : Moves c [] (Cache.clear c) := by
  refine moves_of_meets (yields_get (yields_bind ?_))
  refine dropAll_yields (.refl hc) (fails_broken c) (fun _ => trivial) fun d _ hd => ?_
  exact (notify_moves (hd.count .clear) rfl _ _).meets

/-- The cache that an operation works on: the bound asked for is in force, or a use of the
    index is made to fail. -/
def primed (op : Op κ ν) (c : Cache κ ν) : Cache κ ν :=
  match op with
  | .resize asked =>
    { c with
      bound := effectiveBound asked
      journal := if asked = 0 then .noted (.defaultBound defaultBound) :: c.journal else c.journal }
  | .failIndex failure => { c with failing := if c.sharesIndex then failure else none }
  | _ => c

omit [DecidableEq κ] in
theorem primed_chain (c : Cache κ ν) (op : Op κ ν) : (c.primed op).chain = c.chain := by
  cases op <;> rfl

theorem resize_eq (asked : UInt64) (c : Cache κ ν) :
    Cache.start (.resize asked) c = Cache.resumeShrink (effectiveBound asked) 0 (c.primed (.resize asked)) := by
  by_cases e : asked = 0
  · subst e; rfl
  · simp only [Cache.start, setBound, primed, e, if_false]
    rfl

theorem start_moves (hc : c.chain.WellFormed) (op : Op κ ν) : Moves (c.primed op) [] (Cache.start op c) := by
  have hsame : ∀ reply, Moves c [] (.ok (.done reply) c) := fun reply => .keeps reply (.refl hc) fun _ => rfl
  have hb := fails_broken c
  have hbroken : Broken c c := (Drops.refl hc).broken
  have hlooked : ∀ reply failing, (c.failing = none → failing = none) →
      Moves c [] (.ok (.done reply) { c with failing }) := fun reply failing hf =>
    .keeps reply ((Drops.refl hc).used hf) fun _ => rfl
  cases op with
  | put k value ttl refusal => exact resumePut_moves hc k value _ refusal
  | getOrPut k value ttl refusal => exact resumeGetOrPut_moves hc k value ttl refusal
  | get k => exact read_moves hc k true
  | peek k => exact read_moves hc k false
  | has k =>
    exact moves_of_meets (yields_bind (has_yields (.refl hc) hb k fun _ failing hf => hlooked _ failing hf))
  | delete k => exact delete_moves hc k
  | resize asked =>
    rw [resize_eq]
    exact resumeShrink_moves (c := c.primed (.resize asked)) hc _ 0
  | purge => exact purge_moves hc
  | clear => exact clear_moves hc
  | keys => exact hsame _
  | values => exact hsame _
  | visit stopAfter => exact hsame _
  | length => exact hsame _
  | bound => exact hsame _
  | isEmpty => exact hsame _
  | defaultTtl => exact hsame _
  | check =>
    exact moves_of_meets (yields_bind (check_yields (.refl hc) hb fun _ failing hf => hlooked _ failing hf))
  | inspect layout => exact hsame _
  | metrics => exact moves_of_meets (yields_bind (snapshot_yields (fun s => hsame _) hbroken))
  | snapshot => exact moves_of_meets (yields_bind (snapshot_yields (fun s => hsame _) hbroken))
  | expose family limit => exact moves_of_meets (yields_bind (snapshot_yields (fun s => hsame _) hbroken))
  | advance step => exact .keeps _ ((Drops.refl hc).congr rfl rfl rfl rfl id rfl rfl rfl rfl) fun _ => rfl
  | elapsed => exact hsame _
  | abort message => exact .breaks _ hbroken
  | memory memory => exact .keeps _ ((Drops.refl hc).congr rfl rfl rfl rfl id rfl rfl rfl rfl) fun _ => rfl
  | index op =>
    refine moves_of_meets (yields_get ?_)
    split
    · exact Moves.keeps _ ((Drops.refl hc).congr rfl rfl rfl rfl id rfl rfl rfl rfl) fun _ => rfl
    · exact hsame _
  | failIndex failure => exact .keeps _ (.refl hc) fun _ => rfl

/-! ## Cost -/

omit [DecidableEq κ] in
theorem Moves.wellFormed {pending : List (Entry κ ν)} {r : EStateM.Result Abort (Cache κ ν) (Progress κ ν)}
    (h : Moves c pending r) : Engine.Keeps (fun d : Cache κ ν => d.chain.WellFormed) r := by
  cases h with
  | breaks _ h => exact h.1
  | keeps _ h _ => exact h.chain
  | overwrites _ h => exact h.chain
  | enters _ h => exact h.chain
  | releases h _ => exact h.chain

theorem Moves.affords (hc : c.chain.WellFormed) {pending : List (Entry κ ν)}
    {r : EStateM.Result Abort (Cache κ ν) (Progress κ ν)} (h : Moves c pending r) :
    Cache.engine.Affords (2 * c.chain.length + (3 + 2 * pending.length)) r := by
  rw [length_entries hc]
  cases h with
  | breaks _ _ => trivial
  | keeps _ h _ =>
    have := h.entries.length_eq
    simp only [Engine.Affords, engine, length_entries h.chain, List.length_append] at this ⊢
    omega
  | overwrites _ h =>
    obtain ⟨rest, hc, hd⟩ := h.entries
    have := hc.length_eq
    have := hd.length_eq
    simp only [Engine.Affords, engine, length_entries h.chain, List.length_cons] at *
    omega
  | enters _ h =>
    simp only [Engine.Affords, engine, length_entries h.chain, h.entries, List.length_cons]
    omega
  | releases h hv =>
    have hl := h.entries.length_eq
    have hv := congrArg List.length hv
    simp only [Engine.Affords, engine, length_entries h.chain, Task.potential_eq, List.length_append,
      List.length_cons] at hl hv ⊢
    omega

theorem engine_thrifty (hc : c.chain.WellFormed) : Cache.engine.Thrifty c where
  resume task := by
    rw [task.potential_eq]
    exact (resume_moves hc task).affords hc
  start op := by
    have := (start_moves hc op).affords (primed_chain c op ▸ hc)
    rwa [primed_chain] at this

end Pieces

end Cache

/-! ## Along a run -/

namespace Machine

variable [DecidableEq κ]

theorem start_wellFormed {s : Session (Cache κ ν) κ ν} (h : s.cache.chain.WellFormed) (op : Op κ ν) :
    (start Cache.engine op s).cache.chain.WellFormed :=
  settle_keeps (I := fun c : Cache κ ν => c.chain.WellFormed) (fun _ _ h => h) op [] s.reactions
    (Cache.start_moves h op).wellFormed

theorem step_wellFormed {m : Machine (Cache κ ν) κ ν} (h : m.cache.chain.WellFormed) :
    (step Cache.engine m).cache.chain.WellFormed :=
  step_keeps (I := fun c : Cache κ ν => c.chain.WellFormed) (P := fun _ => True) (fun _ _ h => h)
    (fun task _ h => (Cache.resume_moves h task).wellFormed) (fun op _ _ h => (Cache.start_moves h op).wellFormed)
    ⟨fun _ _ => trivial, fun _ _ _ _ => trivial⟩ h

theorem run_wellFormed (n : Nat) {m : Machine (Cache κ ν) κ ν} (h : m.cache.chain.WellFormed) :
    (m.run Cache.engine n).cache.chain.WellFormed := by
  induction n generalizing m with
  | zero => exact h
  | succ n ih =>
    unfold Machine.run
    split
    · exact h
    · exact ih (step_wellFormed h)

end Machine

end Recency
