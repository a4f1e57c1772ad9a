import Recency.Proofs.Session.Orderly
/-
  Recency.Proofs.Session.Capacity — a cache never holds more than its bound for long.

  A resize puts the new bound in force before it has dropped what is too much, and calls
  the callback after each drop. Meanwhile the cache may hold more than the bound, and
  anything may happen inside the callback: stores, other resizes, a clear. What holds at
  every moment is that the cache is within its bound or a resize is under way
  (`Capped`), since only the end of a resize and a store end with a look at the bound,
  and nothing else adds an entry.

  When nothing is under way the cache is within its bound. And a stay never begins but
  within the bound, resize or not.
-/

namespace Recency

variable {κ ν : Type}

def Task.shrinks : Task κ ν → Bool
  | .shrink _ _ => true
  | _ => false

namespace Cache

/-- The cache is within its bound, or one of the tasks `ts` will see to it. -/
def Capped (c : Cache κ ν) (ts : List (Task κ ν)) : Prop := c.size ≤ c.bound ∨ ∃ t ∈ ts, t.shrinks = true

theorem Drops.within {gone : List (Entry κ ν)} {c d : Cache κ ν} (h : Drops gone c d) (hc : c.Sound)
    (hb : c.size ≤ c.bound) : d.size ≤ d.bound := by
  have hl := h.entries.length_eq
  have hd := (h.sound hc).size_eq
  rw [List.length_append, ← hc.size_eq] at hl
  rw [UInt64.le_iff_toNat_le, h.bound] at *
  omega

theorem Overwrites.within {e e' : Entry κ ν} {c d : Cache κ ν} (h : Overwrites e e' c d) (hc : c.Sound)
    (hb : c.size ≤ c.bound) : d.size ≤ d.bound := by
  obtain ⟨rest, hr, hr'⟩ := h.entries
  have hl := hr.length_eq
  have hd := (h.sound hc).size_eq
  rw [hr'.length_eq, List.length_cons] at hd
  rw [List.length_cons, ← hc.size_eq] at hl
  rw [UInt64.le_iff_toNat_le, h.bound] at *
  omega

/-- A stay begins only where there was room for it. -/
theorem Enters.within {e : Entry κ ν} {c d : Cache κ ν} (h : Enters e c d) (hc : c.Sound) : d.size ≤ d.bound := by
  have hd := (h.sound hc).size_eq
  have hs := hc.size_eq
  have hp := hc.bound_pos
  rw [h.entries, List.length_cons] at hd
  rw [UInt64.le_iff_toNat_le, h.bound]
  rcases h.room with hr | hr
  · simp only [hasRoom, decide_eq_true_eq, UInt64.lt_iff_toNat_lt] at hr
    omega
  · rw [hr, List.length_nil] at hd
    omega

theorem Moves.within {c : Cache κ ν} {pending : List (Entry κ ν)} {r : EStateM.Result Abort (Cache κ ν) (Progress κ ν)}
    (h : Moves c pending r) (hc : c.Sound) (hb : c.size ≤ c.bound) : Engine.Keeps (fun d => d.size ≤ d.bound) r := by
  cases h with
  | breaks _ h => exact (h.2 hc.failing).within hc hb
  | keeps _ h _ => exact h.within hc hb
  | overwrites _ h => exact h.within hc hb
  | enters _ h => exact h.within hc
  | releases h _ => exact h.within hc hb

/-- Only the beginning of a stay changes how many have begun. -/
theorem Moves.begun {c : Cache κ ν} {pending : List (Entry κ ν)} {r : EStateM.Result Abort (Cache κ ν) (Progress κ ν)}
    (h : Moves c pending r) (hc : c.Sound) :
    Engine.Keeps (fun d => d.stays ≠ c.stays → d.size ≤ d.bound) r := by
  cases h with
  | breaks _ h => exact fun hn => absurd (h.2 hc.failing).stays hn
  | keeps _ h _ => exact fun hn => absurd h.stays hn
  | overwrites _ h => exact fun hn => absurd h.stays hn
  | enters _ h => exact fun _ => h.within hc
  | releases h _ => exact fun hn => absurd h.stays hn

variable [DecidableEq κ]

/-- A resize ends within the bound in force, or goes on; it does not abort. -/
theorem shrink_settles {c : Cache κ ν} (hc : c.Sound) (bound : UInt64) (dropped : Nat) :
    Action.Meets (fun progress d => match progress with
      | .done _ => d.size ≤ d.bound
      | .release _ task => task.shrinks = true) (fun _ => False) (Cache.resumeShrink bound dropped c) := by
  refine Action.yields_get ?_
  split
  · rename_i hover
    have hb : Fails (fun _ => True) c c fun _ _ => False := fun hf => absurd hc.failing hf
    refine Action.yields_bind (evict_yields (.refl hc.chain) hb (fun _ => trivial) (fun he => ?_) fun e d _ _ => rfl)
    have hs := hc.size_eq
    rw [he, List.length_nil] at hs
    rw [UInt64.lt_iff_toNat_lt] at hover
    omega
  · rename_i hover
    exact UInt64.not_lt.mp hover

/-! ## Lasting -/

variable {c : Cache κ ν} {ts : List (Task κ ν)} {r : EStateM.Result Abort (Cache κ ν) (Progress κ ν)}

omit [DecidableEq κ] in
theorem Capped.record {e : Event κ ν} (h : c.Capped ts) (b : Bool) :
    Capped (if b then { c with journal := e :: c.journal } else c) ts := by
  cases b <;> exact h

theorem lasts_of_within (h : Engine.Keeps (fun d : Cache κ ν => d.size ≤ d.bound) r) : engine.Lasts Capped ts r := by
  match r, h with
  | .error a d, h => exact fun _ => .inl h
  | .ok (.done _) d, h => exact .inl h
  | .ok (.release none task) d, h => exact .inl h
  | .ok (.release (some e) task) d, h => exact Capped.record (.inl h) d.notifies

theorem lasts_of_waiting (h : ∃ t ∈ ts, t.shrinks = true) : engine.Lasts Capped ts r := by
  obtain ⟨t, ht, hs⟩ := h
  match r with
  | .error a d => exact fun hn => absurd ht (hn ▸ List.not_mem_nil)
  | .ok (.done _) d => exact .inr ⟨t, ht, hs⟩
  | .ok (.release none task) d => exact .inr ⟨t, List.mem_cons_of_mem _ ht, hs⟩
  | .ok (.release (some e) task) d => exact Capped.record (.inr ⟨t, List.mem_cons_of_mem _ ht, hs⟩) d.notifies

theorem shrink_lasts (hc : c.Sound) (bound : UInt64) (dropped : Nat) :
    engine.Lasts Capped ts (Cache.resumeShrink bound dropped c) := by
  have h := shrink_settles hc bound dropped
  generalize Cache.resumeShrink bound dropped c = r at h
  match r, h with
  | .error _ _, h => exact h.elim
  | .ok (.done _) d, h => exact .inl h
  | .ok (.release none task) d, h => exact .inr ⟨task, List.mem_cons_self, h⟩
  | .ok (.release (some e) task) d, h => exact Capped.record (.inr ⟨task, List.mem_cons_self, h⟩) d.notifies

theorem resume_capped (hc : c.Sound) {task : Task κ ν} (h : c.Capped (task :: ts)) :
    engine.Lasts Capped ts (Cache.resume task c) := by
  rcases h with h | ⟨t, ht, hs⟩
  · exact lasts_of_within ((resume_moves hc.chain task).within hc h)
  rcases List.mem_cons.mp ht with rfl | ht
  · cases t with
    | shrink bound dropped => exact shrink_lasts hc bound dropped
    | _ => cases hs
  · exact lasts_of_waiting ⟨t, ht, hs⟩

theorem start_capped (hc : c.Sound) {op : Op κ ν} (hop : op.calm = true) (h : c.Capped ts) :
    engine.Lasts Capped ts (Cache.start op c) := by
  rcases h with h | h
  · have hm := (start_moves hc.chain op).within (hc.primed hop)
    cases op with
    | resize asked =>
      rw [resize_eq]
      exact shrink_lasts (hc.primed rfl) _ 0
    | _ => exact lasts_of_within (hm h)
  · exact lasts_of_waiting h

end Cache

namespace Machine

variable [DecidableEq κ]

theorem settle_begun (op : Op κ ν) (below : List (Waiting κ ν)) (reactions : List (Reaction κ ν)) {c : Cache κ ν}
    {pending : List (Entry κ ν)} {r : EStateM.Result Abort (Cache κ ν) (Progress κ ν)} (h : Cache.Moves c pending r)
    (hc : c.Sound) (hn : (settle Cache.engine op below reactions r).cache.stays ≠ c.stays) :
    (settle Cache.engine op below reactions r).cache.size ≤ (settle Cache.engine op below reactions r).cache.bound :=
  settle_keeps (I := fun d : Cache κ ν => d.stays ≠ c.stays → d.size ≤ d.bound) (fun _ _ h => h) op below reactions
    (h.begun hc) hn

theorem start_begun {s : Session (Cache κ ν) κ ν} (hc : s.cache.Sound) {op : Op κ ν} (hop : op.calm = true)
    (hn : (start Cache.engine op s).cache.stays ≠ s.cache.stays) :
    (start Cache.engine op s).cache.size ≤ (start Cache.engine op s).cache.bound := by
  rw [← (Cache.primed_same s.cache op).1] at hn
  exact settle_begun op [] s.reactions (Cache.start_moves hc.chain op) (hc.primed hop) hn

theorem step_begun {m : Machine (Cache κ ν) κ ν} (hc : m.cache.Sound) (hu : m.Upholds fun op => op.calm = true)
    (hn : (step Cache.engine m).cache.stays ≠ m.cache.stays) :
    (step Cache.engine m).cache.size ≤ (step Cache.engine m).cache.bound := by
  rcases step_piece hc hu with he | ⟨ready, op, below, pending, r, hs, hm, he⟩
  · exact absurd (congrArg Cache.stays he) hn
  · rw [he, ← (Cache.primed_same m.cache ready).1] at hn
    rw [he]
    exact settle_begun op below m.reactions hm hs hn

theorem Reach.capped {cfg : Settings} {rs : List (Reaction κ ν)} {m : Machine (Cache κ ν) κ ν}
    (h : Reach Cache.engine (fun op => op.calm = true) (Orderly Cache.engine) ⟨cfg.build, rs⟩ m)
    (hrs : ∀ r ∈ rs, ∀ op ∈ r.ops, op.calm = true) : m.cache.Capped m.control.tasks := by
  refine h.lasts (I := Cache.Sound) (fun _ _ _ _ h => h) (fun task ts c hc h => Cache.resume_capped hc h)
    (fun op ts c hop hc h => Cache.start_capped hc hop h) hrs (fun hm => hm.sound hrs) (.inl ?_)
  show (0 : UInt64) ≤ _
  exact UInt64.zero_le

/-- When nothing is under way the cache is within the bound in force, and so it is right
    after a stay has begun, however deep inside callbacks that happened. -/
theorem Reach.size_within_bound {cfg : Settings} {rs : List (Reaction κ ν)} {m : Machine (Cache κ ν) κ ν}
    (h : Reach Cache.engine (fun op => op.calm = true) (Orderly Cache.engine) ⟨cfg.build, rs⟩ m)
    (hrs : ∀ r ∈ rs, ∀ op ∈ r.ops, op.calm = true) :
    m.cache.size.toNat = m.cache.entries.length ∧
      (∀ o, m.control = .finished o → m.cache.size ≤ m.cache.bound) ∧
      (∀ o op, m.control = .finished o → op.calm = true →
        (Machine.start Cache.engine op m.toSession).cache.stays ≠ m.cache.stays →
        (Machine.start Cache.engine op m.toSession).cache.size ≤
          (Machine.start Cache.engine op m.toSession).cache.bound) ∧
      ((Machine.step Cache.engine m).cache.stays ≠ m.cache.stays →
        (Machine.step Cache.engine m).cache.size ≤ (Machine.step Cache.engine m).cache.bound) := by
  have hs := h.sound hrs
  refine ⟨hs.size_eq, fun o ho => ?_, fun o op _ hop => start_begun hs hop, step_begun hs (h.upholds hrs)⟩
  rcases h.capped hrs with hb | ⟨t, ht, -⟩
  · exact hb
  · rw [ho] at ht
    cases ht

/-- While a store waits for its callback, the callback fills the room just made. -/
theorem Reach.size_within_bound_refilled :
    let s : Session (Cache Nat Nat) Nat Nat :=
      ⟨Settings.build ⟨1, .zero, true, none, false, 0⟩, [⟨none, 1, [.put 3 30 none .report]⟩]⟩
    let called := Machine.start Cache.engine (.put 2 20 none .abort)
      (Machine.start Cache.engine (.put 1 10 none .abort) s).toSession
    let m := called.run Cache.engine 5
    (∀ r ∈ s.reactions, ∀ op ∈ r.ops, op.calm = true) ∧
      Reach Cache.engine (fun op => op.calm = true) (Orderly Cache.engine) s m ∧
      m.control = .finished (.returned .unit) ∧ m.cache.size ≤ m.cache.bound := by
  intro s called m
  have hrs : ∀ r ∈ s.reactions, ∀ op ∈ r.ops, op.calm = true := by decide
  have hcalled : Reach Cache.engine (fun op => op.calm = true) (Orderly Cache.engine) s called :=
    .start _ (.start _ .idle rfl rfl) rfl rfl
  have hA : ∀ k < 5, Orderly Cache.engine (called.run Cache.engine k) := by decide +kernel
  have hm : Reach Cache.engine (fun op => op.calm = true) (Orderly Cache.engine) s m := hcalled.run 5 hA
  have hc : m.control = .finished (.returned .unit) := by decide +kernel
  exact ⟨hrs, hm, hc, (hm.size_within_bound hrs).2.1 _ hc⟩

end Machine

end Recency
