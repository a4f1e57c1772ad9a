import Recency.Proofs.Plain.Refinement
/-
  Recency.Proofs.Session.Agreement — chain, index and size agree at every moment.

  As long as nobody edits a shared index behind the cache's back or makes a step of it fail,
  the cache is steady at every machine of a run: between two steps, when a callback has
  just been called, and when an abort has unwound all that was under way. Callbacks may
  do what they like, abort included, and memory may be refused.

  So the size is never lowered from zero, and a full cache always has an entry to drop.
-/

namespace Recency

variable {κ ν : Type} [DecidableEq κ]

namespace Cache

theorem Agrees.keeps {r : EStateM.Result Abort (Cache κ ν) (Progress κ ν)}
    {p : EStateM.Result Abort (Plain κ ν) (Progress κ ν)} (h : Agrees r p) : Engine.Keeps Cache.Steady r := by
  cases h with
  | ok _ h => exact h
  | error _ h => exact h

/-- A handle is that of a node, or there is nothing to detach. -/
theorem detach_cases {c : Cache κ ν} (h : c.Steady) (id : SlotId) (cause : Cause) :
    (∃ e d, detach id cause c = .ok (some e) d ∧ d.Steady ∧ d.size.toNat + 1 = c.size.toNat) ∨
      detach id cause c = .ok none c := by
  cases hg : c.chain.get? id with
  | some e =>
    obtain ⟨d, hd, hs, -, hsize, -⟩ := detach_steady h (h.chain.get?_eq_some_iff.mp hg) cause
    exact .inl ⟨e, d, hd, hs, hsize⟩
  | none =>
    have hcon : ¬ c.chain.contains id = true := by
      show ¬ (c.chain.get? id).isSome = true
      simp [hg]
    refine .inr ?_
    simp only [detach, Action.bind_apply, Action.get_apply, Chain.remove, if_neg hcon]
    rfl

theorem reap_size {ids : List SlotId} {c d : Cache κ ν} {gone : List (Entry κ ν)} (h : c.Steady)
    (hr : Cache.reap ids c = .ok gone d) : d.size.toNat + gone.length = c.size.toNat := by
  induction ids generalizing c gone with
  | nil => cases hr; rfl
  | cons id ids ih =>
    rw [Cache.reap, Action.bind_apply] at hr
    rcases detach_cases h id .expired with ⟨e, c', hd, hs, hsize⟩ | hd
    · simp only [hd, Action.bind_apply, count, Action.modify_apply] at hr
      cases hrest : Cache.reap ids { c' with counters := c'.counters.bump .expired } with
      | error a d' => simp only [hrest] at hr; cases hr
      | ok rest d' =>
        simp only [hrest, Action.pure_apply] at hr
        cases hr
        have := ih (hs.count .expired) hrest
        simp only [List.length_cons] at this ⊢
        omega
    · simp only [hd] at hr
      exact ih h hr

theorem evict_full {c : Cache κ ν} (h : c.Steady) (hf : c.hasRoom = false) : ∃ e d, evict c = .ok (some e) d := by
  have he := evict_steady h
  have hpos := h.bound_pos
  cases hp : c.view.evict? with
  | some r =>
    rw [hp] at he
    obtain ⟨d, hd, -⟩ := he
    exact ⟨_, d, hd⟩
  | none =>
    have hnil : c.entries = [] := by simpa [Plain.evict?, view] using hp
    have hsize := h.size_eq
    rw [hnil] at hsize
    simp only [hasRoom, decide_eq_false_iff_not, UInt64.lt_iff_toNat_lt, List.length_nil] at hf hsize
    omega

end Cache

namespace Machine

theorem Reach.steady {cfg : Settings} {rs : List (Reaction κ ν)} {A : Machine (Cache κ ν) κ ν → Prop}
    {m : Machine (Cache κ ν) κ ν} (h : Reach Cache.engine (fun op => op.quiet = true) A ⟨cfg.build, rs⟩ m)
    (hrs : ∀ r ∈ rs, ∀ op ∈ r.ops, op.quiet = true) : m.cache.Steady :=
  h.keeps (I := Cache.Steady) (fun e _ h => h.record e) (fun task _ h => (Cache.resume_agrees h task).keeps)
    (fun _ _ hop h => (Cache.start_agrees h hop).keeps) hrs (Cache.build_steady cfg).1

/-- At every moment the chain is well formed, no key is in it twice, the index maps exactly
    its keys, each to its own node, and the size is the number of nodes. Whatever is taken
    out lowers the size by as much, and a cache without room has something to drop. -/
theorem Reach.consistent_throughout {cfg : Settings} {rs : List (Reaction κ ν)} {m : Machine (Cache κ ν) κ ν}
    (h : Reach Cache.engine (fun op => op.quiet = true) (fun _ => True) ⟨cfg.build, rs⟩ m)
    (hrs : ∀ r ∈ rs, ∀ op ∈ r.ops, op.quiet = true) :
    m.cache.Consistent ∧ m.cache.chain.check = .ok () ∧
      (∀ id cause e d, Cache.detach id cause m.cache = .ok (some e) d → d.size.toNat + 1 = m.cache.size.toNat) ∧
      (∀ ids gone d, Cache.reap ids m.cache = .ok gone d → d.size.toNat + gone.length = m.cache.size.toNat) ∧
      (m.cache.hasRoom = false → ∃ e d, Cache.evict m.cache = .ok (some e) d) := by
  have hs := h.steady hrs
  refine ⟨hs.toConsistent, hs.chain.check_eq, fun id cause e d hd => ?_, fun ids gone d => Cache.reap_size hs,
    Cache.evict_full hs⟩
  rcases Cache.detach_cases hs id cause with ⟨e', d', hd', -, hsize⟩ | hd'
  · rw [hd'] at hd
    cases hd
    exact hsize
  · rw [hd'] at hd
    cases hd

/-- A store has dropped an entry, and the callback that is called for it is about to abort. -/
theorem Reach.consistent_throughout_called :
    let s : Session (Cache Nat Nat) Nat Nat :=
      ⟨Settings.build ⟨1, .zero, true, none, false, 0⟩, [⟨none, 1, [.abort "stop"]⟩]⟩
    let m := Machine.start Cache.engine (.put 2 20 none .abort)
      (Machine.start Cache.engine (.put 1 10 none .abort) s).toSession
    m.control.pending = [.abort "stop"] ∧ (∀ r ∈ s.reactions, ∀ op ∈ r.ops, op.quiet = true) ∧
      Reach Cache.engine (fun op => op.quiet = true) (fun _ => True) s m ∧ m.cache.Consistent ∧
      m.cache.chain.check = .ok () := by
  intro s m
  have hrs : ∀ r ∈ s.reactions, ∀ op ∈ r.ops, op.quiet = true := by decide
  have hm : Reach Cache.engine (fun op => op.quiet = true) (fun _ => True) s m :=
    .start _ (.start _ .idle rfl rfl) rfl rfl
  obtain ⟨hc, hk, -⟩ := Reach.consistent_throughout hm hrs
  exact ⟨rfl, hrs, hm, hc, hk⟩

end Machine

end Recency
