import Recency.Proofs.Cache.Consistent
import Recency.Proofs.Session.Runs
/-
  Recency.Proofs.Plain.Refinement — a cache does what a plain list does.

  From a steady cache, each operation and each task of `Cache` gives what the list cache
  gives from its view, aborts where that aborts, and leaves a steady cache whose view is the
  list cache left (`start_agrees`, `resume_agrees`). That the machines of the two then run
  step by step alike, through every callback, is in Proofs/Plain/Simulation.
-/

namespace Recency

variable {κ ν : Type} [DecidableEq κ]

namespace Cache

open Recency.Action

/-- A result of the cache, and the list cache's result on the views. -/
inductive Agrees {α : Type} : EStateM.Result Abort (Cache κ ν) α → EStateM.Result Abort (Plain κ ν) α → Prop
  | ok (a : α) {c : Cache κ ν} : c.Steady → Agrees (.ok a c) (.ok a c.view)
  | error (e : Abort) {c : Cache κ ν} : c.Steady → Agrees (.error e c) (.error e c.view)

/-! ## Tasks -/

theorem refuse_agrees {c : Cache κ ν} (h : c.Steady) (refusal : OnRefusal) (e : ArenaError) :
    Agrees (Cache.refuse refusal e c) (c.view.refuse refusal e) := by
  cases refusal with
  | abort => exact .error _ h
  | report => exact .ok _ h

theorem hasRoom_view {c : Cache κ ν} (h : c.Consistent) : c.view.hasRoom = c.hasRoom := by
  simp only [Plain.hasRoom, Cache.hasRoom, UInt64.lt_iff_toNat_lt, h.size_eq]
  rfl

/-- The end of a store. -/
theorem enter_agrees {c : Cache κ ν} (h : c.Steady) {k : κ} (hk : c.node? k = none) (value : ν)
    (deadline : Option Instant) (refusal : OnRefusal) (reply : Reply κ ν) :
    Agrees
      ((do match ← Cache.enter k value deadline with
           | .error e => Cache.refuse refusal e
           | .ok () => return .done reply : Action κ ν (Progress κ ν)) c)
      (match c.view.enter k value deadline with
       | .error e => c.view.refuse refusal e
       | .ok p => .ok (.done reply) p) := by
  have he := enter_steady h hk value deadline
  simp only [bind_apply]
  cases hp : c.view.enter k value deadline with
  | error e =>
    rw [hp] at he
    simp only [he]
    exact refuse_agrees h refusal e
  | ok p =>
    rw [hp] at he
    obtain ⟨d, hd, hs, rfl⟩ := he
    simp only [hd]
    exact .ok _ hs

/-- A store that did not find its key. -/
theorem makeRoom_agrees {c : Cache κ ν} (h : c.Steady) {finish : Action κ ν (Progress κ ν)}
    {finish' : Plain κ ν → Plain.Result κ ν} (hf : Agrees (finish c) (finish' c.view)) (task : Task κ ν) :
    Agrees
      ((do if (← get).hasRoom then finish
           else match ← evict with
             | none => finish
             | some victim => return .release victim task : Action κ ν (Progress κ ν)) c)
      (if c.view.hasRoom then finish' c.view
       else match c.view.evict? with
         | none => finish' c.view
         | some (victim, p) => .ok (.release (some victim) task) p) := by
  simp only [bind_apply, get_apply, hasRoom_view h.toConsistent]
  cases hr : c.hasRoom with
  | true => exact hf
  | false =>
    have he := evict_steady h
    simp only [Bool.false_eq_true, if_false, bind_apply]
    cases hp : c.view.evict? with
    | none =>
      rw [hp] at he
      simp only [he]
      exact hf
    | some r =>
      rw [hp] at he
      obtain ⟨d, hd, hs, hv⟩ := he
      simp only [hd, ← hv]
      exact .ok _ hs

theorem finishPut_agrees {c : Cache κ ν} (h : c.Steady) {k : κ} (hk : c.node? k = none) (value : ν)
    (deadline : Option Instant) (refusal : OnRefusal) :
    Agrees (Cache.finishPut k value deadline refusal c) (c.view.finishPut k value deadline refusal) :=
  enter_agrees h hk value deadline refusal (stored refusal)

theorem resumePut_agrees {c : Cache κ ν} (h : c.Steady) (k : κ) (value : ν) (deadline : Option Instant)
    (refusal : OnRefusal) :
    Agrees (Cache.resumePut k value deadline refusal c) (c.view.resumePut k value deadline refusal) := by
  simp only [Cache.resumePut, bind_apply, locate_steady h, Plain.resumePut, find?_view]
  cases hn : c.node? k with
  | some p =>
    obtain ⟨d, hd, hs, hv⟩ := overwrite_steady h (node?_eq_some hn).1 value deadline
    simp only [bind_apply, hd, Option.map_some, ← hv]
    exact .ok _ hs
  | none => exact makeRoom_agrees h (finishPut_agrees h hn value deadline refusal) _

theorem finishGetOrPut_agrees {c : Cache κ ν} (h : c.Steady) {k : κ} (hk : c.node? k = none) (value : ν)
    (ttl : Duration) (refusal : OnRefusal) :
    Agrees (Cache.finishGetOrPut k value ttl refusal c) (c.view.finishGetOrPut k value ttl refusal) :=
  enter_agrees (h.count .getMiss) hk value (c.clock.deadline ttl) refusal (.got value false)

theorem resumeGetOrPut_agrees {c : Cache κ ν} (h : c.Steady) (k : κ) (value : ν) (ttl : Duration)
    (refusal : OnRefusal) :
    Agrees (Cache.resumeGetOrPut k value ttl refusal c) (c.view.resumeGetOrPut k value ttl refusal) := by
  simp only [Cache.resumeGetOrPut, bind_apply, locate_steady h, Plain.resumeGetOrPut, find?_view]
  cases hn : c.node? k with
  | some p =>
    obtain ⟨id, e⟩ := p
    have hm := (node?_eq_some hn).1
    have hnow : c.view.now = c.now := rfl
    simp only [bind_apply, get_apply, Option.map_some, hnow]
    cases e.expired c.now with
    | true =>
      obtain ⟨d, hd, hs, hv, -⟩ := detach_steady h hm .expired
      simp only [if_true, bind_apply, hd, Option.isSome_some, count, modify_apply, pure_apply, ← hv]
      exact .ok _ (hs.count _)
    | false =>
      obtain ⟨d, hd, hs, hv⟩ := promote_steady h hm
      simp only [Bool.false_eq_true, if_false, bind_apply, hd, count, modify_apply, pure_apply, ← hv]
      exact .ok _ (hs.count _)
  | none => exact makeRoom_agrees h (finishGetOrPut_agrees h hn value ttl refusal) _

theorem resumeShrink_agrees {c : Cache κ ν} (h : c.Steady) (bound : UInt64) (dropped : Nat) :
    Agrees (Cache.resumeShrink bound dropped c) (c.view.resumeShrink bound dropped) := by
  have hover : c.view.bound.toNat < c.view.entries.length ↔ c.bound < c.size := by
    rw [UInt64.lt_iff_toNat_lt, h.size_eq]
    rfl
  simp only [Cache.resumeShrink, bind_apply, get_apply, Plain.resumeShrink, hover]
  by_cases hb : c.bound < c.size
  · have he := evict_steady h
    simp only [hb, if_true, bind_apply]
    cases hp : c.view.evict? with
    | none =>
      rw [hp] at he
      simp only [he, bind_apply, note, Cache.record, modify_apply, pure_apply]
      exact .ok _ (h.record _)
    | some r =>
      rw [hp] at he
      obtain ⟨d, hd, hs, hv⟩ := he
      simp only [hd, ← hv]
      exact .ok _ hs
  · simp only [hb, if_false, bind_apply, note, Cache.record, modify_apply, pure_apply]
    exact .ok _ (h.record _)

theorem resume_agrees {c : Cache κ ν} (h : c.Steady) (task : Task κ ν) :
    Agrees (Cache.resume task c) (c.view.resume task) := by
  cases task with
  | put k value deadline refusal => exact resumePut_agrees h k value deadline refusal
  | getOrPut k value ttl refusal => exact resumeGetOrPut_agrees h k value ttl refusal
  | shrink bound dropped => exact resumeShrink_agrees h bound dropped
  | notify victims ending reply =>
    cases victims with
    | cons victim victims => exact .ok _ h
    | nil =>
      cases ending with
      | none => exact .ok _ h
      | some n => exact .ok _ (h.record _)

/-! ## Operations -/

theorem read_agrees {c : Cache κ ν} (h : c.Steady) (k : κ) (touch : Bool) :
    Agrees (Cache.read k touch c) (c.view.read k touch) := by
  simp only [Cache.read, bind_apply, load_steady h, Plain.read, find?_view]
  cases hn : c.node? k with
  | none => exact .ok _ (h.count _)
  | some p =>
    obtain ⟨id, e⟩ := p
    have hm := (node?_eq_some hn).1
    have hnow : c.view.now = c.now := rfl
    simp only [Option.map_some, Option.isNone_some, Bool.false_eq_true, if_false, bind_apply, locate_steady h, hn,
      get_apply, hnow]
    cases e.expired c.now with
    | true =>
      obtain ⟨d, hd, hs, hv, -⟩ := detach_steady h hm .expired
      simp only [if_true, bind_apply, hd, Option.isSome_some, count, note, Cache.record, modify_apply, pure_apply, ← hv]
      exact .ok _ (hs.congr rfl rfl rfl rfl rfl)
    | false =>
      cases touch with
      | true =>
        obtain ⟨d, hd, hs, hv⟩ := promote_steady h hm
        simp only [Bool.false_eq_true, if_false, if_true, bind_apply, hd, count, modify_apply, pure_apply, ← hv]
        exact .ok _ (hs.count _)
      | false => exact .ok _ (h.count _)

theorem has_agrees {c : Cache κ ν} (h : c.Steady) (k : κ) :
    Cache.has k c = .ok ((c.view.find? k).any fun e => !e.expired c.view.now) c := by
  simp only [Cache.has, bind_apply, load_steady h, find?_view]
  cases hn : c.node? k with
  | none => rfl
  | some p =>
    simp only [Option.map_some, Option.isNone_some, Bool.false_eq_true, if_false, bind_apply, locate_steady h, hn,
      get_apply, pure_apply, Option.any_some]
    rfl

theorem delete_agrees {c : Cache κ ν} (h : c.Steady) (k : κ) : Agrees (Cache.delete k c) (c.view.delete k) := by
  simp only [Cache.delete, bind_apply, load_steady h, Plain.delete, find?_view]
  cases hn : c.node? k with
  | none => exact .ok _ h
  | some p =>
    obtain ⟨id, e⟩ := p
    obtain ⟨d, hd, hs, hv, -⟩ := detach_steady h (node?_eq_some hn).1 .deleted
    simp only [Option.map_some, Option.isNone_some, Bool.false_eq_true, if_false, bind_apply, locate_steady h, hn, hd,
      count, modify_apply, pure_apply, ← hv]
    exact .ok _ (hs.count _)

theorem purge_agrees {c : Cache κ ν} (h : c.Steady) : Agrees (Cache.purge c) c.view.purge := by
  have hm : ∀ p ∈ c.chain.entries.filter fun p => p.2.expired c.now, p ∈ c.chain.entries := fun p hp =>
    (List.mem_filter.mp hp).1
  have hn := h.chain.ids_nodup.sublist ((List.filter_sublist (p := fun p => p.2.expired c.now)).map _)
  have hv : (c.chain.entries.filter fun p => p.2.expired c.now).map (·.2) =
      c.view.entries.filter (·.expired c.view.now) := by
    show _ = c.entries.filter _
    rw [entries, Chain.values, List.filter_map]
    rfl
  obtain ⟨d, hd, hs, hd', -⟩ := reap_steady h hm hn
  rw [hv] at hd hd'
  simp only [Cache.purge, bind_apply, get_apply, hd, Plain.purge, ← hd']
  exact resume_agrees hs _

theorem clear_agrees {c : Cache κ ν} (h : c.Steady) : Agrees (Cache.clear c) c.view.clear := by
  obtain ⟨d, hd, hs, hv⟩ := dropAll_steady h
  simp only [Cache.clear, bind_apply, get_apply, hd, count, modify_apply, Plain.clear, h.size_view, ← hv]
  exact resume_agrees (hs.count _) _

theorem withSnapshot_agrees {c : Cache κ ν} (h : c.Steady) (f : Snapshot → Reply κ ν) :
    Agrees ((Cache.snapshot >>= fun s => pure (.done (f s))) c) (c.view.withSnapshot f) := by
  have hsnap : c.view.snapshot? = c.counters.snapshot? c.size c.bound := by
    rw [Plain.snapshot?, h.size_view]
    rfl
  simp only [Cache.snapshot, bind_apply, get_apply, Plain.withSnapshot, hsnap]
  cases c.counters.snapshot? c.size c.bound with
  | none => exact .error _ h
  | some s => exact .ok _ h

/-- What a look at the index tells; nothing without a shared index. -/
def glance (c : Cache κ ν) (op : Index.Op κ) : Reply κ ν :=
  if c.sharesIndex then .index (c.index.apply op).1 else .unit

theorem apply_of_not_edits (x : Index κ) {op : Index.Op κ} (h : op.edits = false) : (x.apply op).2 = x := by
  cases op with
  | load k => rfl
  | isEmpty => rfl
  | store k id => cases h
  | delete k => cases h
  | compute k rule => cases h
  | clear => cases h

theorem effectiveBound_pos (asked : UInt64) : 0 < (effectiveBound asked).toNat := by
  unfold effectiveBound
  split
  · decide
  · rename_i hne
    exact Nat.pos_of_ne_zero fun e => hne (UInt64.toNat_inj.mp e)

theorem setBound_steady {c : Cache κ ν} (h : c.Steady) (asked : UInt64) :
    ∃ d, Cache.setBound asked c = .ok () d ∧ d.Steady ∧ d.view = c.view.setBound asked := by
  have hpos := effectiveBound_pos asked
  by_cases e : asked = 0
  · subst e
    exact ⟨_, rfl, ⟨⟨h.chain, h.keys_nodup, h.index_iff, h.size_eq⟩, h.failing, hpos⟩, rfl⟩
  · simp only [Cache.setBound, Plain.setBound, e, if_false]
    exact ⟨_, rfl, ⟨⟨h.chain, h.keys_nodup, h.index_iff, h.size_eq⟩, h.failing, hpos⟩, rfl⟩

theorem start_agrees {c : Cache κ ν} (h : c.Steady) {op : Op κ ν} (hq : op.quiet = true) :
    Agrees (Cache.start op c) (Plain.start c.glance op c.view) := by
  cases op with
  | put k value ttl refusal => exact resumePut_agrees h k value _ refusal
  | getOrPut k value ttl refusal => exact resumeGetOrPut_agrees h k value ttl refusal
  | get k => exact read_agrees h k true
  | peek k => exact read_agrees h k false
  | has k =>
    simp only [Cache.start, bind_apply, has_agrees h, Plain.start]
    exact .ok _ h
  | delete k => exact delete_agrees h k
  | resize asked =>
    obtain ⟨d, hd, hs, hv⟩ := setBound_steady h asked
    simp only [Cache.start, bind_apply, hd, Plain.start, ← hv]
    exact resumeShrink_agrees hs _ 0
  | purge => exact purge_agrees h
  | clear => exact clear_agrees h
  | keys => exact .ok _ h
  | values => exact .ok _ h
  | visit stopAfter => exact .ok _ h
  | length =>
    simp only [Cache.start, bind_apply, get_apply, h.size_eq]
    exact .ok _ h
  | bound => exact .ok _ h
  | isEmpty =>
    have he : c.view.entries.isEmpty = decide (c.size = 0) := by
      rw [Bool.eq_iff_iff, List.isEmpty_iff, decide_eq_true_iff, ← UInt64.toNat_inj, h.size_eq]
      exact List.length_eq_zero_iff.symm
    simp only [Cache.start, Plain.start, bind_apply, get_apply, he]
    exact .ok _ h
  | defaultTtl => exact .ok _ h
  | check =>
    simp only [Cache.start, Plain.start, bind_apply, check_steady h, Plain.check, h.size_view]
    by_cases hb : c.bound < c.size
    · have hb' : c.view.bound < c.size := hb
      simp only [hb, hb', if_true]
      exact .ok _ h
    · have hb' : ¬ c.view.bound < c.size := hb
      simp only [hb, hb', if_false]
      exact .ok _ h
  | inspect layout =>
    have hi : c.view.inspect layout = c.inspect layout := by
      simp only [Plain.inspect, Cache.inspect, h.size_view]
      rfl
    simp only [Cache.start, Plain.start, hi]
    exact .ok _ h
  | metrics => exact withSnapshot_agrees h _
  | snapshot => exact withSnapshot_agrees h _
  | expose family limit => exact withSnapshot_agrees h _
  | advance step => exact .ok _ (h.congr rfl rfl rfl rfl rfl)
  | elapsed => exact .ok _ h
  | abort message => exact .error _ h
  | memory memory => exact .ok _ (h.congr rfl rfl rfl rfl rfl)
  | index op =>
    simp only [Cache.start, Plain.start, bind_apply, get_apply, glance]
    by_cases hs : c.sharesIndex = true
    · have hi : (c.index.apply op).2 = c.index := apply_of_not_edits c.index (by simpa [Op.quiet] using hq)
      rw [if_pos hs, if_pos hs]
      simp only [bind_apply, modify_apply, pure_apply, hi]
      exact .ok _ h
    · rw [if_neg hs, if_neg hs]
      exact .ok _ h
  | failIndex failure =>
    cases failure with
    | some _ => cases hq
    | none =>
      have hf : ∀ c : Cache κ ν, (if c.sharesIndex then none else none : Option Index.Failure) = none := fun c => by
        split <;> rfl
      simp only [Cache.start, Cache.failIndex, bind_apply, modify_apply, hf]
      exact .ok _ (h.congr rfl rfl rfl h.failing.symm rfl)

theorem build_steady (s : Settings) :
    (s.build : Cache κ ν).Steady ∧ (s.build : Cache κ ν).view = Plain.ofSettings s := by
  obtain ⟨hwf, hent⟩ :=
    Chain.wellFormed_withCapacity (α := Entry κ ν) (min s.initialCapacity (effectiveBound s.bound).toNat)
  refine ⟨⟨⟨hwf, List.nodup_nil, fun k id => ?_, rfl⟩, rfl, effectiveBound_pos s.bound⟩, rfl⟩
  have hent' : (s.build : Cache κ ν).chain.entries = [] := hent
  rw [hent']
  simp [Settings.build, Index.get?_empty]

end Cache

end Recency
