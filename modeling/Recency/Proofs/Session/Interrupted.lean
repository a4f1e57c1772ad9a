import Recency.Proofs.Session.Capacity
import Recency.Proofs.Session.Effects
import Recency.Proofs.Session.Forms
/-
  Recency.Proofs.Session.Interrupted — what an abort leaves of the bound.

  A callback that aborts takes with it all that waits for it. A store that waits has made
  room and stores nothing, and whatever reads, reaps or clears has dropped its entries
  before it calls. Only a resize has work left when it calls: its bound is in force, and the
  entries beyond that are yet to be dropped. If it goes down with the callback they stay,
  and the cache is over its bound with nothing under way (`resize_undone`).

  That is the only way. Up to the abort the run is orderly, so the cache is within its bound
  or a resize is under way (`Capped`), and the piece that aborts leaves as many entries and
  the bound that it found (`step_aborted`). So the bound is broken exactly if a resize was
  `Shrinking` when the abort came.
-/

namespace Recency

variable {κ ν : Type}

theorem Op.calm_of_quiet {op : Op κ ν} (h : op.quiet = true) : op.calm = true := by
  cases op with
  | failIndex step => cases step with
    | none => rfl
    | some step => cases h
  | _ => rfl

theorem Engine.Keeps.and {σ : Type} {I J : σ → Prop} {r : EStateM.Result Abort σ (Progress κ ν)}
    (hI : Engine.Keeps I r) (hJ : Engine.Keeps J r) : Engine.Keeps (fun s => I s ∧ J s) r := by
  cases r with
  | ok progress s => exact ⟨hI, hJ⟩
  | error a s => exact ⟨hI, hJ⟩

namespace Cache

theorem Sound.record {c : Cache κ ν} (h : c.Sound) (e : Event κ ν) : Sound { c with journal := e :: c.journal } :=
  ⟨h.chain, h.size_eq, h.failing, h.bound_pos⟩

theorem Moves.aborted {c d : Cache κ ν} {pending : List (Entry κ ν)} {a : Abort} (h : Moves c pending (.error a d))
    (hc : c.Sound) : d.size = c.size ∧ d.bound = c.bound := by
  cases h with
  | breaks _ h =>
    have hd := h.2 hc.failing
    have hlen : c.entries.length = d.entries.length := hd.entries.length_eq
    have hsize : d.size.toNat = c.size.toNat := by rw [hd.size_eq hc.size_eq, hc.size_eq, hlen]
    exact ⟨UInt64.toNat_inj.mp hsize, hd.bound⟩

variable [DecidableEq κ] {c d : Cache κ ν} {op : Op κ ν}

/-- An operation that aborts at once has changed neither size nor bound. -/
theorem start_aborted (hc : c.Sound) (hop : op.calm = true) {a : Abort} (h : Cache.start op c = .error a d) :
    d.size = c.size ∧ d.bound = c.bound := by
  have hm := start_moves hc.chain op
  rw [h] at hm
  have hsame := hm.aborted (hc.primed hop)
  cases op with
  | resize asked =>
    -- it would have changed the bound, but it never aborts
    have hprimed : (c.primed (.resize asked)).Sound := hc.primed rfl
    have hs := shrink_settles hprimed (effectiveBound asked) 0
    rw [← resize_eq, h] at hs
    exact hs.elim
  | _ => exact hsame

theorem start_within (hc : c.Sound) (hop : op.calm = true) (hr : op.resizes = false) (hb : c.size ≤ c.bound) :
    Engine.Keeps (fun d : Cache κ ν => d.size ≤ d.bound) (Cache.start op c) := by
  have hm := (start_moves hc.chain op).within (hc.primed hop)
  cases op with
  | resize asked => cases hr
  | _ => exact hm hb

end Cache

namespace Machine

variable [DecidableEq κ]

/-! ## The step that aborts -/

theorem settle_aborted {σ : Type} {E : Engine σ κ ν} {op : Op κ ν} {below : List (Waiting κ ν)}
    {reactions : List (Reaction κ ν)} {r : EStateM.Result Abort σ (Progress κ ν)} {a : Abort}
    (h : (settle E op below reactions r).control = .finished (.aborted a)) :
    ∃ s, r = .error a s ∧ (settle E op below reactions r).cache = s := by
  cases r with
  | error a' s =>
    cases h
    exact ⟨s, rfl, rfl⟩
  | ok progress s =>
    cases progress with
    | done reply => cases below <;> cases h
    | release victim task =>
      cases victim with
      | none => cases h
      | some e =>
        simp only [settle, notify] at h
        split at h <;> cases h

omit [DecidableEq κ] in
theorem aborted_iff {control : Control κ ν} : control.aborted = true ↔ ∃ a, control = .finished (.aborted a) := by
  constructor
  · intro h
    unfold Control.aborted at h
    split at h
    · exact ⟨_, rfl⟩
    · cases h
  · rintro ⟨a, rfl⟩
    rfl

theorem step_aborted {m : Machine (Cache κ ν) κ ν} (hc : m.cache.Sound) (hu : m.Upholds fun op => op.calm = true)
    {a : Abort} (h : (step Cache.engine m).control = .finished (.aborted a)) :
    (step Cache.engine m).cache.size = m.cache.size ∧ (step Cache.engine m).cache.bound = m.cache.bound := by
  obtain ⟨⟨c, reactions⟩, control⟩ := m
  cases control with
  | running call below =>
    obtain ⟨d, hd, hleft⟩ := settle_aborted (E := Cache.engine) h
    have hm := Cache.resume_moves hc.chain call.task
    rw [show Cache.resume call.task c = .error a d from hd] at hm
    have hsame := hm.aborted hc
    rwa [← hleft] at hsame
  | reacting ops call below =>
    cases ops with
    | nil => cases h
    | cons op ops =>
      obtain ⟨d, hd, hleft⟩ := settle_aborted (E := Cache.engine) h
      have hsame := Cache.start_aborted hc (hu.pending op (by simp [Control.pending])) hd
      rwa [← hleft] at hsame
  | finished o => exact ⟨rfl, rfl⟩

/-! ## The run up to it -/

/-- A resize is under way and has yet to drop entries. -/
def Shrinking (m : Machine (Cache κ ν) κ ν) : Prop :=
  (∃ t ∈ m.control.tasks, t.shrinks = true) ∧ m.cache.bound < m.cache.size

omit [DecidableEq κ] in
theorem capped_iff {m : Machine (Cache κ ν) κ ν} :
    m.cache.Capped m.control.tasks ↔ m.cache.size ≤ m.cache.bound ∨ m.Shrinking := by
  by_cases hb : m.cache.size ≤ m.cache.bound
  · exact iff_of_true (.inl hb) (.inl hb)
  · exact or_congr_right (and_iff_left (UInt64.not_le.mp hb)).symm

variable {s : Session (Cache κ ν) κ ν} {op : Op κ ν}

/-- What every piece keeps holds all along an operation. -/
theorem begun_keeps {σ : Type} {E : Engine σ κ ν} {P : Op κ ν → Prop} {I : σ → Prop} {s : Session σ κ ν} {op : Op κ ν}
    (hrec : ∀ e s, I s → I (E.record e s)) (hresume : ∀ task s, I s → Engine.Keeps I (E.resume task s))
    (hstart : ∀ op s, P op → I s → Engine.Keeps I (E.start op s)) (hrs : ∀ r ∈ s.reactions, ∀ op ∈ r.ops, P op)
    (hop : P op) (hI : I s.cache) (n : Nat) :
    I ((start E op s).run E n).cache ∧ ((start E op s).run E n).Upholds P := by
  have hbegun : Reach E P (fun _ => True) s (start E op s) := .start op .idle rfl hop
  have hrun := hbegun.run n fun _ _ => trivial
  exact ⟨hrun.keeps hrec hresume hstart hrs hI, hrun.upholds hrs⟩

theorem run_sound (hs : s.cache.Sound) (hrs : ∀ r ∈ s.reactions, ∀ op ∈ r.ops, op.calm = true)
    (hop : op.calm = true) (n : Nat) :
    ((start Cache.engine op s).run Cache.engine n).cache.Sound ∧
      ((start Cache.engine op s).run Cache.engine n).Upholds fun op => op.calm = true :=
  begun_keeps (I := Cache.Sound) (fun e _ h => h.record e)
    (fun task _ h => (Cache.resume_moves h.chain task).sound h)
    (fun op _ hop h => (Cache.start_moves h.chain op).sound (h.primed hop)) hrs hop hs n

/-- From a cache within its bound, an operation keeps within the bound, or a resize is under way,
    or one was when an abort came. -/
theorem run_bound (hs : s.cache.Sound) (hin : s.cache.size ≤ s.cache.bound)
    (hrs : ∀ r ∈ s.reactions, ∀ op ∈ r.ops, op.calm = true) (hop : op.calm = true) (n : Nat) :
    let begun := start Cache.engine op s
    ((begun.run Cache.engine n).cache.size ≤ (begun.run Cache.engine n).cache.bound ∨
        (begun.run Cache.engine n).Shrinking) ∨
      ∃ k a, (begun.run Cache.engine k).Shrinking ∧
        (begun.run Cache.engine (k + 1)).control = .finished (.aborted a) := by
  intro begun
  induction n with
  | zero =>
    have hlasts : Cache.engine.Lasts Cache.Capped [] (Cache.start op s.cache) := Cache.start_capped hs hop (.inl hin)
    have hcapped : begun.cache.Capped begun.control.tasks :=
      settle_lasts (fun _ _ _ _ h => h) op [] s.reactions (fun hne => absurd rfl hne) hlasts
    exact .inl (capped_iff.mp hcapped)
  | succ n ih =>
    rcases ih with ih | hearlier
    case inr => exact .inr hearlier
    obtain ⟨hsound, hu⟩ := run_sound hs hrs hop n
    cases hab : (begun.run Cache.engine (n + 1)).control.aborted with
    | false =>
      rw [run_succ] at hab ⊢
      refine .inl (capped_iff.mp ?_)
      exact step_lasts (I := Cache.Sound) (fun _ _ _ _ h => h) (fun task ts c hc h => Cache.resume_capped hc h)
        (fun op ts c hop hc h => Cache.start_capped hc hop h) hu hsound (fun _ => hab) (capped_iff.mpr ih)
    | true =>
      obtain ⟨a, ha⟩ := aborted_iff.mp hab
      rcases ih with hb | hshrinking
      · rw [run_succ] at ha ⊢
        obtain ⟨hsize, hbound⟩ := step_aborted hsound hu ha
        rw [hsize, hbound]
        exact .inl (.inl hb)
      · exact .inr ⟨n, a, hshrinking, ha⟩

/-- A run has one end. -/
theorem run_eq_of_finished {σ : Type} {E : Engine σ κ ν} {m : Machine σ κ ν} {i j : Nat} {o o' : Outcome κ ν}
    (hi : (m.run E i).control = .finished o) (hj : (m.run E j).control = .finished o') : m.run E i = m.run E j := by
  rw [← run_beyond hi j, ← run_beyond hj i, Nat.add_comm]

end Machine

/-! ## After the abort -/

namespace Session

variable [DecidableEq κ] {s : Session (Cache κ ν) κ ν} {op : Op κ ν} {a : Abort}

theorem over_bound_iff (hs : s.cache.Sound) (hin : s.cache.size ≤ s.cache.bound)
    (hrs : ∀ r ∈ s.reactions, ∀ op ∈ r.ops, op.calm = true) (hop : op.calm = true)
    (ha : (s.perform Cache.engine op).1 = .aborted a) :
    (s.perform Cache.engine op).2.cache.bound < (s.perform Cache.engine op).2.cache.size ↔
      ∃ n, ((Machine.start Cache.engine op s).run Cache.engine n).Shrinking ∧
        ((Machine.start Cache.engine op s).run Cache.engine (n + 1)).control = .finished (.aborted a) := by
  have hover : (s.perform Cache.engine op).1 ≠ .unfinished := by
    rw [ha]
    exact nofun
  obtain ⟨hend, hleft⟩ := perform_eq_run hover 0
  rw [ha] at hend
  generalize (Machine.start Cache.engine op s).potential Cache.engine + 0 = last at hend hleft
  rw [← hleft]
  constructor
  · intro hlt
    rcases Machine.run_bound hs hin hrs hop last with (hb | hshrinking) | ⟨n, a', hshrinking, hn⟩
    · exact absurd hlt (UInt64.not_lt.mpr hb)
    · -- nothing is under way at the end
      obtain ⟨t, ht, -⟩ := hshrinking.1
      rw [hend] at ht
      cases ht
    · have hcontrol := hn.symm.trans ((congrArg Machine.control (Machine.run_eq_of_finished hn hend)).trans hend)
      cases hcontrol
      exact ⟨n, hshrinking, hn⟩
  · rintro ⟨n, ⟨-, hlt⟩, hn⟩
    obtain ⟨hsound, hu⟩ := Machine.run_sound hs hrs hop n
    rw [← Machine.run_eq_of_finished hn hend]
    rw [Machine.run_succ] at hn ⊢
    obtain ⟨hsize, hbound⟩ := Machine.step_aborted hsound hu hn
    rwa [hsize, hbound]

/-- What nobody resizes stays within its bound, whatever is aborted. -/
theorem within_of_no_resize (hs : s.cache.Sound) (hin : s.cache.size ≤ s.cache.bound)
    (hrs : ∀ r ∈ s.reactions, ∀ op ∈ r.ops, op.calm = true ∧ op.resizes = false)
    (hop : op.calm = true ∧ op.resizes = false) :
    (s.perform Cache.engine op).2.cache.size ≤ (s.perform Cache.engine op).2.cache.bound := by
  refine (Machine.begun_keeps (E := Cache.engine) (I := fun c => c.Sound ∧ c.size ≤ c.bound) ?_ ?_ ?_ hrs hop
    ⟨hs, hin⟩ _).1.2
  · exact fun e _ h => ⟨h.1.record e, h.2⟩
  · intro task c h
    have hm := Cache.resume_moves h.1.chain task
    exact (hm.sound h.1).and (hm.within h.1 h.2)
  · intro op c hop h
    exact ((Cache.start_moves h.1.chain op).sound (h.1.primed hop.1)).and (Cache.start_within h.1 hop.1 hop.2 h.2)

theorem perform_steady (hs : s.cache.Steady) (hrs : ∀ r ∈ s.reactions, ∀ op ∈ r.ops, op.quiet = true)
    (hop : op.quiet = true) : (s.perform Cache.engine op).2.cache.Steady :=
  (Machine.begun_keeps (E := Cache.engine) (I := Cache.Steady) (fun e _ h => h.record e)
    (fun task _ h => (Cache.resume_agrees h task).keeps) (fun _ _ hop h => (Cache.start_agrees h hop).keeps) hrs hop hs
    _).1

end Session

namespace Machine

variable [DecidableEq κ] {cfg : Settings} {rs : List (Reaction κ ν)} {m : Machine (Cache κ ν) κ ν}

/-- An operation begins within the bound and is aborted, by itself or by one of its callbacks.
    Then the cache is over its bound exactly if a resize was shrinking it when the abort came; if
    nobody resizes it is not. Nothing else is wrong with it. -/
theorem Reach.bound_after_abort (h : Reach Cache.engine (fun op => op.quiet = true) (fun _ => True) ⟨cfg.build, rs⟩ m)
    (hrs : ∀ r ∈ rs, ∀ op ∈ r.ops, op.quiet = true) (hin : m.cache.size ≤ m.cache.bound)
    (rs' : List (Reaction κ ν)) (hrs' : ∀ r ∈ rs', ∀ op ∈ r.ops, op.quiet = true) (op : Op κ ν)
    (hop : op.quiet = true) (a : Abort) :
    let begun := Machine.start Cache.engine op ⟨m.cache, rs'⟩
    let ended := Session.perform Cache.engine op ⟨m.cache, rs'⟩
    let left := ended.2.cache
    ended.1 = .aborted a →
      (left.bound < left.size ↔
        ∃ n, (begun.run Cache.engine n).Shrinking ∧
          (begun.run Cache.engine (n + 1)).control = .finished (.aborted a)) ∧
        (op.resizes = false → (∀ r ∈ rs', ∀ op ∈ r.ops, op.resizes = false) → left.size ≤ left.bound) ∧
        Cache.check left =
          .ok (if left.bound < left.size then some (.overBound left.size left.bound) else none) left := by
  intro begun ended left habort
  have hc : m.cache.Steady := h.steady hrs
  have hcalm : ∀ r ∈ rs', ∀ op ∈ r.ops, op.calm = true := fun r hr op hop => Op.calm_of_quiet (hrs' r hr op hop)
  have hsteady : left.Steady := Session.perform_steady hc hrs' hop
  refine ⟨Session.over_bound_iff hc.sound hin hcalm (Op.calm_of_quiet hop) habort, fun hr hnone => ?_,
    Cache.check_steady hsteady⟩
  exact Session.within_of_no_resize hc.sound hin (fun r hr op hop => ⟨hcalm r hr op hop, hnone r hr op hop⟩)
    ⟨Op.calm_of_quiet hop, hr⟩

/-- A store makes room; its callback resizes, and the callback of that resize aborts. -/
theorem Reach.bound_after_abort_nested :
    let s : Session (Cache Nat Nat) Nat Nat := ⟨Settings.build ⟨4, .zero, true, none, false, 0⟩, []⟩
    let store (k : Nat) (s : Session (Cache Nat Nat) Nat Nat) : Machine (Cache Nat Nat) Nat Nat :=
      Machine.start Cache.engine (.put k (10 * k) none .abort) s
    let m := store 4 (store 3 (store 2 (store 1 s).toSession).toSession).toSession
    let rs : List (Reaction Nat Nat) := [⟨some 1, 1, [.resize 1]⟩, ⟨some 2, 1, [.abort "stop"]⟩]
    let begun := Machine.start Cache.engine (.put 5 50 none .abort) ⟨m.cache, rs⟩
    let left := (Session.perform Cache.engine (.put 5 50 none .abort) ⟨m.cache, rs⟩).2.cache
    Reach Cache.engine (fun op => op.quiet = true) (fun _ => True) s m ∧ m.cache.size ≤ m.cache.bound ∧
      (∀ r ∈ rs, ∀ op ∈ r.ops, op.quiet = true) ∧
      (Session.perform Cache.engine (.put 5 50 none .abort) ⟨m.cache, rs⟩).1 = .aborted (.raised "stop") ∧
      (∃ n, (begun.run Cache.engine n).Shrinking ∧
        (begun.run Cache.engine (n + 1)).control = .finished (.aborted (.raised "stop"))) ∧
      Cache.check left = .ok (some (.overBound 2 1)) left := by
  intro s store m rs begun left
  have h1 : Reach Cache.engine (fun op => op.quiet = true) (fun _ => True) s (store 1 s) := .start _ .idle rfl rfl
  have hdone : (store 2 (store 1 s).toSession).control = .finished (.returned .unit) ∧
      (store 3 (store 2 (store 1 s).toSession).toSession).control = .finished (.returned .unit) := by decide +kernel
  have hm : Reach Cache.engine (fun op => op.quiet = true) (fun _ => True) s m :=
    .start _ (.start _ (.start _ h1 rfl rfl) hdone.1 rfl) hdone.2 rfl
  have hin : m.cache.size ≤ m.cache.bound := by decide +kernel
  have hrs : ∀ r ∈ rs, ∀ op ∈ r.ops, op.quiet = true := by decide
  have habort : (Session.perform Cache.engine (.put 5 50 none .abort) ⟨m.cache, rs⟩).1 = .aborted (.raised "stop") := by
    decide +kernel
  have hleft : left.size = 2 ∧ left.bound = 1 := by decide +kernel
  have hover : left.bound < left.size := by
    rw [hleft.1, hleft.2]
    decide
  obtain ⟨hiff, -, hcheck⟩ := hm.bound_after_abort (fun _ hr => absurd hr List.not_mem_nil) hin rs hrs
    (.put 5 50 none .abort) rfl (.raised "stop") habort
  refine ⟨hm, hin, hrs, habort, hiff.mp hover, hcheck.trans ?_⟩
  rw [if_pos hover, hleft.1, hleft.2]

/-- The bound is lowered from three to one, and the callback for the first entry that is dropped
    aborts. Two entries stay. -/
theorem resize_undone :
    let cfg : Settings := ⟨3, .zero, true, none, false, 0⟩
    let rs : List (Reaction Nat Nat) := [⟨none, 1, [.abort "stop"]⟩]
    let stores : List (Op Nat Nat) := [.put 1 10 none .abort, .put 2 20 none .abort, .put 3 30 none .abort]
    let full := (Session.performAll Cache.engine stores ⟨cfg.build, rs⟩).2
    let ended := Session.perform Cache.engine (.resize 1) full
    full.cache.size ≤ full.cache.bound ∧ ended.1 = .aborted (.raised "stop") ∧ ended.2.cache.size = 2 ∧
      ended.2.cache.bound = 1 ∧
      (Session.perform Cache.engine .check ended.2).1 = .returned (.faulty (.overBound 2 1)) := by
  decide +kernel

end Machine

end Recency
