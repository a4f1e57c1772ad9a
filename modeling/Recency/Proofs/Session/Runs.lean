import Recency.Session
/-
  Recency.Proofs.Session.Runs — the runs of a machine.

  A run begins with nothing under way. From there operations are begun, one when the one
  before it is over, and the machine takes its steps. `Reach` holds of every machine that
  occurs in such a run, between two steps: also of those at which a callback has just been
  called, and of those left by an abort.

  `Upholds P` says that all that a callback may still do is of the kind `P`. It is kept by
  every step, whatever the engine (`upholds_step`).
-/

namespace Recency

/-! ## Kinds of operations -/

def Index.Op.edits {κ : Type} : Index.Op κ → Bool
  | .load _ | .isEmpty => false
  | .store _ _ | .delete _ | .compute _ _ | .clear => true

/-- Neither edits a shared index behind the cache's back nor makes a step of it fail. -/
def Op.quiet {κ ν : Type} : Op κ ν → Bool
  | .index op => !op.edits
  | .failIndex (some _) => false
  | _ => true

variable {σ κ ν : Type} [DecidableEq κ]

/-! ## What callbacks have yet to do -/

/-- The operations left of the callbacks under way. -/
def Control.pending : Control κ ν → List (Op κ ν)
  | .running _ below => below.flatMap (·.ops)
  | .reacting ops _ below => ops ++ below.flatMap (·.ops)
  | .finished _ => []

structure Machine.Upholds (P : Op κ ν → Prop) (m : Machine σ κ ν) : Prop where
  pending : ∀ op ∈ m.control.pending, P op
  reactions : ∀ r ∈ m.reactions, ∀ op ∈ r.ops, P op

omit [DecidableEq κ] in
theorem Machine.Upholds.mono {P Q : Op κ ν → Prop} {m : Machine σ κ ν} (h : m.Upholds P) (hPQ : ∀ op, P op → Q op) :
    m.Upholds Q :=
  ⟨fun op hop => hPQ op (h.pending op hop), fun r hr op hop => hPQ op (h.reactions r hr op hop)⟩

theorem react_upholds {P : Op κ ν → Prop} (k : κ) {rs : List (Reaction κ ν)} (h : ∀ r ∈ rs, ∀ op ∈ r.ops, P op) :
    (∀ op ∈ (react k rs).1, P op) ∧ ∀ r ∈ (react k rs).2, ∀ op ∈ r.ops, P op := by
  induction rs with
  | nil => exact ⟨fun _ hop => (nomatch hop), h⟩
  | cons r rs ih =>
    have hr := h r (by simp)
    have hrs : ∀ r ∈ rs, ∀ op ∈ r.ops, P op := fun r' h' => h r' (by simp [h'])
    simp only [react]
    split
    · refine ⟨hr, fun r' h' => ?_⟩
      rcases List.mem_cons.mp h' with rfl | h'
      · exact hr
      · exact hrs r' h'
    · refine ⟨(ih hrs).1, fun r' h' => ?_⟩
      rcases List.mem_cons.mp h' with rfl | h'
      · exact hr
      · exact (ih hrs).2 r' h'

/-- What is reached satisfies `I`, also by an abort. -/
def Engine.Keeps {σ κ ν : Type} (I : σ → Prop) : EStateM.Result Abort σ (Progress κ ν) → Prop
  | .ok _ s => I s
  | .error _ s => I s

namespace Machine

variable (E : Engine σ κ ν) {P : Op κ ν → Prop}

theorem upholds_settle (op : Op κ ν) {below : List (Waiting κ ν)} {reactions : List (Reaction κ ν)}
    (hb : ∀ op ∈ below.flatMap (·.ops), P op) (hr : ∀ r ∈ reactions, ∀ op ∈ r.ops, P op)
    (r : EStateM.Result Abort σ (Progress κ ν)) : (settle E op below reactions r).Upholds P := by
  cases r with
  | error a s => exact ⟨fun _ h => (nomatch h), hr⟩
  | ok progress s =>
    cases progress with
    | done reply =>
      cases below with
      | nil => exact ⟨fun _ h => (nomatch h), hr⟩
      | cons w below => exact ⟨hb, hr⟩
    | release victim task =>
      cases victim with
      | none => exact ⟨hb, hr⟩
      | some e =>
        simp only [settle, notify]
        split
        · obtain ⟨h1, h2⟩ := react_upholds e.key hr
          refine ⟨fun op hop => ?_, h2⟩
          rcases List.mem_append.mp hop with hop | hop
          · exact h1 op hop
          · exact hb op hop
        · exact ⟨hb, hr⟩

theorem upholds_step {m : Machine σ κ ν} (h : m.Upholds P) : (step E m).Upholds P := by
  obtain ⟨⟨s, reactions⟩, control⟩ := m
  obtain ⟨hp, hr⟩ := h
  cases control with
  | running call below => exact upholds_settle E call.op hp hr _
  | reacting ops call below =>
    cases ops with
    | nil => exact ⟨hp, hr⟩
    | cons op ops =>
      refine upholds_settle E op (fun op' h' => hp op' ?_) hr _
      rw [List.flatMap_cons] at h'
      exact List.mem_cons_of_mem op h'
  | finished o => exact ⟨hp, hr⟩

theorem upholds_start {s : Session σ κ ν} (hr : ∀ r ∈ s.reactions, ∀ op ∈ r.ops, P op) (op : Op κ ν) :
    (start E op s).Upholds P :=
  upholds_settle E op (fun _ h => (nomatch h)) hr _

/-! ## What holds of the cache -/

section Kept

variable {E} {I : σ → Prop}

theorem settle_keeps (hrec : ∀ e s, I s → I (E.record e s)) (op : Op κ ν) (below : List (Waiting κ ν))
    (reactions : List (Reaction κ ν)) {r : EStateM.Result Abort σ (Progress κ ν)} (h : Engine.Keeps I r) :
    I (settle E op below reactions r).cache := by
  cases r with
  | error a s => exact h
  | ok progress s =>
    cases progress with
    | done reply =>
      cases below with
      | nil => exact h
      | cons w below => exact hrec _ _ h
    | release victim task =>
      cases victim with
      | none => exact h
      | some e =>
        simp only [settle, notify]
        split
        · exact hrec _ _ h
        · exact h

theorem step_keeps (hrec : ∀ e s, I s → I (E.record e s)) (hresume : ∀ task s, I s → Engine.Keeps I (E.resume task s))
    (hstart : ∀ op s, P op → I s → Engine.Keeps I (E.start op s)) {m : Machine σ κ ν} (hu : m.Upholds P)
    (h : I m.cache) : I (step E m).cache := by
  obtain ⟨⟨s, reactions⟩, control⟩ := m
  cases control with
  | running call below => exact settle_keeps hrec call.op below reactions (hresume _ _ h)
  | reacting ops call below =>
    cases ops with
    | nil => exact h
    | cons op ops =>
      have hop : P op := hu.pending op (by simp [Control.pending])
      exact settle_keeps hrec op (⟨call, ops⟩ :: below) reactions (hstart op s hop h)
  | finished o => exact h

end Kept

/-! ## Runs -/

/-- Nothing is under way, and nothing has been yet. -/
def idle (s : Session σ κ ν) : Machine σ κ ν := { s with control := .finished (.returned .unit) }

/-- The machines of the runs from `s` that begin only operations of the kind `P` and step
    only where `A` holds. -/
inductive Reach (P : Op κ ν → Prop) (A : Machine σ κ ν → Prop) (s : Session σ κ ν) : Machine σ κ ν → Prop
  | idle : Reach P A s (idle s)
  | start {m : Machine σ κ ν} {o : Outcome κ ν} (op : Op κ ν) :
      Reach P A s m → m.control = .finished o → P op → Reach P A s (start E op m.toSession)
  | step {m : Machine σ κ ν} : Reach P A s m → A m → Reach P A s (step E m)

variable {E} {A : Machine σ κ ν → Prop} {s : Session σ κ ν}

theorem Reach.upholds {m : Machine σ κ ν} (h : Reach E P A s m) (hs : ∀ r ∈ s.reactions, ∀ op ∈ r.ops, P op) :
    m.Upholds P := by
  induction h with
  | idle => exact ⟨fun _ h => (nomatch h), hs⟩
  | start op _ _ _ ih => exact upholds_start E ih.reactions op
  | step _ _ ih => exact upholds_step E ih

theorem Reach.keeps {I : σ → Prop} (hrec : ∀ e s, I s → I (E.record e s))
    (hresume : ∀ task s, I s → Engine.Keeps I (E.resume task s))
    (hstart : ∀ op s, P op → I s → Engine.Keeps I (E.start op s)) {m : Machine σ κ ν} (h : Reach E P A s m)
    (hs : ∀ r ∈ s.reactions, ∀ op ∈ r.ops, P op) (hI : I s.cache) : I m.cache := by
  induction h with
  | idle => exact hI
  | start op _ _ hP ih => exact settle_keeps hrec op [] _ (hstart op _ hP ih)
  | step hm _ ih => exact step_keeps hrec hresume hstart (hm.upholds hs) ih

theorem Reach.run {m : Machine σ κ ν} (h : Reach E P A s m) (n : Nat) (hA : ∀ k < n, A (m.run E k)) :
    Reach E P A s (m.run E n) := by
  induction n generalizing m with
  | zero => exact h
  | succ n ih =>
    have hm := hA 0 (by omega)
    unfold Machine.run
    split
    · exact h
    · rename_i hc
      refine ih (.step h hm) fun k hk => ?_
      have := hA (k + 1) (by omega)
      unfold Machine.run at this
      split at this
      · rename_i hc'
        exact absurd hc' (hc _)
      · exact this

end Machine

/-! ## One operation after the other -/

/-- Carries out operations in turn; the answers, and the session left. -/
def Session.performAll (E : Engine σ κ ν) : List (Op κ ν) → Session σ κ ν → List (Outcome κ ν) × Session σ κ ν
  | [], s => ([], s)
  | op :: ops, s =>
    let (outcome, s) := s.perform E op
    let (outcomes, s) := performAll E ops s
    (outcome :: outcomes, s)

end Recency
