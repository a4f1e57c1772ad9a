import Recency.Proofs.Plain.Simulation
/-
  Recency.Proofs.Session.Rounds — every operation ends, and how often its loop goes round.

  Three operations loop: the two stores, which drop one entry after the other until there is
  room, and a resize, which drops until the bound is met. A round is one piece of such an
  operation. A callback may begin other loops meanwhile, refill the cache, let entries expire
  or change the bound; the loop then has more to do than it had.

  Nothing is asked of the cache but a well-formed chain: its index may lead anywhere and its
  size be any number. Still every operation ends (`perform_terminates`), because each round
  but the last takes a node out of the chain and only an operation, of which a callback has
  finitely many, puts one in. For the same reason a loop that no callback disturbs goes
  round at most once more than there are nodes (`rounds_le`).
-/

namespace Recency

variable {σ κ ν : Type} [DecidableEq κ]

/-! ## Loops -/

omit [DecidableEq κ] in
/-- What is left of a loop. -/
def Task.loops : Task κ ν → Bool
  | .put _ _ _ _ | .getOrPut _ _ _ _ | .shrink _ _ => true
  | .notify _ _ _ => false

omit [DecidableEq κ] in
theorem Task.victims_of_loops {task : Task κ ν} (h : task.loops = true) : task.victims = [] := by
  cases task with
  | notify => cases h
  | _ => rfl

omit [DecidableEq κ] in
/-- The loop that an operation enters at `c`, if it is one that loops. -/
def Op.loop? (c : Cache κ ν) : Op κ ν → Option (Task κ ν)
  | .put k value ttl refusal => some (.put k value (c.clock.deadline (ttl.getD c.defaultTtl)) refusal)
  | .getOrPut k value ttl refusal => some (.getOrPut k value ttl refusal)
  | .resize asked => some (.shrink (Cache.effectiveBound asked) 0)
  | _ => none

namespace Machine

/-- The rounds that the innermost call makes within `n` steps, up to the one that ends it or
    to a callback that has something to do. -/
def rounds (E : Engine σ κ ν) : Nat → Machine σ κ ν → Nat
  | 0, _ => 0
  | n + 1, m =>
    match m.control with
    | .running call _ =>
      match E.resume call.task m.cache with
      | .ok (.release _ _) _ => 1 + rounds E n (step E m)
      | _ => 1
    | .reacting [] _ _ => rounds E n (step E m)
    | _ => 0

/-- `op` is about to go round its loop, of which `task` is left, for the first time. -/
def entering (op : Op κ ν) (task : Task κ ν) (below : List (Waiting κ ν)) (s : Session (Cache κ ν) κ ν) :
    Machine (Cache κ ν) κ ν where
  cache := s.cache.primed op
  reactions := s.reactions
  control := .running ⟨op, task⟩ below

theorem start_loop {c : Cache κ ν} {op : Op κ ν} {task : Task κ ν} (h : op.loop? c = some task) :
    Cache.start op c = Cache.resume task (c.primed op) ∧ task.loops = true := by
  cases op with
  | put k value ttl refusal => cases h; exact ⟨rfl, rfl⟩
  | getOrPut k value ttl refusal => cases h; exact ⟨rfl, rfl⟩
  | resize asked => cases h; exact ⟨Cache.resize_eq asked c, rfl⟩
  | _ => cases h

/-- Beginning a loop is going round it for the first time, in a callback or not. -/
theorem start_entering {s : Session (Cache κ ν) κ ν} {op : Op κ ν} {task : Task κ ν}
    (h : op.loop? s.cache = some task) :
    start Cache.engine op s = step Cache.engine (entering op task [] s) := by
  show settle Cache.engine op [] s.reactions (Cache.start op s.cache) = _
  rw [(start_loop h).1]
  rfl

theorem step_entering {m : Machine (Cache κ ν) κ ν} {op : Op κ ν} {ops : List (Op κ ν)} {call : Call κ ν}
    {below : List (Waiting κ ν)} (hm : m.control = .reacting (op :: ops) call below) {task : Task κ ν}
    (h : op.loop? m.cache = some task) :
    step Cache.engine m = step Cache.engine (entering op task (⟨call, ops⟩ :: below) m.toSession) := by
  have hstep : step Cache.engine m =
      settle Cache.engine op (⟨call, ops⟩ :: below) m.reactions (Cache.start op m.cache) := by
    simp only [step, hm]
    rfl
  rw [hstep, (start_loop h).1]
  rfl

/-! ## Counting rounds -/

omit [DecidableEq κ] in
/-- A piece that does not end its call takes a node out of the chain, or an entry off those
    that the call has yet to hand out. -/
theorem release_lowers {c d : Cache κ ν} {pending : List (Entry κ ν)} {victim : Option (Entry κ ν)} {task : Task κ ν}
    (hc : c.chain.WellFormed) (h : Cache.Moves c pending (.ok (.release victim task) d)) :
    d.chain.WellFormed ∧ d.chain.length + task.victims.length + 1 = c.chain.length + pending.length := by
  cases h with
  | releases h hv =>
    have hl := h.entries.length_eq
    have hv := congrArg List.length hv
    rw [Cache.length_entries hc, Cache.length_entries h.chain]
    simp only [List.length_append, List.length_cons] at hl hv
    exact ⟨h.chain, by omega⟩

/-- After a piece that does not end its call, the call goes on, or its callback is at work. -/
theorem settle_release (op : Op κ ν) (below : List (Waiting κ ν)) (reactions : List (Reaction κ ν))
    (victim : Option (Entry κ ν)) (task : Task κ ν) (d : Cache κ ν) :
    let m := settle Cache.engine op below reactions (.ok (.release victim task) d)
    m.cache.chain = d.chain ∧
      (m.control = .running ⟨op, task⟩ below ∨ ∃ ops, m.control = .reacting ops ⟨op, task⟩ below) := by
  cases victim with
  | none => exact ⟨rfl, .inl rfl⟩
  | some e =>
    simp only [settle, notify]
    split
    · exact ⟨rfl, .inr ⟨_, rfl⟩⟩
    · exact ⟨rfl, .inl rfl⟩

theorem rounds_le_potential (n : Nat) {m : Machine (Cache κ ν) κ ν} (hc : m.cache.chain.WellFormed) {call : Call κ ν}
    {below : List (Waiting κ ν)} (hm : m.control = .running call below ∨ ∃ ops, m.control = .reacting ops call below) :
    rounds Cache.engine n m ≤ m.cache.chain.length + call.task.victims.length + 1 := by
  induction n generalizing m call with
  | zero => exact Nat.zero_le _
  | succ n ih =>
    rcases hm with hm | ⟨ops, hm⟩
    · simp only [rounds, hm]
      split
      · -- the call goes on with one node less
        rename_i victim task d hr
        have hmoves := Cache.resume_moves hc call.task
        have hr : Cache.resume call.task m.cache = .ok (.release victim task) d := hr
        have hstep : step Cache.engine m =
            settle Cache.engine call.op below m.reactions (.ok (.release victim task) d) := by
          rw [← hr]
          simp only [step, hm]
          rfl
        rw [hr] at hmoves
        obtain ⟨hd, hl⟩ := release_lowers hc hmoves
        obtain ⟨hchain, hcontrol⟩ := settle_release call.op below m.reactions victim task d
        rw [← hstep] at hchain hcontrol
        have hrest : rounds Cache.engine n (step Cache.engine m) ≤
            (step Cache.engine m).cache.chain.length + task.victims.length + 1 := ih (hchain ▸ hd) hcontrol
        rw [hchain] at hrest
        omega
      · omega
    · cases ops with
      | cons op ops =>
        simp only [rounds, hm]
        exact Nat.zero_le _
      | nil =>
        have hstep : step Cache.engine m = { m with control := .running call below } := by simp only [step, hm]
        simp only [rounds, hm, hstep]
        exact ih (m := { m with control := .running call below }) hc (.inl rfl)

/-- A loop goes round at most once more than there are nodes, as long as no callback has
    anything to do. -/
theorem rounds_le (n : Nat) {m : Machine (Cache κ ν) κ ν} (hc : m.cache.chain.WellFormed) {call : Call κ ν}
    {below : List (Waiting κ ν)} (hm : m.control = .running call below) (hl : call.task.loops = true) :
    rounds Cache.engine n m ≤ m.cache.chain.length + 1 := by
  have := rounds_le_potential n hc (.inl hm)
  rwa [Task.victims_of_loops hl] at this

theorem rounds_entering (n : Nat) {s : Session (Cache κ ν) κ ν} (hc : s.cache.chain.WellFormed) {op : Op κ ν}
    {task : Task κ ν} (h : op.loop? s.cache = some task) (below : List (Waiting κ ν)) :
    rounds Cache.engine n (entering op task below s) ≤ s.cache.chain.length + 1 := by
  have hchain : (entering op task below s).cache.chain = s.cache.chain := s.cache.primed_chain op
  rw [← hchain]
  exact rounds_le n (hchain ▸ hc) rfl (start_loop h).2

/-! ## The end -/

/-- From any well-formed chain, whatever the index says and the size is, every operation
    comes to an answer or an abort, and its callbacks with it. Each loop on the way, at
    whatever depth it is entered or gone on with, goes round at most once more than there are
    nodes while no callback has anything to do. -/
theorem perform_terminates {s : Session (Cache κ ν) κ ν} (h : s.cache.chain.WellFormed) (op : Op κ ν) :
    ((∃ reply, (s.perform Cache.engine op).1 = .returned reply) ∨
      ∃ a, (s.perform Cache.engine op).1 = .aborted a) ∧
    (∀ task, op.loop? s.cache = some task →
      start Cache.engine op s = step Cache.engine (entering op task [] s) ∧
        ∀ n, rounds Cache.engine n (entering op task [] s) ≤ s.cache.chain.length + 1) ∧
    ∀ k, let m := (start Cache.engine op s).run Cache.engine k
      (∀ call below, m.control = .running call below → call.task.loops = true →
        ∀ n, rounds Cache.engine n m ≤ m.cache.chain.length + 1) ∧
      ∀ op' ops call below task, m.control = .reacting (op' :: ops) call below → op'.loop? m.cache = some task →
        step Cache.engine m = step Cache.engine (entering op' task (⟨call, ops⟩ :: below) m.toSession) ∧
          ∀ n, rounds Cache.engine n (entering op' task (⟨call, ops⟩ :: below) m.toSession) ≤
            m.cache.chain.length + 1 := by
  refine ⟨?_, fun task ht => ⟨start_entering ht, fun n => rounds_entering n h ht []⟩, fun k => ?_⟩
  · have hend := Session.perform_ends h op
    cases ho : (s.perform Cache.engine op).1 with
    | returned reply => exact .inl ⟨reply, rfl⟩
    | aborted a => exact .inr ⟨a, rfl⟩
    | unfinished => exact absurd ho hend
  · intro m
    have hm : m.cache.chain.WellFormed := run_wellFormed k (start_wellFormed h op)
    exact ⟨fun call below hrun hl n => rounds_le n hm hrun hl, fun op' ops call below task hreact ht =>
      ⟨step_entering hreact ht, fun n => rounds_entering n hm ht _⟩⟩

/-- The index has lost both keys and the size says nine. A store under a third key empties the
    chain, and the callback for the first entry dropped stores it again meanwhile. -/
theorem perform_terminates_misled :
    let built : Session (Cache Nat Nat) Nat Nat :=
      ⟨Settings.build ⟨2, .zero, true, none, false, 0⟩, [⟨none, 1, [.put 1 11 none .report]⟩]⟩
    let full := Machine.start Cache.engine (.put 2 20 none .abort)
      (Machine.start Cache.engine (.put 1 10 none .abort) built).toSession
    let s : Session (Cache Nat Nat) Nat Nat := ⟨{ full.cache with index := .empty, size := 9 }, full.reactions⟩
    let task : Task Nat Nat := .put 3 30 none .abort
    s.cache.chain.WellFormed ∧ s.cache.chain.length = 2 ∧
      ((∃ reply, (s.perform Cache.engine (.put 3 30 none .abort)).1 = .returned reply) ∨
        ∃ a, (s.perform Cache.engine (.put 3 30 none .abort)).1 = .aborted a) ∧
      (s.perform Cache.engine (.put 3 30 none .abort)).2.cache.entries.map (·.key) = [3] ∧
      ∀ n, rounds Cache.engine n (entering (.put 3 30 none .abort) task [] s) ≤ 3 := by
  intro built full s task
  have hfull : Reach Cache.engine (fun op => op.quiet = true) (fun _ => True) built full :=
    .start _ (.start _ .idle rfl rfl) rfl rfl
  have hs : s.cache.chain.WellFormed := (hfull.steady (by decide)).chain
  obtain ⟨hend, hloop, -⟩ := perform_terminates hs (.put 3 30 none .abort)
  exact ⟨hs, rfl, hend, by decide +kernel, (hloop task rfl).2⟩

end Machine

end Recency
