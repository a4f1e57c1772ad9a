import Recency.Cache.Task
/-
  Recency.Session — operations on a cache whose eviction callback uses the cache itself.

  The callback is a list of reactions. When it is called for an entry, the first reaction
  that is not used up and is for that key or for any key is used once, and its
  operations run, in order, on the cache that called. They may evict, and so call it
  again.

  A machine holds the cache, the reactions and what is under way: one operation, or the
  operations left of one callback, above the calls that wait for their callbacks. One
  step of the machine runs one operation up to its next callback, begins the next
  operation of a callback, or ends a callback. An abort ends all that is under way.

  The machine runs any engine that begins and resumes operations, the cache being one.
  Each step lowers its `potential`, which is what bounds a run.
-/

namespace Recency

/-- Operations that a callback runs, `times` times, for `key` or for any key. -/
structure Reaction (κ ν : Type) where
  key : Option κ
  times : Nat
  ops : List (Op κ ν)
  deriving DecidableEq, Repr

inductive Outcome (κ ν : Type) where
  | returned (reply : Reply κ ν)
  | aborted (a : Abort)
  | unfinished
  deriving DecidableEq, Repr

/-- A way to carry out operations on states of `σ`. -/
structure Engine (σ κ ν : Type) where
  start : Op κ ν → EStateM Abort σ (Progress κ ν)
  resume : Task κ ν → EStateM Abort σ (Progress κ ν)
  /-- Whether there is an eviction callback. -/
  notifies : σ → Bool
  record : Event κ ν → σ → σ
  length : σ → Nat

def Cache.engine {κ ν : Type} [DecidableEq κ] : Engine (Cache κ ν) κ ν where
  start := Cache.start
  resume := Cache.resume
  notifies c := c.notifies
  record e c := { c with journal := e :: c.journal }
  length c := c.chain.length

/-! ## What is under way -/

/-- An operation and what is left of it. -/
structure Call (κ ν : Type) where
  op : Op κ ν
  task : Task κ ν
  deriving DecidableEq, Repr

/-- A call whose callback is at an operation; `ops` are those that come after it. -/
structure Waiting (κ ν : Type) where
  call : Call κ ν
  ops : List (Op κ ν)
  deriving DecidableEq, Repr

inductive Control (κ ν : Type) where
  | running (call : Call κ ν) (below : List (Waiting κ ν))
  /-- The callback of `call` has `ops` left to do. -/
  | reacting (ops : List (Op κ ν)) (call : Call κ ν) (below : List (Waiting κ ν))
  | finished (outcome : Outcome κ ν)
  deriving DecidableEq, Repr

structure Session (σ κ ν : Type) where
  cache : σ
  reactions : List (Reaction κ ν)

structure Machine (σ κ ν : Type) extends Session σ κ ν where
  control : Control κ ν

/-! ## Reactions -/

section
variable {κ ν : Type} [DecidableEq κ]

def Reaction.answers (r : Reaction κ ν) (k : κ) : Bool := 0 < r.times && (r.key = none || r.key = some k)

/-- The operations of the first reaction that answers to `k`, and the reactions after that. -/
def react (k : κ) : List (Reaction κ ν) → List (Op κ ν) × List (Reaction κ ν)
  | [] => ([], [])
  | r :: rs =>
    if r.answers k then (r.ops, { r with times := r.times - 1 } :: rs)
    else ((react k rs).1, r :: (react k rs).2)

end

/-! ## Steps -/

namespace Machine

variable {σ κ ν : Type} [DecidableEq κ] (E : Engine σ κ ν)

/-- Calls the callback, if there is one, for an entry that `call` has released. -/
def notify (e : Entry κ ν) (call : Call κ ν) (below : List (Waiting κ ν)) (s : Session σ κ ν) : Machine σ κ ν :=
  if E.notifies s.cache then
    { cache := E.record (.notified e) s.cache
      reactions := (react e.key s.reactions).2
      control := .reacting (react e.key s.reactions).1 call below }
  else { s with control := .running call below }

/-- Hands the reply of `op` to whoever waits for it. -/
def answer (op : Op κ ν) (reply : Reply κ ν) (below : List (Waiting κ ν)) (s : Session σ κ ν) : Machine σ κ ν :=
  match below with
  | [] => { s with control := .finished (.returned reply) }
  | w :: below =>
    { s with cache := E.record (.answered op reply) s.cache, control := .reacting w.ops w.call below }

/-- Goes on from what `op` made of the cache. -/
def settle (op : Op κ ν) (below : List (Waiting κ ν)) (reactions : List (Reaction κ ν)) :
    EStateM.Result Abort σ (Progress κ ν) → Machine σ κ ν
  | .error a cache => { cache, reactions, control := .finished (.aborted a) }
  | .ok (.done reply) cache => answer E op reply below { cache, reactions }
  | .ok (.release none task) cache => { cache, reactions, control := .running ⟨op, task⟩ below }
  | .ok (.release (some e) task) cache => notify E e ⟨op, task⟩ below { cache, reactions }

def step (m : Machine σ κ ν) : Machine σ κ ν :=
  match m.control with
  | .running call below => settle E call.op below m.reactions (E.resume call.task m.cache)
  | .reacting [] call below => { m with control := .running call below }
  | .reacting (op :: ops) call below => settle E op (⟨call, ops⟩ :: below) m.reactions (E.start op m.cache)
  | .finished _ => m

def start (op : Op κ ν) (s : Session σ κ ν) : Machine σ κ ν := settle E op [] s.reactions (E.start op s.cache)

end Machine

/-! ## Potential -/

section
variable {κ ν : Type}

/-- The sum of `f` over a list. -/
def sumOver {α : Type} (f : α → Nat) : List α → Nat
  | [] => 0
  | a :: as => f a + sumOver f as

def Task.potential : Task κ ν → Nat
  | .notify victims _ _ => 3 + 2 * victims.length
  | _ => 3

def Waiting.potential (w : Waiting κ ν) : Nat := w.call.task.potential + 3 * w.ops.length + 1

def Control.potential : Control κ ν → Nat
  | .running call below => call.task.potential + sumOver Waiting.potential below
  | .reacting ops call below => sumOver Waiting.potential (⟨call, ops⟩ :: below)
  | .finished _ => 0

def Reaction.potential (r : Reaction κ ν) : Nat := r.times * (3 * r.ops.length)

/-- An upper bound on the steps left: each entry can be dropped once, each pending operation
    can begin once and add one entry, and each callback ends once. -/
def Machine.potential {σ : Type} (E : Engine σ κ ν) (m : Machine σ κ ν) : Nat :=
  2 * E.length m.cache + m.control.potential + sumOver Reaction.potential m.reactions

end

/-! ## Runs -/

namespace Machine

variable {σ κ ν : Type} [DecidableEq κ] (E : Engine σ κ ν)

/-- At most `n` steps, until nothing is under way. -/
def run : Nat → Machine σ κ ν → Machine σ κ ν
  | 0, m => m
  | n + 1, m =>
    match m.control with
    | .finished _ => m
    | _ => run n (step E m)

def outcome (m : Machine σ κ ν) : Outcome κ ν :=
  match m.control with
  | .finished outcome => outcome
  | _ => .unfinished

end Machine

/-- Carries out one operation, callbacks included. -/
def Session.perform {σ κ ν : Type} [DecidableEq κ] (E : Engine σ κ ν) (op : Op κ ν) (s : Session σ κ ν) :
    Outcome κ ν × Session σ κ ν :=
  let m := Machine.start E op s
  let m := m.run E (m.potential E)
  (m.outcome, m.toSession)

end Recency
