import Recency.Proofs.Plain.Changes
import Recency.Proofs.Session.Touches
/-
  Recency.Proofs.Session.Effects — what an operation has done when it is over.

  While the callbacks stand aside and the bound is not moved, the list that an operation
  leaves can be read off the list that it found. A store that was granted leaves one entry
  in front of those others that fit in beside it, whether it overwrote an entry, took up
  free room or made room first (`Stores`). Every other operation leaves what `remains` says
  and answers as `shows?` says (`Leaves`).

  In between it is enough to know that a store has room by then and will not find its key
  (`Storing`), and that all else only waits to answer (`Answering`).
-/

namespace Recency

variable {κ ν : Type}

/-- The refusal that an operation ended in. -/
def Outcome.refusal? : Outcome κ ν → Option ArenaError
  | .returned (.refused e) | .aborted (.refused e) => some e
  | _ => none

/-- What the operation makes of the clock. -/
def Op.moves : Op κ ν → Clock → Clock
  | .advance step, c => c.advance step
  | _, c => c

def Op.resizes : Op κ ν → Bool
  | .resize _ => true
  | _ => false

namespace Plain

/-- Within the bound, and no key twice. -/
structure Fits (p : Plain κ ν) : Prop where
  bound_pos : 0 < p.bound.toNat
  length_le : p.entries.length ≤ p.bound.toNat
  nodup : (p.entries.map (·.key)).Nodup

/-- The rest is as `op` leaves it. -/
structure Frames (still : Bool) (op : Op κ ν) (p q : Plain κ ν) : Prop where
  bound : q.bound = p.bound
  defaultTtl : q.defaultTtl = p.defaultTtl
  clock : still = true → q.clock = op.moves p.clock

variable [DecidableEq κ]

/-- The entry of `k`, unless it has expired. -/
def good? (k : κ) (p : Plain κ ν) : Option (Entry κ ν) := (p.find? k).filter fun e => !e.expired p.now

def others (k : κ) (p : Plain κ ν) : List (Entry κ ν) := p.entries.filter (·.key ≠ k)

/-- The others that fit in beside an entry of `k`. -/
def spared (k : κ) (p : Plain κ ν) : List (Entry κ ν) := (p.others k).take (p.bound.toNat - 1)

/-- The entries that an operation leaves that stores nothing. -/
def remains (op : Op κ ν) (p : Plain κ ν) : List (Entry κ ν) :=
  match op with
  | .get k => (p.good? k).toList ++ p.others k
  | .peek k => if (p.good? k).isSome then p.entries else p.others k
  | .delete k => p.others k
  | .purge => p.fresh
  | .clear => []
  | _ => p.entries

/-- What a reader is told. -/
def shows? (op : Op κ ν) (p : Plain κ ν) : Option (Reply κ ν) :=
  match op with
  | .get k | .peek k => some (.hit ((p.good? k).map (·.value)))
  | .has k => some (.flag (p.good? k).isSome)
  | .keys => some (.keys (p.fresh.map (·.key)))
  | .values => some (.values (p.fresh.map (·.value)))
  | .visit stopAfter =>
    let kvs := p.fresh.map fun e => (e.key, e.value)
    some (.visited (if stopAfter = 0 then kvs else kvs.take stopAfter))
  | _ => none

/-- The entry that a store puts in front of a list, and its answer. -/
inductive Puts (p q : Plain κ ν) : Op κ ν → Outcome κ ν → Entry κ ν → Prop
  | put (stay : Nat) (k : κ) (value : ν) (ttl : Option Duration) (refusal : OnRefusal) :
      Puts p q (.put k value ttl refusal) (.returned (Cache.stored refusal))
        ⟨stay, k, value, p.clock.deadline (ttl.getD p.defaultTtl)⟩
  | found {k : κ} {e : Entry κ ν} (h : p.good? k = some e) (value : ν) (ttl : Duration) (refusal : OnRefusal) :
      Puts p q (.getOrPut k value ttl refusal) (.returned (.got e.value true)) e
  | added {k : κ} (h : p.good? k = none) (stay : Nat) (value : ν) (ttl : Duration) (refusal : OnRefusal) :
      Puts p q (.getOrPut k value ttl refusal) (.returned (.got value false)) ⟨stay, k, value, q.clock.deadline ttl⟩

/-- The store `op`, unless it was refused, has left its entry and those that fit beside it. -/
def Stores (still : Bool) (op : Op κ ν) (p : Plain κ ν) (o : Outcome κ ν) (q : Plain κ ν) : Prop :=
  o.refusal? = none → ∃ e, Puts p q op o e ∧ q.entries = e :: p.spared e.key ∧ Frames still op p q

/-- `op`, which stores nothing, has left of `p` what it leaves. -/
structure Leaves (still : Bool) (op : Op κ ν) (p : Plain κ ν) (o : Outcome κ ν) (q : Plain κ ν) : Prop where
  entries : q.entries = p.remains op
  frames : Frames still op p q
  shows : ∀ reply, p.shows? op = some reply → o = .returned reply

variable {still : Bool} {p q : Plain κ ν} {op : Op κ ν} {k : κ} {e : Entry κ ν}

omit [DecidableEq κ] in
theorem Frames.beside (h : Frames still op p q) {q' : Plain κ ν} (hb : q.Beside still q') : Frames still op p q' :=
  ⟨hb.bound.trans h.bound, hb.defaultTtl.trans h.defaultTtl, fun hs => (hb.clock hs).trans (h.clock hs)⟩

/-! ## Entries of one key and of others -/

theorem good?_eq_some : p.good? k = some e ↔ p.find? k = some e ∧ e.expired p.now = false := by
  simp [good?, Option.filter_eq_some_iff]

theorem good?_of_missing (h : p.find? k = none) : p.good? k = none := by rw [good?, h, Option.filter_none]

theorem key_of_good (h : p.good? k = some e) : e.key = k := (find?_eq_some (good?_eq_some.mp h).1).2

theorem Puts.inserts {o : Outcome κ ν} (h : Puts p q op o e) : op.inserts? = some e.key := by
  cases h with
  | put => rfl
  | found h => exact congrArg some (key_of_good h).symm
  | added => rfl

theorem others_of_missing (h : p.find? k = none) : p.others k = p.entries :=
  List.filter_eq_self.mpr fun x hx => by simpa using List.find?_eq_none.mp h x hx

theorem length_others (hn : (p.entries.map (·.key)).Nodup) (h : p.find? k = some e) :
    (p.others k).length + 1 = p.entries.length := by
  obtain ⟨he, rfl⟩ := find?_eq_some h
  exact (perm_cons_filter_key hn he).length_eq.symm

theorem spared_of_found (hp : p.Fits) (h : p.find? k = some e) : p.spared k = p.others k := by
  have hlen := length_others hp.nodup h
  have hle := hp.length_le
  exact List.take_of_length_le (by omega)

theorem spared_of_room (h : p.find? k = none) (hroom : p.hasRoom = true) : p.spared k = p.entries := by
  have hlt : p.entries.length < p.bound.toNat := of_decide_eq_true hroom
  rw [spared, others_of_missing h]
  exact List.take_of_length_le (by omega)

theorem spared_of_full (hp : p.Fits) (h : p.find? k = none) (hroom : p.hasRoom = false) :
    p.spared k = p.entries.dropLast := by
  have hle := hp.length_le
  have hge : ¬p.entries.length < p.bound.toNat := of_decide_eq_false hroom
  have hlen : p.entries.length = p.bound.toNat := by omega
  rw [spared, others_of_missing h, List.dropLast_eq_take, hlen]

theorem find?_others (h : q.entries = p.spared k) : q.find? k = none := by
  rw [find?, h, List.find?_eq_none]
  intro x hx
  simpa using (List.mem_filter.mp (List.mem_of_mem_take hx)).2

omit [DecidableEq κ] in
/-- A deadline reckoned from now is not over yet. -/
theorem deadline_fresh (c : Clock) (ttl : Duration) (stay : Nat) (k : κ) (value : ν) :
    (⟨stay, k, value, c.deadline ttl⟩ : Entry κ ν).expired c.now = false := by
  unfold Entry.expired Clock.deadline Instant.add?
  by_cases hz : ttl = .zero
  · simp [hz]
  · by_cases hl : c.now.nanos + ttl.nanos < Instant.limit
    · simp [hz, hl]
    · simp [hz, hl]

/-! ## Stores -/

/-- `op`, which is to store `k`, has begun at `p` and waits; by now there is room for it. -/
structure Storing (still : Bool) (op : Op κ ν) (k : κ) (p : Plain κ ν) (task : Task κ ν) (q : Plain κ ν) : Prop where
  awaits : Awaits p op task
  missing : p.good? k = none
  entries : q.entries = p.spared k
  frames : Frames still op p q

variable {k : κ} {value : ν} {deadline : Option Instant} {refusal : OnRefusal} {reply : Reply κ ν}

theorem enter_stores {M : Task κ ν → Plain κ ν → Prop} (hq : q.entries = p.spared k) (hf : Frames still op p q)
    (hputs : ∀ q' : Plain κ ν, q'.clock = q.clock → Puts p q' op (.returned reply) ⟨q.stays, k, value, deadline⟩) :
    Engine.Leads M (Stores still op p) (match q.enter k value deadline with
      | .error e => q.refuse refusal e
      | .ok q => .ok (.done reply) q) := by
  cases he : q.enter k value deadline with
  | error e =>
    cases refusal with
    | abort => exact fun h => nomatch h
    | report => exact fun h => nomatch h
  | ok q' =>
    obtain ⟨room, -, rfl⟩ := enter_ok he
    intro _
    exact ⟨_, hputs _ rfl, congrArg (_ :: ·) hq, hf.bound, hf.defaultTtl, hf.clock⟩

/-- A store that does not find its key ends where there is room, and else makes room. -/
theorem makeRoom_stores (hp : p.Fits) (hk : p.find? k = none) {finish : Plain κ ν → Result κ ν} {task : Task κ ν}
    (hfinish : p.entries = p.spared k → Engine.Leads (Storing still op k p) (Stores still op p) (finish p))
    (ha : Awaits p op task) (hclock : Frames still op p p) :
    Engine.Leads (Storing still op k p) (Stores still op p) (if p.hasRoom then finish p
      else match p.evict? with
        | none => finish p
        | some (victim, q) => .ok (.release (some victim) task) q) := by
  cases hroom : p.hasRoom with
  | true => exact hfinish (spared_of_room hk hroom).symm
  | false =>
    have hfull := spared_of_full hp hk hroom
    simp only [Bool.false_eq_true, if_false]
    cases he : p.evict? with
    | none =>
      have hnil : p.entries = [] := List.getLast?_eq_none_iff.mp (Option.map_eq_none_iff.mp he)
      exact hfinish (by rw [hfull, hnil, List.dropLast_nil])
    | some r =>
      obtain ⟨victim, q⟩ := r
      obtain ⟨-, n, rfl⟩ := evict?_eq_some he
      exact ⟨ha, good?_of_missing hk, hfull.symm, hclock.bound, hclock.defaultTtl, hclock.clock⟩

theorem finishPut_stores {M : Task κ ν → Plain κ ν → Prop} {ttl : Option Duration} (hq : q.entries = p.spared k)
    (hf : Frames still (.put k value ttl refusal) p q) :
    Engine.Leads M (Stores still (.put k value ttl refusal) p)
      (q.finishPut k value (p.clock.deadline (ttl.getD p.defaultTtl)) refusal) :=
  enter_stores hq hf fun _ _ => .put q.stays k value ttl refusal

theorem finishGetOrPut_stores {M : Task κ ν → Plain κ ν → Prop} {ttl : Duration} (hmiss : p.good? k = none)
    (hq : q.entries = p.spared k) (hf : Frames still (.getOrPut k value ttl refusal) p q) :
    Engine.Leads M (Stores still (.getOrPut k value ttl refusal) p) (q.finishGetOrPut k value ttl refusal) := by
  refine enter_stores (q := q.count .getMiss) hq ⟨hf.bound, hf.defaultTtl, hf.clock⟩ ?_
  intro q' hclock
  have hdeadline : q.clock.deadline ttl = q'.clock.deadline ttl := by rw [hclock]; rfl
  show Puts p q' _ _ ⟨q.stays, k, value, q.clock.deadline ttl⟩
  rw [hdeadline]
  exact .added hmiss q.stays value ttl refusal

theorem put_stores (hp : p.Fits) (k : κ) (value : ν) (ttl : Option Duration) (refusal : OnRefusal) :
    Engine.Leads (Storing still (.put k value ttl refusal) k p) (Stores still (.put k value ttl refusal) p)
      (p.resumePut k value (p.clock.deadline (ttl.getD p.defaultTtl)) refusal) := by
  have hf : Frames still (.put k value ttl refusal) p p := ⟨rfl, rfl, fun _ => rfl⟩
  unfold resumePut
  cases hk : p.find? k with
  | some e =>
    obtain ⟨-, rfl⟩ := find?_eq_some hk
    intro _
    refine ⟨_, .put e.stay e.key value ttl refusal, ?_, rfl, rfl, fun _ => rfl⟩
    rw [spared_of_found hp hk]
    rfl
  | none => exact makeRoom_stores hp hk (fun hq => finishPut_stores hq hf) (.put ..) hf

theorem getOrPut_stores (hp : p.Fits) (k : κ) (value : ν) (ttl : Duration) (refusal : OnRefusal) :
    Engine.Leads (Storing still (.getOrPut k value ttl refusal) k p) (Stores still (.getOrPut k value ttl refusal) p)
      (p.resumeGetOrPut k value ttl refusal) := by
  have hf : Frames still (.getOrPut k value ttl refusal) p p := ⟨rfl, rfl, fun _ => rfl⟩
  unfold resumeGetOrPut
  cases hk : p.find? k with
  | some e =>
    obtain ⟨-, rfl⟩ := find?_eq_some hk
    have hspared : p.entries.filter (·.key ≠ e.key) = p.spared e.key := (spared_of_found hp hk).symm
    cases hx : e.expired p.now with
    | true =>
      have hmiss : p.good? e.key = none := by simp [good?, hk, hx]
      simp only [hx, if_true]
      exact ⟨.getOrPut .., hmiss, hspared, rfl, rfl, fun _ => rfl⟩
    | false =>
      have hgood : p.good? e.key = some e := good?_eq_some.mpr ⟨hk, hx⟩
      simp only [hx, Bool.false_eq_true, if_false]
      intro _
      exact ⟨e, .found hgood value ttl refusal, congrArg (e :: ·) hspared, rfl, rfl, fun _ => rfl⟩
  | none =>
    exact makeRoom_stores hp hk (fun hq => finishGetOrPut_stores (good?_of_missing hk) hq hf) (.getOrPut ..) hf

theorem start_stores (look : Index.Op κ → Reply κ ν) (hp : p.Fits) (hop : op.inserts? = some k) :
    Engine.Leads (Storing still op k p) (Stores still op p) (start look op p) := by
  cases op with
  | put k' value ttl refusal =>
    cases hop
    exact put_stores hp k value ttl refusal
  | getOrPut k' value ttl refusal =>
    cases hop
    exact getOrPut_stores hp k value ttl refusal
  | _ => cases hop

theorem stores_carries (hp : p.Fits) (hop : op.inserts? = some k) :
    Carries still (Storing still op k p) (Stores still op p) where
  beside task q q' hb h := ⟨h.awaits, h.missing, hb.entries.trans h.entries, h.frames.beside hb⟩
  resume task q _ h := by
    obtain ⟨ha, hmiss, hq, hf⟩ := h
    have hk := find?_others hq
    have hpos := hp.bound_pos
    have hroom : q.hasRoom = true := by
      have hle : q.entries.length ≤ p.bound.toNat - 1 := hq ▸ List.length_take_le _ _
      have hbound := hf.bound
      exact decide_eq_true (by rw [hbound]; omega)
    cases ha with
    | put k' value ttl refusal =>
      cases hop
      simp only [Plain.resume, resumePut, hk, hroom, if_true]
      exact finishPut_stores hq hf
    | getOrPut k' value ttl refusal =>
      cases hop
      simp only [Plain.resume, resumeGetOrPut, hk, hroom, if_true]
      exact finishGetOrPut_stores hmiss hq hf
    | _ => cases hop

/-! ## Other operations -/

/-- `op`, which stores nothing, has nothing left to do but to call its callbacks and to answer. -/
def Answering (still : Bool) (op : Op κ ν) (p : Plain κ ν) (task : Task κ ν) (q : Plain κ ν) : Prop :=
  ∃ victims ending reply, task = .notify victims ending reply ∧ Leaves still op p (.returned reply) q

theorem Leaves.beside {o : Outcome κ ν} (h : Leaves still op p o q) {q' : Plain κ ν} (hb : q.Beside still q') :
    Leaves still op p o q' := ⟨hb.entries.trans h.entries, h.frames.beside hb, h.shows⟩

theorem notify_leaves (h : Leaves still op p (.returned reply) q) (victims : List (Entry κ ν)) (ending : Option Note) :
    Engine.Leads (Answering still op p) (Leaves still op p) (q.resume (.notify victims ending reply)) := by
  cases victims with
  | cons victim victims => exact ⟨victims, ending, reply, rfl, h⟩
  | nil =>
    cases ending with
    | none => exact h
    | some n => exact h.beside (.record rfl q)

theorem leaves_carries : Carries still (Answering still op p) (Leaves still op p) where
  beside task q q' hb h := by
    obtain ⟨victims, ending, reply, rfl, h⟩ := h
    exact ⟨victims, ending, reply, rfl, h.beside hb⟩
  resume task q _ h := by
    obtain ⟨victims, ending, reply, rfl, h⟩ := h
    exact notify_leaves h victims ending

/-- Reaping drops the entries of the keys that are reaped, and that is all. -/
theorem reap_keeps (victims : List (Entry κ ν)) (p : Plain κ ν) :
    (p.reap victims).entries = p.entries.filter (fun x => x.key ∉ victims.map (·.key)) ∧
      (p.reap victims).bound = p.bound ∧ (p.reap victims).defaultTtl = p.defaultTtl ∧
      (p.reap victims).clock = p.clock := by
  induction victims generalizing p with
  | nil => exact ⟨(List.filter_eq_self.mpr fun _ _ => by simp).symm, rfl, rfl, rfl⟩
  | cons e victims ih =>
    obtain ⟨hentries, hbound, httl, hclock⟩ := ih ((p.leave e .expired).count .expired)
    refine ⟨?_, hbound, httl, hclock⟩
    have hleft : ((p.leave e .expired).count .expired).entries = p.entries.filter (·.key ≠ e.key) := rfl
    rw [reap, List.foldl_cons, ← reap, hentries, hleft, List.filter_filter]
    refine List.filter_congr fun x _ => Bool.eq_iff_iff.mpr ?_
    simp only [Bool.and_eq_true, decide_eq_true_eq, List.map_cons, List.mem_cons, not_or]
    exact and_comm

/-- Of entries with different keys, those that are not among the expired ones are fresh. -/
theorem reap_fresh (hn : (p.entries.map (·.key)).Nodup) :
    (p.reap (p.entries.filter (·.expired p.now))).entries = p.fresh := by
  rw [(reap_keeps _ p).1, fresh]
  refine List.filter_congr fun x hx => Bool.eq_iff_iff.mpr ?_
  simp only [decide_eq_true_eq, Bool.not_eq_true', List.mem_map, List.mem_filter, not_exists, not_and]
  constructor
  · intro h
    exact Bool.eq_false_iff.mpr fun hexp => h x ⟨hx, hexp⟩ rfl
  · rintro h y ⟨hy, hexp⟩ hk
    obtain rfl := List.inj_on_of_nodup_map hn hy hx hk
    exact absurd hexp (by rw [h]; exact Bool.false_ne_true)

theorem read_leaves (touch : Bool) (hop : op = if touch then .get k else .peek k) :
    Engine.Leads (Answering still op p) (Leaves still op p) (p.read k touch) := by
  have hmoves : op.moves p.clock = p.clock := by cases touch <;> rw [hop] <;> rfl
  have hf : Frames still op p p := ⟨rfl, rfl, fun _ => hmoves.symm⟩
  have hshows : p.shows? op = some (.hit ((p.good? k).map (·.value))) := by cases touch <;> rw [hop] <;> rfl
  have hremains : p.good? k = none → p.remains op = p.others k := by
    intro hbad
    cases touch <;> simp [hop, remains, hbad]
  unfold read
  cases hk : p.find? k with
  | none =>
    have hbad := good?_of_missing hk
    refine ⟨?_, ⟨rfl, rfl, hf.clock⟩, fun reply h => ?_⟩
    · rw [hremains hbad, others_of_missing hk]
      rfl
    · rw [hshows, hbad] at h
      cases h
      rfl
  | some e =>
    obtain ⟨-, hkey⟩ := find?_eq_some hk
    cases hx : e.expired p.now with
    | true =>
      have hbad : p.good? k = none := by simp [good?, hk, hx]
      simp only [hx, if_true]
      refine ⟨[], none, .hit none, rfl, ?_, ⟨rfl, rfl, hf.clock⟩, fun reply h => ?_⟩
      · rw [hremains hbad, ← hkey]
        rfl
      · rw [hshows, hbad] at h
        cases h
        rfl
    | false =>
      have hgood : p.good? k = some e := good?_eq_some.mpr ⟨hk, hx⟩
      simp only [hx, Bool.false_eq_true, if_false]
      refine ⟨?_, ?_, fun reply h => ?_⟩
      · subst hop
        cases touch with
        | true => simp [remains, hgood, others, front, count, hkey]
        | false => simp [remains, hgood, count]
      · cases touch <;> exact ⟨rfl, rfl, hf.clock⟩
      · rw [hshows, hgood] at h
        cases h
        rfl

theorem delete_leaves (k : κ) (p : Plain κ ν) :
    Engine.Leads (Answering still (.delete k) p) (Leaves still (.delete k) p) (p.delete k) := by
  unfold delete
  cases hk : p.find? k with
  | none => exact ⟨(others_of_missing hk).symm, ⟨rfl, rfl, fun _ => rfl⟩, nofun⟩
  | some e =>
    obtain ⟨-, rfl⟩ := find?_eq_some hk
    exact ⟨[], none, .flag true, rfl, rfl, ⟨rfl, rfl, fun _ => rfl⟩, nofun⟩

theorem purge_leaves (hn : (p.entries.map (·.key)).Nodup) :
    Engine.Leads (Answering still .purge p) (Leaves still .purge p) p.purge := by
  obtain ⟨-, hbound, httl, hclock⟩ := reap_keeps (p.entries.filter (·.expired p.now)) p
  have hl : ∀ reply, Leaves still .purge p (.returned reply) (p.reap (p.entries.filter (·.expired p.now))) :=
    fun _ => ⟨reap_fresh hn, ⟨hbound, httl, fun _ => hclock⟩, nofun⟩
  exact notify_leaves (hl _) _ _

theorem clear_leaves (p : Plain κ ν) : Engine.Leads (Answering still .clear p) (Leaves still .clear p) p.clear := by
  have hl : Leaves still .clear p (.returned .unit) (p.dropAll.count .clear) :=
    ⟨rfl, ⟨rfl, rfl, fun _ => rfl⟩, nofun⟩
  exact notify_leaves hl _ _

/-- An operation that leaves everything as it is. -/
theorem Leaves.same (hremains : p.remains op = p.entries) (hmoves : op.moves p.clock = p.clock) {o : Outcome κ ν}
    (hshows : ∀ reply, p.shows? op = some reply → o = .returned reply) : Leaves still op p o p :=
  ⟨hremains.symm, ⟨rfl, rfl, fun _ => hmoves.symm⟩, hshows⟩

theorem withSnapshot_leaves {f : Snapshot → Reply κ ν} (hremains : p.remains op = p.entries)
    (hmoves : op.moves p.clock = p.clock) (hshows : p.shows? op = none) :
    Engine.Leads (Answering still op p) (Leaves still op p) (p.withSnapshot f) := by
  have hsame : ∀ o, Leaves still op p o p := fun o => .same hremains hmoves fun _ h => by rw [hshows] at h; cases h
  unfold withSnapshot
  cases p.snapshot? with
  | none => exact hsame _
  | some s => exact hsame _

theorem any_eq_isSome_good (k : κ) (p : Plain κ ν) :
    ((p.find? k).any fun e => !e.expired p.now) = (p.good? k).isSome := by
  unfold good?
  cases p.find? k with
  | none => rfl
  | some e => cases hx : e.expired p.now <;> simp [hx, Option.filter]

theorem start_leaves (look : Index.Op κ → Reply κ ν) (hn : (p.entries.map (·.key)).Nodup) (hstore : op.inserts? = none)
    (hsize : op.resizes = false) : Engine.Leads (Answering still op p) (Leaves still op p) (start look op p) := by
  have htold : ∀ {reply reply' : Reply κ ν}, some reply = some reply' → Outcome.returned reply = .returned reply' :=
    fun h => congrArg Outcome.returned (Option.some.inj h)
  cases op with
  | put => cases hstore
  | getOrPut => cases hstore
  | resize => cases hsize
  | get k => exact read_leaves true rfl
  | peek k => exact read_leaves false rfl
  | has k => exact .same rfl rfl fun _ h => htold ((any_eq_isSome_good k p).symm ▸ h)
  | keys => exact .same rfl rfl fun _ => htold
  | values => exact .same rfl rfl fun _ => htold
  | visit stopAfter => exact .same rfl rfl fun _ => htold
  | delete k => exact delete_leaves k p
  | purge => exact purge_leaves hn
  | clear => exact clear_leaves p
  | metrics => exact withSnapshot_leaves rfl rfl rfl
  | snapshot => exact withSnapshot_leaves rfl rfl rfl
  | expose family limit => exact withSnapshot_leaves rfl rfl rfl
  | _ => exact ⟨rfl, ⟨rfl, rfl, fun _ => rfl⟩, nofun⟩

/-! ## Fitting -/

theorem length_spared (hp : p.Fits) (k : κ) : (p.spared k).length < p.bound.toNat := by
  have hpos := hp.bound_pos
  have hle : (p.spared k).length ≤ p.bound.toNat - 1 := List.length_take_le _ _
  omega

theorem remains_subset (op : Op κ ν) : p.remains op ⊆ p.entries := by
  have hothers : ∀ k, p.others k ⊆ p.entries := fun k => List.filter_sublist.subset
  cases op with
  | get k =>
    intro x hx
    rcases List.mem_append.mp hx with hx | hx
    · exact (find?_eq_some (good?_eq_some.mp (Option.mem_toList.mp hx)).1).1
    · exact hothers k hx
  | peek k =>
    simp only [remains]
    split
    · exact List.Subset.refl _
    · exact hothers k
  | delete k => exact hothers k
  | purge => exact List.filter_sublist.subset
  | clear => exact List.nil_subset _
  | _ => exact List.Subset.refl _

theorem length_remains (hp : p.Fits) (op : Op κ ν) : (p.remains op).length ≤ p.entries.length := by
  have hothers : ∀ k, (p.others k).length ≤ p.entries.length := fun k => List.length_filter_le _ _
  cases op with
  | get k =>
    cases hg : p.good? k with
    | none => simpa [remains, hg] using hothers k
    | some e =>
      have := length_others hp.nodup (good?_eq_some.mp hg).1
      simp only [remains, hg, Option.toList_some, List.singleton_append, List.length_cons]
      omega
  | peek k =>
    simp only [remains]
    split
    · exact Nat.le_refl _
    · exact hothers k
  | delete k => exact hothers k
  | purge => exact List.length_filter_le _ _
  | clear => exact Nat.zero_le _
  | _ => exact Nat.le_refl _

end Plain

namespace Session

variable [DecidableEq κ] {still : Bool} {s : Session (Cache κ ν) κ ν}

/-- Callbacks stand aside, and the entries are within the bound. -/
structure Settled (still : Bool) (s : Session (Cache κ ν) κ ν) : Prop where
  aloof : s.Aloof still
  fits : s.cache.view.Fits

theorem build_settled (cfg : Settings) {rs : List (Reaction κ ν)}
    (hrs : ∀ r ∈ rs, ∀ op ∈ r.ops, op.aside still = true) : Settled still ⟨cfg.build, rs⟩ := by
  have hs := build_aloof cfg hrs
  refine ⟨hs, hs.steady.bound_pos, ?_, hs.steady.keys_nodup⟩
  rw [(Cache.build_steady cfg).2]
  exact Nat.zero_le _

theorem perform_stores (hs : s.Settled still) {op : Op κ ν} {k : κ} (hop : op.inserts? = some k)
    (hgranted : (s.perform Cache.engine op).1.refusal? = none) :
    (s.perform Cache.engine op).2.Settled still ∧
      ∃ e, Plain.Puts s.cache.view (s.perform Cache.engine op).2.cache.view op (s.perform Cache.engine op).1 e ∧
        (s.perform Cache.engine op).2.cache.view.entries = e :: s.cache.view.spared e.key ∧
        Plain.Frames still op s.cache.view (s.perform Cache.engine op).2.cache.view := by
  obtain ⟨hs', hstores⟩ := perform_carries hs.aloof op (Op.quiet_of_inserts hop) (Plain.stores_carries hs.fits hop)
    (Plain.start_stores s.cache.glance hs.fits hop)
  obtain ⟨e, hputs, hentries, hf⟩ := hstores hgranted
  refine ⟨⟨hs', hs'.steady.bound_pos, ?_, hs'.steady.keys_nodup⟩, e, hputs, hentries, hf⟩
  rw [hf.bound, hentries]
  exact Plain.length_spared hs.fits e.key

theorem perform_leaves (hs : s.Settled still) (op : Op κ ν) (hop : op.quiet = true) (hstore : op.inserts? = none)
    (hsize : op.resizes = false) :
    (s.perform Cache.engine op).2.Settled still ∧
      Plain.Leaves still op s.cache.view (s.perform Cache.engine op).1 (s.perform Cache.engine op).2.cache.view := by
  obtain ⟨hs', hl⟩ := perform_carries hs.aloof op hop Plain.leaves_carries
    (Plain.start_leaves s.cache.glance hs.fits.nodup hstore hsize)
  refine ⟨⟨hs', hs'.steady.bound_pos, ?_, hs'.steady.keys_nodup⟩, hl⟩
  rw [hl.frames.bound, hl.entries]
  exact Nat.le_trans (Plain.length_remains hs.fits op) hs.fits.length_le

end Session

end Recency
