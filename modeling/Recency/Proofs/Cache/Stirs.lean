import Recency.Proofs.Chain.Sequence
import Recency.Proofs.Plain.Turns
/-
  Recency.Proofs.Cache.Stirs — what becomes of the nodes, whatever the index says.

  Others may write what they like into a shared index: handles that have gone stale, handles
  of nodes with other keys, handles that never were. And any use of the index may fail in the
  middle of an operation. What then still holds, holds because of how the nodes are changed:
  by small changes, each of them told by one event of the journal (`Stir`, in
  Proofs/Cache/Actions), at nodes whose handle resolves and whose key is the one looked for.

  `resume_works` and `start_works` take every piece of an operation apart into such changes,
  up to where it ends or breaks off. They also tell which events an operation writes
  (`Op.writes`), that a value read is that of a node, and that an abort which is not the
  index's leaves the cache as it was. The rest is by cases on a single change.
-/

namespace Recency

variable {κ ν : Type}

/-- A use of the index failed. -/
def Abort.ofIndex : Abort → Bool
  | .indexFailed _ => true
  | _ => false

/-- What an operation may write of the entries. A store writes of its own key, and of others
    only that there was no room for them. -/
def Op.writes : Op κ ν → Event κ ν → Prop
  | .put k _ _ _, .entered e | .put k _ _ _, .overwritten e => e.key = k
  | .put _ _ _ _, .left _ cause => cause = .capacity
  | _, _ => True

namespace Cache

open Recency.Action

/-! ## What becomes of a node -/

/-- What holds of a cache whatever its index says: every node is as it was stored. -/
structure Intact (c : Cache κ ν) : Prop where
  chain : c.chain.WellFormed
  stored : ∀ n ∈ c.chain.entries, n.2 ∈ storedIn c.journal

/-- A node with another key than `k` that is there at `d` was there at `c`, as it is, and one
    that is not there any more was dropped to make room. -/
structure Spares (k : κ) (c d : Cache κ ν) : Prop where
  kept : ∀ n ∈ d.chain.entries, n.2.key ≠ k → n ∈ c.chain.entries
  evicted : ∃ gone : List (Entry κ ν), leftIn d.journal = gone.map (·, .capacity) ++ leftIn c.journal ∧
    ∀ n ∈ c.chain.entries, n.2.key ≠ k → n ∈ d.chain.entries ∨ n.2 ∈ gone

section Facts

variable {A : Event κ ν → Prop} {c d : Cache κ ν}

/-- What is there was there, or has just been stored. -/
theorem Stir.came (h : Stir A c d) {x : SlotId × Entry κ ν} (hx : x ∈ d.chain.entries) :
    x ∈ c.chain.entries ∨ x.2 ∈ storedIn d.journal ∧ (A (.entered x.2) ∨ A (.overwritten x.2)) := by
  cases h with
  | aside he _ _ => exact .inl (he ▸ hx)
  | enters n hA he hs _ =>
    rw [he] at hx
    rcases List.mem_cons.mp hx with rfl | hx
    · exact .inr ⟨hs ▸ List.mem_cons_self, .inl hA⟩
    · exact .inl hx
  | rewrites n e _ _ hA he hs _ =>
    rw [he] at hx
    rcases List.mem_cons.mp hx with rfl | hx
    · exact .inr ⟨hs ▸ List.mem_cons_self, .inr hA⟩
    · exact .inl (List.mem_filter.mp hx).1
  | fronts n hn he _ _ =>
    rw [he] at hx
    rcases List.mem_cons.mp hx with rfl | hx
    · exact .inl hn
    · exact .inl (List.mem_filter.mp hx).1
  | leaves n cause _ _ he _ _ =>
    rw [he] at hx
    exact .inl (List.mem_filter.mp hx).1
  | wipes _ he _ _ =>
    rw [he] at hx
    cases hx

theorem Stir.stored_mono (h : Stir A c d) {e : Entry κ ν} (he : e ∈ storedIn c.journal) : e ∈ storedIn d.journal := by
  cases h with
  | enters _ _ _ hs _ => exact hs ▸ List.mem_cons_of_mem _ he
  | rewrites _ _ _ _ _ _ hs _ => exact hs ▸ List.mem_cons_of_mem _ he
  | aside _ hs _ => exact hs ▸ he
  | fronts _ _ _ hs _ => exact hs ▸ he
  | leaves _ _ _ _ _ hs _ => exact hs ▸ he
  | wipes _ _ hs _ => exact hs ▸ he

/-- Other nodes than `n` are at other handles. -/
theorem mem_others (hc : c.chain.WellFormed) {n x : SlotId × Entry κ ν} (hn : n ∈ c.chain.entries)
    (hx : x ∈ c.chain.entries) (hne : x ≠ n) : x ∈ c.chain.entries.filter (·.1 ≠ n.1) := by
  refine List.mem_filter.mpr ⟨hx, ?_⟩
  have hid : x.1 ≠ n.1 := fun e => hne (List.inj_on_of_nodup_map hc.ids_nodup hx hn e)
  simpa using hid

/-- What was there is there, or has left, or has been overwritten. -/
theorem Stir.went (h : Stir A c d) (hc : c.chain.WellFormed) :
    ∃ gone : List (Entry κ ν × Cause), leftIn d.journal = gone ++ leftIn c.journal ∧ (∀ g ∈ gone, A (.left g.1 g.2)) ∧
      ∀ x ∈ c.chain.entries, x ∈ d.chain.entries ∨ (∃ cause, (x.2, cause) ∈ gone) ∨
        ∃ e, e.key = x.2.key ∧ A (.overwritten e) := by
  cases h with
  | aside he _ hl => exact ⟨[], hl, fun _ hg => (nomatch hg), fun x hx => .inl (he ▸ hx)⟩
  | enters n _ he _ hl =>
    refine ⟨[], hl, fun _ hg => (nomatch hg), ?_⟩
    intro x hx
    exact .inl (he ▸ List.mem_cons_of_mem _ hx)
  | rewrites n e hn hk hA he _ hl =>
    refine ⟨[], hl, fun _ hg => (nomatch hg), ?_⟩
    intro x hx
    by_cases hxn : x = n
    · exact .inr (.inr ⟨e, hxn ▸ hk, hA⟩)
    · exact .inl (he ▸ List.mem_cons_of_mem _ (mem_others hc hn hx hxn))
  | fronts n hn he _ hl =>
    refine ⟨[], hl, fun _ hg => (nomatch hg), ?_⟩
    intro x hx
    rw [he]
    by_cases hxn : x = n
    · exact .inl (hxn ▸ List.mem_cons_self)
    · exact .inl (List.mem_cons_of_mem _ (mem_others hc hn hx hxn))
  | leaves n cause hn hA he _ hl =>
    refine ⟨[(n.2, cause)], hl, ?_, ?_⟩
    · intro g hg
      cases List.mem_singleton.mp hg
      exact hA
    · intro x hx
      by_cases hxn : x = n
      · exact .inr (.inl ⟨cause, hxn ▸ List.mem_cons_self⟩)
      · exact .inl (he ▸ mem_others hc hn hx hxn)
  | wipes hA _ _ hl =>
    refine ⟨_, hl, ?_, ?_⟩
    · intro g hg
      obtain ⟨e, he, rfl⟩ := List.mem_map.mp hg
      exact hA e he
    · intro x hx
      exact .inr (.inl ⟨.cleared, List.mem_map_of_mem (mem_entries hx)⟩)

theorem Stirs.intact (h : Stirs A c d) (hc : c.Intact) : d.Intact := by
  induction h with
  | refl _ => exact hc
  | tail _ hd hw ih =>
    refine ⟨hw, ?_⟩
    intro n hn
    rcases hd.came hn with hn | ⟨hs, -⟩
    · exact hd.stored_mono (ih.stored n hn)
    · exact hs

theorem Spares.refl (k : κ) (c : Cache κ ν) : Spares k c c := ⟨fun _ hn _ => hn, [], rfl, fun _ hn _ => .inl hn⟩

theorem Spares.trans {k : κ} {d' : Cache κ ν} (h : Spares k c d) (h' : Spares k d d') : Spares k c d' := by
  obtain ⟨gone, hl, hg⟩ := h.evicted
  obtain ⟨gone', hl', hg'⟩ := h'.evicted
  refine ⟨fun n hn hk => h.kept n (h'.kept n hn hk) hk, gone' ++ gone, ?_, ?_⟩
  · rw [hl', hl, List.map_append, List.append_assoc]
  · intro n hn hk
    rcases hg n hn hk with hn | hn
    · rcases hg' n hn hk with hn | hn
      · exact .inl hn
      · exact .inr (List.mem_append_left _ hn)
    · exact .inr (List.mem_append_right _ hn)

/-- A change that a store of `k` may make spares the other keys. -/
theorem Stir.spares {k : κ} {value : ν} {ttl : Option Duration} {refusal : OnRefusal}
    (h : Stir (Op.writes (.put k value ttl refusal)) c d) (hc : c.chain.WellFormed) : Spares k c d := by
  obtain ⟨gone, hl, hA, hg⟩ := h.went hc
  have hcap : gone = (gone.map (·.1)).map (·, .capacity) := by
    rw [List.map_map]
    refine (List.map_id gone).symm.trans (List.map_congr_left fun g hgm => ?_)
    exact Prod.ext rfl (hA g hgm)
  refine ⟨?_, gone.map (·.1), hcap ▸ hl, ?_⟩
  · intro n hn hk
    rcases h.came hn with hn | ⟨-, hA | hA⟩
    · exact hn
    · exact absurd hA hk
    · exact absurd hA hk
  · intro n hn hk
    rcases hg n hn with hn | ⟨cause, hn⟩ | ⟨e, he, hA⟩
    · exact .inl hn
    · exact .inr (List.mem_map.mpr ⟨_, hn, rfl⟩)
    · exact absurd (he.symm.trans hA) hk

theorem Stirs.spares {k : κ} {value : ν} {ttl : Option Duration} {refusal : OnRefusal}
    (h : Stirs (Op.writes (.put k value ttl refusal)) c d) : Spares k c d := by
  induction h with
  | refl _ => exact .refl k c
  | tail hd hs _ ih => exact ih.trans (hs.spares hd.wellFormed)

end Facts

/-! ## Tasks -/

/-- A node with the key `k` and the value `v`, which was stored so and has not expired. -/
def Offers (c : Cache κ ν) (k : κ) (v : ν) : Prop :=
  ∃ n ∈ c.chain.entries, n.2.key = k ∧ n.2.value = v ∧ n.2.expired c.now = false ∧ n.2 ∈ storedIn c.journal

/-- A value that is answered for a key is one that the cache offers. -/
def Serves (c : Cache κ ν) (op : Op κ ν) (reply : Reply κ ν) : Prop :=
  match reply, op with
  | .hit (some v), .get k | .hit (some v), .peek k | .got v true, .getOrPut k _ _ _ => c.Offers k v
  | _, _ => True

/-- The nodes, their count and how many there may be are the same. -/
structure Same (c d : Cache κ ν) : Prop where
  chain : d.chain = c.chain
  size : d.size = c.size
  bound : d.bound = c.bound

/-- What is reached goes on, or answers with what the cache serves. -/
def Delivers (op : Op κ ν) : Progress κ ν → Cache κ ν → Prop
  | .done reply, d => d.Serves op reply
  | .release _ _, _ => True

/-- What `op` leaves when it breaks off: the index failed, or nothing had been changed. -/
def Breaks (op : Op κ ν) (c : Cache κ ν) (a : Abort) (d : Cache κ ν) : Prop :=
  Stirs op.writes c d ∧ (a.ofIndex = true ∨ Same c d)

/-- How a piece of `op` comes from `c` to its result. -/
def Works (op : Op κ ν) (c : Cache κ ν) : EStateM.Result Abort (Cache κ ν) (Progress κ ν) → Prop :=
  Yields (fun progress d => Stirs op.writes c d ∧ Delivers op progress d) (Breaks op c)

section Pieces

variable {op : Op κ ν} {c d : Cache κ ν}

theorem Works.stirs {r : EStateM.Result Abort (Cache κ ν) (Progress κ ν)} (h : Works op c r) :
    Engine.Keeps (Stirs op.writes c) r := by
  cases r with
  | ok progress d => exact h.1
  | error a d => exact h.1

theorem fails_breaks (op : Op κ ν) (c d : Cache κ ν) : Fails op.writes c d (Breaks op c) :=
  fun _ _ _ h => ⟨h, .inl rfl⟩

theorem Same.refl (c : Cache κ ν) : Same c c := ⟨rfl, rfl, rfl⟩

/-- A use of the index before a piece is no part of its work. -/
theorem Works.of_used {failing : Option Index.Failure} {r : EStateM.Result Abort (Cache κ ν) (Progress κ ν)}
    (hc : c.chain.WellFormed) (h : Works op { c with failing } r) : Works op c r := by
  have hused : Stirs op.writes c { c with failing } := (Stirs.refl hc).aside rfl rfl rfl
  cases r with
  | ok progress d => exact ⟨hused.trans h.1, h.2⟩
  | error a d => exact ⟨hused.trans h.1, h.2.imp id fun hs => ⟨hs.chain, hs.size, hs.bound⟩⟩

theorem refuse_works (h : Stirs op.writes c d) (hs : Same c d) (refusal : OnRefusal) (e : ArenaError) :
    Works op c (Cache.refuse refusal e d) := by
  cases refusal with
  | abort => exact ⟨h, .inr hs⟩
  | report => exact ⟨h, trivial⟩

/-- A node of an intact cache is offered wherever it still is. -/
theorem Intact.offers (hc : c.Intact) {id : SlotId} {e : Entry κ ν} (hm : (id, e) ∈ c.chain.entries)
    (hx : ¬ e.expired c.now = true) (hd : (id, e) ∈ d.chain.entries) (hclock : d.clock = c.clock)
    (hj : d.journal = c.journal) : d.Offers e.key e.value := by
  refine ⟨(id, e), hd, rfl, rfl, ?_, hj ▸ hc.stored _ hm⟩
  unfold now at hx ⊢
  rw [hclock]
  exact Bool.eq_false_iff.mpr hx

variable [DecidableEq κ]

/-- A piece that begins with a look into the index. -/
theorem load_works (hc : c.Intact) (k : κ) {f : Option SlotId → Action κ ν (Progress κ ν)}
    (h : ∀ (d : Cache κ ν) found, d.Intact → Works op d (f found d)) : Works op c ((load k >>= f) c) := by
  refine yields_bind (load_yields (.refl hc.chain) (fails_breaks op c c) k fun found failing _ => ?_)
  exact (h { c with failing } found ⟨hc.chain, hc.stored⟩).of_used hc.chain

/-- A piece that begins with a look for a node. -/
theorem locate_works (hc : c.Intact) (k : κ) {f : Option (SlotId × Entry κ ν) → Action κ ν (Progress κ ν)}
    (hnone : ∀ d : Cache κ ν, d.Intact → Works op d (f none d))
    (hsome : ∀ (d : Cache κ ν) id e, d.Intact → (id, e) ∈ d.chain.entries → e.key = k →
      Works op d (f (some (id, e)) d)) :
    Works op c ((locate k >>= f) c) := by
  refine yields_bind (locate_yields (.refl hc.chain) (fails_breaks op c c) k ?_ ?_)
  · intro failing _
    exact (hnone { c with failing } ⟨hc.chain, hc.stored⟩).of_used hc.chain
  · intro id e failing hm hk _
    exact (hsome { c with failing } id e ⟨hc.chain, hc.stored⟩ hm hk).of_used hc.chain

theorem finishPut_works (hc : c.chain.WellFormed) (hroom : c.hasRoom = true ∨ c.entries = []) (k : κ) (value : ν)
    (ttl : Option Duration) (deadline : Option Instant) (refusal : OnRefusal) :
    Works (.put k value ttl refusal) c (Cache.finishPut k value deadline refusal c) := by
  refine yields_bind (enter_yields (.refl hc) (fails_breaks _ c c) hroom value deadline (fun _ he => he) ?_ ?_)
  · intro e
    exact refuse_works (.refl hc) (.refl c) refusal e
  · intro e d hd _
    exact ⟨hd, by cases refusal <;> trivial⟩

theorem finishGetOrPut_works (hc : c.chain.WellFormed) (hroom : c.hasRoom = true ∨ c.entries = []) (k : κ) (value : ν)
    (ttl : Duration) (refusal : OnRefusal) :
    Works (.getOrPut k value ttl refusal) c (Cache.finishGetOrPut k value ttl refusal c) := by
  let counted : Cache κ ν := { c with counters := c.counters.bump .getMiss }
  have hd : Stirs (Op.writes (.getOrPut k value ttl refusal)) c counted := (Stirs.refl hc).aside rfl rfl rfl
  refine yields_modify (yields_get (yields_bind ?_))
  refine enter_yields hd (fails_breaks _ c counted) hroom value _ (fun _ _ => trivial) ?_ ?_
  · intro e
    exact refuse_works hd ⟨rfl, rfl, rfl⟩ refusal e
  · intro e d hd _
    exact ⟨hd, trivial⟩

/-- A store that did not find its key drops one entry and goes on, or ends here. -/
theorem makeRoom_works (hc : c.chain.WellFormed) (hA : ∀ e, op.writes (.left e .capacity))
    {finish : Action κ ν (Progress κ ν)} (hf : c.hasRoom = true ∨ c.entries = [] → Works op c (finish c))
    {task : Task κ ν} :
    Works op c
      ((do if (← get).hasRoom then finish
           else match ← evict with
             | none => finish
             | some victim => return .release victim task : Action κ ν (Progress κ ν)) c) := by
  refine yields_get ?_
  by_cases hr : c.hasRoom = true
  · rw [if_pos hr]
    exact hf (.inl hr)
  · rw [if_neg hr]
    refine yields_bind (evict_yields (.refl hc) (fails_breaks op c c) hA (fun he => hf (.inr he)) ?_)
    intro e d hd _
    exact ⟨hd, trivial⟩

theorem resumePut_works (hc : c.Intact) (k : κ) (value : ν) (ttl : Option Duration) (deadline : Option Instant)
    (refusal : OnRefusal) : Works (.put k value ttl refusal) c (Cache.resumePut k value deadline refusal c) := by
  have hA : ∀ e, Op.writes (.put k value ttl refusal) (.left e .capacity) := fun _ => rfl
  refine locate_works hc k (fun d hd => ?_) fun d id e hd hm hk => ?_
  · exact makeRoom_works hd.chain hA fun hr => finishPut_works hd.chain hr k value ttl deadline refusal
  · have h : Stirs (Op.writes (.put k value ttl refusal)) d d := .refl hd.chain
    refine yields_bind (overwrite_yields h hm value deadline hk ?_)
    intro d' hd' _
    exact ⟨hd', by cases refusal <;> trivial⟩

theorem resumeGetOrPut_works (hc : c.Intact) (k : κ) (value : ν) (ttl : Duration) (refusal : OnRefusal) :
    Works (.getOrPut k value ttl refusal) c (Cache.resumeGetOrPut k value ttl refusal c) := by
  have hA : ∀ e, Op.writes (.getOrPut k value ttl refusal) (.left e .capacity) := fun _ => trivial
  refine locate_works hc k (fun d hd => ?_) fun d id e hd hm hk => yields_get ?_
  · exact makeRoom_works hd.chain hA fun hr => finishGetOrPut_works hd.chain hr k value ttl refusal
  · have h : Stirs (Op.writes (.getOrPut k value ttl refusal)) d d := .refl hd.chain
    by_cases hx : e.expired d.now = true
    · rw [if_pos hx]
      refine yields_bind (detach_yields h (fails_breaks _ d d) hm trivial ?_)
      intro d' hd' _ _
      exact ⟨hd'.aside rfl rfl rfl, trivial⟩
    · rw [if_neg hx]
      subst hk
      refine yields_bind (promote_yields h hm fun chain hm' hd' _ => ?_)
      exact ⟨hd'.aside rfl rfl rfl, hd.offers hm hx hm' rfl rfl⟩

theorem resumeShrink_works (h : Stirs op.writes c d) (hA : ∀ e, op.writes (.left e .capacity))
    (bound : UInt64) (dropped : Nat) : Works op c (Cache.resumeShrink bound dropped d) := by
  have hdone : Works op c ((do note (.resized bound dropped); return .done .unit : Action κ ν (Progress κ ν)) d) :=
    ⟨h.aside rfl rfl rfl, trivial⟩
  refine yields_get ?_
  by_cases hover : d.bound < d.size
  · rw [if_pos hover]
    refine yields_bind (evict_yields h (fails_breaks op c d) hA (fun _ => hdone) ?_)
    intro e d' hd _
    exact ⟨hd, trivial⟩
  · rw [if_neg hover]
    exact hdone

/-- What is left of an operation that has only to notify. It read nothing. -/
theorem notify_works (h : Stirs op.writes c d) {p : Plain κ ν} {victims : List (Entry κ ν)} {ending : Option Note}
    {reply : Reply κ ν} (ha : Plain.Awaits p op (.notify victims ending reply)) :
    Works op c (Cache.resume (.notify victims ending reply) d) := by
  have hr : ∀ d : Cache κ ν, d.Serves op reply := by
    intro d
    cases ha <;> trivial
  cases victims with
  | cons victim victims => exact ⟨h, trivial⟩
  | nil =>
    cases ending with
    | none => exact ⟨h, hr _⟩
    | some n => exact ⟨h.aside rfl rfl rfl, hr _⟩

theorem resume_works (hc : c.Intact) {p : Plain κ ν} {task : Task κ ν} (ha : Plain.Awaits p op task) :
    Works op c (Cache.resume task c) := by
  have h : Stirs op.writes c c := .refl hc.chain
  cases ha with
  | put k value ttl refusal => exact resumePut_works hc k value ttl _ refusal
  | getOrPut k value ttl refusal => exact resumeGetOrPut_works hc k value ttl refusal
  | get k => exact notify_works h (Plain.Awaits.get (p := p) k)
  | peek k => exact notify_works h (Plain.Awaits.peek (p := p) k)
  | delete k => exact notify_works h (Plain.Awaits.delete (p := p) k)
  | resize asked bound dropped => exact resumeShrink_works h (fun _ => trivial) bound dropped
  | purge victims ending n => exact notify_works h (Plain.Awaits.purge (p := p) victims ending n)
  | clear victims ending => exact notify_works h (Plain.Awaits.clear (p := p) victims ending)

/-! ## Operations -/

theorem read_works (hc : c.Intact) {k : κ} (hop : op = .get k ∨ op = .peek k) (touch : Bool) :
    Works op c (Cache.read k touch c) := by
  have hA : ∀ e, op.writes (.left e .expired) := by
    intro e
    rcases hop with rfl | rfl <;> trivial
  have hhit : ∀ (d : Cache κ ν) v, d.Offers k v → d.Serves op (.hit (some v)) := by
    intro d v hv
    rcases hop with rfl | rfl <;> exact hv
  have hmiss : ∀ d : Cache κ ν, d.Intact →
      Works op d ((do count .getMiss; return .done (.hit none) : Action κ ν (Progress κ ν)) d) := fun d hd =>
    ⟨(Stirs.refl hd.chain).aside rfl rfl rfl, trivial⟩
  refine load_works hc k fun d found hd => ?_
  split
  · exact hmiss d hd
  refine locate_works hd k hmiss fun d id e hd hm hk => yields_get ?_
  have h : Stirs op.writes d d := .refl hd.chain
  by_cases hx : e.expired d.now = true
  · rw [if_pos hx]
    refine yields_bind (detach_yields h (fails_breaks op d d) hm (hA e) ?_)
    intro d' hd' _ _
    exact ⟨hd'.aside rfl rfl rfl, trivial⟩
  · rw [if_neg hx]
    subst hk
    cases touch with
    | true =>
      refine yields_bind (promote_yields h hm fun chain hm' hd' _ => ?_)
      exact ⟨hd'.aside rfl rfl rfl, hhit _ _ (hd.offers hm hx hm' rfl rfl)⟩
    | false => exact ⟨h.aside rfl rfl rfl, hhit _ _ (hd.offers hm hx hm rfl rfl)⟩

theorem delete_works (hc : c.Intact) (k : κ) : Works (.delete k) c (Cache.delete k c) := by
  have hmiss : ∀ d : Cache κ ν, d.Intact → Works (.delete k) d (.ok (.done (.flag false)) d) := fun d hd =>
    ⟨.refl hd.chain, trivial⟩
  refine load_works hc k fun d found hd => ?_
  split
  · exact hmiss d hd
  refine locate_works hd k hmiss fun d id e hd hm _ => ?_
  refine yields_bind (detach_yields (.refl hd.chain) (fails_breaks _ d d) hm trivial ?_)
  intro d' hd' _ _
  exact ⟨hd'.aside rfl rfl rfl, trivial⟩

omit [DecidableEq κ] in
theorem primed_stirs {A : Event κ ν → Prop} (h : Stirs A c d) (asked : UInt64) :
    Stirs A c (d.primed (.resize asked)) := by
  by_cases e : asked = 0
  · subst e
    exact h.aside rfl rfl rfl
  · have hj : (d.primed (.resize asked)).journal = d.journal := if_neg e
    exact h.aside rfl (congrArg storedIn hj) (congrArg leftIn hj)

theorem start_works (hc : c.Intact) (op : Op κ ν) : Works op c (Cache.start op c) := by
  have h : Stirs op.writes c c := .refl hc.chain
  have hover : Breaks op c .overflow c := ⟨h, .inr (.refl c)⟩
  have hlooked : ∀ failing, Stirs op.writes c { c with failing } := fun _ => h.aside rfl rfl rfl
  cases op with
  | put k value ttl refusal => exact resumePut_works hc k value ttl _ refusal
  | getOrPut k value ttl refusal => exact resumeGetOrPut_works hc k value ttl refusal
  | get k => exact read_works hc (.inl rfl) true
  | peek k => exact read_works hc (.inr rfl) false
  | has k =>
    exact yields_bind (has_yields h (fails_breaks _ c c) k fun _ failing _ => ⟨hlooked failing, trivial⟩)
  | delete k => exact delete_works hc k
  | resize asked =>
    rw [resize_eq]
    exact resumeShrink_works (primed_stirs h asked) (fun _ => trivial) _ 0
  | purge =>
    obtain ⟨hl, hn⟩ := due_nodes hc.chain
    refine yields_get (yields_bind (reap_yields h (fails_breaks _ c c) (fun _ => trivial) hl hn ?_))
    intro d hd _
    exact notify_works hd (Plain.Awaits.purge (p := c.view) _ _ _)
  | clear =>
    refine yields_get (yields_bind (dropAll_yields h (fails_breaks _ c c) (fun _ => trivial) ?_))
    intro d hd _
    have hcounted : Stirs (Op.writes .clear) c { d with counters := d.counters.bump .clear } := hd.aside rfl rfl rfl
    exact notify_works hcounted (Plain.Awaits.clear (p := c.view) _ _)
  | keys => exact ⟨h, trivial⟩
  | values => exact ⟨h, trivial⟩
  | visit stopAfter => exact ⟨h, trivial⟩
  | length => exact ⟨h, trivial⟩
  | bound => exact ⟨h, trivial⟩
  | isEmpty => exact ⟨h, trivial⟩
  | defaultTtl => exact ⟨h, trivial⟩
  | check =>
    refine yields_bind (check_yields h (fails_breaks _ c c) fun found failing _ => ?_)
    cases found <;> exact ⟨hlooked failing, trivial⟩
  | inspect layout => exact ⟨h, trivial⟩
  | metrics => exact yields_bind (snapshot_yields (fun s => ⟨h, trivial⟩) hover)
  | snapshot => exact yields_bind (snapshot_yields (fun s => ⟨h, trivial⟩) hover)
  | expose family limit => exact yields_bind (snapshot_yields (fun s => ⟨h, trivial⟩) hover)
  | advance step => exact ⟨h.aside rfl rfl rfl, trivial⟩
  | elapsed => exact ⟨h, trivial⟩
  | abort message => exact ⟨h, .inr (.refl c)⟩
  | memory memory => exact ⟨h.aside rfl rfl rfl, trivial⟩
  | index op =>
    refine yields_get ?_
    split
    · exact ⟨h.aside rfl rfl rfl, trivial⟩
    · exact ⟨h, trivial⟩
  | failIndex failure => exact ⟨h.aside rfl rfl rfl, trivial⟩

end Pieces

end Cache

end Recency
