import Recency.Proofs.Session.History
/-
  Recency.Proofs.Session.Reads — a read gives what was stored last.

  Which store to a key stands after a history is told by the deeds alone: the last one that
  was made, unless an entry of the key has left since. The cache holds the entries of the
  stores that stand and no other (`Stands`), because each turn of the list does to the
  entries what the deed does to the stores (`Turn.stands`).

  An entry may stand and be due. It is read as missing, on every way to look it up, whether
  or not it has been dropped yet (`shows_last_store`).
-/

namespace Recency

variable {κ ν : Type}

/-! ## Stores that stand -/

/-- Good at `now`: it is to last for ever, or until a time that no clock shows, or until
    one that has not passed. -/
def Store.fresh (now : Instant) (s : Store κ ν) : Bool :=
  s.ttl = .zero || s.time.add? s.ttl = none || now.nanos ≤ s.time.nanos + s.ttl.nanos

theorem Store.fresh_of_le {s : Store κ ν} {now later : Instant} (h : now.nanos ≤ later.nanos)
    (hf : s.fresh later = true) : s.fresh now = true := by
  simp only [fresh, Bool.or_eq_true, decide_eq_true_eq] at hf ⊢
  rcases hf with hf | hf
  · exact .inl hf
  · exact .inr (by omega)

theorem Store.expired_eq {s : Store κ ν} {e : Entry κ ν} (h : e.deadline = s.deadline) (now : Instant) :
    e.expired now = !s.fresh now := by
  unfold Entry.expired Store.fresh
  rw [h, Store.deadline]
  by_cases hz : s.ttl = .zero
  · simp [hz]
  · by_cases hl : s.time.nanos + s.ttl.nanos < Instant.limit
    · rw [Bool.eq_iff_iff]
      simp [hz, Instant.add?, hl]
    · simp [hz, Instant.add?, hl]

variable [DecidableEq κ]

/-- The stay of `k` has ended, if there was one: it was deleted, cleared away, or it had to
    make room or was found expired meanwhile. -/
def Deed.ends (k : κ) (d : Deed κ ν) : Bool :=
  d.removes k || d.gone.any fun g => g.1.key = k && (g.2 = .capacity || g.2 = .expired)

/-- The store to `k` that stands after `d`, when `before` stood before it. -/
def Deed.standing (default : Duration) (k : κ) (before : Option (Store κ ν)) (d : Deed κ ν) : Option (Store κ ν) :=
  match (d.store? default).filter (·.key = k) with
  | some s => some s
  | none => if d.ends k then none else before

/-- The last store to `k` in a history, unless the stay of `k` has ended since. -/
def standing (default : Duration) (k : κ) (history : List (Deed κ ν)) : Option (Store κ ν) :=
  history.foldl (Deed.standing default k) none

theorem standing_append (default : Duration) (k : κ) (history later : List (Deed κ ν)) :
    standing default k (history ++ later) = later.foldl (Deed.standing default k) (standing default k history) :=
  List.foldl_append

theorem standing_concat (default : Duration) (k : κ) (history : List (Deed κ ν)) (d : Deed κ ν) :
    standing default k (history ++ [d]) = d.standing default k (standing default k history) :=
  standing_append default k history [d]

/-- Without another store to `k`, what stood stands or stands no more. -/
theorem foldl_standing {default : Duration} {k : κ} {history : List (Deed κ ν)}
    (h : ∀ d ∈ history, ∀ st, d.store? default = some st → st.key ≠ k) (before : Option (Store κ ν)) :
    history.foldl (Deed.standing default k) before = before ∨
      history.foldl (Deed.standing default k) before = none := by
  induction history generalizing before with
  | nil => exact .inl rfl
  | cons d history ih =>
    have hd : Deed.standing default k before d = if d.ends k then none else before := by
      have hf : (d.store? default).filter (·.key = k) = none :=
        Option.filter_eq_none_iff.mpr fun st hst => by simpa using h d (by simp) st hst
      rw [Deed.standing, hf]
    have hrest := ih (fun d hd => h d (by simp [hd]))
    rw [List.foldl_cons, hd]
    split
    · exact .inr ((hrest none).elim id id)
    · exact hrest before

/-! ## The entries are the stores that stand -/

namespace Plain

/-- The entries are those of the stores that stand, with their values and deadlines. -/
structure Stands (default : Duration) (history : List (Deed κ ν)) (p : Plain κ ν) : Prop where
  defaultTtl : p.defaultTtl = default
  stores : ∀ k, (p.find? k).map (fun e => (e.value, e.deadline)) =
    (standing default k history).map fun s => (s.value, s.deadline)

variable {p q : Plain κ ν} {d : Deed κ ν} {front : Option (Entry κ ν)} {rest : List (Entry κ ν)}

/-- A key is found among those that stayed unless its stay has ended. -/
theorem Turn.find?_rest (h : Turn true p d front rest q) (k : κ) :
    rest.find? (·.key = k) = if d.ends k then none else p.find? k := by
  by_cases he : d.ends k = true
  · rw [if_pos he, List.find?_eq_none]
    intro x hx hk
    have hk : x.key = k := by simpa using hk
    subst hk
    simp only [Deed.ends, h.rest_kept x hx, Bool.false_or, List.any_eq_true, Bool.and_eq_true, decide_eq_true_eq] at he
    obtain ⟨g, hg, hk, -⟩ := he
    have hx' := h.shed.rest_eq ▸ hx
    have hgone : x.key ∈ d.gone.map (·.1.key) := List.mem_map.mpr ⟨g, hg, hk⟩
    simp [hgone] at hx'
  · have hgone : k ∉ d.gone.map (·.1.key) := by
      intro hm
      obtain ⟨g, hg, rfl⟩ := List.mem_map.mp hm
      refine he ?_
      simp only [Deed.ends, Bool.or_eq_true, List.any_eq_true, Bool.and_eq_true, decide_eq_true_eq]
      rcases h.cause g hg with hc | hc | hr
      · exact .inr ⟨g, hg, rfl, .inl hc⟩
      · exact .inr ⟨g, hg, rfl, .inr hc⟩
      · exact .inl hr
    rw [if_neg he, h.shed.rest_eq, List.find?_filter, find?]
    congr 1
    funext x
    by_cases hx : x.key = k
    · simp [hx, hgone]
    · simp [hx]

theorem find?_fronted (e : Entry κ ν) (rest : List (Entry κ ν)) (k : κ) :
    (fronted (some e) rest).find? (·.key = k) = if e.key = k then some e else rest.find? (·.key = k) := by
  by_cases hk : e.key = k
  · rw [if_pos hk, fronted, List.find?_cons_of_pos (by simpa using hk)]
  · rw [if_neg hk, fronted, List.find?_cons_of_neg (by simpa using hk), List.find?_filter]
    congr 1
    funext x
    by_cases hx : x.key = k
    · simp [hx, Ne.symm hk]
    · simp [hx]

theorem Turn.stands (h : Turn true p d front rest q) (hn : (p.entries.map (·.key)).Nodup) {default : Duration}
    {history : List (Deed κ ν)} (hs : p.Stands default history) : q.Stands default (history ++ [d]) := by
  refine ⟨h.defaultTtl.trans hs.defaultTtl, fun k => ?_⟩
  have hrest : (rest.find? (·.key = k)).map (fun e => (e.value, e.deadline)) =
      (if d.ends k then none else standing default k history).map fun s => (s.value, s.deadline) := by
    rw [h.find?_rest k]
    split
    · rfl
    · exact hs.stores k
  have hstored := h.stored
  have hfound := h.found
  rw [hs.defaultTtl] at hstored hfound
  rw [standing_concat, Deed.standing, find?, h.entries]
  cases hst : d.store? default with
  | none =>
    cases front with
    | none => exact hrest
    | some e =>
      rw [find?_fronted]
      split
      · -- the entry was found, so it is the one of its key that stayed
        rename_i hk
        have hstays : rest.find? (·.key = k) = some e :=
          (find?_key_eq_some (h.shed.nodup hn)).mpr ⟨hfound hst e rfl, hk⟩
        rwa [hstays] at hrest
      · exact hrest
  | some st =>
    obtain ⟨e, rfl, hkey, hvalue, hdeadline⟩ := hstored st hst
    rw [find?_fronted, Option.filter_some]
    by_cases hk : e.key = k
    · rw [if_pos hk, if_pos (by simpa [← hkey] using hk)]
      simp [hvalue, hdeadline rfl]
    · rw [if_neg hk, if_neg (by simpa [← hkey] using hk)]
      exact hrest

end Plain

namespace Session

variable {still : Bool} {s : Session (Cache κ ν) κ ν}

theorem performAll_stands {ops : List (Op κ ν)} (hops : ∀ op ∈ ops, op.quiet = true) (hs : s.Aloof true)
    {default : Duration} {history : List (Deed κ ν)} (h : s.cache.view.Stands default history) :
    (performAll Cache.engine ops s).2.cache.view.Stands default (history ++ deeds ops s) :=
  performAll_keeps (I := fun history p => p.Stands default history) (fun _ _ _ _ _ _ hn ht h => ht.stands hn h) hops
    hs h

/-! ## Looking up -/

/-- An operation that ends at once, or with nothing left to do but to answer. -/
theorem perform_answers (hs : s.Aloof still) {op : Op κ ν} (hop : op.quiet = true) {reply : Reply κ ν}
    (h : Engine.Leads (fun task _ => task = .notify [] none reply) (fun o _ => o = .returned reply)
      (Plain.start s.cache.glance op s.cache.view)) :
    (s.perform Cache.engine op).1 = .returned reply :=
  (perform_carries hs op hop (Plain.answers_carries fun _ => rfl) h).2

/-- What is seen of `k`, on every way to look it up. -/
structure Shows (s : Session (Cache κ ν) κ ν) (k : κ) (seen : Option ν) : Prop where
  get : (s.perform Cache.engine (.get k)).1 = .returned (.hit seen)
  peek : (s.perform Cache.engine (.peek k)).1 = .returned (.hit seen)
  has : (s.perform Cache.engine (.has k)).1 = .returned (.flag seen.isSome)
  listed : ∃ kvs : List (κ × ν), (∀ v, (k, v) ∈ kvs ↔ seen = some v) ∧
    (s.perform Cache.engine .keys).1 = .returned (.keys (kvs.map (·.1))) ∧
    (s.perform Cache.engine .values).1 = .returned (.values (kvs.map (·.2))) ∧
    ∀ stopAfter, (s.perform Cache.engine (.visit stopAfter)).1 =
      .returned (.visited (if stopAfter = 0 then kvs else kvs.take stopAfter))

theorem read_leads (k : κ) (touch : Bool) (p : Plain κ ν) :
    let reply : Reply κ ν := .hit (((p.find? k).filter fun e => !e.expired p.now).map (·.value))
    Engine.Leads (fun task _ => task = .notify [] none reply) (fun o _ => o = .returned reply) (p.read k touch) := by
  unfold Plain.read
  cases hf : p.find? k with
  | none => rfl
  | some e => cases hx : e.expired p.now <;> simp [Engine.Leads, hx, Option.filter]

theorem shows_fresh (hs : s.Aloof still) (k : κ) :
    s.Shows k (((s.cache.view.find? k).filter fun e => !e.expired s.cache.now).map (·.value)) where
  get := perform_answers hs rfl (read_leads k true s.cache.view)
  peek := perform_answers hs rfl (read_leads k false s.cache.view)
  has := by
    refine perform_answers hs rfl ?_
    show Outcome.returned (Reply.flag _) = _
    cases hf : s.cache.view.find? k with
    | none => rfl
    | some e =>
      have hnow : s.cache.view.now = s.cache.now := rfl
      cases hx : e.expired s.cache.now <;> simp [hx, hnow, Option.filter]
  listed := by
    refine ⟨s.cache.view.fresh.map fun e => (e.key, e.value), fun v => ?_, perform_answers hs rfl ?_,
      perform_answers hs rfl ?_, fun stopAfter => perform_answers hs rfl ?_⟩
    · have hn := hs.steady.keys_nodup
      simp only [List.mem_map, Plain.fresh, List.mem_filter, Option.map_eq_some_iff, Option.filter_eq_some_iff]
      constructor
      · rintro ⟨e, ⟨hm, hx⟩, he⟩
        cases he
        exact ⟨e, ⟨(find?_key_eq_some hn).mpr ⟨hm, rfl⟩, hx⟩, rfl⟩
      · rintro ⟨e, ⟨hf, hx⟩, rfl⟩
        obtain ⟨hm, rfl⟩ := (find?_key_eq_some hn).mp hf
        exact ⟨e, ⟨hm, hx⟩, rfl⟩
    · show Outcome.returned (Reply.keys _) = _
      rw [List.map_map]
      rfl
    · show Outcome.returned (Reply.values _) = _
      rw [List.map_map]
      rfl
    · rfl

/-- The value of a store that stands and is good. -/
theorem fresh_eq {p : Plain κ ν} {k : κ} {st : Option (Store κ ν)} (now : Instant)
    (h : (p.find? k).map (fun e => (e.value, e.deadline)) = st.map fun s => (s.value, s.deadline)) :
    ((p.find? k).filter fun e => !e.expired now).map (·.value) = (st.filter (·.fresh now)).map (·.value) := by
  cases hf : p.find? k with
  | none =>
    cases st with
    | none => rfl
    | some st => rw [hf] at h; cases h
  | some e =>
    cases st with
    | none => rw [hf] at h; cases h
    | some st =>
      rw [hf] at h
      obtain ⟨hvalue, hdeadline⟩ := Prod.mk.inj (Option.some.inj h)
      have hx := Store.expired_eq hdeadline now
      cases hfresh : st.fresh now <;> simp [Option.filter, hx, hfresh, hvalue]

theorem build_stands (cfg : Settings) : (cfg.build : Cache κ ν).view.Stands cfg.defaultTtl [] := by
  rw [(Cache.build_steady cfg).2]
  exact ⟨rfl, fun _ => rfl⟩

/-- After any history, every way to look up `k` shows the value of the last store to `k` if
    no stay of `k` has ended since and the time to live is zero, or reaches past the last
    point in time, or is not over; and shows `k` as missing otherwise. A value that is not
    shown now is not shown later, unless `k` is stored again or the clock goes back. -/
theorem shows_last_store (cfg : Settings) (rs : List (Reaction κ ν)) (ops : List (Op κ ν))
    (hrs : ∀ r ∈ rs, ∀ op ∈ r.ops, op.aside true = true) (hops : ∀ op ∈ ops, op.quiet = true) (k : κ) :
    let s := (performAll Cache.engine ops ⟨cfg.build, rs⟩).2
    let seen := ((standing cfg.defaultTtl k (deeds ops ⟨cfg.build, rs⟩)).filter (·.fresh s.cache.now)).map (·.value)
    s.Shows k seen ∧
      ∀ later : List (Op κ ν), (∀ op ∈ later, op.quiet = true) →
        let s' := (performAll Cache.engine later s).2
        seen = none → (∀ d ∈ deeds later s, ∀ st, d.store? cfg.defaultTtl = some st → st.key ≠ k) →
          s.cache.now.nanos ≤ s'.cache.now.nanos → s'.Shows k none := by
  intro s seen
  have hbuilt := build_aloof cfg hrs
  have hs : s.Aloof true := performAll_aloof hops hbuilt
  have hstands : s.cache.view.Stands cfg.defaultTtl (deeds ops ⟨cfg.build, rs⟩) :=
    performAll_stands hops hbuilt (build_stands cfg)
  constructor
  · have hshows := shows_fresh hs k
    rwa [fresh_eq _ (hstands.stores k)] at hshows
  · intro later hlater s' hnone hstore hnow
    have hshows := shows_fresh (performAll_aloof hlater hs) k
    rw [fresh_eq _ ((performAll_stands hlater hs hstands).stores k), standing_append] at hshows
    rcases foldl_standing hstore (standing cfg.defaultTtl k (deeds ops ⟨cfg.build, rs⟩)) with hst | hst <;>
      rw [hst] at hshows
    · -- what stands stood before, and was not good even then
      have hdue : (standing cfg.defaultTtl k (deeds ops ⟨cfg.build, rs⟩)).filter (·.fresh s'.cache.now) = none := by
        refine Option.filter_eq_none_iff.mpr fun st hst hfresh => ?_
        exact Option.filter_eq_none_iff.mp (Option.map_eq_none_iff.mp hnone) st hst (Store.fresh_of_le hnow hfresh)
      rwa [hdue] at hshows
    · exact hshows

/-- What is to last five nanoseconds is shown at the fifth, and not from the sixth on. Before
    that the key 2 made room for the key 3, and the callback read the clock. -/
theorem shows_last_store_due :
    let cfg : Settings := ⟨2, ⟨5⟩, true, none, false, 0⟩
    let rs : List (Reaction Nat Nat) := [⟨none, 1, [.elapsed]⟩]
    let ops : List (Op Nat Nat) :=
      [.put 1 10 none .abort, .put 2 20 none .abort, .put 1 11 none .abort, .put 3 30 none .abort, .advance ⟨5⟩]
    let good := (performAll Cache.engine ops ⟨cfg.build, rs⟩).2
    let due := (performAll Cache.engine (ops ++ [.advance ⟨1⟩]) ⟨cfg.build, rs⟩).2
    let purged := (performAll Cache.engine [.purge, .advance ⟨1⟩] due).2
    (∀ r ∈ rs, ∀ op ∈ r.ops, op.aside true = true) ∧ (∀ op ∈ ops ++ [.advance ⟨1⟩], op.quiet = true) ∧
      good.Shows 1 (some 11) ∧ good.Shows 2 none ∧ due.Shows 1 none ∧ purged.Shows 1 none := by
  intro cfg rs ops good due purged
  have hrs : ∀ r ∈ rs, ∀ op ∈ r.ops, op.aside true = true := by decide
  have hops : ∀ op ∈ ops, op.quiet = true := by decide
  have hdue : ∀ op ∈ ops ++ [.advance ⟨1⟩], op.quiet = true := by decide
  have hgood1 : ((standing cfg.defaultTtl 1 (deeds ops ⟨cfg.build, rs⟩)).filter (·.fresh good.cache.now)).map
      (·.value) = some 11 := by decide +kernel
  have hgood2 : ((standing cfg.defaultTtl 2 (deeds ops ⟨cfg.build, rs⟩)).filter (·.fresh good.cache.now)).map
      (·.value) = none := by decide +kernel
  have hdue1 : ((standing cfg.defaultTtl 1 (deeds (ops ++ [.advance ⟨1⟩]) ⟨cfg.build, rs⟩)).filter
      (·.fresh due.cache.now)).map (·.value) = none := by decide +kernel
  have hstore : ∀ d ∈ deeds [.purge, .advance ⟨1⟩] due, d.store? cfg.defaultTtl = none := by decide +kernel
  obtain ⟨hshows1, -⟩ := shows_last_store cfg rs ops hrs hops 1
  obtain ⟨hshows2, -⟩ := shows_last_store cfg rs ops hrs hops 2
  obtain ⟨hshows3, hlater⟩ := shows_last_store cfg rs _ hrs hdue 1
  rw [hgood1] at hshows1
  rw [hgood2] at hshows2
  rw [hdue1] at hshows3
  refine ⟨hrs, hdue, hshows1, hshows2, hshows3, ?_⟩
  refine hlater [.purge, .advance ⟨1⟩] (by decide) hdue1 (fun d hd st hst => ?_) (by decide +kernel)
  rw [hstore d hd] at hst
  cases hst

end Session

end Recency
