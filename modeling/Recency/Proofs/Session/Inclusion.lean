import Recency.Proofs.Session.Effects
/-
  Recency.Proofs.Session.Inclusion — a larger cache holds all that a smaller one holds.

  Two caches of different bounds are given the same operations, of which none gives a time
  to live and none is a `get`. The keys of the smaller one are then the first of the keys of
  the larger one, in the same order, after every operation. What the operations do to the
  keys is read off `rekeyed`; there the bound only says where the list is cut off, and that
  is why one of the lists begins with the other (`rekeyed_prefix`).

  A `get` of a key that only the larger cache holds brings it to the front there, and leaves
  the smaller cache as it is. So the order does depend on the bound when keys are read.
-/

namespace Recency

variable {κ ν : Type}

/-- Does as the smaller cache does in a larger one: gives no time to live, reads without a
    touch, and leaves the bound alone. -/
def Op.uniform (defaultTtl : Duration) : Op κ ν → Bool
  | .put _ _ ttl _ => ttl.getD defaultTtl = .zero
  | .getOrPut _ _ ttl _ => ttl = .zero
  | .get _ | .resize _ => false
  | op => op.quiet

variable [DecidableEq κ]

/-- The keys after `op`, in a cache of the bound `n`. -/
def Op.rekeyed (n : Nat) (op : Op κ ν) (ks : List κ) : List κ :=
  match op with
  | .put k .. | .getOrPut k .. => k :: (ks.filter (· ≠ k)).take (n - 1)
  | .delete k => ks.filter (· ≠ k)
  | .clear => []
  | _ => ks

theorem Op.rekeyed_prefix {n m : Nat} (hnm : n ≤ m) (op : Op κ ν) {ks ks' : List κ} (h : ks <+: ks') :
    op.rekeyed n ks <+: op.rekeyed m ks' := by
  have hfilter : ∀ k, ks.filter (· ≠ k) <+: ks'.filter (· ≠ k) := fun k => h.filter _
  -- what the smaller cache cuts off is cut off behind all that it keeps
  have hcut : ∀ k, (ks.filter (· ≠ k)).take (n - 1) <+: (ks'.filter (· ≠ k)).take (m - 1) := by
    intro k
    rw [List.prefix_take_iff]
    refine ⟨(List.take_prefix _ _).trans (hfilter k), ?_⟩
    have hlen : ((ks.filter (· ≠ k)).take (n - 1)).length ≤ n - 1 := List.length_take_le _ _
    omega
  cases op with
  | put k value ttl refusal => exact List.cons_prefix_cons.mpr ⟨rfl, hcut k⟩
  | getOrPut k value ttl refusal => exact List.cons_prefix_cons.mpr ⟨rfl, hcut k⟩
  | delete k => exact hfilter k
  | clear => exact List.prefix_rfl
  | _ => exact h

namespace Plain

variable {p q : Plain κ ν} {op : Op κ ν} {e : Entry κ ν} {still : Bool}

/-- No entry is ever due. -/
def Lasting (p : Plain κ ν) : Prop := ∀ e ∈ p.entries, e.deadline = none

def keys (p : Plain κ ν) : List κ := p.entries.map (·.key)

omit [DecidableEq κ] in
theorem Lasting.not_expired (h : p.Lasting) (he : e ∈ p.entries) : e.expired p.now = false := by
  rw [Entry.expired, h e he]

theorem Lasting.good?_eq (h : p.Lasting) (k : κ) : p.good? k = p.find? k := by
  unfold good?
  cases hk : p.find? k with
  | none => rfl
  | some e => simp [Option.filter, h.not_expired (find?_eq_some hk).1]

omit [DecidableEq κ] in
theorem Lasting.fresh_eq (h : p.Lasting) : p.fresh = p.entries :=
  List.filter_eq_self.mpr fun e he => by simp [h.not_expired he]

theorem isSome_find? (k : κ) (p : Plain κ ν) : (p.find? k).isSome = decide (k ∈ p.keys) := by
  rw [Bool.eq_iff_iff, find?, List.find?_isSome, decide_eq_true_eq, keys, List.mem_map]
  simp only [decide_eq_true_eq]

theorem keys_others (k : κ) (p : Plain κ ν) : (p.others k).map (·.key) = p.keys.filter (· ≠ k) := by
  rw [keys, others, List.filter_map]
  rfl

theorem Puts.rekeys (hp : p.Lasting) {o : Outcome κ ν} (h : Puts p q op o e)
    (hentries : q.entries = e :: p.spared e.key) (hop : op.uniform p.defaultTtl = true) :
    q.Lasting ∧ q.keys = op.rekeyed p.bound.toNat p.keys := by
  have hkeys : q.keys = e.key :: (p.keys.filter (· ≠ e.key)).take (p.bound.toNat - 1) := by
    rw [keys, hentries, List.map_cons, spared, List.map_take, keys_others]
  have hlasting : e.deadline = none → q.Lasting := by
    intro he x hx
    rw [hentries] at hx
    rcases List.mem_cons.mp hx with rfl | hx
    · exact he
    · exact hp x (List.mem_of_mem_filter (List.mem_of_mem_take hx))
  cases h with
  | put stay k value ttl refusal =>
    have hzero : ttl.getD p.defaultTtl = .zero := of_decide_eq_true hop
    exact ⟨hlasting (if_pos hzero), hkeys⟩
  | found h value ttl refusal =>
    obtain ⟨hfind, -⟩ := good?_eq_some.mp h
    obtain ⟨he, rfl⟩ := find?_eq_some hfind
    exact ⟨hlasting (hp e he), hkeys⟩
  | added h stay value ttl refusal =>
    have hzero : ttl = .zero := of_decide_eq_true hop
    exact ⟨hlasting (if_pos hzero), hkeys⟩

theorem Leaves.rekeys (hp : p.Lasting) {o : Outcome κ ν} (h : Leaves still op p o q) (hstore : op.inserts? = none)
    (hop : op.uniform p.defaultTtl = true) : q.Lasting ∧ q.keys = op.rekeyed p.bound.toNat p.keys := by
  constructor
  · intro e he
    rw [h.entries] at he
    exact hp e (remains_subset op he)
  · rw [keys, h.entries]
    cases op with
    | put => cases hstore
    | getOrPut => cases hstore
    | get => cases hop
    | peek k =>
      rw [remains, hp.good?_eq]
      cases hk : p.find? k with
      | none =>
        rw [Option.isSome_none, if_neg Bool.false_ne_true, others_of_missing hk]
        rfl
      | some e => rfl
    | delete k => exact keys_others k p
    | purge =>
      rw [remains, hp.fresh_eq]
      rfl
    | _ => rfl

end Plain

namespace Session

variable {s : Session (Cache κ ν) κ ν} {op : Op κ ν} {still : Bool}

omit [DecidableEq κ] in
theorem uniform_quiet {d : Duration} (h : op.uniform d = true) : op.quiet = true ∧ op.resizes = false := by
  cases op with
  | get => cases h
  | resize => cases h
  | put => exact ⟨rfl, rfl⟩
  | getOrPut => exact ⟨rfl, rfl⟩
  | index op => exact ⟨h, rfl⟩
  | failIndex step => exact ⟨h, rfl⟩
  | _ => exact ⟨rfl, rfl⟩

/-- Callbacks stand aside, and no entry is ever due. -/
structure Unaged (still : Bool) (s : Session (Cache κ ν) κ ν) : Prop where
  settled : s.Settled still
  lasting : s.cache.view.Lasting

theorem perform_rekeys (hs : s.Unaged still) (hop : op.uniform s.cache.defaultTtl = true)
    (hgranted : (s.perform Cache.engine op).1.refusal? = none) :
    let s' := (s.perform Cache.engine op).2
    s'.Unaged still ∧ s'.cache.bound = s.cache.bound ∧ s'.cache.defaultTtl = s.cache.defaultTtl ∧
      s'.cache.view.keys = op.rekeyed s.cache.bound.toNat s.cache.view.keys := by
  intro s'
  obtain ⟨hquiet, hsize⟩ := uniform_quiet hop
  cases hstore : op.inserts? with
  | some k =>
    obtain ⟨hs', e, hputs, hentries, hf⟩ := perform_stores hs.settled hstore hgranted
    obtain ⟨hlasting, hkeys⟩ := hputs.rekeys hs.lasting hentries hop
    exact ⟨⟨hs', hlasting⟩, hf.bound, hf.defaultTtl, hkeys⟩
  | none =>
    obtain ⟨hs', hl⟩ := perform_leaves hs.settled op hquiet hstore hsize
    obtain ⟨hlasting, hkeys⟩ := hl.rekeys hs.lasting hstore hop
    exact ⟨⟨hs', hlasting⟩, hl.frames.bound, hl.frames.defaultTtl, hkeys⟩

/-- The same operations, carried out on a smaller and on a larger cache. -/
theorem performAll_prefix {ops : List (Op κ ν)} {t : Session (Cache κ ν) κ ν} (hs : s.Unaged still)
    (ht : t.Unaged still) (hbound : s.cache.bound ≤ t.cache.bound)
    (hops : ∀ op ∈ ops, op.uniform s.cache.defaultTtl = true ∧ op.uniform t.cache.defaultTtl = true)
    (hgranted : ∀ o ∈ (performAll Cache.engine ops s).1 ++ (performAll Cache.engine ops t).1, o.refusal? = none)
    (hkeys : s.cache.view.keys <+: t.cache.view.keys) :
    let s' := (performAll Cache.engine ops s).2
    let t' := (performAll Cache.engine ops t).2
    s'.Unaged still ∧ t'.Unaged still ∧ s'.cache.view.keys <+: t'.cache.view.keys := by
  induction ops generalizing s t with
  | nil => exact ⟨hs, ht, hkeys⟩
  | cons op ops ih =>
    obtain ⟨hop, hop'⟩ := hops op List.mem_cons_self
    obtain ⟨hs', hbs, hds, hks⟩ := perform_rekeys hs hop (hgranted _ (by simp [performAll]))
    obtain ⟨ht', hbt, hdt, hkt⟩ := perform_rekeys ht hop' (hgranted _ (by simp [performAll]))
    refine ih (s := (s.perform Cache.engine op).2) (t := (t.perform Cache.engine op).2) hs' ht' ?_ ?_ ?_ ?_
    · rw [hbs, hbt]
      exact hbound
    · intro op hop
      rw [hds, hdt]
      exact hops op (List.mem_cons_of_mem _ hop)
    · intro o ho
      refine hgranted o ?_
      rcases List.mem_append.mp ho with ho | ho
      · exact List.mem_append_left _ (List.mem_cons_of_mem _ ho)
      · exact List.mem_append_right _ (List.mem_cons_of_mem _ ho)
    · rw [hks, hkt]
      exact op.rekeyed_prefix (UInt64.le_iff_toNat_le.mp hbound) hkeys

/-- The keys that are listed are all there is, and `has` goes by them. -/
theorem Unaged.shows (hs : s.Unaged still) :
    (s.perform Cache.engine .keys).1 = .returned (.keys s.cache.view.keys) ∧
      ∀ k, (s.perform Cache.engine (.has k)).1 = .returned (.flag (decide (k ∈ s.cache.view.keys))) := by
  constructor
  · obtain ⟨-, hl⟩ := perform_leaves hs.settled .keys rfl rfl rfl
    rw [hl.shows _ rfl, hs.lasting.fresh_eq]
    rfl
  · intro k
    obtain ⟨-, hl⟩ := perform_leaves hs.settled (.has k) rfl rfl rfl
    rw [hl.shows _ rfl, hs.lasting.good?_eq, Plain.isSome_find?]

theorem build_unaged (cfg : Settings) {rs : List (Reaction κ ν)}
    (hrs : ∀ r ∈ rs, ∀ op ∈ r.ops, op.aside still = true) :
    Unaged still ⟨cfg.build, rs⟩ ∧ (cfg.build : Cache κ ν).view.keys = [] := by
  have hempty : (cfg.build : Cache κ ν).view.entries = [] := congrArg Plain.entries (Cache.build_steady cfg).2
  refine ⟨⟨build_settled cfg hrs, fun e he => ?_⟩, ?_⟩
  · have he : e ∈ (cfg.build : Cache κ ν).view.entries := he
    rw [hempty] at he
    exact absurd he List.not_mem_nil
  · rw [Plain.keys, hempty, List.map_nil]

/-- Of two caches with bounds `n ≤ m` that are given the same operations, none of which is a
    `get` or gives a time to live, the smaller one lists, at any time, the first of the keys
    that the larger one lists. So it has no key that the larger one does not have. -/
theorem smaller_keys_prefix (cfg cfg' : Settings) (rs rs' : List (Reaction κ ν)) (ops : List (Op κ ν))
    (hbound : Cache.effectiveBound cfg.bound ≤ Cache.effectiveBound cfg'.bound)
    (hrs : ∀ r ∈ rs, ∀ op ∈ r.ops, op.aside false = true) (hrs' : ∀ r ∈ rs', ∀ op ∈ r.ops, op.aside false = true)
    (hops : ∀ op ∈ ops, op.uniform cfg.defaultTtl = true ∧ op.uniform cfg'.defaultTtl = true)
    (hgranted : ∀ o ∈ (performAll Cache.engine ops ⟨cfg.build, rs⟩).1 ++
      (performAll Cache.engine ops ⟨cfg'.build, rs'⟩).1, o.refusal? = none) :
    let small := (performAll Cache.engine ops ⟨cfg.build, rs⟩).2
    let large := (performAll Cache.engine ops ⟨cfg'.build, rs'⟩).2
    (∃ ks ks', (small.perform Cache.engine .keys).1 = .returned (.keys ks) ∧
        (large.perform Cache.engine .keys).1 = .returned (.keys ks') ∧ ks <+: ks') ∧
      ∀ k, (small.perform Cache.engine (.has k)).1 = .returned (.flag true) →
        (large.perform Cache.engine (.has k)).1 = .returned (.flag true) := by
  intro small large
  obtain ⟨hsmall, hkeys⟩ := build_unaged cfg hrs
  obtain ⟨hlarge, -⟩ := build_unaged cfg' hrs'
  have hbegin : (cfg.build : Cache κ ν).view.keys <+: (cfg'.build : Cache κ ν).view.keys := by
    rw [hkeys]
    exact List.nil_prefix
  obtain ⟨hs, hl, hbegins⟩ := performAll_prefix hsmall hlarge hbound hops hgranted hbegin
  obtain ⟨hlists, hhas⟩ := hs.shows
  obtain ⟨hlists', hhas'⟩ := hl.shows
  refine ⟨⟨_, _, hlists, hlists', hbegins⟩, ?_⟩
  intro k hk
  rw [hhas k] at hk
  rw [hhas' k]
  have hmem : k ∈ small.cache.view.keys := by simpa using hk
  rw [decide_eq_true (hbegins.subset hmem)]

/-- What is a hit in the larger cache is inserted in the smaller one, and costs it an entry; the
    callback moves the clock. -/
theorem smaller_keys_prefix_hit :
    let cfg : UInt64 → Settings := fun n => ⟨n, .zero, true, none, false, 0⟩
    let rs : List (Reaction Nat Nat) := [⟨none, 2, [.advance ⟨1⟩]⟩]
    let ops : List (Op Nat Nat) :=
      [.put 1 10 none .abort, .put 2 20 none .report, .getOrPut 1 11 .zero .report, .delete 3, .peek 2]
    let small := (performAll Cache.engine ops ⟨(cfg 1).build, rs⟩).2
    let large := (performAll Cache.engine ops ⟨(cfg 2).build, rs⟩).2
    (small.perform Cache.engine .keys).1 = .returned (.keys [1]) ∧
      (large.perform Cache.engine .keys).1 = .returned (.keys [1, 2]) ∧
      (large.perform Cache.engine (.has 1)).1 = .returned (.flag true) := by
  intro cfg rs ops small large
  have hrs : ∀ r ∈ rs, ∀ op ∈ r.ops, op.aside false = true := by decide
  obtain ⟨-, hhas⟩ := smaller_keys_prefix (cfg 1) (cfg 2) rs rs ops (by decide) hrs hrs (by decide) (by decide +kernel)
  exact ⟨by decide +kernel, by decide +kernel, hhas 1 (by decide +kernel)⟩

/-- A `get` touches what only the larger cache holds. -/
example :
    let ops : List (Op Nat Nat) := [.put 1 10 none .abort, .put 2 20 none .abort, .get 1, .keys]
    let listed := fun n => (performAll Cache.engine ops ⟨(Settings.ofBound n).build, []⟩).1.getLast?
    listed 1 = some (.returned (.keys [2])) ∧ listed 2 = some (.returned (.keys [1, 2])) := by
  decide +kernel

end Session

end Recency
