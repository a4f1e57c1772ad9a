import Mathlib.Data.List.Infix
import Recency.Metrics.Exposition
/-
  Recency.Proofs.Metrics.Exposition — a text of metrics can be read back.

  The metrics are always the same and in the same order, so with the qualifier known (what
  stands before each metric's own name) a reader counts off what precedes a value, takes
  digits to the end of the line, and goes on (`readAs_written`). The qualifier may itself
  look like lines of metrics, and nothing marks it off in the text.

  But no text is written with two qualifiers (`written_qualifier`). The values' digits leave
  a text's length open by less than ten characters of qualifier. So of two qualifiers the
  longer would go on with up to nine characters of `get_calls_total`, and where it ends the
  text would have the `g` that begins this name and also a later character of it, and there
  is no second `g`.

  Hence a reader that tries every qualifier the text may start with reads back every text
  (`read_text`).
-/

namespace Recency.Exposition

/-! ## The text as characters -/

/-- What stands before each metric's own name. -/
def qualifier (family : String) : List Char := if family = "" then [] else family.toList ++ ['_']

/-- What of a sample is the same in every snapshot. -/
def Sample.label (x : Sample) : Kind × String := (x.kind, x.name)

def labels : List (Kind × String) := (samples ⟨0, 0, 0, 0, 0, 0, 0, 0, 0, 0, 0⟩).map Sample.label

/-- What a metric's lines begin with. -/
def opening : String := "# TYPE "

/-- What precedes the value. -/
def head (q : List Char) (l : Kind × String) : List Char :=
  opening.toList ++ q ++ l.2.toList ++ " ".toList ++ l.1.name.toList ++ "\n".toList ++ q ++ l.2.toList ++ " ".toList

def digits (v : UInt64) : List Char := Nat.toDigits 10 v.toNat

def Sample.chars (q : List Char) (x : Sample) : List Char := head q x.label ++ (digits x.value ++ ['\n'])

def written (q : List Char) (xs : List Sample) : List Char := xs.flatMap (Sample.chars q)

theorem written_cons (q : List Char) (x : Sample) (xs : List Sample) :
    written q (x :: xs) = x.chars q ++ written q xs := List.flatMap_cons

theorem toString_toList (v : UInt64) : (toString v).toList = digits v := by
  show (v.toNat.repr).toList = _
  exact Nat.toList_repr

theorem qualify_toList (family name : String) : (qualify family name).toList = qualifier family ++ name.toList := by
  unfold qualify qualifier
  split
  · rfl
  · simp only [String.toList_append, List.append_assoc]
    rfl

theorem Sample.text_toList (family : String) (x : Sample) : (x.text family).toList = x.chars (qualifier family) := by
  have htext : x.text family = opening ++ qualify family x.name ++ " " ++ x.kind.name ++ "\n" ++
      qualify family x.name ++ " " ++ toString x.value ++ "\n" := rfl
  have hnewline : "\n".toList = ['\n'] := rfl
  simp only [htext, Sample.chars, head, Sample.label, String.toList_append, qualify_toList, toString_toList,
    ← hnewline, List.append_assoc]

theorem text_toList (family : String) (s : Snapshot) :
    (text family s).toList = written (qualifier family) (samples s) := by
  simp [text, written, String.toList_join, List.flatMap_map, Sample.text_toList]

theorem qualifier_inj {family family' : String} (h : qualifier family = qualifier family') : family = family' := by
  unfold qualifier at h
  split at h <;> split at h
  · rename_i hempty hempty'
    rw [hempty, hempty']
  · simp at h
  · simp at h
  · exact String.toList_inj.mp (List.append_cancel_right h)

/-! ## Reading with the qualifier known -/

/-- The value after a label, and what comes after its line. -/
def readSample (q : List Char) (l : Kind × String) (cs : List Char) : UInt64 × List Char :=
  let rest := cs.drop (head q l).length
  (.ofNat (Nat.ofDigitChars 10 (rest.takeWhile Char.isDigit) 0), (rest.dropWhile Char.isDigit).tail)

def readValues (q : List Char) : List (Kind × String) → List Char → List UInt64
  | [], _ => []
  | l :: ls, cs => (readSample q l cs).1 :: readValues q ls (readSample q l cs).2

def ofValues : List UInt64 → Option Snapshot
  | [a, b, c, d, e, f, g, h, i, j, k] => some ⟨a, b, c, d, e, f, g, h, i, j, k⟩
  | _ => none

/-- The snapshot, if the text is one's with this qualifier. -/
def readAs (q cs : List Char) : Option Snapshot :=
  (ofValues (readValues q labels cs)).filter fun s => written q (samples s) = cs

theorem isDigit_of_mem_digits {v : UInt64} {c : Char} (h : c ∈ digits v) : c.isDigit = true :=
  Nat.isDigit_of_mem_toDigits (by decide) (by decide) h

theorem ofDigitChars_digits (v : UInt64) : UInt64.ofNat (Nat.ofDigitChars 10 (digits v) 0) = v := by
  rw [digits, Nat.ofDigitChars_ten_toDigits, UInt64.ofNat_toNat]

theorem readSample_chars (q : List Char) (x : Sample) (rest : List Char) :
    readSample q x.label (x.chars q ++ rest) = (x.value, rest) := by
  have hdrop : (x.chars q ++ rest).drop (head q x.label).length = digits x.value ++ '\n' :: rest := by
    simp only [Sample.chars, List.append_assoc, List.drop_left, List.singleton_append]
  have htake : (digits x.value ++ '\n' :: rest).takeWhile Char.isDigit = digits x.value := by
    rw [List.takeWhile_append_of_pos fun c => isDigit_of_mem_digits, List.takeWhile_cons_of_neg (by decide),
      List.append_nil]
  have hleft : (digits x.value ++ '\n' :: rest).dropWhile Char.isDigit = '\n' :: rest := by
    rw [List.dropWhile_append_of_pos fun c => isDigit_of_mem_digits, List.dropWhile_cons_of_neg (by decide)]
  simp only [readSample, hdrop, htake, hleft, ofDigitChars_digits, List.tail_cons]

theorem readValues_written (q : List Char) (xs : List Sample) :
    readValues q (xs.map Sample.label) (written q xs) = xs.map Sample.value := by
  induction xs with
  | nil => rfl
  | cons x xs ih => simp only [List.map_cons, written_cons, readValues, readSample_chars, ih]

theorem readAs_written (q : List Char) (s : Snapshot) : readAs q (written q (samples s)) = some s := by
  have hvalues : readValues q labels (written q (samples s)) = (samples s).map Sample.value :=
    readValues_written q (samples s)
  have hs : ofValues ((samples s).map Sample.value) = some s := rfl
  simp only [readAs, hvalues, hs, Option.filter_some, decide_true, if_true]

theorem written_of_readAs {q cs : List Char} {s : Snapshot} (h : readAs q cs = some s) : written q (samples s) = cs :=
  of_decide_eq_true (Option.filter_eq_some_iff.mp h).2

/-! ## One qualifier for a text -/

/-- What a text has besides its values' digits. -/
def frame (q : List Char) (ls : List (Kind × String)) : Nat := (ls.flatMap (head q)).length + ls.length

theorem frame_eq (q : List Char) (ls : List (Kind × String)) :
    frame q ls = frame [] ls + 2 * ls.length * q.length := by
  induction ls with
  | nil => simp [frame]
  | cons l ls ih =>
    have hl : (head q l).length = (head [] l).length + 2 * q.length := by
      simp only [head, List.length_append, List.length_nil]
      omega
    simp only [frame, List.flatMap_cons, List.length_append, List.length_cons, Nat.mul_add, Nat.add_mul] at ih ⊢
    omega

theorem length_digits (v : UInt64) : 1 ≤ (digits v).length ∧ (digits v).length ≤ 20 := by
  have hv : v.toNat < 10 ^ 20 := Nat.lt_trans v.toNat_lt (by decide)
  exact ⟨Nat.length_toDigits_pos, (Nat.length_toDigits_le_iff (by decide) (by decide)).mpr hv⟩

theorem length_written (q : List Char) (xs : List Sample) :
    frame q (xs.map Sample.label) + xs.length ≤ (written q xs).length ∧
      (written q xs).length ≤ frame q (xs.map Sample.label) + 20 * xs.length := by
  induction xs with
  | nil => exact ⟨Nat.le_refl 0, Nat.le_refl 0⟩
  | cons x xs ih =>
    have hx := length_digits x.value
    simp only [frame, written_cons, Sample.chars, List.map_cons, List.flatMap_cons, List.length_append,
      List.length_cons, List.length_nil] at ih ⊢
    omega

/-- The eleven values have up to twenty digits each, and the qualifier stands in 22 places. -/
theorem length_qualifier_lt {q q' : List Char} {s t : Snapshot} (h : written q (samples s) = written q' (samples t)) :
    q'.length < q.length + 10 := by
  have hs : (written q (samples s)).length ≤ frame q labels + 20 * 11 := (length_written q (samples s)).2
  have ht : frame q' labels + 11 ≤ (written q' (samples t)).length := (length_written q' (samples t)).1
  have hq : frame q labels = frame [] labels + 22 * q.length := frame_eq q labels
  have hq' : frame q' labels = frame [] labels + 22 * q'.length := frame_eq q' labels
  have hlength := congrArg List.length h
  omega

/-- The first metric's own name. -/
def first : String := "get_calls_total"

theorem written_start (q : List Char) (s : Snapshot) :
    ∃ rest, written q (samples s) = opening.toList ++ (q ++ (first.toList ++ rest)) := by
  have hsamples : samples s = ⟨.counter, first, s.getCalls⟩ :: (samples s).tail := rfl
  rw [hsamples, written_cons]
  simp only [Sample.chars, head, Sample.label, List.append_assoc]
  exact ⟨_, rfl⟩

/-- It has no second `g`. -/
theorem first_once : ∀ k < 10, first.toList[k]? = some 'g' → k = 0 := by decide

theorem start_unique {q q' rest rest' : List Char} (hle : q.length ≤ q'.length) (hlt : q'.length < q.length + 10)
    (h : q ++ (first.toList ++ rest) = q' ++ (first.toList ++ rest')) : q = q' := by
  have hfirst : first.toList.length = 15 := rfl
  have hg : first.toList[q'.length - q.length]? = some 'g' := calc
    first.toList[q'.length - q.length]? = (first.toList ++ rest)[q'.length - q.length]? :=
      (List.getElem?_append_left (by omega)).symm
    _ = (q ++ (first.toList ++ rest))[q'.length]? := (List.getElem?_append_right hle).symm
    _ = (q' ++ (first.toList ++ rest'))[q'.length]? := by rw [h]
    _ = (first.toList ++ rest')[0]? := by rw [List.getElem?_append_right (Nat.le_refl _), Nat.sub_self]
    _ = some 'g' := rfl
  have hlength := first_once _ (by omega) hg
  exact (List.append_inj h (by omega)).1

theorem written_qualifier {q q' : List Char} {s t : Snapshot} (h : written q (samples s) = written q' (samples t)) :
    q = q' := by
  obtain ⟨rest, hs⟩ := written_start q s
  obtain ⟨rest', ht⟩ := written_start q' t
  have hstart : q ++ (first.toList ++ rest) = q' ++ (first.toList ++ rest') :=
    List.append_cancel_left (hs.symm.trans (h.trans ht))
  rcases Nat.le_total q.length q'.length with hle | hle
  · exact start_unique hle (length_qualifier_lt h) hstart
  · exact (start_unique hle (length_qualifier_lt h.symm) hstart.symm).symm

/-! ## Reading -/

/-- The snapshot a text was written from, whatever the name of the family. -/
def read (text : String) : Option Snapshot :=
  (text.toList.drop opening.toList.length).inits.findSome? fun q => readAs q text.toList

theorem read_written {text : String} {q : List Char} {s : Snapshot} (h : text.toList = written q (samples s)) :
    read text = some s := by
  cases hread : read text with
  | none =>
    -- the qualifier it was written with is one of those tried
    obtain ⟨rest, hs⟩ := written_start q s
    have hq : q ∈ (text.toList.drop opening.toList.length).inits := by
      rw [h, hs, List.drop_left, List.mem_inits]
      exact List.prefix_append q _
    have hnone := List.findSome?_eq_none_iff.mp hread q hq
    rw [h, readAs_written] at hnone
    cases hnone
  | some t =>
    -- an earlier one that fits is the same
    obtain ⟨q', -, hq'⟩ := List.exists_of_findSome?_eq_some hread
    obtain rfl : q' = q := written_qualifier ((written_of_readAs hq').trans h)
    rw [h, readAs_written] at hq'
    exact hq'.symm

/-- To a writer that takes all, a text tells the name of its family and the snapshot, and there is a reader
    that gets the snapshot from the text alone. -/
theorem read_text :
    (∀ family family' s t, clip none (text family s) = clip none (text family' t) ↔ family = family' ∧ s = t) ∧
      ∀ family s, read (clip none (text family s)) = some s := by
  have hread : ∀ family s, read (text family s) = some s := fun family s => read_written (text_toList family s)
  refine ⟨fun family family' s t => ⟨fun h => ?_, ?_⟩, hread⟩
  · have hwritten : written (qualifier family) (samples s) = written (qualifier family') (samples t) := by
      rw [← text_toList, ← text_toList]
      exact congrArg String.toList h
    have hsnapshot : some s = some t := by
      rw [← hread family s, ← hread family' t]
      exact congrArg read h
    exact ⟨qualifier_inj (written_qualifier hwritten), Option.some.inj hsnapshot⟩
  · rintro ⟨rfl, rfl⟩
    rfl

end Recency.Exposition
