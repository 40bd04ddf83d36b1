import Mathlib.Algebra.GroupWithZero.Nat
import Mathlib.Data.List.Basic

/-! Amounts noted on accounts one after the other, and a stream of operations of
which some are the notes, each carrying what its account adds up to by then. -/
namespace NcclCore.Lib
open Function List
variable {Key : Type} [DecidableEq Key]

/-- What the notes on an account add up to. -/
def total (notes : List (Key × Nat)) (key : Key) : Nat := ((notes.filter (·.1 = key)).map (·.2)).sum

theorem total_cons (note : Key × Nat) (notes : List (Key × Nat)) (key : Key) :
    total (note :: notes) key = (if note.1 = key then note.2 else 0) + total notes key := by
  by_cases here : note.1 = key <;> simp [total, here]

theorem total_append (notes more : List (Key × Nat)) (key : Key) :
    total (notes ++ more) key = total notes key + total more key := by
  simp [total]

theorem total_mono (isPrefix : notes <+: more) (key : Key) : total notes key ≤ total more key := by
  obtain ⟨rest, rfl⟩ := isPrefix
  rw [total_append]
  exact Nat.le_add_right _ _

theorem total_take_succ {notes : List (Key × Nat)} {i : Nat} {note : Key × Nat}
    (here : notes[i]? = some note) (key : Key) :
    total (notes.take (i + 1)) key = total (notes.take i) key + if note.1 = key then note.2 else 0 := by
  obtain ⟨bound, rfl⟩ := List.getElem?_eq_some_iff.mp here
  rw [take_succ_eq_append_getElem bound, total_append, total_cons]
  rfl

/-- Each note with what its account adds up to behind it. -/
def runningTotals (start : Key → Nat) : List (Key × Nat) → List (Key × Nat)
  | [] => []
  | note :: rest =>
    (note.1, start note.1 + note.2) :: runningTotals (update start note.1 (start note.1 + note.2)) rest

theorem runningTotals_length (start : Key → Nat) (notes : List (Key × Nat)) :
    (runningTotals start notes).length = notes.length := by
  induction notes generalizing start with
  | nil => rfl
  | cons note rest ih => simp [runningTotals, ih]

theorem update_total (start : Key → Nat) (note : Key × Nat) (notes : List (Key × Nat)) (key : Key) :
    update start note.1 (start note.1 + note.2) key + total notes key = start key + total (note :: notes) key := by
  rw [total_cons]
  by_cases here : note.1 = key
  · subst here
    rw [update_self, if_pos rfl, Nat.add_assoc]
  · rw [update_of_ne (Ne.symm here), if_neg here, Nat.zero_add]

theorem runningTotals_append (start : Key → Nat) (notes more : List (Key × Nat)) :
    runningTotals start (notes ++ more) =
      runningTotals start notes ++ runningTotals (fun key => start key + total notes key) more := by
  induction notes generalizing start with
  | nil => rfl
  | cons note rest ih =>
    rw [cons_append, runningTotals, ih, runningTotals, cons_append]
    simp [update_total]

theorem runningTotals_getElem? (start : Key → Nat) (notes : List (Key × Nat)) (i : Nat) :
    (runningTotals start notes)[i]? =
      notes[i]?.map fun note => (note.1, start note.1 + total (notes.take (i + 1)) note.1) := by
  induction notes generalizing start i with
  | nil => rfl
  | cons note rest ih =>
    cases i with
    | zero => simp [runningTotals, total]
    | succ =>
      rw [runningTotals, getElem?_cons_succ, ih, getElem?_cons_succ, take_succ_cons]
      simp [update_total]

variable {Op Word : Type} {asNote : Op → Option (Key × Word)} {stream : List Op}

/-- How many of the first operations are notes. -/
def passed (asNote : Op → Option (Key × Word)) (stream : List Op) (pc : Nat) : Nat :=
  ((stream.take pc).filterMap asNote).length

omit [DecidableEq Key] in
theorem passed_succ (here : stream[pc]? = some op) :
    passed asNote stream (pc + 1) = passed asNote stream pc + if (asNote op).isSome then 1 else 0 := by
  obtain ⟨bound, rfl⟩ := List.getElem?_eq_some_iff.mp here
  rw [passed, passed, take_succ_eq_append_getElem bound, filterMap_append]
  cases noted : asNote stream[pc] <;> simp [noted]

/-- The next operation carries the total behind its note. -/
theorem note_of_next (carries : stream.filterMap asNote = (runningTotals (fun _ => 0) notes).map (Prod.map id word))
    {pc : Nat} {op : Op} (here : stream[pc]? = some op) {key : Key} {value : Word}
    (noted : asNote op = some (key, value)) :
    ∃ amount, notes[passed asNote stream pc]? = some (key, amount) ∧
      value = word (total (notes.take (passed asNote stream pc)) key + amount) := by
  obtain ⟨bound, found⟩ := List.getElem?_eq_some_iff.mp here
  have split : stream.filterMap asNote =
      (stream.take pc).filterMap asNote ++ (key, value) :: (stream.drop (pc + 1)).filterMap asNote := by
    conv_lhs => rw [← take_append_drop pc stream, ← getElem_cons_drop bound, found]
    rw [filterMap_append, filterMap_cons, noted]
  have cell : (stream.filterMap asNote)[passed asNote stream pc]? = some (key, value) := by
    rw [split, passed, getElem?_append_right (Nat.le_refl _), Nat.sub_self]
    rfl
  rw [carries, getElem?_map, runningTotals_getElem?] at cell
  cases note : notes[passed asNote stream pc]? with
  | none => simp [note] at cell
  | some note' =>
    simp only [note, Option.map_some, Option.some.injEq, Prod.map_apply, id, Prod.mk.injEq, Nat.zero_add] at cell
    obtain ⟨rfl, rfl⟩ := cell
    exact ⟨note'.2, rfl, by rw [total_take_succ note, if_pos rfl]⟩

/-- Notes whose operations have all been executed are among those passed. -/
theorem total_le_passed (isPrefix : first <+: stream) (amongNotes : noted <+: notes)
    (same : (first.filterMap asNote).length = noted.length) (executed : first.length ≤ pc) (key : Key) :
    total noted key ≤ total (notes.take (passed asNote stream pc)) key := by
  refine total_mono ?_ key
  rw [prefix_take_iff]
  refine ⟨amongNotes, ?_⟩
  rw [← same]
  have within := prefix_take_iff.mpr ⟨isPrefix, executed⟩
  exact (within.filterMap asNote).length_le

end NcclCore.Lib
