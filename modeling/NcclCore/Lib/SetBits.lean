import Mathlib.Data.Nat.Bitwise

/-! The set bits of a word, listed from the lowest: how the list changes when a
bit above all others is set, when the lowest one is cleared, and how counting
the bits below a position finds that position in the list. -/
namespace NcclCore.Lib
open List Function

/-- The positions below `width` at which `word` has a one. -/
def setBits (width word : Nat) : List Nat := (range width).filter word.testBit

/-- The number of ones below `width`. -/
def popcount (width word : Nat) : Nat := (setBits width word).length

theorem mem_setBits : i ∈ setBits width word ↔ i < width ∧ word.testBit i = true := by
  simp [setBits]

theorem setBits_succ (width word : Nat) :
    setBits (width + 1) word = if word.testBit width then setBits width word ++ [width] else setBits width word := by
  simp only [setBits, range_succ, filter_append]
  by_cases one : word.testBit width <;> simp [one]

theorem setBits_nodup (width word : Nat) : (setBits width word).Nodup := nodup_range.filter _

theorem setBits_congr (same : ∀ i < width, word.testBit i = word'.testBit i) :
    setBits width word = setBits width word' :=
  filter_congr fun i member => same i (mem_range.mp member)

/-- Masking with `2 ^ k - 1` keeps the bits below `k`. -/
theorem setBits_mask (bound : k ≤ width) : setBits width (word &&& (2 ^ k - 1)) = setBits k word := by
  induction width, bound using Nat.le_induction with
  | base =>
    refine setBits_congr fun i below => ?_
    rw [Nat.testBit_and, Nat.testBit_two_pow_sub_one, decide_eq_true below, Bool.and_true]
  | succ width above ih =>
    have cleared : (word &&& (2 ^ k - 1)).testBit width = false := by
      rw [Nat.testBit_and, Nat.testBit_two_pow_sub_one, decide_eq_false (Nat.not_lt.mpr above), Bool.and_false]
    rw [setBits_succ, cleared, ih]
    rfl

/-- Counting the ones below a one gives its place in the list. -/
theorem setBits_getElem? (below : i < width) (one : word.testBit i = true) :
    (setBits width word)[popcount i word]? = some i := by
  induction width with
  | zero => cases below
  | succ width ih =>
    rw [setBits_succ]
    rcases Nat.lt_succ_iff_lt_or_eq.mp below with earlier | rfl
    · have found := ih earlier
      split
      · obtain ⟨inside, -⟩ := List.getElem?_eq_some_iff.mp found
        rw [getElem?_append_left inside]
        exact found
      · exact found
    · simp [one, popcount]

/-- The low and the high part of a word. -/
theorem setBits_add (low high word : Nat) :
    setBits (low + high) word = setBits low word ++ (setBits high (word >>> low)).map (low + ·) := by
  induction high with
  | zero => simp [setBits]
  | succ high ih =>
    rw [← add_assoc, setBits_succ, setBits_succ, ih, Nat.testBit_shiftRight]
    split <;> simp

/-- Setting a bit above all others. -/
theorem setBits_or_top (below : i < width) (small : ∀ j ∈ setBits width word, j < i) :
    setBits width (word ||| 2 ^ i) = setBits width word ++ [i] := by
  have unset : ∀ j < width, i ≤ j → word.testBit j = false := by
    intro j inside above
    by_contra one
    have := small j (mem_setBits.mpr ⟨inside, Bool.eq_true_of_not_eq_false one⟩)
    omega
  induction width with
  | zero => cases below
  | succ width ih =>
    rw [setBits_succ, setBits_succ]
    rcases Nat.lt_succ_iff_lt_or_eq.mp below with earlier | rfl
    · have top := unset width (Nat.lt_succ_self _) earlier.le
      have other : (word ||| 2 ^ i).testBit width = false := by
        simp [top, earlier.ne]
      rw [setBits_succ] at small
      simp only [other, top, Bool.false_eq_true, ↓reduceIte] at small ⊢
      exact ih earlier small fun j inside above => unset j (Nat.lt_succ_of_lt inside) above
    · have top := unset i (Nat.lt_succ_self _) le_rfl
      have same : setBits i (word ||| 2 ^ i) = setBits i word := by
        refine setBits_congr fun j inside => ?_
        simp [inside.ne']
      simp [top, same]

/-- `word & (word - 1)` clears the lowest one. -/
theorem testBit_and_pred (one : word.testBit low = true) (lowest : ∀ j < low, word.testBit j = false) (i : Nat) :
    (word &&& (word - 1)).testBit i = (word.testBit i && decide (i ≠ low)) := by
  obtain ⟨high, rfl⟩ : ∃ high, word = 2 ^ (low + 1) * high + 2 ^ low := by
    refine ⟨word / 2 ^ (low + 1), ?_⟩
    have rest : word % 2 ^ (low + 1) = 2 ^ low := by
      apply Nat.eq_of_testBit_eq
      intro j
      rcases lt_trichotomy j low with less | rfl | more
      · simp [lowest j less, less.ne']
      · simp [one]
      · simp [Nat.not_lt.mpr more, more.ne]
    conv_lhs => rw [← Nat.div_add_mod word (2 ^ (low + 1)), rest]
  have half : 2 ^ low < 2 ^ (low + 1) := Nat.pow_lt_pow_right (by decide) (Nat.lt_succ_self low)
  have pred : 2 ^ (low + 1) * high + 2 ^ low - 1 = 2 ^ (low + 1) * high + (2 ^ low - 1) := by omega
  rw [Nat.testBit_and, pred, Nat.testBit_two_pow_mul_add _ half, Nat.testBit_two_pow_mul_add _ (by omega)]
  by_cases inside : i < low + 1
  · simp only [inside, ↓reduceIte, Nat.testBit_two_pow, Nat.testBit_two_pow_sub_one]
    rcases Nat.lt_succ_iff_lt_or_eq.mp inside with less | rfl
    · simp [less.ne']
    · simp
  · simp [inside, show i ≠ low by omega]

/-- The lowest one, and the list behind it. -/
theorem setBits_pop (listed : setBits width word = low :: rest) : setBits width (word &&& (word - 1)) = rest := by
  have sorted : (setBits width word).Pairwise (· < ·) := pairwise_lt_range.filter _
  rw [listed] at sorted
  obtain ⟨inside, one⟩ := mem_setBits.mp (listed ▸ mem_cons_self : low ∈ setBits width word)
  have lowest : ∀ j < low, word.testBit j = false := by
    intro j less
    by_contra isOne
    have member := mem_setBits.mpr ⟨less.trans inside, Bool.eq_true_of_not_eq_false isOne⟩
    rw [listed, mem_cons] at member
    rcases member with rfl | later
    · exact less.false
    · exact Nat.lt_asymm less ((pairwise_cons.mp sorted).1 j later)
  have cleared : setBits width (word &&& (word - 1)) = (setBits width word).filter (· ≠ low) := by
    rw [setBits, setBits, filter_filter]
    refine filter_congr fun j _ => ?_
    rw [testBit_and_pred one lowest, Bool.and_comm]
  rw [cleared, listed]
  simp only [ne_eq, not_true_eq_false, decide_false, Bool.false_eq_true, not_false_eq_true, filter_cons_of_neg]
  refine filter_eq_self.mpr fun j member => ?_
  simpa using ne_of_gt ((pairwise_cons.mp sorted).1 j member)

theorem setBits_eq_nil (bound : word < 2 ^ width) : setBits width word = [] ↔ word = 0 := by
  constructor
  · intro none
    apply Nat.eq_of_testBit_eq
    intro i
    rw [Nat.zero_testBit]
    by_contra one
    have isOne := Bool.eq_true_of_not_eq_false one
    by_cases inside : i < width
    · have : i ∈ setBits width word := mem_setBits.mpr ⟨inside, isOne⟩
      rw [none] at this
      cases this
    · have large : 2 ^ width ≤ word :=
        (Nat.pow_le_pow_right (by decide) (Nat.not_lt.mp inside)).trans (Nat.ge_two_pow_of_testBit isOne)
      omega
  · rintro rfl
    simp [setBits]

section
variable {ι κ ν : Type} [DecidableEq κ] (keep : ι → Prop) [DecidablePred keep] (key : ι → κ) (value : ι → ν)

/-- Those of `writers` that are to write do so, one after the other. -/
def scatter (writers : List ι) (table : κ → ν) : κ → ν :=
  writers.foldl (fun table writer => if keep writer then update table (key writer) (value writer) else table)
    table

variable {keep key value}

theorem scatter_of_notMem (outside : ∀ writer ∈ writers, keep writer → key writer ≠ place) :
    scatter keep key value writers table place = table place := by
  induction writers generalizing table with
  | nil => rfl
  | cons writer rest ih =>
    have later := @ih (if keep writer then update table (key writer) (value writer) else table)
      fun other member => outside other (mem_cons_of_mem _ member)
    refine later.trans ?_
    split
    next kept =>
      exact update_of_ne (outside writer mem_cons_self kept).symm _ _
    · rfl

/-- A place that is written holds the value all its writers agree on. -/
theorem scatter_of_mem (agreed : ∀ writer ∈ writers, keep writer → key writer = place → value writer = held)
    (written : ∃ writer ∈ writers, keep writer ∧ key writer = place) :
    scatter keep key value writers table place = held := by
  induction writers generalizing table with
  | nil => obtain ⟨writer, member, -⟩ := written; cases member
  | cons writer rest ih =>
    have agreedLater := fun other member => agreed other (mem_cons_of_mem writer member)
    rw [scatter, foldl_cons]
    by_cases later : ∃ other ∈ rest, keep other ∧ key other = place
    · exact ih agreedLater later
    · obtain ⟨other, member, kept, here⟩ := written
      obtain rfl : other = writer := by
        rcases mem_cons.mp member with same | inRest
        · exact same
        · exact absurd ⟨other, inRest, kept, here⟩ later
      rw [if_pos kept]
      refine (scatter_of_notMem fun third inRest keptThird same => later ⟨third, inRest, keptThird, same⟩).trans ?_
      rw [← here, update_self]
      exact agreed other mem_cons_self kept here

end

/-- Lanes whose bit is set and that write their name at the place counted by the
ones below them leave the ones in order. -/
theorem scatter_setBits (start shift : Nat) (table : Nat → Nat)
    (listed : (setBits width word)[place]? = some bit) :
    scatter (fun lane => word.testBit lane = true) (fun lane => start + popcount lane word) (shift + ·)
      (range width) table (start + place) = shift + bit := by
  obtain ⟨below, one⟩ := mem_setBits.mp (mem_of_getElem? listed)
  have counted : popcount bit word = place := by
    have found := setBits_getElem? below one
    obtain ⟨inside, -⟩ := List.getElem?_eq_some_iff.mp found
    exact (getElem?_inj inside (setBits_nodup width word)).mp (found.trans listed.symm)
  refine scatter_of_mem (fun lane member isOne here => ?_) ⟨bit, mem_range.mpr below, one, by rw [counted]⟩
  have found := setBits_getElem? (mem_range.mp member) isOne
  rw [Nat.add_left_cancel here, listed] at found
  rw [Option.some.inj found]

end NcclCore.Lib
