import Mathlib.Data.List.Sort
import Mathlib.Order.MinMax

/-! The naturals cut into segments that are alternately full and empty, with an
empty one after the last cut. A number is in a full segment if the number of cuts
above it is odd; this needs no order of the cuts, and says what it means to add,
drop or move some. -/
namespace NcclCore.Lib
open List

def Covered (cuts : List Nat) (x : Nat) : Prop := cuts.countP (x < ·) % 2 = 1

instance (cuts : List Nat) (x : Nat) : Decidable (Covered cuts x) := inferInstanceAs (Decidable (_ = _))

/-- What separates two lists of cuts is one range. -/
def Toggles (cuts cuts' : List Nat) (lo hi : Nat) : Prop :=
  ∀ x, Covered cuts' x ↔ (Covered cuts x ↔ ¬ (lo ≤ x ∧ x < hi))

/-- Cuts in ascending order, none at zero. -/
structure Ascending (cuts : List Nat) : Prop where
  sorted : cuts.Pairwise (· < ·)
  positive : ∀ c ∈ cuts, 0 < c

/-- The cut that begins a segment; the first segment begins at zero. -/
def lowCut (cuts : List Nat) (i : Nat) : Nat := if i = 0 then 0 else cuts.getD (i - 1) 0

/-- A number lies in the segment that ends at this cut, or in the last one. -/
structure Between (cuts : List Nat) (i x : Nat) : Prop where
  below : ∀ c ∈ cuts.take i, c ≤ x
  above : ∀ c ∈ cuts.drop i, x < c

theorem covered_nil (x : Nat) : ¬ Covered [] x := by simp [Covered]

theorem Toggles.covered_of_empty (toggles : Toggles cuts cuts' lo hi) (empty : ∀ x, lo ≤ x → x < hi → ¬ Covered cuts x)
    (x : Nat) : Covered cuts' x ↔ Covered cuts x ∨ (lo ≤ x ∧ x < hi) := by
  rw [toggles x]
  by_cases inside : lo ≤ x ∧ x < hi
  · simp [empty x inside.1 inside.2]
  · simp [inside]

theorem Toggles.covered_of_full (toggles : Toggles cuts cuts' lo hi) (full : ∀ x, lo ≤ x → x < hi → Covered cuts x)
    (x : Nat) : Covered cuts' x ↔ Covered cuts x ∧ ¬ (lo ≤ x ∧ x < hi) := by
  rw [toggles x]
  by_cases inside : lo ≤ x ∧ x < hi
  · simp [full x inside.1 inside.2]
  · simp [inside]

/-- Parities that differ by the ends of a range differ on the range. -/
theorem toggles_of_count (ordered : lo ≤ hi) (count : ∀ x, cuts'.countP (x < ·) % 2 =
      (cuts.countP (x < ·) + (if x < lo then 1 else 0) + if x < hi then 1 else 0) % 2) : Toggles cuts cuts' lo hi := by
  intro x
  unfold Covered
  rw [count x]
  by_cases before : x < lo
  · rw [if_pos before, if_pos (by omega)]
    omega
  · rw [if_neg before]
    by_cases inside : x < hi
    · rw [if_pos inside]
      omega
    · rw [if_neg inside]
      omega

/-! ### Positions -/

theorem Between.countP (between : Between cuts i x) : cuts.countP (x < ·) = cuts.length - i := by
  have split : cuts.countP (x < ·) = (cuts.take i).countP (x < ·) + (cuts.drop i).countP (x < ·) := by
    rw [← countP_append, take_append_drop]
  rw [split, countP_eq_zero.mpr, countP_eq_length.mpr, length_drop, Nat.zero_add]
  · intro c member
    exact decide_eq_true (between.above c member)
  · intro c member
    simpa using between.below c member

theorem Between.covered_iff (between : Between cuts i x) : Covered cuts x ↔ (cuts.length - i) % 2 = 1 := by
  rw [Covered, between.countP]

theorem exists_between (ascending : Ascending cuts) (x : Nat) : ∃ i ≤ cuts.length, Between cuts i x := by
  obtain ⟨sorted, -⟩ := ascending
  induction cuts with
  | nil => exact ⟨0, Nat.le_refl 0, by simp, by simp⟩
  | cons first rest ih =>
    obtain ⟨least, sorted⟩ := pairwise_cons.mp sorted
    by_cases early : x < first
    · refine ⟨0, Nat.zero_le _, by simp, forall_mem_cons.mpr ⟨early, fun c member => ?_⟩⟩
      exact early.trans (least c member)
    · obtain ⟨i, bound, between⟩ := ih sorted
      exact ⟨i + 1, Nat.succ_le_succ bound, forall_mem_cons.mpr ⟨Nat.not_lt.mp early, between.below⟩, between.above⟩

theorem Ascending.getElem_lt (ascending : Ascending cuts) (order : i < j) (inside : j < cuts.length) :
    cuts[i] < cuts[j] :=
  pairwise_iff_getElem.mp ascending.sorted i j (by omega) inside order

theorem lowCut_succ (inside : i < cuts.length) : lowCut cuts (i + 1) = cuts[i] := by
  simp [lowCut, inside]

theorem between_of_cuts (ascending : Ascending cuts) (bound : i ≤ cuts.length) (low : lowCut cuts i ≤ x)
    (high : ∀ inside : i < cuts.length, x < cuts[i]) : Between cuts i x := by
  constructor
  · intro c member
    obtain ⟨j, inside, rfl⟩ := mem_iff_getElem.mp member
    rw [length_take] at inside
    rw [getElem_take]
    obtain ⟨k, rfl⟩ : ∃ k, i = k + 1 := ⟨i - 1, by omega⟩
    rw [lowCut_succ (by omega)] at low
    rcases Nat.lt_or_eq_of_le (show j ≤ k by omega) with less | rfl
    · exact Nat.le_trans (Nat.le_of_lt (ascending.getElem_lt less (by omega))) low
    · exact low
  · intro c member
    obtain ⟨j, inside, rfl⟩ := mem_iff_getElem.mp member
    rw [length_drop] at inside
    rw [getElem_drop]
    rcases Nat.eq_zero_or_pos j with rfl | later
    · exact high (by omega)
    · exact Nat.lt_trans (high (by omega)) (ascending.getElem_lt (by omega) (by omega))

theorem Between.low (between : Between cuts i x) (bound : i ≤ cuts.length) : lowCut cuts i ≤ x := by
  cases i with
  | zero => exact Nat.zero_le x
  | succ k =>
    rw [lowCut_succ (by omega)]
    apply between.below
    rw [mem_take_iff_getElem]
    exact ⟨k, by omega, rfl⟩

theorem Between.high (between : Between cuts i x) (inside : i < cuts.length) : x < cuts[i] := by
  apply between.above
  rw [mem_drop_iff_getElem]
  exact ⟨0, by omega, by simp⟩

section
variable (ascending : Ascending cuts)
include ascending

section
variable (inside : i < cuts.length)

/-- A cut begins the segment after it. -/
theorem between_cut : Between cuts (i + 1) cuts[i] := by
  refine between_of_cuts ascending inside (le_of_eq (lowCut_succ inside)) fun inside' => ?_
  exact ascending.getElem_lt (Nat.lt_succ_self i) inside'

theorem Ascending.lowCut_lt : lowCut cuts i < cuts[i] := by
  cases i with
  | zero => exact ascending.positive _ (getElem_mem inside)
  | succ k =>
    rw [lowCut_succ (by omega)]
    exact ascending.getElem_lt (Nat.lt_succ_self k) inside

/-- A cut separates a full from an empty number. -/
theorem Ascending.covered_cut : Covered cuts cuts[i] ↔ ¬ Covered cuts (cuts[i] - 1) := by
  have low := ascending.lowCut_lt inside
  have before : Between cuts i (cuts[i] - 1) := between_of_cuts ascending inside.le (by omega) fun _ => by omega
  rw [(between_cut ascending inside).covered_iff, before.covered_iff]
  omega

end

theorem Ascending.lowCut_mono (order : i ≤ j) (bound : j ≤ cuts.length) : lowCut cuts i ≤ lowCut cuts j := by
  induction j, order using Nat.le_induction with
  | base => exact le_rfl
  | succ j order ih =>
    rw [lowCut_succ (by omega)]
    exact le_of_lt (lt_of_le_of_lt (ih (by omega)) (ascending.lowCut_lt (by omega)))

/-- The cuts are where full and empty change. -/
theorem Ascending.mem_iff (c : Nat) : c ∈ cuts ↔ 0 < c ∧ (Covered cuts c ↔ ¬ Covered cuts (c - 1)) := by
  constructor
  · intro member
    obtain ⟨i, inside, rfl⟩ := mem_iff_getElem.mp member
    exact ⟨ascending.positive _ member, ascending.covered_cut inside⟩
  · rintro ⟨positive, change⟩
    by_contra missing
    have same : cuts.countP (c < ·) = cuts.countP (c - 1 < ·) := by
      refine countP_congr fun d member => ?_
      have : d ≠ c := fun equal => missing (equal ▸ member)
      simp only [decide_eq_true_eq]
      omega
    rw [Covered, Covered] at change
    omega

/-- Ascending cuts are known by what they cover. -/
theorem Ascending.eq_of_covered (ascending' : Ascending cuts')
    (same : ∀ x, Covered cuts x ↔ Covered cuts' x) : cuts = cuts' :=
  List.Pairwise.eq_of_mem_iff ascending.sorted ascending'.sorted fun c => by
    rw [ascending.mem_iff, ascending'.mem_iff, same, same]

/-- Nothing is full only if there are no cuts. -/
theorem eq_nil_of_not_covered (empty : ∀ x, ¬ Covered cuts x) : cuts = [] :=
  ascending.eq_of_covered ⟨List.Pairwise.nil, nofun⟩ fun x => iff_of_false (empty x) (covered_nil x)

end

/-! ### Moving a cut -/

theorem toggles_set (inside : j < cuts.length) : Toggles cuts (cuts.set j v) (min cuts[j] v) (max cuts[j] v) := by
  refine toggles_of_count (by omega) fun x => ?_
  have counted : x < cuts[j] → 0 < cuts.countP (x < ·) := fun above =>
    countP_pos_iff.mpr ⟨_, getElem_mem inside, decide_eq_true above⟩
  rw [countP_set inside]
  simp only [decide_eq_true_eq, lt_min_iff, lt_max_iff]
  by_cases old : x < cuts[j]
  · have some := counted old
    by_cases new : x < v
    · simp only [old, new, and_self, or_self, ↓reduceIte]
      omega
    · simp only [old, new, and_false, or_false, ↓reduceIte]
      omega
  · by_cases new : x < v
    · simp only [old, new, false_and, or_true, ↓reduceIte]
      omega
    · simp only [old, new, and_self, or_self, ↓reduceIte]
      omega

theorem ascending_set (ascending : Ascending cuts) (low : lowCut cuts j < v)
    (high : ∀ inside : j + 1 < cuts.length, v < cuts[j + 1]) : Ascending (cuts.set j v) := by
  constructor
  · rw [pairwise_iff_getElem]
    intro a b boundA boundB order
    rw [length_set] at boundA boundB
    rw [getElem_set, getElem_set]
    have before := ascending.getElem_lt order boundB
    split
    next same =>
      rw [if_neg (by omega)]
      rcases Nat.lt_or_eq_of_le (show j + 1 ≤ b by omega) with later | rfl
      · exact Nat.lt_trans (high (by omega)) (ascending.getElem_lt later boundB)
      · exact high boundB
    · split
      next same =>
        obtain ⟨k, rfl⟩ : ∃ k, j = k + 1 := ⟨j - 1, by omega⟩
        rw [lowCut_succ (by omega)] at low
        rcases Nat.lt_or_eq_of_le (show a ≤ k by omega) with earlier | rfl
        · exact Nat.lt_trans (ascending.getElem_lt earlier (by omega)) low
        · exact low
      · exact before
  · intro c member
    rcases mem_or_eq_of_mem_set member with old | rfl
    · exact ascending.positive c old
    · exact Nat.lt_of_le_of_lt (Nat.zero_le _) low

end NcclCore.Lib
