import Mathlib.Data.Nat.Bitwise
import Mathlib.Tactic.Ring
import NcclCore.Lib.RootedTree

/-! The double binary tree of `trees.cc`. Every rank computes its neighbours from
the bits of its own number; the second tree mirrors or shifts the first. -/
namespace NcclCore
open Lib

/-- The loop of `ncclGetBtree` that looks for the lowest bit of the rank. -/
def findBit (nranks rank : Nat) : Nat → Nat → Nat
  | 0, bit => bit
  | fuel + 1, bit =>
    if bit < nranks then
      if bit &&& rank ≠ 0 then bit else findBit nranks rank fuel (bit <<< 1)
    else bit

/-- The loop of `ncclGetBtree` that brings the second child within bounds. -/
def boundDown1 (nranks rank : Nat) : Nat → Option Nat → Nat → Option Nat
  | 0, down1, _ => down1
  | fuel + 1, down1, lowbit =>
    if ∃ down ∈ down1, nranks ≤ down then
      boundDown1 nranks rank fuel (if lowbit = 0 then none else some (rank + lowbit)) (lowbit >>> 1)
    else down1

local instance children_pos : NeZero 2 := ⟨by decide⟩

/-- `ncclGetBtree`, with no rank for -1. The root leaves `parentChildType` as it
was. -/
def ncclGetBtree (nranks rank : Nat) : TreeNode Nat :=
  let bit := findBit nranks rank nranks 1
  if rank = 0 then
    ⟨none, none, if 1 < nranks then some (bit >>> 1) else none, none⟩
  else
    let up := (rank ^^^ bit) ||| (bit <<< 1)
    let up := if nranks ≤ up then rank ^^^ bit else up
    let lowbit := bit >>> 1
    let down0 := if lowbit = 0 then none else some (rank - lowbit)
    let down1 := if lowbit = 0 then none else some (rank + lowbit)
    ⟨some up, down0, boundDown1 nranks rank (nranks + 2) down1 lowbit, some (if rank < up then 0 else 1)⟩

/-- `ncclGetDtree`: the neighbours in both trees. -/
def ncclGetDtree (nranks rank : Nat) : TreeNode Nat × TreeNode Nat :=
  (ncclGetBtree nranks rank,
    if nranks % 2 = 1 then
      let shiftrank := (rank + nranks - 1) % nranks
      (ncclGetBtree nranks shiftrank).map fun peer => (peer + 1) % nranks
    else
      (ncclGetBtree nranks (nranks - 1 - rank)).map fun peer => nranks - 1 - peer)

namespace DoubleTree
variable {n r p m t : Nat}

/-! ### Bits of a rank -/

theorem xor_low (m t : Nat) : (2 * m + 1) * 2 ^ t ^^^ 2 ^ t = m * 2 ^ (t + 1) := by
  have odd : 2 * m + 1 ^^^ 1 = 2 * m := Nat.xor_one_of_odd (odd_two_mul_add_one m)
  calc (2 * m + 1) * 2 ^ t ^^^ 2 ^ t = (2 * m + 1) <<< t ^^^ 1 <<< t := by
        rw [Nat.shiftLeft_eq, Nat.shiftLeft_eq, one_mul]
    _ = 2 * m * 2 ^ t := by rw [← Nat.shiftLeft_xor_distrib, odd, Nat.shiftLeft_eq]
    _ = m * 2 ^ (t + 1) := by rw [pow_succ]; ring

theorem or_next (m t : Nat) : m * 2 ^ (t + 1) ||| 2 ^ t <<< 1 = (m + (1 - m % 2)) * 2 ^ (t + 1) := by
  have low : m ||| 1 = m + (1 - m % 2) := by
    have half : (m ||| 1) / 2 = m / 2 ||| 1 / 2 := Nat.or_div_two
    have low : (m ||| 1) % 2 = 1 ↔ m % 2 = 1 ∨ 1 % 2 = 1 := Nat.or_mod_two_eq_one
    rw [Nat.or_zero] at half
    omega
  calc m * 2 ^ (t + 1) ||| 2 ^ t <<< 1 = m <<< (t + 1) ||| 1 <<< (t + 1) := by
        rw [Nat.shiftLeft_eq, Nat.shiftLeft_eq, Nat.shiftLeft_eq, one_mul, pow_succ]
    _ = (m + (1 - m % 2)) * 2 ^ (t + 1) := by rw [← Nat.shiftLeft_or_distrib, low, Nat.shiftLeft_eq]

/-- The bit the first loop stops at: the lowest bit of a rank, or for the root
the first power of two that is not below the number of ranks. -/
structure Bit (n r t : Nat) : Prop where
  dvd : 2 ^ t ∣ r
  odd : r ≠ 0 → r / 2 ^ t % 2 = 1
  root : r = 0 → n ≤ 2 ^ t
  tight : r = 0 → t = 0 ∨ 2 ^ (t - 1) < n

theorem findBit_spec (fuel k : Nat) (inside : r < n) (clear : 2 ^ k ∣ r) (tight : r = 0 → k = 0 ∨ 2 ^ (k - 1) < n)
    (enough : n ≤ 2 ^ (k + fuel)) : ∃ t, findBit n r fuel (2 ^ k) = 2 ^ t ∧ Bit n r t := by
  induction fuel generalizing k with
  | zero =>
    -- the bit is past the rank, which it divides
    have zero : r = 0 := Nat.eq_zero_of_dvd_of_lt clear (inside.trans_le enough)
    exact ⟨k, rfl, clear, fun nonzero => absurd zero nonzero, fun _ => enough, tight⟩
  | succ fuel ih =>
    unfold findBit
    have half : 2 ^ k &&& r ≠ 0 ↔ r / 2 ^ k % 2 = 1 := by
      rw [Nat.two_pow_and, Nat.testBit_eq_decide_div_mod_eq]
      by_cases low : r / 2 ^ k % 2 = 1 <;> simp
    split
    next below =>
      by_cases low : r / 2 ^ k % 2 = 1
      · rw [if_pos (half.mpr low)]
        refine ⟨k, rfl, clear, fun _ => low, fun zero => ?_, tight⟩
        rw [zero, Nat.zero_div] at low
        cases low
      · rw [if_neg (fun set => low (half.mp set)), Nat.shiftLeft_eq]
        have next : 2 ^ (k + 1) ∣ r := by
          rw [pow_succ]
          exact Nat.mul_dvd_of_dvd_div clear (Nat.dvd_of_mod_eq_zero (by omega))
        exact ih (k + 1) next (fun _ => .inr (by simpa using below))
          (by rwa [show k + 1 + fuel = k + (fuel + 1) by omega])
    next past =>
      have zero : r = 0 := Nat.eq_zero_of_dvd_of_lt clear (by omega)
      exact ⟨k, rfl, clear, fun nonzero => absurd zero nonzero, fun _ => Nat.not_lt.mp past, tight⟩

theorem exists_bit (inside : r < n) : ∃ t, findBit n r n 1 = 2 ^ t ∧ Bit n r t :=
  findBit_spec n 0 inside (Nat.one_dvd _) (fun _ => .inl rfl) (by rw [zero_add]; exact Nat.lt_two_pow_self.le)

theorem bit_of_odd (n m t : Nat) : Bit n ((2 * m + 1) * 2 ^ t) t := by
  have nonzero : (2 * m + 1) * 2 ^ t ≠ 0 := Nat.mul_ne_zero (by omega) (ne_of_gt (Nat.two_pow_pos t))
  refine ⟨Nat.dvd_mul_left _ _, fun _ => ?_, fun zero => absurd zero nonzero, fun zero => absurd zero nonzero⟩
  rw [Nat.mul_div_cancel _ (Nat.two_pow_pos t)]
  omega

section
variable (bit : Bit n r t)
include bit

theorem Bit.odd_form (nonzero : r ≠ 0) : ∃ m, r = (2 * m + 1) * 2 ^ t := by
  refine ⟨r / 2 ^ t / 2, ?_⟩
  have odd := bit.odd nonzero
  rw [show 2 * (r / 2 ^ t / 2) + 1 = r / 2 ^ t by omega, Nat.div_mul_cancel bit.dvd]

theorem Bit.not_dvd (nonzero : r ≠ 0) : ¬ 2 ^ (t + 1) ∣ r := by
  intro even
  have odd := bit.odd nonzero
  rw [pow_succ] at even
  have half := Nat.dvd_div_of_mul_dvd even
  omega

theorem Bit.unique (bit' : Bit n r t') : t = t' := by
  wlog less : t < t' generalizing t t'
  · rcases Nat.lt_or_eq_of_le (Nat.not_lt.mp less) with more | same
    · exact (this bit' bit more).symm
    · exact same.symm
  -- the smaller bit would not be the lowest, or not the first past the ranks
  have further := Nat.dvd_trans (Nat.pow_dvd_pow 2 less) bit'.dvd
  by_cases zero : r = 0
  · have past := bit.root zero
    have below := bit'.tight zero
    have order : 2 ^ t ≤ 2 ^ (t' - 1) := Nat.pow_le_pow_right (by decide) (by omega)
    omega
  · exact absurd further (bit.not_dvd zero)

theorem Bit.lt_of_dvd (divides : 2 ^ (k + 1) ∣ r) (small : 2 ^ k < n) : k < t := by
  by_cases zero : r = 0
  · have past := bit.root zero
    exact (Nat.pow_lt_pow_iff_right one_lt_two).mp (small.trans_le past)
  · by_contra early
    exact bit.not_dvd zero (Nat.dvd_trans (Nat.pow_dvd_pow 2 (by omega)) divides)

theorem findBit_eq (inside : r < n) : findBit n r n 1 = 2 ^ t := by
  obtain ⟨t', found, bit'⟩ := exists_bit inside
  rw [found, bit.unique bit']

theorem Bit.lt (nonzero : r ≠ 0) (inside : r < n) : t < n :=
  lt_of_lt_of_le Nat.lt_two_pow_self
    (le_trans (Nat.le_of_dvd (Nat.pos_of_ne_zero nonzero) bit.dvd) inside.le)

end

/-! ### The neighbours of a rank -/

/-- The rank above the odd multiple `2 m + 1` of a power of two. -/
def above (n m t : Nat) : Nat :=
  if n ≤ (m + (1 - m % 2)) * 2 ^ (t + 1) then m * 2 ^ (t + 1) else (m + (1 - m % 2)) * 2 ^ (t + 1)

theorem btree_root : (ncclGetBtree n 0).u = none := by
  simp [ncclGetBtree]

theorem btree_up (inside : (2 * m + 1) * 2 ^ t < n) :
    (ncclGetBtree n ((2 * m + 1) * 2 ^ t)).u = some (above n m t) ∧
      (ncclGetBtree n ((2 * m + 1) * 2 ^ t)).parentChildType =
        some (if (2 * m + 1) * 2 ^ t < above n m t then 0 else 1) := by
  have nonzero : (2 * m + 1) * 2 ^ t ≠ 0 := Nat.mul_ne_zero (by omega) (ne_of_gt (Nat.two_pow_pos t))
  simp only [ncclGetBtree, if_neg nonzero, findBit_eq (bit_of_odd n m t) inside, xor_low, or_next, above]
  exact ⟨trivial, rfl⟩

/-- The first of the ranks `r + 2 ^ i`, `r + 2 ^ (i - 1)`, … within bounds. -/
def firstBelow (n r : Nat) : Nat → Option Nat
  | 0 => if r + 1 < n then some (r + 1) else none
  | i + 1 => if r + 2 ^ (i + 1) < n then some (r + 2 ^ (i + 1)) else firstBelow n r i

theorem pow_shiftRight_one (t : Nat) : 2 ^ t >>> 1 = if t = 0 then 0 else 2 ^ (t - 1) := by
  cases t with
  | zero => rfl
  | succ =>
    rw [Nat.shiftRight_eq_div_pow, pow_succ, Nat.mul_div_cancel _ Nat.two_pos, if_neg (by omega),
      Nat.add_sub_cancel]

theorem boundDown1_none (fuel lowbit : Nat) : boundDown1 n r fuel none lowbit = none := by
  cases fuel <;> simp [boundDown1]

theorem boundDown1_eq (fuel i : Nat) (enough : i + 1 < fuel) :
    boundDown1 n r fuel (some (r + 2 ^ i)) (2 ^ i >>> 1) = firstBelow n r i := by
  induction i generalizing fuel with
  | zero =>
    obtain ⟨fuel, rfl⟩ := Nat.exists_eq_succ_of_ne_zero (Nat.ne_zero_of_lt enough)
    by_cases below : r + 1 < n
    · simp [boundDown1, firstBelow, below]
    · simp [boundDown1, firstBelow, below, boundDown1_none]
  | succ i ih =>
    obtain ⟨fuel, rfl⟩ := Nat.exists_eq_succ_of_ne_zero (Nat.ne_zero_of_lt enough)
    by_cases below : r + 2 ^ (i + 1) < n
    · simp [boundDown1, firstBelow, below]
    · rw [boundDown1, if_pos ⟨_, rfl, Nat.not_lt.mp below⟩, pow_shiftRight_one, if_neg (Nat.succ_ne_zero i),
        Nat.add_sub_cancel, if_neg (ne_of_gt (Nat.two_pow_pos i)), ih fuel (by omega), firstBelow, if_neg below]

/-- The loop starts with the bit it has already tried. -/
theorem boundDown1_start (enough : i + 2 < fuel) :
    boundDown1 n r fuel (some (r + 2 ^ i)) (2 ^ i) = firstBelow n r i := by
  obtain ⟨fuel, rfl⟩ := Nat.exists_eq_succ_of_ne_zero (Nat.ne_zero_of_lt enough)
  by_cases below : r + 2 ^ i < n
  · cases i with
    | zero => simp_all [boundDown1, firstBelow]
    | succ => simp [boundDown1, firstBelow, below]
  · rw [boundDown1, if_pos ⟨_, rfl, Nat.not_lt.mp below⟩, if_neg (ne_of_gt (Nat.two_pow_pos i)),
      boundDown1_eq fuel i (by omega)]

theorem firstBelow_eq_some :
    firstBelow n r i = some c ↔ ∃ j ≤ i, c = r + 2 ^ j ∧ c < n ∧ (j < i → n ≤ r + 2 ^ (j + 1)) := by
  induction i with
  | zero =>
    unfold firstBelow
    constructor
    · intro found
      split at found
      · cases found
        exact ⟨0, Nat.le_refl 0, rfl, ‹_›, fun less => absurd less (Nat.lt_irrefl 0)⟩
      · cases found
    · rintro ⟨j, least, rfl, below, -⟩
      obtain rfl := Nat.le_zero.mp least
      exact if_pos below
  | succ i ih =>
    unfold firstBelow
    split
    next below =>
      constructor
      · intro found
        cases found
        exact ⟨i + 1, le_rfl, rfl, below, fun less => absurd less (lt_irrefl _)⟩
      · rintro ⟨j, bound, rfl, -, first⟩
        by_cases less : j < i + 1
        · have past := first less
          have order : 2 ^ (j + 1) ≤ 2 ^ (i + 1) := Nat.pow_le_pow_right (by decide) less
          omega
        · rw [show j = i + 1 by omega]
    next past =>
      rw [ih]
      constructor
      · rintro ⟨j, bound, rfl, below, first⟩
        refine ⟨j, by omega, rfl, below, fun less => ?_⟩
        by_cases last : j < i
        · exact first last
        · rw [show j = i by omega]
          omega
      · rintro ⟨j, bound, rfl, below, first⟩
        have less : j < i + 1 := by
          by_contra last
          rw [show j = i + 1 by omega] at below
          exact past below
        exact ⟨j, by omega, rfl, below, fun last => first less⟩

theorem btree_down0 (inside : p < n) (bit : Bit n p t) :
    (ncclGetBtree n p).d0 = some c ↔ p ≠ 0 ∧ ∃ j, t = j + 1 ∧ c + 2 ^ j = p := by
  simp only [ncclGetBtree, findBit_eq bit inside, pow_shiftRight_one]
  by_cases root : p = 0
  · simp [root]
  have divides := Nat.le_of_dvd (Nat.pos_of_ne_zero root) bit.dvd
  cases t with
  | zero => simp [root]
  | succ j =>
    have positive := Nat.two_pow_pos j
    simp only [root, ↓reduceIte, Nat.succ_ne_zero, Nat.add_sub_cancel, positive.ne', Option.some.injEq,
      ne_eq, not_false_eq_true, true_and, Nat.add_right_cancel_iff]
    constructor
    · rintro rfl
      exact ⟨j, rfl, by omega⟩
    · rintro ⟨_, rfl, sum⟩
      omega

theorem btree_down1 (inside : p < n) (bit : Bit n p t) :
    (ncclGetBtree n p).d1 = some c ↔ ∃ j < t, c = p + 2 ^ j ∧ c < n ∧ (j + 1 < t → n ≤ p + 2 ^ (j + 1)) := by
  simp only [ncclGetBtree, findBit_eq bit inside, pow_shiftRight_one]
  by_cases root : p = 0
  · subst root
    have past := bit.root rfl
    cases t with
    | zero => simp; omega
    | succ i =>
      have below : 2 ^ i < n := by simpa using bit.tight rfl
      have several : 1 < n := Nat.lt_of_le_of_lt (Nat.one_le_two_pow) below
      simp only [↓reduceIte, several, Nat.succ_ne_zero, Nat.add_sub_cancel, Option.some.injEq, Nat.zero_add]
      constructor
      · rintro rfl
        exact ⟨i, by omega, rfl, below, fun less => absurd less (lt_irrefl _)⟩
      · rintro ⟨j, least, rfl, -, first⟩
        by_cases last : j + 1 < i + 1
        · have order : 2 ^ (j + 1) ≤ 2 ^ i := Nat.pow_le_pow_right (by decide) (by omega)
          omega
        · rw [show j = i by omega]
  · have small := bit.lt root inside
    cases t with
    | zero => simp [root, boundDown1_none]
    | succ i =>
      simp only [root, ↓reduceIte, Nat.succ_ne_zero, Nat.add_sub_cancel, Nat.ne_of_gt (Nat.two_pow_pos i)]
      rw [boundDown1_start (by omega), firstBelow_eq_some]
      constructor <;>
      · rintro ⟨j, bound, rfl, below, first⟩
        exact ⟨j, by omega, rfl, below, fun less => first (by omega)⟩

/-! ### One tree -/

/-- Where the rank above stands, in terms of the bits of both. -/
theorem above_cases (inside : (2 * m + 1) * 2 ^ t < n) :
    (above n m t = (2 * m + 1) * 2 ^ t + 2 ^ t ∧ above n m t < n ∧ Bit n (above n m t) (t + 1)) ∨
      ((2 * m + 1) * 2 ^ t = above n m t + 2 ^ t ∧ above n m t < n ∧
        ∃ t', Bit n (above n m t) t' ∧ t < t' ∧ (t + 1 < t' → n ≤ (2 * m + 1) * 2 ^ t + 2 ^ t)) := by
  have twice : 2 ^ (t + 1) = 2 * 2 ^ t := Nat.pow_succ'
  have value : (2 * m + 1) * 2 ^ t = m * 2 ^ (t + 1) + 2 ^ t := by rw [twice]; ring
  unfold above
  rcases Nat.mod_two_eq_zero_or_one m with even | odd
  · rw [even, Nat.sub_zero]
    have next : (m + 1) * 2 ^ (t + 1) = (2 * m + 1) * 2 ^ t + 2 ^ t := by rw [twice]; ring
    split
    next past =>
      right
      refine ⟨value, by omega, ?_⟩
      obtain ⟨t', -, bit⟩ : ∃ t', findBit n (m * 2 ^ (t + 1)) n 1 = 2 ^ t' ∧ Bit n (m * 2 ^ (t + 1)) t' :=
        exists_bit (by omega)
      exact ⟨t', bit, bit.lt_of_dvd (Nat.dvd_mul_left _ _) (by omega), fun _ => by omega⟩
    next below =>
      left
      obtain ⟨k, double⟩ : ∃ k, m = 2 * k := ⟨m / 2, by omega⟩
      refine ⟨next, by omega, ?_⟩
      rw [double]
      exact bit_of_odd n k (t + 1)
  · rw [odd, Nat.add_zero, if_neg (by omega)]
    right
    obtain ⟨k, double⟩ : ∃ k, m = 2 * k + 1 := ⟨m / 2, by omega⟩
    refine ⟨value, by omega, t + 1, ?_, by omega, fun less => absurd less (lt_irrefl _)⟩
    rw [double]
    exact bit_of_odd n k (t + 1)

theorem btree_up_cases (inside : r < n) (parent : (ncclGetBtree n r).u = some p) :
    ∃ m t, r = (2 * m + 1) * 2 ^ t ∧ p = above n m t := by
  have nonzero : r ≠ 0 := by
    rintro rfl
    cases parent
  obtain ⟨t, -, bit⟩ := exists_bit inside
  obtain ⟨m, rfl⟩ := bit.odd_form nonzero
  rw [(btree_up inside).1] at parent
  exact ⟨m, t, rfl, (Option.some.inj parent).symm⟩

/-- A first child is half a bit below. -/
theorem above_down0 (inside : (2 * m + 1) * 2 ^ (j + 1) < n) : above n (2 * m) j = (2 * m + 1) * 2 ^ (j + 1) := by
  rw [above, Nat.mul_mod_right, if_neg (Nat.not_le.mpr inside)]

/-- A second child is further above, and only as near as the bounds ask for. -/
theorem above_down1 (bit : Bit n p t) (less : j < t) (first : j + 1 < t → n ≤ p + 2 ^ (j + 1)) :
    above n (p / 2 ^ (j + 1)) j = p := by
  have divides := Nat.dvd_trans (Nat.pow_dvd_pow 2 less) bit.dvd
  have whole := Nat.div_mul_cancel divides
  unfold above
  rcases Nat.mod_two_eq_zero_or_one (p / 2 ^ (j + 1)) with even | odd
  · have past : n ≤ p + 2 ^ (j + 1) := by
      by_cases last : j + 1 < t
      · exact first last
      · obtain rfl : t = j + 1 := by omega
        by_cases zero : p = 0
        · have root := bit.root zero
          omega
        · have odd := bit.odd zero
          omega
    rw [even, if_pos (by rw [Nat.add_mul, whole, Nat.one_mul]; exact past), whole]
  · rw [odd, Nat.add_zero, whole, ite_self]

theorem btree_unique_root (inside : r < n) (top : (ncclGetBtree n r).u = none) : r = 0 := by
  by_contra nonzero
  obtain ⟨t, -, bit⟩ := exists_bit inside
  obtain ⟨m, rfl⟩ := bit.odd_form nonzero
  rw [(btree_up inside).1] at top
  cases top

theorem btree_listed (inside : r < n) (parent : (ncclGetBtree n r).u = some p) :
    p < n ∧ ∃ i, (ncclGetBtree n r).parentChildType = some i ∧ (ncclGetBtree n p).down i = some r := by
  obtain ⟨m, t, rfl, rfl⟩ := btree_up_cases inside parent
  rw [(btree_up inside).2]
  have positive := Nat.two_pow_pos t
  rcases above_cases inside with ⟨next, below, bit⟩ | ⟨next, below, t', bit, less, first⟩
  · refine ⟨below, 0, by rw [if_pos (by omega)], ?_⟩
    exact (btree_down0 below bit).mpr ⟨by omega, t, rfl, next.symm⟩
  · refine ⟨below, 1, by rw [if_neg (by omega)], ?_⟩
    refine (btree_down1 below bit).mpr ⟨t, less, next, inside, fun later => ?_⟩
    omega

theorem btree_named (inside : p < n) (child : (ncclGetBtree n p).down i = some c) :
    c < n ∧ (ncclGetBtree n c).u = some p ∧ (ncclGetBtree n c).parentChildType = some i := by
  obtain ⟨t, -, bit⟩ := exists_bit inside
  match i with
  | 0 =>
    obtain ⟨nonzero, j, rfl, sum⟩ := (btree_down0 inside bit).mp child
    obtain ⟨m, rfl⟩ := bit.odd_form nonzero
    have positive := Nat.two_pow_pos j
    obtain rfl : c = (2 * (2 * m) + 1) * 2 ^ j := by
      have expand : (2 * m + 1) * 2 ^ (j + 1) = (2 * (2 * m) + 1) * 2 ^ j + 2 ^ j := by rw [pow_succ]; ring
      omega
    obtain ⟨up, type⟩ := btree_up (m := 2 * m) (t := j) (n := n) (by omega)
    rw [above_down0 inside] at up type
    refine ⟨by omega, up, ?_⟩
    rw [type, if_pos (by omega)]
  | 1 =>
    obtain ⟨j, less, rfl, below, first⟩ := (btree_down1 inside bit).mp child
    have whole := Nat.div_mul_cancel (Nat.dvd_trans (Nat.pow_dvd_pow 2 less) bit.dvd)
    have value : p + 2 ^ j = (2 * (p / 2 ^ (j + 1)) + 1) * 2 ^ j := by
      calc p + 2 ^ j = p / 2 ^ (j + 1) * 2 ^ (j + 1) + 2 ^ j := by rw [whole]
        _ = (2 * (p / 2 ^ (j + 1)) + 1) * 2 ^ j := by rw [pow_succ]; ring
    rw [value] at below ⊢
    obtain ⟨up, type⟩ := btree_up below
    rw [above_down1 bit less first] at up type
    refine ⟨below, up, ?_⟩
    rw [type, if_neg (Nat.not_lt.mpr (by rw [← value]; exact le_self_add))]

/-- Going up at least doubles the lowest bit. -/
theorem btree_bit_lt (inside : r < n) (parent : (ncclGetBtree n r).u = some p) :
    p < n ∧ findBit n r n 1 < n ∧ findBit n r n 1 < findBit n p n 1 := by
  obtain ⟨m, t, rfl, rfl⟩ := btree_up_cases inside parent
  have small : 2 ^ t ≤ (2 * m + 1) * 2 ^ t := Nat.le_mul_of_pos_left _ (by omega)
  rw [findBit_eq (bit_of_odd n m t) inside]
  rcases above_cases inside with ⟨-, below, bit⟩ | ⟨-, below, t', bit, less, -⟩
  · rw [findBit_eq bit below]
    exact ⟨below, by omega, Nat.pow_lt_pow_right one_lt_two (Nat.lt_succ_self t)⟩
  · rw [findBit_eq bit below]
    exact ⟨below, by omega, Nat.pow_lt_pow_right one_lt_two less⟩

theorem btree_spanning (positive : 0 < n) : SpanningTree {r | r < n} (ncclGetBtree n) where
  root := ⟨0, ⟨positive, btree_root⟩, fun _ found => btree_unique_root found.1 found.2⟩
  listed := fun _ inside _ parent => btree_listed inside parent
  named := fun _ inside _ _ child => btree_named inside child
  rooted := fun _ inside =>
    exists_root_of_rank (fun r => findBit n r n 1) n (fun _ member _ parent => btree_bit_lt member parent) inside

/-- A way up has at most as many steps as the ranks have bits. -/
theorem btree_depth {path : Nat → Nat} (inside : path 0 < n)
    (up : ∀ i < k, (ncclGetBtree n (path i)).u = some (path (i + 1))) : 2 ^ k < 2 * n := by
  have climbs : ∀ i ≤ k, path i < n ∧ 2 ^ i ≤ findBit n (path i) n 1 := by
    intro i
    induction i with
    | zero =>
      obtain ⟨t, found, -⟩ := exists_bit inside
      exact fun _ => ⟨inside, found ▸ Nat.one_le_two_pow⟩
    | succ i ih =>
      intro more
      obtain ⟨below, least⟩ := ih (by omega)
      obtain ⟨below', -, less⟩ := btree_bit_lt below (up i more)
      obtain ⟨t, found, -⟩ := exists_bit below
      obtain ⟨t', found', -⟩ := exists_bit below'
      rw [found] at least less
      rw [found', Nat.pow_lt_pow_iff_right one_lt_two] at less
      have doubled : 2 ^ (t + 1) ≤ 2 ^ t' := Nat.pow_le_pow_right Nat.two_pos less
      rw [found']
      exact ⟨below', by omega⟩
  cases k with
  | zero => omega
  | succ k =>
    obtain ⟨below, least⟩ := climbs k (by omega)
    have := btree_bit_lt below (up k (by omega))
    omega

theorem btree_depth_thirteen : (ncclGetBtree 13 1).u = some 2 ∧ 2 ^ 4 < 2 * 13 :=
  ⟨by decide, @btree_depth 13 4 (fun i => [1, 2, 4, 8, 0].getD i 0) (by decide) (by decide)⟩

/-- Odd ranks are leaves. -/
theorem even_of_hasChild (inside : r < n) (parent : (ncclGetBtree n r).HasChild) : r % 2 = 0 := by
  obtain ⟨t, -, bit⟩ := exists_bit inside
  have positive : 0 < t := by
    obtain ⟨i, child⟩ := parent
    obtain ⟨c, child⟩ := Option.isSome_iff_exists.mp child
    match i with
    | 0 =>
      obtain ⟨-, j, last, -⟩ := (btree_down0 inside bit).mp child
      omega
    | 1 =>
      obtain ⟨j, less, -⟩ := (btree_down1 inside bit).mp child
      omega
  exact Nat.mod_eq_zero_of_dvd (Nat.dvd_trans (dvd_pow_self 2 positive.ne') bit.dvd)

/-! ### Both trees -/

theorem mirror_spanning (positive : 0 < n) :
    SpanningTree {r | r < n} fun r => (ncclGetBtree n (n - 1 - r)).map fun peer => n - 1 - peer := by
  have maps : Set.MapsTo (fun r => n - 1 - r) {r | r < n} {r | r < n} := by
    intro r (inside : r < n)
    change n - 1 - r < n
    omega
  have twice : Set.LeftInvOn (fun r => n - 1 - r) (fun r => n - 1 - r) {r | r < n} := by
    intro r (inside : r < n)
    change n - 1 - (n - 1 - r) = r
    omega
  exact (btree_spanning positive).relabel maps maps ⟨twice, twice⟩

theorem shift_back (inside : r < n) : (r + n - 1) % n = if r = 0 then n - 1 else r - 1 := by
  split
  next zero =>
    rw [zero, zero_add, Nat.mod_eq_of_lt (by omega)]
  · rw [show r + n - 1 = r - 1 + n by omega, Nat.add_mod_right, Nat.mod_eq_of_lt (by omega)]

theorem shift_spanning (positive : 0 < n) :
    SpanningTree {r | r < n} fun r => (ncclGetBtree n ((r + n - 1) % n)).map fun peer => (peer + 1) % n := by
  refine (btree_spanning positive).relabel (fun _ _ => Nat.mod_lt _ positive) (fun _ _ => Nat.mod_lt _ positive) ⟨?_, ?_⟩
  · intro r (inside : r < n)
    change ((r + n - 1) % n + 1) % n = r
    rw [Nat.mod_add_mod, show r + n - 1 + 1 = r + n by omega, Nat.add_mod_right, Nat.mod_eq_of_lt inside]
  · intro r (inside : r < n)
    change ((r + 1) % n + n - 1) % n = r
    rw [Nat.add_sub_assoc positive, Nat.mod_add_mod, show r + 1 + (n - 1) = r + n by omega, Nat.add_mod_right,
      Nat.mod_eq_of_lt inside]

/-- Over all ranks, both outputs of `ncclGetDtree` are spanning trees; with an
even number of ranks every rank is a leaf of one of them, with an odd number all
but at most one are. -/
theorem dtree_spanning_trees (positive : 0 < n) :
    SpanningTree {r | r < n} (fun r => (ncclGetDtree n r).1) ∧
    SpanningTree {r | r < n} (fun r => (ncclGetDtree n r).2) ∧
    (n % 2 = 0 → ∀ r < n, ¬ ((ncclGetDtree n r).1.HasChild ∧ (ncclGetDtree n r).2.HasChild)) ∧
    (n % 2 = 1 → ∀ r < n, ∀ r' < n, (ncclGetDtree n r).1.HasChild ∧ (ncclGetDtree n r).2.HasChild →
      (ncclGetDtree n r').1.HasChild ∧ (ncclGetDtree n r').2.HasChild → r = r') := by
  refine ⟨btree_spanning positive, ?_, ?_, ?_⟩
  · simp only [ncclGetDtree]
    split
    · exact shift_spanning positive
    · exact mirror_spanning positive
  · rintro even r inside ⟨first, second⟩
    have low := even_of_hasChild inside first
    rw [ncclGetDtree, if_neg (by omega), TreeNode.hasChild_map] at second
    have low' := even_of_hasChild (by omega) second
    omega
  · -- a rank other than the first is odd in one of the trees
    have only : n % 2 = 1 → ∀ r < n, (ncclGetDtree n r).1.HasChild ∧ (ncclGetDtree n r).2.HasChild → r = 0 := by
      rintro odd r inside ⟨first, second⟩
      have low := even_of_hasChild inside first
      rw [ncclGetDtree, if_pos odd, TreeNode.hasChild_map] at second
      have low' := even_of_hasChild (Nat.mod_lt _ positive) second
      rw [shift_back inside] at low'
      split at low' <;> omega
    intro odd r inside r' inside' both both'
    rw [only odd r inside both, only odd r' inside' both']

theorem dtree_spanning_trees_thirteen :
    SpanningTree {r | r < 13} (fun r => (ncclGetDtree 13 r).2) ∧
      (ncclGetDtree 13 0).2 = ⟨some 9, some 11, none, some 1⟩ :=
  ⟨(dtree_spanning_trees (by decide)).2.1, by decide⟩

end NcclCore.DoubleTree
