import Mathlib.Tactic.Common

/-! Numbers written as a multiple of a base and a rest below it, and lists made from a range
of numbers. -/
namespace NcclCore.Lib
open List
variable {base high high' low low' : Nat}

theorem digits_div (rest : low < base) : (high * base + low) / base = high := by
  rw [Nat.mul_comm, Nat.mul_add_div (Nat.zero_lt_of_lt rest), Nat.div_eq_of_lt rest, Nat.add_zero]

theorem digits_inj (rest : low < base) (rest' : low' < base) :
    high * base + low = high' * base + low' ↔ high = high' ∧ low = low' := by
  refine ⟨fun same => ?_, fun ⟨sameHigh, sameLow⟩ => by rw [sameHigh, sameLow]⟩
  have quotient := congrArg (· / base) same
  have remainder := congrArg (· % base) same
  simp only [digits_div rest, digits_div rest', Nat.mul_add_mod_of_lt rest,
    Nat.mul_add_mod_of_lt rest'] at quotient remainder
  exact ⟨quotient, remainder⟩

theorem digits_lt (before : high < high') (rest : low < base) : high * base + low < high' * base := by
  have next := Nat.mul_le_mul_right base (Nat.succ_le_of_lt before)
  rw [Nat.succ_mul] at next
  omega

theorem getElem?_map_range : ((range m).map f)[i]? = some x ↔ i < m ∧ f i = x := by
  by_cases inside : i < m <;> simp [inside]

/-- Only one place of a range has something. -/
theorem flatMap_range_eq (inside : i < m) (others : ∀ j < m, j ≠ i → f j = []) :
    (range m).flatMap f = f i := by
  induction m with
  | zero => cases inside
  | succ m ih =>
    rw [range_succ, flatMap_append, flatMap_singleton]
    by_cases last : i = m
    · subst last
      have before : (range i).flatMap f = [] := flatMap_eq_nil_iff.mpr fun j member => by
        have := mem_range.mp member
        exact others j (by omega) (by omega)
      rw [before, nil_append]
    · rw [ih (by omega) fun j less => others j (by omega), others m (by omega) (Ne.symm last), append_nil]

end NcclCore.Lib
