import Mathlib.Tactic.Ring

/-! Division by a truncated reciprocal. The product with the reciprocal of the
divisor misses the quotient by at most one, so one comparison with the remainder
corrects it. -/
namespace NcclCore.Lib

/-- The high part of the product with a truncated reciprocal. -/
def estimate (base x y : Nat) : Nat := x * (base / y) / base

variable {base x y q : Nat}

theorem estimate_le (positive : 0 < base) (divisor : 0 < y) : estimate base x y ≤ x / y := by
  rw [Nat.le_div_iff_mul_le divisor]
  have scaled : estimate base x y * base ≤ x * (base / y) := Nat.div_mul_le_self _ _
  refine Nat.le_of_mul_le_mul_right ?_ positive
  calc estimate base x y * y * base = estimate base x y * base * y := by ring
    _ ≤ x * (base / y) * y := Nat.mul_le_mul_right _ scaled
    _ = x * (base / y * y) := by ring
    _ ≤ x * base := Nat.mul_le_mul_left _ (Nat.div_mul_le_self _ _)

theorem le_estimate_succ (positive : 0 < base) (divisor : 0 < y) (small : x ≤ base) :
    x / y ≤ estimate base x y + 1 := by
  cases quotient : x / y with
  | zero => exact Nat.zero_le _
  | succ k =>
    apply Nat.succ_le_succ
    rw [estimate, Nat.le_div_iff_mul_le positive]
    have below := (Nat.le_div_iff_mul_le divisor).mp quotient.symm.le
    have truncated : base ≤ base / y * y + y := by
      have split := Nat.div_add_mod' base y
      have small := Nat.mod_lt base divisor
      omega
    -- what the reciprocal lost, times the quotient, is at most the dividend
    have lost : (k + 1) * base ≤ x * (base / y) + x := by
      calc (k + 1) * base ≤ (k + 1) * (base / y * y + y) := Nat.mul_le_mul_left _ truncated
        _ = (k + 1) * y * (base / y) + (k + 1) * y := by ring
        _ ≤ x * (base / y) + x := Nat.add_le_add (Nat.mul_le_mul_right _ below) below
    rw [Nat.succ_mul] at lost
    omega

/-- A quotient that is at most one too small, and its remainder, after one
correction. -/
def corrected (x y q : Nat) : Nat × Nat :=
  if y ≤ x - y * q then (q + 1, x - y * q - y) else (q, x - y * q)

theorem corrected_eq (divisor : 0 < y) (below : q ≤ x / y) (close : x / y ≤ q + 1) :
    corrected x y q = (x / y, x % y) := by
  have split := Nat.div_add_mod x y
  have small := Nat.mod_lt x divisor
  unfold corrected
  obtain exact | short : x / y = q ∨ x / y = q + 1 := by omega
  · rw [exact] at split ⊢
    rw [if_neg (by omega)]
    exact Prod.ext rfl (by simp only; omega)
  · rw [short, Nat.mul_succ] at split
    rw [if_pos (by omega), short]
    exact Prod.ext rfl (by simp only; omega)

end NcclCore.Lib
