import Mathlib.Data.Nat.Prime.Basic
import NcclCore.Lib.Reciprocal

/-! The fast division of `bitops.h`: a divisor carries a precomputed reciprocal,
and a product with it replaces the division. The reciprocal of one does not fit
into the word and is stored as zero. -/
namespace NcclCore

/-- `isPow2`, which also holds of zero. -/
def isPow2 {w : Nat} (x : BitVec w) : Bool := x &&& (x - 1) == 0

/-- `idivRcp32`: the quotient is taken with 64 bits and then cut to 32. -/
def idivRcp32 (x : BitVec 32) : BitVec 32 := (0x100000000 / x.setWidth 64 : BitVec 64).setWidth 32

/-- `idivRcp64`: the dividend is one less than for 32 bits, and the quotient is
corrected where that matters. -/
def idivRcp64 (x : BitVec 64) : BitVec 64 := BitVec.allOnes 64 / x + BitVec.ofNat 64 (isPow2 x).toNat

/-- The high word of a product: `mul32hi` and `mul64hi`. -/
def mulhi {w : Nat} (a b : BitVec w) : BitVec w := ((a.setWidth (w + w) * b.setWidth (w + w)) >>> w).setWidth w

def mul32hi (a b : BitVec 32) : BitVec 32 := mulhi a b
def mul64hi (a b : BitVec 64) : BitVec 64 := mulhi a b

/-- The reciprocal of a product, from the reciprocals of the factors. -/
def imulRcp {w : Nat} (x xrcp y yrcp : BitVec w) : BitVec w :=
  if xrcp = 0 then yrcp
  else if yrcp = 0 then xrcp
  else
    let rcp := mulhi xrcp yrcp
    let rem := 0 - x * y * rcp
    if x * y ≤ rem then rcp + 1 else rcp

def imulRcp32 (x xrcp y yrcp : BitVec 32) : BitVec 32 := imulRcp x xrcp y yrcp
def imulRcp64 (x xrcp y yrcp : BitVec 64) : BitVec 64 := imulRcp x xrcp y yrcp

/-- Quotient and remainder. -/
def idivmodFast {w : Nat} (x y yrcp : BitVec w) : BitVec w × BitVec w :=
  if yrcp ≠ 0 then
    let q := mulhi x yrcp
    let r := x - y * q
    if y ≤ r then (q + 1, r - y) else (q, r)
  else (x, 0)

def idivmodFast32 (x y yrcp : BitVec 32) : BitVec 32 × BitVec 32 := idivmodFast x y yrcp
def idivmodFast64 (x y yrcp : BitVec 64) : BitVec 64 × BitVec 64 := idivmodFast x y yrcp

namespace ReciprocalDivision
open Lib BitVec
variable {w : Nat} {x y xrcp yrcp : BitVec w}

/-- The stored reciprocal of a divisor: truncated, and cut to the word. -/
def IsRcp (y yrcp : BitVec w) : Prop := yrcp.toNat = 2 ^ w / y.toNat % 2 ^ w

theorem one_toNat (nonzero : y ≠ 0) : (1 : BitVec w).toNat = 1 := by
  exact Nat.mod_eq_of_lt (lt_of_le_of_lt (toNat_pos_of_ne_zero nonzero) y.isLt)

theorem isRcp_idivRcp32 (y : BitVec 32) : IsRcp y (idivRcp32 y) := by
  rfl

theorem isPow2_iff_dvd (nonzero : y ≠ 0) : isPow2 y = true ↔ y.toNat ∣ 2 ^ w := by
  have positive := toNat_pos_of_ne_zero nonzero
  have one := one_toNat nonzero
  have least : (1 : BitVec w) ≤ y := by rwa [le_def, one]
  rw [isPow2, beq_iff_eq, ← toNat_inj, toNat_and, toNat_sub_of_le least, one]
  rw [show (0 : BitVec w).toNat = 0 by simp, Nat.and_sub_one_eq_zero_iff_isPowerOfTwo positive.ne',
    Nat.dvd_prime_pow Nat.prime_two]
  constructor
  · rintro ⟨k, power⟩
    refine ⟨k, le_of_lt ((Nat.pow_lt_pow_iff_right one_lt_two).mp ?_), power⟩
    rw [← power]
    exact y.isLt
  · rintro ⟨k, -, power⟩
    exact ⟨k, power⟩

theorem isRcp_idivRcp64 {y : BitVec 64} (nonzero : y ≠ 0) : IsRcp y (idivRcp64 y) := by
  have whole : 2 ^ 64 / y.toNat = (2 ^ 64 - 1) / y.toNat + (isPow2 y).toNat := by
    rw [show 2 ^ 64 = 2 ^ 64 - 1 + 1 by decide, Nat.succ_div]
    congr 1
    cases power : isPow2 y with
    | true => exact if_pos ((isPow2_iff_dvd nonzero).mp power)
    | false =>
      refine if_neg fun divides => ?_
      rw [(isPow2_iff_dvd nonzero).mpr divides] at power
      cases power
  have bit : (isPow2 y).toNat < 2 ^ 64 := lt_of_le_of_lt (Bool.toNat_le _) (by decide)
  unfold IsRcp idivRcp64
  rw [toNat_add, toNat_udiv, toNat_allOnes, toNat_ofNat, Nat.mod_eq_of_lt bit, whole]

/-- Only the divisor one has a reciprocal that is cut. -/
theorem IsRcp.cases (rcp : IsRcp y yrcp) (nonzero : y ≠ 0) :
    (y.toNat = 1 ∧ yrcp = 0) ∨ (y.toNat ≠ 1 ∧ yrcp ≠ 0 ∧ yrcp.toNat = 2 ^ w / y.toNat) := by
  have positive := toNat_pos_of_ne_zero nonzero
  by_cases one : y.toNat = 1
  · left
    refine ⟨one, eq_of_toNat_eq ?_⟩
    rw [rcp, one]
    simp
  · have cut : 2 ^ w / y.toNat < 2 ^ w := Nat.div_lt_self (Nat.two_pow_pos w) (by omega)
    rw [IsRcp, Nat.mod_eq_of_lt cut] at rcp
    refine .inr ⟨one, fun zero => ?_, rcp⟩
    have large := Nat.div_pos y.isLt.le positive
    rw [zero] at rcp
    simp only [ofNat_eq_ofNat, toNat_ofNat, Nat.zero_mod] at rcp
    omega

theorem mulhi_toNat (a b : BitVec w) : (mulhi a b).toNat = a.toNat * b.toNat / 2 ^ w := by
  have product : a.toNat * b.toNat < 2 ^ (w + w) := by
    rw [Nat.pow_add]
    exact Nat.mul_lt_mul'' a.isLt b.isLt
  have high : a.toNat * b.toNat / 2 ^ w < 2 ^ w := by
    rw [Nat.div_lt_iff_lt_mul (Nat.two_pow_pos w), ← Nat.pow_add]
    exact product
  have wide : ∀ v : BitVec w, (v.setWidth (w + w)).toNat = v.toNat := fun v => by
    rw [toNat_setWidth]
    exact Nat.mod_eq_of_lt (v.isLt.trans_le (Nat.pow_le_pow_right (by decide) le_add_self))
  rw [mulhi, toNat_setWidth, toNat_ushiftRight, toNat_mul, wide, wide, Nat.mod_eq_of_lt product,
    Nat.shiftRight_eq_div_pow, Nat.mod_eq_of_lt high]

theorem mulhi_estimate (rcp : yrcp.toNat = 2 ^ w / y.toNat) :
    (mulhi a yrcp).toNat = estimate (2 ^ w) a.toNat y.toNat := by
  rw [mulhi_toNat, rcp, estimate]

/-! ### Division -/

theorem remainder_toNat (below : y.toNat * q.toNat ≤ x.toNat) : (x - y * q).toNat = x.toNat - y.toNat * q.toNat := by
  have product := BitVec.toNat_mul_of_lt (below.trans_lt x.isLt)
  rw [toNat_sub_of_le (by rwa [le_def, product]), product]

theorem idivmodFast_exact (nonzero : y ≠ 0) (rcp : IsRcp y yrcp) : idivmodFast x y yrcp = (x / y, x % y) := by
  have positive := toNat_pos_of_ne_zero nonzero
  unfold idivmodFast
  rcases rcp.cases nonzero with ⟨one, zero⟩ | ⟨-, some, value⟩
  · rw [if_neg (not_not.mpr zero)]
    refine Prod.ext (eq_of_toNat_eq ?_) (eq_of_toNat_eq ?_)
    · rw [toNat_udiv, one, Nat.div_one]
    · rw [toNat_umod, one, Nat.mod_one]
      simp
  · rw [if_pos some]
    have guess : (mulhi x yrcp).toNat = estimate (2 ^ w) x.toNat y.toNat := mulhi_estimate value
    have below : estimate (2 ^ w) x.toNat y.toNat ≤ x.toNat / y.toNat := estimate_le (Nat.two_pow_pos w) positive
    have close := le_estimate_succ (Nat.two_pow_pos w) positive x.isLt.le
    have right := corrected_eq positive below close
    rw [← guess] at below close right
    have inside := le_trans (Nat.mul_le_mul_left _ below) (Nat.mul_div_le _ _)
    have remainder := remainder_toNat inside
    simp only [le_def, remainder]
    rw [corrected] at right
    split at right
    next large =>
      rw [if_pos large]
      obtain ⟨quo, rem⟩ := Prod.mk.inj right
      have room : (mulhi x yrcp).toNat + (1 : BitVec w).toNat < 2 ^ w := by
        rw [one_toNat nonzero, quo]
        exact lt_of_le_of_lt (Nat.div_le_self _ _) x.isLt
      refine Prod.ext (eq_of_toNat_eq ?_) (eq_of_toNat_eq ?_)
      · rw [toNat_udiv, toNat_add_of_lt room, one_toNat nonzero, quo]
      · rw [toNat_umod, toNat_sub_of_le (by rwa [le_def, remainder]), remainder, rem]
    next small =>
      rw [if_neg small]
      obtain ⟨quo, rem⟩ := Prod.mk.inj right
      refine Prod.ext (eq_of_toNat_eq ?_) (eq_of_toNat_eq ?_)
      · rw [toNat_udiv, quo]
      · rw [toNat_umod, remainder, rem]

/-! ### Products of reciprocals -/

theorem negated_toNat {v : BitVec w} {m : Nat} (positive : 0 < m) (bound : m ≤ 2 ^ w) (value : v.toNat = m % 2 ^ w) :
    (0 - v).toNat = 2 ^ w - m := by
  have zero : (0 : BitVec w).toNat = 0 := by simp
  rw [toNat_sub, zero, Nat.add_zero, value]
  rcases bound.lt_or_eq with below | whole
  · rw [Nat.mod_eq_of_lt below, Nat.mod_eq_of_lt (by omega)]
  · rw [whole, Nat.mod_self, Nat.sub_zero, Nat.mod_self, Nat.sub_self]

/-- With an estimate of at least one, the remainder fits and the correction is
right. -/
theorem imulRcp_correction {rcp p : BitVec w} (nonzero : p ≠ 0) (some : 0 < rcp.toNat)
    (below : rcp.toNat ≤ 2 ^ w / p.toNat) (close : 2 ^ w / p.toNat ≤ rcp.toNat + 1) (proper : p.toNat ≠ 1) :
    (if p ≤ 0 - p * rcp then rcp + 1 else rcp).toNat = 2 ^ w / p.toNat := by
  have positive := toNat_pos_of_ne_zero nonzero
  have inside := le_trans (Nat.mul_le_mul_left _ below) (Nat.mul_div_le _ _)
  have remainder := negated_toNat (mul_pos positive some) inside (toNat_mul ..)
  have right := corrected_eq positive below close
  simp only [le_def, remainder]
  rw [corrected] at right
  split at right
  next large =>
    have quo := (Prod.mk.inj right).1
    have room : rcp.toNat + (1 : BitVec w).toNat < 2 ^ w := by
      rw [one_toNat nonzero, quo]
      exact Nat.div_lt_self (Nat.two_pow_pos w) (by omega)
    rw [if_pos large, toNat_add_of_lt room, one_toNat nonzero, quo]
  next small =>
    rw [if_neg small, (Prod.mk.inj right).1]

theorem mul_ne_zero_of_fits (nonzeroX : x ≠ 0) (nonzeroY : y ≠ 0) (fits : x.toNat * y.toNat < 2 ^ w) : x * y ≠ 0 := by
  intro zero
  have vanishes := congrArg BitVec.toNat zero
  rw [BitVec.toNat_mul_of_lt fits] at vanishes
  exact ne_of_gt (mul_pos (toNat_pos_of_ne_zero nonzeroX) (toNat_pos_of_ne_zero nonzeroY)) (by simpa using vanishes)

/-- The product of two truncated reciprocals must not vanish: the remainder of
the estimate zero does not fit into the word. -/
theorem imulRcp_exact_iff (nonzeroX : x ≠ 0) (nonzeroY : y ≠ 0) (fits : x.toNat * y.toNat < 2 ^ w)
    (rcpX : IsRcp x xrcp) (rcpY : IsRcp y yrcp) (rcpXY : IsRcp (x * y) rcp) :
    imulRcp x xrcp y yrcp = rcp ↔
      x.toNat = 1 ∨ y.toNat = 1 ∨ 2 ^ w ≤ 2 ^ w / x.toNat * (2 ^ w / y.toNat) := by
  have product := BitVec.toNat_mul_of_lt fits
  have positiveY := toNat_pos_of_ne_zero nonzeroY
  have nonzero := mul_ne_zero_of_fits nonzeroX nonzeroY fits
  unfold imulRcp
  rcases rcpX.cases nonzeroX with ⟨oneX, zeroX⟩ | ⟨properX, someX, valueX⟩
  · rw [if_pos zeroX]
    refine iff_of_true (eq_of_toNat_eq ?_) (.inl oneX)
    rw [rcpY, rcpXY, product, oneX, one_mul]
  rw [if_neg someX]
  rcases rcpY.cases nonzeroY with ⟨oneY, zeroY⟩ | ⟨properY, someY, valueY⟩
  · rw [if_pos zeroY]
    refine iff_of_true (eq_of_toNat_eq ?_) (.inr (.inl oneY))
    rw [rcpX, rcpXY, product, oneY, mul_one]
  rw [if_neg someY]
  have proper : (x * y).toNat ≠ 1 := by
    rw [product]
    exact fun one => properX (Nat.eq_one_of_mul_eq_one_right one)
  obtain ⟨one, -⟩ | ⟨-, some, value⟩ := rcpXY.cases nonzero
  · exact absurd one proper
  have guess : (mulhi xrcp yrcp).toNat = estimate (2 ^ w) xrcp.toNat y.toNat := mulhi_estimate valueY
  have quotient : xrcp.toNat / y.toNat = 2 ^ w / (x * y).toNat := by
    rw [valueX, product, Nat.div_div_eq_div_mul]
  have below : (mulhi xrcp yrcp).toNat ≤ 2 ^ w / (x * y).toNat := by
    rw [guess, ← quotient]
    exact estimate_le (Nat.two_pow_pos w) positiveY
  have close : 2 ^ w / (x * y).toNat ≤ (mulhi xrcp yrcp).toNat + 1 := by
    rw [guess, ← quotient]
    exact le_estimate_succ (Nat.two_pow_pos w) positiveY xrcp.isLt.le
  have vanishes : 0 < (mulhi xrcp yrcp).toNat ↔ 2 ^ w ≤ 2 ^ w / x.toNat * (2 ^ w / y.toNat) := by
    rw [mulhi_toNat, valueX, valueY, Nat.div_pos_iff]
    exact and_iff_right (Nat.two_pow_pos w)
  rw [or_iff_right properX, or_iff_right properY, ← vanishes]
  constructor
  · intro exact
    by_contra zero
    have none : mulhi xrcp yrcp = 0 := eq_of_toNat_eq (by simpa using zero)
    have wrong : (if x * y ≤ 0 - x * y * mulhi xrcp yrcp then mulhi xrcp yrcp + 1 else mulhi xrcp yrcp) = 0 := by
      rw [none, if_neg]
      intro least
      exact nonzero (by simpa using least)
    exact some (exact.symm.trans wrong)
  · intro positive
    exact eq_of_toNat_eq ((imulRcp_correction nonzero positive below close proper).trans value.symm)

/-- Division by a stored reciprocal is exact. The reciprocal of a product is that
of the divisors' reciprocals unless their product does not reach the word's
size. -/
theorem reciprocal_division_exact_iff (x y : BitVec 32) (x' y' : BitVec 64) :
    (y ≠ 0 → (idivRcp32 y).toNat = 2 ^ 32 / y.toNat % 2 ^ 32 ∧
      idivmodFast32 x y (idivRcp32 y) = (x / y, x % y)) ∧
    (y' ≠ 0 → (idivRcp64 y').toNat = 2 ^ 64 / y'.toNat % 2 ^ 64 ∧
      idivmodFast64 x' y' (idivRcp64 y') = (x' / y', x' % y')) ∧
    (x ≠ 0 → y ≠ 0 → x.toNat * y.toNat < 2 ^ 32 →
      (imulRcp32 x (idivRcp32 x) y (idivRcp32 y) = idivRcp32 (x * y) ↔
        x.toNat = 1 ∨ y.toNat = 1 ∨ 2 ^ 32 ≤ 2 ^ 32 / x.toNat * (2 ^ 32 / y.toNat))) ∧
    (x' ≠ 0 → y' ≠ 0 → x'.toNat * y'.toNat < 2 ^ 64 →
      (imulRcp64 x' (idivRcp64 x') y' (idivRcp64 y') = idivRcp64 (x' * y') ↔
        x'.toNat = 1 ∨ y'.toNat = 1 ∨ 2 ^ 64 ≤ 2 ^ 64 / x'.toNat * (2 ^ 64 / y'.toNat))) := by
  refine ⟨?_, ?_, ?_, ?_⟩
  · intro nonzero
    exact ⟨isRcp_idivRcp32 y, idivmodFast_exact nonzero (isRcp_idivRcp32 y)⟩
  · intro nonzero
    exact ⟨isRcp_idivRcp64 nonzero, idivmodFast_exact nonzero (isRcp_idivRcp64 nonzero)⟩
  · intro nonzeroX nonzeroY fits
    exact imulRcp_exact_iff nonzeroX nonzeroY fits (isRcp_idivRcp32 x) (isRcp_idivRcp32 y) (isRcp_idivRcp32 (x * y))
  · intro nonzeroX nonzeroY fits
    exact imulRcp_exact_iff nonzeroX nonzeroY fits (isRcp_idivRcp64 nonzeroX) (isRcp_idivRcp64 nonzeroY)
      (isRcp_idivRcp64 (mul_ne_zero_of_fits nonzeroX nonzeroY fits))

/-- Three times a third of the word: the reciprocal is one, not zero. -/
theorem imulRcp_of_thirds :
    (3 * 1431655765 < 2 ^ 32 ∧ imulRcp32 3 (idivRcp32 3) 1431655765 (idivRcp32 1431655765) = 0 ∧
      idivRcp32 (3 * 1431655765) = 1) ∧
    (3 * 6148914691236517205 < 2 ^ 64 ∧
      imulRcp64 3 (idivRcp64 3) 6148914691236517205 (idivRcp64 6148914691236517205) = 0 ∧
      idivRcp64 (3 * 6148914691236517205) = 1) := by
  decide

end NcclCore.ReciprocalDivision
