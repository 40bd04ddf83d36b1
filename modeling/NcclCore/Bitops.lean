import Mathlib.Tactic.Ring

/-! The integer helpers of `bitops.h` that the planners and the kernels share.
Sizes are naturals; the widths of the machine words appear only where the code
can reach them. -/
namespace NcclCore

/-- `divUp`: the quotient rounded up. -/
def divUp (x y : Nat) : Nat := (x + y - 1) / y

/-- `roundUp`: the next multiple of `y`. -/
def roundUp (x y : Nat) : Nat := (x + y - 1) - (x + y - 1) % y

/-- `alignUp`: `roundUp` for a power of two, which clears the low bits. -/
def alignUp (x a : Nat) : Nat := (x + a - 1) - (x + a - 1) % a

/-- `log2Up`: the width of `x - 1`. -/
def log2Up (x : Nat) : Nat := if x ≤ 1 then 0 else Nat.log2 (x - 1) + 1

/-- `pow2Up`: the least power of two that is not below `x`. -/
def pow2Up (x : Nat) : Nat := 2 ^ log2Up x

/-- One level of `reverseSubBits`: neighbouring fields of `half` bits trade places. -/
def swapHalves (half : Nat) (x : BitVec 32) : BitVec 32 :=
  let m : BitVec 32 := BitVec.ofNat 32 ((2 ^ 32 - 1) / (2 ^ half + 1))
  ((x &&& m) <<< half) ||| ((x &&& ~~~m) >>> half)

/-- `COMPILER_BSWAP32`. -/
def bswap32 (x : BitVec 32) : BitVec 32 :=
  x.extractLsb' 0 8 ++ x.extractLsb' 8 8 ++ x.extractLsb' 16 8 ++ x.extractLsb' 24 8

/-- `reverseSubBits` of a whole 32 bit word. -/
def reverseSubBits (x : BitVec 32) : BitVec 32 :=
  swapHalves 1 (swapHalves 2 (swapHalves 4 (bswap32 x)))

/-- `reverseBits`: the bottom `nBits` bits in reverse, the others cleared. -/
def reverseBits (x nBits : Nat) : Nat :=
  if nBits = 0 then 0 else (reverseSubBits (BitVec.ofNat 32 x) >>> (32 - nBits)).toNat

example : reverseBits 0b0110100 5 = 0b00101 := by decide

theorem reverseBits_lt (bound : nBits ≤ 32) : reverseBits x nBits < 2 ^ nBits := by
  unfold reverseBits
  split
  · exact Nat.two_pow_pos _
  · rw [BitVec.toNat_ushiftRight, Nat.shiftRight_eq_div_pow, Nat.div_lt_iff_lt_mul (Nat.two_pow_pos _),
      ← Nat.pow_add, show nBits + (32 - nBits) = 32 by omega]
    exact BitVec.isLt _

theorem le_pow2Up (x : Nat) : x ≤ pow2Up x := by
  unfold pow2Up log2Up
  split
  · simpa using ‹x ≤ 1›
  · have above : x - 1 < 2 ^ (Nat.log2 (x - 1) + 1) := Nat.lt_log2_self
    omega

theorem le_divUp_mul (positive : 0 < y) : x ≤ divUp x y * y := by
  unfold divUp
  have split := Nat.div_add_mod (x + y - 1) y
  have small := Nat.mod_lt (x + y - 1) positive
  rw [mul_comm] at split
  omega

theorem divUp_mul_lt (positive : 0 < y) : divUp x y * y < x + y := by
  have := Nat.div_mul_le_self (x + y - 1) y
  unfold divUp
  omega

theorem divUp_le_iff (positive : 0 < y) : divUp x y ≤ bound ↔ x ≤ bound * y := by
  unfold divUp
  rw [← Nat.lt_succ_iff, Nat.div_lt_iff_lt_mul positive, Nat.succ_mul]
  omega

theorem bmod_of_small {x : Nat} (small : x < 2 ^ 31) : Int.bmod x (2 ^ 32) = x := by
  rw [Int.bmod_def]
  split <;> omega

theorem divUp_pos (positive : 0 < y) (nonempty : 0 < x) : 0 < divUp x y := by
  exact Nat.div_pos (by omega) positive

theorem le_alignUp (x : Nat) (positive : 0 < a) : x ≤ alignUp x a := by
  unfold alignUp
  have small := Nat.mod_lt (x + a - 1) positive
  omega

theorem dvd_alignUp (x a : Nat) : a ∣ alignUp x a := Nat.dvd_sub_mod _

theorem alignUp_le (positive : 0 < a) (divides : a ∣ y) (below : x ≤ y) : alignUp x a ≤ y := by
  obtain ⟨k, rfl⟩ := divides
  have whole : alignUp x a = a * ((x + a - 1) / a) := by
    have split := Nat.div_add_mod (x + a - 1) a
    unfold alignUp
    omega
  rw [whole]
  apply Nat.mul_le_mul_left
  rw [← Nat.lt_succ_iff, Nat.div_lt_iff_lt_mul positive, Nat.succ_mul, mul_comm k a]
  omega

theorem alignUp_of_dvd (positive : 0 < a) (divides : a ∣ x) : alignUp x a = x :=
  le_antisymm (alignUp_le positive divides le_rfl) (le_alignUp x positive)

end NcclCore
