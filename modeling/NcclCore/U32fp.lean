import Mathlib.Tactic.Ring

/-! The floating point format of `bitops.h` that approximates 32 bit sizes: a
leading one with `bitsPerPow2` bits below it, and a range of exact values below
the first of these. -/
namespace NcclCore

/-- `u32fpEncode`: the position of the leading bit and the bits below it. -/
def u32fpEncode (x bitsPerPow2 : Nat) : Nat :=
  let log2x := Nat.log2 (x ||| 1)
  let mantissa := (x >>> (if bitsPerPow2 ≤ log2x then log2x - bitsPerPow2 else 0)) &&& (2 ^ bitsPerPow2 - 1)
  let exponent := if bitsPerPow2 ≤ log2x then log2x - (bitsPerPow2 - 1) else 0
  (exponent <<< bitsPerPow2) ||| mantissa

/-- `u32fpDecode`. -/
def u32fpDecode (x bitsPerPow2 : Nat) : Nat :=
  let exponent := x >>> bitsPerPow2
  let mantissa := (x &&& (2 ^ bitsPerPow2 - 1)) ||| (if exponent ≠ 0 then 8 else 0)
  mantissa <<< (if exponent ≠ 0 then exponent - 1 else exponent)

def u32fp8Encode (x : Nat) : Nat := u32fpEncode x 3

def u32fp8Decode (x : Nat) : Nat := u32fpDecode x 3

namespace U32fp

/-- What a code stands for, `mantissa * 2 ^ exponent`: the leading bit is set
unless the value is below the least power of two that has all its bits. -/
structure Parts (bits exponent mantissa : Nat) : Prop where
  small : mantissa < 2 * 2 ^ bits
  leading : exponent = 0 ∨ 2 ^ bits ≤ mantissa

theorem or_one_ne_zero (x : Nat) : x ||| 1 ≠ 0 := ne_of_gt Nat.right_le_or

theorem log2_or_one (some_ : x ≠ 0) : Nat.log2 (x ||| 1) = Nat.log2 x := by
  have above : 1 < 2 ^ (Nat.log2 x + 1) := Nat.one_lt_two_pow (by omega)
  rw [Nat.log2_eq_iff (or_one_ne_zero x)]
  exact ⟨le_trans (Nat.log2_self_le some_) Nat.left_le_or, Nat.or_lt_two_pow Nat.lt_log2_self above⟩

/-- A code names the greatest value of the format that is not above the number. -/
theorem encode_parts (x : Nat) (some_ : 0 < bits) :
    ∃ exponent mantissa, Parts bits exponent mantissa ∧ mantissa * 2 ^ exponent ≤ x ∧
      x < (mantissa + 1) * 2 ^ exponent ∧ u32fpEncode x bits = exponent * 2 ^ bits + mantissa := by
  have joined (exponent mantissa : Nat) (below : mantissa < 2 ^ bits) :
      exponent <<< bits ||| mantissa = exponent * 2 ^ bits + mantissa := by
    rw [← Nat.shiftLeft_add_eq_or_of_lt below, Nat.shiftLeft_eq]
  simp only [u32fpEncode, Nat.and_two_pow_sub_one_eq_mod]
  rw [joined _ _ (Nat.mod_lt _ (Nat.two_pow_pos bits))]
  by_cases large : bits ≤ Nat.log2 (x ||| 1)
  · obtain ⟨exponent, isExponent⟩ := Nat.exists_eq_add_of_le' large
    have nonzero : x ≠ 0 := by
      rintro rfl
      exact absurd large (Nat.not_le_of_lt some_)
    have width := log2_or_one nonzero
    have lower : 2 ^ exponent * 2 ^ bits ≤ x := by
      rw [← Nat.pow_add, ← isExponent, width]
      exact Nat.log2_self_le nonzero
    have upper : x < 2 ^ exponent * (2 * 2 ^ bits) := by
      rw [← pow_succ', ← Nat.pow_add, Nat.add_succ, ← isExponent, width]
      exact Nat.lt_log2_self
    have positive := Nat.two_pow_pos exponent
    have atLeast : 2 ^ bits ≤ x / 2 ^ exponent := (Nat.le_div_iff_mul_le positive).mpr (by rwa [mul_comm])
    have below := Nat.div_lt_of_lt_mul upper
    refine ⟨exponent, x / 2 ^ exponent, ⟨below, .inr atLeast⟩, Nat.div_mul_le_self _ _, ?_, ?_⟩
    · rw [mul_comm]
      exact Nat.lt_mul_div_succ x positive
    · -- the leading bit of the mantissa is the last unit of the exponent field
      rw [if_pos large, if_pos large, isExponent, Nat.add_sub_cancel, Nat.shiftRight_eq_div_pow,
        show exponent + bits - (bits - 1) = exponent + 1 by omega, Nat.succ_mul, Nat.mod_eq_sub_mod atLeast,
        Nat.mod_eq_of_lt (by omega)]
      omega
  · have tiny := Nat.left_le_or.trans_lt ((Nat.log2_lt (or_one_ne_zero x)).mp (not_le.mp large))
    refine ⟨0, x, ⟨by omega, .inl rfl⟩, by simp, by simp, ?_⟩
    simp [large, Nat.mod_eq_of_lt tiny]

/-- Codes are ordered like what they stand for. -/
theorem parts_mono (parts : Parts bits exponent mantissa) (other : Parts bits exponent' mantissa')
    (below : mantissa * 2 ^ exponent < (mantissa' + 1) * 2 ^ exponent') :
    exponent * 2 ^ bits + mantissa ≤ exponent' * 2 ^ bits + mantissa' := by
  rcases Nat.lt_trichotomy exponent exponent' with less | rfl | greater
  · have leading := other.leading.resolve_left (by omega)
    have steps : (exponent + 1) * 2 ^ bits ≤ exponent' * 2 ^ bits := Nat.mul_le_mul_right _ less
    have small := parts.small
    rw [Nat.succ_mul] at steps
    omega
  · have := Nat.lt_of_mul_lt_mul_right below
    omega
  · -- a greater exponent has its leading bit, which is above every mantissa
    have leading := parts.leading.resolve_left (by omega)
    have wide : (mantissa' + 1) * 2 ^ exponent' ≤ 2 * 2 ^ bits * 2 ^ exponent' := Nat.mul_le_mul_right _ other.small
    have steep : 2 ^ bits * 2 ^ (exponent' + 1) ≤ mantissa * 2 ^ exponent :=
      Nat.mul_le_mul leading (Nat.pow_le_pow_right (by decide) greater)
    rw [Nat.pow_succ'] at steep
    have : 2 * 2 ^ bits * 2 ^ exponent' = 2 ^ bits * (2 * 2 ^ exponent') := by ring
    omega

theorem encode_mono (some_ : 0 < bits) (le : x ≤ y) : u32fpEncode x bits ≤ u32fpEncode y bits := by
  obtain ⟨exponent, mantissa, parts, lower, -, isCode⟩ := encode_parts x some_
  obtain ⟨exponent', mantissa', other, -, upper, isOther⟩ := encode_parts y some_
  rw [isCode, isOther]
  exact parts_mono parts other (by omega)

/-- What a code stands for has this code. -/
theorem encode_value (some_ : 0 < bits) (parts : Parts bits exponent mantissa) :
    u32fpEncode (mantissa * 2 ^ exponent) bits = exponent * 2 ^ bits + mantissa := by
  obtain ⟨exponent', mantissa', other, lower, upper, isCode⟩ := encode_parts (mantissa * 2 ^ exponent) some_
  have room : mantissa * 2 ^ exponent < (mantissa + 1) * 2 ^ exponent :=
    Nat.mul_lt_mul_of_pos_right (lt_add_one _) (Nat.two_pow_pos _)
  rw [isCode]
  exact le_antisymm (parts_mono other parts (by omega)) (parts_mono parts other upper)

/-! ### Three bits -/

theorem parts_of_code (code : Nat) :
    ∃ exponent mantissa, Parts 3 exponent mantissa ∧ code = exponent * 8 + mantissa := by
  by_cases exact : code < 16
  · exact ⟨0, code, ⟨exact, .inl rfl⟩, by omega⟩
  · exact ⟨code / 8 - 1, code % 8 + 8, ⟨by omega, .inr (by omega)⟩, by omega⟩

theorem decode_parts (parts : Parts 3 exponent mantissa) :
    u32fp8Decode (exponent * 8 + mantissa) = mantissa * 2 ^ exponent := by
  have small := parts.small
  simp only [u32fp8Decode, u32fpDecode, Nat.and_two_pow_sub_one_eq_mod, Nat.shiftRight_eq_div_pow]
  by_cases exact : mantissa < 8
  · obtain rfl := parts.leading.resolve_right (by omega)
    have none : (0 * 8 + mantissa) / 2 ^ 3 = 0 := by omega
    rw [none]
    simp only [ne_eq, not_true_eq_false, ↓reduceIte, Nat.or_zero, Nat.shiftLeft_zero]
    omega
  · have high : (exponent * 8 + mantissa) / 2 ^ 3 = exponent + 1 := by omega
    have low : (exponent * 8 + mantissa) % 2 ^ 3 = mantissa - 8 := by omega
    have joined : 8 + (mantissa - 8) = 8 ||| mantissa - 8 :=
      Nat.shiftLeft_add_eq_or_of_lt (show mantissa - 8 < 2 ^ 3 by omega) 1
    rw [high, low, if_pos (Nat.succ_ne_zero _), Nat.or_comm, Nat.shiftLeft_eq]
    congr 1
    omega

/-- Encoding and decoding keeps the leading bit and the three bits below it. -/
theorem round_parts (x : Nat) :
    ∃ exponent mantissa, Parts 3 exponent mantissa ∧ mantissa * 2 ^ exponent ≤ x ∧ x < (mantissa + 1) * 2 ^ exponent ∧
      u32fp8Decode (u32fp8Encode x) = mantissa * 2 ^ exponent := by
  obtain ⟨exponent, mantissa, parts, lower, upper, isCode⟩ := encode_parts x (show 0 < 3 by decide)
  exact ⟨exponent, mantissa, parts, lower, upper, (congrArg u32fp8Decode isCode).trans (decode_parts parts)⟩

theorem round_pos (positive : 0 < x) : 0 < u32fp8Decode (u32fp8Encode x) := by
  obtain ⟨exponent, mantissa, parts, -, upper, isValue⟩ := round_parts x
  rw [isValue]
  rcases parts.leading with rfl | leading
  · omega
  · exact mul_pos (lt_of_lt_of_le (by decide) leading) (Nat.two_pow_pos _)

theorem encode_decode (code : Nat) : u32fp8Encode (u32fp8Decode code) = code := by
  obtain ⟨exponent, mantissa, parts, rfl⟩ := parts_of_code code
  rw [decode_parts parts]
  exact encode_value (by decide) parts

/-- A code of a 32 bit number stands for one. -/
theorem decode_lt (below : code ≤ u32fp8Encode (2 ^ 32 - 1)) : u32fp8Decode code < 2 ^ 32 := by
  obtain ⟨exponent, mantissa, parts, rfl⟩ := parts_of_code code
  have small := parts.small
  have few : exponent ≤ 28 := by
    have bound : exponent * 8 + mantissa ≤ 239 := below
    rcases parts.leading with rfl | leading <;> omega
  rw [decode_parts parts]
  exact Nat.lt_of_lt_of_le (Nat.mul_lt_mul_of_pos_right small (Nat.two_pow_pos _))
    (Nat.mul_le_mul_left 16 (Nat.pow_le_pow_right (by decide) few))

/-- The 8 bit format rounds down by less than an eighth, keeps the order, and is exact on its
own values; so a chunk size that the host has rounded is the one the device decodes. -/
theorem u32fp8_rounds_down (x y : Fin (2 ^ 32)) (code : Nat) :
    u32fp8Decode (u32fp8Encode x) ≤ x ∧
      (1 ≤ x.val → u32fp8Decode (u32fp8Encode x) ≠ x → 8 * (x - u32fp8Decode (u32fp8Encode x)) < x.val) ∧
      (x ≤ y → u32fp8Encode x ≤ u32fp8Encode y) ∧ u32fp8Encode x < 2 ^ 8 ∧
      (code ≤ u32fp8Encode (2 ^ 32 - 1) → u32fp8Encode (u32fp8Decode code) = code ∧ u32fp8Decode code < 2 ^ 32) ∧
      (0 < x.val → 0 < u32fp8Decode (u32fp8Encode x)) ∧
      u32fp8Decode (u32fp8Encode (u32fp8Decode (u32fp8Encode x))) = u32fp8Decode (u32fp8Encode x) := by
  obtain ⟨exponent, mantissa, parts, lower, upper, isValue⟩ := round_parts x
  have greatest : u32fp8Encode x ≤ u32fp8Encode (2 ^ 32 - 1) := encode_mono (by decide) (Nat.le_sub_one_of_lt x.isLt)
  refine ⟨isValue ▸ lower, fun _ inexact => ?_, encode_mono (by decide),
    greatest.trans_lt (by decide), fun below => ⟨encode_decode code, decode_lt below⟩, round_pos, ?_⟩
  · -- only numbers with the leading bit are rounded, by less than their last bit
    rw [Nat.succ_mul] at upper
    have leading : 8 ≤ mantissa := by
      rcases parts.leading with rfl | leading <;> omega
    have := Nat.mul_le_mul_right (2 ^ exponent) leading
    omega
  · rw [encode_decode]

end NcclCore.U32fp
