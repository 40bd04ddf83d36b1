import Mathlib.Data.BitVec

/-! Bit-fields of a word, with the conversions of an assignment and of a use: a value is
cut off to the width of the field, and extended again with zeros. -/
namespace NcclCore.Lib
open BitVec

/-- A field by its lowest bit and its width. -/
structure BitField where
  start : Nat
  width : Nat

namespace BitField
variable {n : Nat}

def get (field : BitField) (word : BitVec n) : BitVec n := (word.extractLsb' field.start field.width).setWidth n

def set (field : BitField) (value word : BitVec n) : BitVec n :=
  (word &&& ~~~((allOnes field.width).setWidth n <<< field.start)) |||
    ((value.setWidth field.width).setWidth n <<< field.start)

/-- Fields without a bit in common. -/
def Apart (first second : BitField) : Prop :=
  first.start + first.width ≤ second.start ∨ second.start + second.width ≤ first.start

instance (first second : BitField) : Decidable (Apart first second) := inferInstanceAs (Decidable (_ ∨ _))

section
variable (field : BitField)

theorem getLsbD_get (word : BitVec n) (bound : i < n) :
    (field.get word).getLsbD i = (decide (i < field.width) && word.getLsbD (field.start + i)) := by
  rw [get, getLsbD_setWidth, getLsbD_extractLsb', decide_eq_true bound, Bool.true_and]

theorem getLsbD_set_inside (value word : BitVec n) (bound : i < field.width)
    (fits : field.start + field.width ≤ n) : (field.set value word).getLsbD (field.start + i) = value.getLsbD i := by
  have low : field.start + i < n := by omega
  have behind : ¬ field.start + i < field.start := by omega
  have low' : i < n := by omega
  simp [set, low, behind, bound]

theorem getLsbD_set_outside (value word : BitVec n)
    (outside : i < field.start ∨ field.start + field.width ≤ i) :
    (field.set value word).getLsbD i = word.getLsbD i := by
  rcases outside with before | behind
  · by_cases low : i < n
    · simp [set, low, before]
    · rw [getLsbD_of_ge _ _ (not_lt.mp low), getLsbD_of_ge _ _ (not_lt.mp low)]
  · have past : ¬ i - field.start < field.width := by omega
    simp only [set, getLsbD_or, getLsbD_and, getLsbD_not, getLsbD_shiftLeft, getLsbD_setWidth, getLsbD_allOnes, past]
    simpa using lt_of_getLsbD

/-- What is read back is the value cut off to the width. -/
theorem get_set_self (value word : BitVec n) (fits : field.start + field.width ≤ n) :
    field.get (field.set value word) = (value.setWidth field.width).setWidth n := by
  refine eq_of_getLsbD_eq fun i bound => ?_
  rw [getLsbD_get field _ bound, getLsbD_setWidth, getLsbD_setWidth, decide_eq_true bound, Bool.true_and]
  by_cases inside : i < field.width
  · rw [getLsbD_set_inside field value word inside fits]
  · rw [decide_eq_false inside, Bool.false_and, Bool.false_and]

end

theorem get_set_of_apart (apart : Apart field other) (value word : BitVec n) :
    field.get (other.set value word) = field.get word := by
  refine eq_of_getLsbD_eq fun i bound => ?_
  rw [getLsbD_get field _ bound, getLsbD_get field _ bound]
  by_cases inside : i < field.width
  · have outside : field.start + i < other.start ∨ other.start + other.width ≤ field.start + i :=
      apart.imp (fun before => by omega) (fun behind => by omega)
    rw [getLsbD_set_outside other value word outside]
  · rw [decide_eq_false inside, Bool.false_and, Bool.false_and]

end BitField
end NcclCore.Lib
