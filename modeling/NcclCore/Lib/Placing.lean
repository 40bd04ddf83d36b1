import Mathlib.Data.List.Basic

/-! Ranges placed one behind the other between two bounds. -/
namespace NcclCore.Lib

/-- The ranges, as start and size, follow each other from `lo` to `hi`. -/
def Placed : Nat → List (Nat × Nat) → Nat → Prop
  | lo, [], hi => lo ≤ hi
  | lo, range :: rest, hi => lo ≤ range.1 ∧ Placed (range.1 + range.2) rest hi

variable {ranges : List (Nat × Nat)}
variable (placed : Placed lo ranges hi)
include placed

theorem Placed.le : lo ≤ hi := by
  induction ranges generalizing lo with
  | nil => exact placed
  | cons first rest ih => exact Nat.le_trans placed.1 (Nat.le_trans (Nat.le_add_right _ _) (ih placed.2))

theorem Placed.mono (more : hi ≤ hi') : Placed lo ranges hi' := by
  induction ranges generalizing lo with
  | nil => exact Nat.le_trans placed more
  | cons first rest ih => exact ⟨placed.1, ih placed.2⟩

theorem Placed.bounds (member : range ∈ ranges) :
    lo ≤ range.1 ∧ range.1 + range.2 ≤ hi := by
  induction ranges generalizing lo with
  | nil => cases member
  | cons first rest ih =>
    rcases List.mem_cons.mp member with rfl | later
    · exact ⟨placed.1, placed.2.le⟩
    · have := ih placed.2 later
      exact ⟨Nat.le_trans placed.1 (Nat.le_trans (Nat.le_add_right _ _) this.1), this.2⟩

theorem Placed.apart : ranges.Pairwise fun a b => a.1 + a.2 ≤ b.1 := by
  induction ranges generalizing lo with
  | nil => exact .nil
  | cons first rest ih => exact .cons (fun range member => (placed.2.bounds member).1) (ih placed.2)

end NcclCore.Lib
