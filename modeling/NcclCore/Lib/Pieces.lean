import Mathlib.Algebra.GroupWithZero.Nat

/-! A stretch of bytes handed out in consecutive pieces, each as long as a share says
and cut off at the end, until the first piece is empty. -/
namespace NcclCore.Lib
open List

/-- The pieces from an offset on, as offset and length. -/
def pieces (size : Nat) : Nat → List Nat → List (Nat × Nat)
  | _, [] => []
  | offset, share :: rest =>
    let length := min (size - offset) share
    if length = 0 then [] else (offset, length) :: pieces size (offset + length) rest

/-- The offset behind the last piece. -/
def reached (size : Nat) : Nat → List Nat → Nat
  | offset, [] => offset
  | offset, share :: rest =>
    let length := min (size - offset) share
    if length = 0 then offset else reached size (offset + length) rest

variable {size offset : Nat}

theorem le_reached (size offset : Nat) (shares : List Nat) : offset ≤ reached size offset shares := by
  induction shares generalizing offset with
  | nil => exact Nat.le_refl _
  | cons share rest ih =>
    rw [reached]
    split
    · exact Nat.le_refl _
    · exact Nat.le_trans (Nat.le_add_right _ _) (ih _)

theorem reached_self (size : Nat) (shares : List Nat) : reached size size shares = size := by
  cases shares with
  | nil => rfl
  | cons => simp [reached]

theorem reached_le (within : offset ≤ size) : reached size offset shares ≤ size := by
  induction shares generalizing offset with
  | nil => exact within
  | cons share rest ih =>
    rw [reached]
    split
    · exact within
    · exact ih (by omega)

/-- A byte is in one piece if it is before the offset reached, and in none otherwise. -/
theorem countP_pieces (size offset : Nat) (shares : List Nat) (byte : Nat) :
    (pieces size offset shares).countP (fun piece => piece.1 ≤ byte ∧ byte < piece.1 + piece.2) =
      if offset ≤ byte ∧ byte < reached size offset shares then 1 else 0 := by
  induction shares generalizing offset with
  | nil =>
    rw [if_neg fun both => absurd both.2 (Nat.not_lt.mpr both.1)]
    rfl
  | cons share rest ih =>
    rw [pieces, reached]
    by_cases empty : min (size - offset) share = 0
    · simp only [empty, if_true, countP_nil]
      rw [if_neg (by omega)]
    · simp only [empty, if_false, countP_cons, ih]
      have further := le_reached size (offset + min (size - offset) share) rest
      by_cases here : offset ≤ byte ∧ byte < offset + min (size - offset) share
      · rw [if_pos (decide_eq_true here), if_neg (by omega), if_pos (by omega)]
      · have misses : ¬ decide (offset ≤ byte ∧ byte < offset + min (size - offset) share) = true := by
          rwa [decide_eq_true_eq]
        rw [if_neg misses]
        refine if_congr ?_ rfl rfl
        omega

/-- A piece lies within, and is a whole share or ends at the end. -/
theorem mem_pieces (within : offset ≤ size) (member : piece ∈ pieces size offset shares) :
    piece.1 + piece.2 ≤ size ∧ (piece.2 ∈ shares ∨ piece.1 + piece.2 = size) := by
  induction shares generalizing offset with
  | nil => cases member
  | cons share rest ih =>
    rw [pieces] at member
    by_cases empty : min (size - offset) share = 0
    · simp [empty] at member
    · simp only [empty, if_false] at member
      rcases mem_cons.mp member with rfl | later
      · refine ⟨by simp only; omega, ?_⟩
        by_cases whole : share ≤ size - offset
        · exact .inl (by simp [Nat.min_eq_right whole])
        · exact .inr (by simp only; omega)
      · obtain ⟨bound, kind⟩ := ih (by omega) later
        exact ⟨bound, kind.imp_left (.tail _)⟩

/-- Shares that are enough reach the end exactly when it is reached before every empty
share. -/
theorem reached_eq_iff (within : offset ≤ size) (enough : size ≤ offset + shares.sum) :
    reached size offset shares = size ↔ ∀ i, shares[i]? = some 0 → size ≤ offset + (shares.take i).sum := by
  induction shares generalizing offset with
  | nil =>
    have here : offset = size := Nat.le_antisymm within (by simpa using enough)
    simp [reached, here]
  | cons share rest ih =>
    rw [reached]
    by_cases empty : min (size - offset) share = 0
    · simp only [empty, if_true]
      constructor
      · rintro rfl i -
        exact Nat.le_add_right _ _
      · intro before
        by_cases none : share = 0
        · have := before 0 (by rw [none]; rfl)
          simp only [take_zero, sum_nil] at this
          omega
        · omega
    · simp only [empty, if_false]
      rw [sum_cons] at enough
      by_cases whole : share ≤ size - offset
      · rw [ih (by omega) (by omega)]
        constructor
        · intro before i
          cases i with
          | zero =>
            intro none
            simp only [getElem?_cons_zero, Option.some.injEq] at none
            omega
          | succ i =>
            intro none
            have := before i none
            rw [take_succ_cons, sum_cons]
            omega
        · intro before i none
          have := before (i + 1) none
          rw [take_succ_cons, sum_cons] at this
          omega
      · have ends : offset + min (size - offset) share = size := by omega
        rw [ends, reached_self]
        refine iff_of_true rfl fun i none => ?_
        cases i with
        | zero =>
          simp only [getElem?_cons_zero, Option.some.injEq] at none
          omega
        | succ =>
          rw [take_succ_cons, sum_cons]
          omega

end NcclCore.Lib
