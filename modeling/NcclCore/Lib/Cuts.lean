import Mathlib.Algebra.Order.Group.Nat

/-! Consecutive ranges given by their cut points: piece `i` runs from `cut i`
to `cut (i + 1)`. Whatever lies between the first and the last cut lies in
exactly one piece. -/
namespace NcclCore.Lib
variable {cut : Nat → Nat}

theorem cut_le_of_le (ordered : ∀ i, first ≤ i → i < last → cut i ≤ cut (i + 1)) (lower : first ≤ i) (step : i ≤ j)
    (upper : j ≤ last) : cut i ≤ cut j := by
  induction step with
  | refl => exact le_rfl
  | step earlier ih => exact (ih (by omega)).trans (ordered _ (lower.trans earlier) (by omega))

theorem existsUnique_piece (ordered : ∀ i, first ≤ i → i < last → cut i ≤ cut (i + 1)) (nonempty : first ≤ last)
    (after : cut first ≤ x) (before : x < cut last) : ∃! i, (first ≤ i ∧ i < last) ∧ cut i ≤ x ∧ x < cut (i + 1) := by
  induction last, nonempty using Nat.le_induction with
  | base => omega
  | succ last longer ih =>
    have orderedInit : ∀ i, first ≤ i → i < last → cut i ≤ cut (i + 1) :=
      fun i lower upper => ordered i lower (by omega)
    by_cases inLast : cut last ≤ x
    · refine ⟨last, ⟨⟨longer, by omega⟩, inLast, before⟩, ?_⟩
      rintro i ⟨⟨lower, upper⟩, -, stop⟩
      by_contra other
      have := cut_le_of_le orderedInit (show first ≤ i + 1 by omega) (show i + 1 ≤ last by omega) le_rfl
      omega
    · obtain ⟨i, ⟨⟨lower, upper⟩, inside⟩, unique⟩ := ih orderedInit (by omega)
      refine ⟨i, ⟨⟨lower, by omega⟩, inside⟩, ?_⟩
      rintro j ⟨⟨lower', upper'⟩, inside'⟩
      rcases Nat.lt_succ_iff_lt_or_eq.mp upper' with earlier | rfl
      · exact unique j ⟨⟨lower', earlier⟩, inside'⟩
      · exact absurd inside'.1 inLast

end NcclCore.Lib
