import Mathlib.Data.List.Perm.Subperm
import Mathlib.Data.List.Nodup
import Mathlib.Tactic.Ring
import Mathlib.Data.Nat.ModEq
import Mathlib.Data.Nat.Prime.Basic

/-! Enumerations of the residues modulo a number: translations, and the
triangular numbers modulo a power of two. Each is a permutation because it is
injective and never leaves the range. -/
namespace NcclCore.Lib
open List

/-- A list without repetitions, all of whose entries are below its length,
enumerates exactly the numbers below its length. -/
theorem perm_range_of_nodup {values : List Nat} {bound : Nat} (distinct : values.Nodup)
    (length : values.length = bound) (below : ∀ value ∈ values, value < bound) : values.Perm (range bound) := by
  apply (subperm_of_subset distinct _).perm_of_length_le
  · simp [length]
  · intro value member
    exact mem_range.mpr (below value member)

/-- An injection of the range into itself enumerates the range. -/
theorem map_range_perm {bound : Nat} (f : Nat → Nat) (below : ∀ i < bound, f i < bound)
    (injective : ∀ i < bound, ∀ j < bound, f i = f j → i = j) :
    ((range bound).map f).Perm (range bound) := by
  apply perm_range_of_nodup
  · apply List.Nodup.map_on _ nodup_range
    intro i hi j hj same
    exact injective i (mem_range.mp hi) j (mem_range.mp hj) same
  · simp
  · intro value member
    obtain ⟨i, hi, rfl⟩ := mem_map.mp member
    exact below i (mem_range.mp hi)

theorem add_mod_right_injective {modulus s i j : Nat} (hi : i < modulus) (hj : j < modulus)
    (same : (s + i) % modulus = (s + j) % modulus) : i = j := by
  have cancelled := Nat.ModEq.add_left_cancel' s same
  rwa [Nat.ModEq, Nat.mod_eq_of_lt hi, Nat.mod_eq_of_lt hj] at cancelled

/-- Moving forward by `step` and back by `step` around a ring cancel. -/
theorem ring_shift_iff {modulus step i j : Nat} (hi : i < modulus) (hj : j < modulus) (hs : step < modulus) :
    (i + step) % modulus = j ↔ (j + modulus - step) % modulus = i := by
  have back : ((j + modulus - step) % modulus + step) % modulus = j := by
    rw [Nat.mod_add_mod, Nat.sub_add_cancel (by omega), Nat.add_mod_right, Nat.mod_eq_of_lt hj]
  constructor
  · intro there
    refine add_mod_right_injective (s := step) (Nat.mod_lt _ (by omega)) hi ?_
    rw [add_comm step, add_comm step, back, there]
  · rintro rfl
    exact back

/-- The triangular number `0 + 1 + ... + n`. -/
def triangle (n : Nat) : Nat := n * (n + 1) / 2

theorem triangle_succ (n : Nat) : triangle (n + 1) = triangle n + (n + 1) := by
  unfold triangle
  rw [show (n + 1) * (n + 1 + 1) = n * (n + 1) + 2 * (n + 1) by ring, Nat.add_mul_div_left _ _ Nat.two_pos]

theorem two_mul_triangle (n : Nat) : 2 * triangle n = n * (n + 1) :=
  Nat.mul_div_cancel' (Nat.even_mul_succ_self n).two_dvd

/-- Twice the difference of two triangular numbers factors. -/
private theorem triangle_gap (le : i ≤ j) : 2 * (triangle j - triangle i) = (j - i) * (j + i + 1) := by
  have hi := two_mul_triangle i
  have hj := two_mul_triangle j
  obtain ⟨gap, rfl⟩ := Nat.exists_eq_add_of_le le
  have expanded : (i + gap) * (i + gap + 1) = i * (i + 1) + gap * (i + gap + i + 1) := by ring
  rw [Nat.mul_sub, hi, hj, expanded]
  simp

/-- One of the two factors of the gap is odd, so the whole power of two
divides the other, which is too small for it. -/
private theorem triangle_injective_of_le (le : i ≤ j) (bound : j < 2 ^ width)
    (same : triangle i % 2 ^ width = triangle j % 2 ^ width) : i = j := by
  have grows : triangle i ≤ triangle j := by
    have hi := two_mul_triangle i
    have hj := two_mul_triangle j
    have squares : i * (i + 1) ≤ j * (j + 1) := Nat.mul_le_mul le (by omega)
    omega
  have divides := (Nat.modEq_iff_dvd' grows).mp same
  have doubled : 2 ^ (width + 1) ∣ (j - i) * (j + i + 1) := by
    rw [← triangle_gap le, pow_succ, mul_comm]
    exact Nat.mul_dvd_mul_left 2 divides
  rcases Nat.even_or_odd (j - i) with even | odd
  · have oddSum : Odd (j + i + 1) := by
      obtain ⟨half, shape⟩ := even
      exact ⟨half + i, by omega⟩
    have coprime : Nat.Coprime (2 ^ (width + 1)) (j + i + 1) := (Nat.coprime_two_left.mpr oddSum).pow_left _
    have zero := Nat.eq_zero_of_dvd_of_lt (coprime.dvd_of_dvd_mul_right doubled) (by omega)
    omega
  · have coprime : Nat.Coprime (2 ^ (width + 1)) (j - i) := (Nat.coprime_two_left.mpr odd).pow_left _
    have zero := Nat.eq_zero_of_dvd_of_lt (coprime.dvd_of_dvd_mul_left doubled) (by omega)
    omega

/-- The triangular numbers enumerate the residues modulo a power of two. -/
theorem triangle_mod_perm (width : Nat) :
    ((range (2 ^ width)).map fun n => triangle n % 2 ^ width).Perm (range (2 ^ width)) := by
  refine map_range_perm _ (fun _ _ => Nat.mod_lt _ (Nat.two_pow_pos width)) fun i hi j hj same => ?_
  rcases Nat.le_total i j with le | le
  · exact triangle_injective_of_le le hj same
  · exact (triangle_injective_of_le le hi same.symm).symm

end NcclCore.Lib
