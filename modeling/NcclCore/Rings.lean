import Mathlib.GroupTheory.Perm.Cycle.Basic
import NcclCore.Bitops

/-! `ncclBuildRings`: a rank walks every ring from itself and checks that the walk
comes back and has met all ranks. Those met are kept in 64 bit words, which are
tested a word at a time and cleared for the next ring. -/
namespace NcclCore
open Function

inductive RingError where
  | noLoop (ring current : Nat)
  | missing (ring rank : Nat)
  deriving DecidableEq

/-- Where the walk of a ring stands. -/
structure RingWalk (nranks : Nat) where
  rankFound : Nat → BitVec 64
  rings : Nat → Nat
  current : Fin nranks

section
variable {nranks : Nat} (next : Nat → Fin nranks)

/-- The rank that follows on a ring. -/
def ringNext (ring : Nat) (current : Fin nranks) : Fin nranks := next (ring * nranks + current)

def RingWalk.step (ring i : Nat) (walk : RingWalk nranks) : RingWalk nranks where
  rankFound := update walk.rankFound (walk.current / 64)
    (walk.rankFound (walk.current / 64) ||| 1#64 <<< (walk.current.val % 64))
  rings := update walk.rings (ring * nranks + i) walk.current
  current := ringNext next ring walk.current

/-- The first steps of a walk. -/
def RingWalk.steps (ring : Nat) (walk : RingWalk nranks) : Nat → RingWalk nranks
  | 0 => walk
  | i + 1 => (walk.steps ring i).step next ring i

/-- The first rank from `i` on whose bit is not set. A full word counts for 64 ranks. -/
def firstMissing (rankFound : Nat → BitVec 64) (nranks i : Nat) : Option Nat :=
  if i < nranks then
    let bits := rankFound (i / 64)
    let mask := 1#64 <<< (i % 64)
    if mask = 1 ∧ bits = BitVec.allOnes 64 then firstMissing rankFound nranks (i + 64)
    else if bits &&& mask = 0 then some i
    else firstMissing rankFound nranks (i + 1)
  else none
termination_by nranks - i

/-- One ring, with the bit set and the output behind the rings before it. -/
def buildRing (rank : Fin nranks) (ring : Nat) (state : (Nat → BitVec 64) × (Nat → Nat)) :
    Except RingError ((Nat → BitVec 64) × (Nat → Nat)) :=
  let walk := RingWalk.steps next ring ⟨state.1, state.2, rank⟩ nranks
  if walk.current ≠ rank then .error (.noLoop ring walk.current)
  else match firstMissing walk.rankFound nranks 0 with
    | some missing => .error (.missing ring missing)
    | none => .ok (fun word => if word < divUp nranks 64 then 0 else walk.rankFound word, walk.rings)

def buildRings (rings : Nat → Nat) (rank : Fin nranks) : Nat → Except RingError ((Nat → BitVec 64) × (Nat → Nat))
  | 0 => .ok (fun _ => 0, rings)
  | ring + 1 => buildRings rings rank ring >>= buildRing next rank ring

def ncclBuildRings (nrings : Nat) (rings : Nat → Nat) (rank : Fin nranks) : Except RingError (Nat → Nat) :=
  Prod.snd <$> buildRings next rings rank nrings

end

namespace RingsProofs
variable {nranks : Nat} {next : Nat → Fin nranks}

/-! ### The bit set -/

def Marked (rankFound : Nat → BitVec 64) (rank : Nat) : Prop := (rankFound (rank / 64)).getLsbD (rank % 64) = true

theorem marked_update (rankFound : Nat → BitVec 64) (current other : Nat) :
    Marked (update rankFound (current / 64) (rankFound (current / 64) ||| 1#64 <<< (current % 64))) other ↔
      Marked rankFound other ∨ current = other := by
  unfold Marked
  by_cases word : other / 64 = current / 64
  · rw [word, update_self, BitVec.getLsbD_or, Bool.or_eq_true, ← BitVec.twoPow_eq, BitVec.getLsbD_twoPow]
    refine or_congr_right ?_
    simp only [Bool.and_eq_true, decide_eq_true_eq]
    omega
  · rw [update_of_ne word, or_iff_left (by rintro rfl; exact word rfl)]

theorem and_bit_eq_zero (bits : BitVec 64) (rank : Nat) :
    bits &&& 1#64 <<< (rank % 64) = 0 ↔ bits.getLsbD (rank % 64) = false := by
  rw [← BitVec.twoPow_eq, BitVec.and_twoPow]
  cases bits.getLsbD (rank % 64) with
  | false => simp
  | true =>
    refine iff_of_false (fun none => ?_) (by decide)
    have bit := congrArg (·.getLsbD (rank % 64)) none
    simp [Nat.mod_lt] at bit

/-- The test of whole words is the test of every rank. -/
theorem firstMissing_none (rankFound : Nat → BitVec 64) (nranks i : Nat) :
    firstMissing rankFound nranks i = none ↔ ∀ rank, i ≤ rank → rank < nranks → Marked rankFound rank := by
  fun_induction firstMissing rankFound nranks i with
  | case1 i inside bits mask full ih =>
    have start : i % 64 = 0 := by
      have bit := congrArg (·.getLsbD 0) full.1
      simpa [mask] using bit
    rw [ih]
    refine ⟨fun later rank from_ below => ?_, fun all rank from_ => all rank (by omega)⟩
    by_cases word : i + 64 ≤ rank
    · exact later rank word below
    · rw [Marked, show rank / 64 = i / 64 by omega, show rankFound (i / 64) = _ from full.2, BitVec.getLsbD_allOnes]
      exact decide_eq_true (Nat.mod_lt _ (by decide))
  | case2 i inside bits mask partial_ absent =>
    refine iff_of_false (by simp) fun all => ?_
    exact Bool.false_ne_true (((and_bit_eq_zero _ i).mp absent).symm.trans (all i le_rfl inside))
  | case3 i inside bits mask partial_ present ih =>
    rw [ih]
    refine ⟨fun later rank from_ below => ?_, fun all rank from_ => all rank (by omega)⟩
    rcases Nat.eq_or_lt_of_le from_ with rfl | behind
    · exact Bool.eq_true_of_not_eq_false fun absent => present ((and_bit_eq_zero _ i).mpr absent)
    · exact later rank behind below
  | case4 => simp only [true_iff]; omega

/-! ### The walk -/

theorem steps_current (ring : Nat) (walk : RingWalk nranks) (i : Nat) :
    (walk.steps next ring i).current = (ringNext next ring)^[i] walk.current := by
  induction i with
  | zero => rfl
  | succ i ih => rw [iterate_succ_apply', ← ih]; rfl

theorem steps_marked (ring : Nat) (walk : RingWalk nranks) (i : Nat) (rank : Fin nranks) :
    Marked (walk.steps next ring i).rankFound rank ↔
      Marked walk.rankFound rank ∨ ∃ before < i, (ringNext next ring)^[before] walk.current = rank := by
  induction i with
  | zero => simp [RingWalk.steps]
  | succ i ih =>
    simp only [RingWalk.steps, RingWalk.step, marked_update, ih, steps_current, Fin.val_inj, Nat.lt_succ_iff_lt_or_eq,
      or_and_right, exists_or, exists_eq_left, or_assoc]

theorem steps_rings (ring : Nat) (walk : RingWalk nranks) (i slot : Nat) :
    (walk.steps next ring i).rings slot =
      if ring * nranks ≤ slot ∧ slot < ring * nranks + i then
        ((ringNext next ring)^[slot - ring * nranks] walk.current : Nat)
      else walk.rings slot := by
  induction i with
  | zero => rw [if_neg (by omega)]; rfl
  | succ i ih =>
    by_cases here : slot = ring * nranks + i
    · subst here
      simp only [RingWalk.steps, RingWalk.step, update_self, steps_current]
      rw [if_pos (by omega), Nat.add_sub_cancel_left]
    · simp only [RingWalk.steps, RingWalk.step, update_of_ne here, ih]
      exact if_congr (by omega) rfl rfl

/-! ### Closed walks -/

/-- A walk of as many steps as there are ranks returns and has met every rank. -/
def Closed (follow : Fin nranks → Fin nranks) (rank : Fin nranks) : Prop :=
  follow^[nranks] rank = rank ∧ ∀ other, ∃ i < nranks, follow^[i] rank = other

/-- Such a walk hits every rank once, since there are no more steps than ranks. -/
theorem closed_iff_cycle (follow : Fin nranks → Fin nranks) (rank : Fin nranks) :
    Closed follow rank ↔ ∃ cycle : Equiv.Perm (Fin nranks), cycle.IsCycleOn Set.univ ∧ ⇑cycle = follow := by
  constructor
  · rintro ⟨returns, meets⟩
    have onto : Function.Surjective follow := by
      intro other
      obtain ⟨i, -, rfl⟩ := meets other
      cases i with
      | zero =>
        refine ⟨follow^[nranks - 1] rank, ?_⟩
        rw [← iterate_succ_apply' follow, Nat.succ_eq_add_one, Nat.sub_add_cancel rank.pos, returns]
        rfl
      | succ i => exact ⟨follow^[i] rank, (iterate_succ_apply' follow i rank).symm⟩
    let cycle : Equiv.Perm (Fin nranks) := Equiv.ofBijective follow (Finite.surjective_iff_bijective.mp onto)
    have reaches (other : Fin nranks) : cycle.SameCycle rank other := by
      obtain ⟨i, -, rfl⟩ := meets other
      exact ⟨i, by rw [zpow_natCast]; rfl⟩
    refine ⟨cycle, ⟨Set.bijOn_univ.mpr cycle.bijective, fun a _ b _ => ?_⟩, rfl⟩
    exact (reaches a).symm.trans (reaches b)
  · rintro ⟨cycle, isCycle, rfl⟩
    rw [← Finset.coe_univ] at isCycle
    have returns := isCycle.pow_card_apply (Finset.mem_univ rank)
    rw [Finset.card_univ, Fintype.card_fin] at returns
    refine ⟨returns, fun other => ?_⟩
    obtain ⟨i, few, reaches⟩ := isCycle.exists_pow_eq (Finset.mem_univ rank) (Finset.mem_univ other)
    rw [Finset.card_univ, Fintype.card_fin] at few
    exact ⟨i, few, by rw [← reaches, Equiv.Perm.coe_pow]⟩

/-! ### All rings -/

/-- What holds between two rings: no rank is marked, and the rings so far are recorded. -/
structure Built (next : Nat → Fin nranks) (rank : Fin nranks) (ring : Nat)
    (state : (Nat → BitVec 64) × (Nat → Nat)) : Prop where
  clean : ∀ other : Fin nranks, ¬ Marked state.1 other
  recorded : ∀ before < ring, ∀ i < nranks, state.2 (before * nranks + i) = (ringNext next before)^[i] rank

/-- A ring is accepted exactly if its walk is closed. -/
theorem buildRing_ok_iff (built : Built next rank ring state) :
    (∃ after, buildRing next rank ring state = .ok after) ↔ Closed (ringNext next ring) rank := by
  have found : firstMissing (RingWalk.steps next ring ⟨state.1, state.2, rank⟩ nranks).rankFound nranks 0 = none ↔
      ∀ other, ∃ i < nranks, (ringNext next ring)^[i] rank = other := by
    rw [firstMissing_none]
    refine ⟨fun all other => ?_, fun all other _ below => ?_⟩
    · exact ((steps_marked ring _ nranks other).mp (all other (Nat.zero_le _) other.isLt)).resolve_left
        (built.clean other)
    · exact (steps_marked ring _ nranks ⟨other, below⟩).mpr (.inr (all ⟨other, below⟩))
  rw [Closed, ← found, buildRing, ← steps_current ring ⟨state.1, state.2, rank⟩]
  generalize RingWalk.steps next ring _ nranks = walk
  by_cases returns : walk.current = rank
  · cases missing : firstMissing walk.rankFound nranks 0 <;> simp [returns]
  · simp [returns]

theorem Built.step (built : Built next rank ring state) (ok : buildRing next rank ring state = .ok after) :
    Built next rank (ring + 1) after := by
  unfold buildRing at ok
  dsimp only at ok
  split at ok
  · cases ok
  split at ok <;> cases ok
  refine ⟨fun other => ?_, fun before less i below => ?_⟩
  · have word : (other : Nat) / 64 < divUp nranks 64 := by
      unfold divUp
      omega
    simp [Marked, word]
  · refine (steps_rings ring _ nranks _).trans ?_
    rcases Nat.lt_succ_iff_lt_or_eq.mp less with old | rfl
    · have room := Nat.mul_le_mul_right nranks old
      rw [Nat.succ_mul] at room
      rw [if_neg (by omega)]
      exact built.recorded before old i below
    · rw [if_pos (by omega), Nat.add_sub_cancel_left]

/-- The first rings: none is recorded wrongly, and all are accepted if all are closed. -/
theorem buildRings_spec (next : Nat → Fin nranks) (rings : Nat → Nat) (rank : Fin nranks) (ring : Nat) :
    (∀ state, buildRings next rings rank ring = .ok state → Built next rank ring state) ∧
      ((∃ state, buildRings next rings rank ring = .ok state) ↔
        ∀ before < ring, Closed (ringNext next before) rank) := by
  induction ring with
  | zero => exact ⟨fun state ok => by cases ok; exact ⟨by simp [Marked], by simp⟩, by simp [buildRings]⟩
  | succ ring ih =>
    obtain ⟨recorded, accepted⟩ := ih
    rw [Nat.forall_lt_succ_right, ← accepted, buildRings]
    cases before : buildRings next rings rank ring with
    | error =>
      refine ⟨by rintro state ⟨⟩, iff_of_false ?_ (by simp)⟩
      rintro ⟨state, ⟨⟩⟩
    | ok state =>
      have built := recorded state before
      refine ⟨fun after ok => built.step ok, (buildRing_ok_iff built).trans ?_⟩
      simp

/-- Building succeeds exactly if every ring is one cycle through all ranks, and then records
each ring in the order in which it is walked from `rank`. -/
theorem build_rings_iff_cycles (nrings : Nat) (rings : Nat → Nat) (rank : Fin nranks) (next : Nat → Fin nranks) :
    ((∃ result, ncclBuildRings next nrings rings rank = .ok result) ↔
      ∀ ring < nrings, ∃ cycle : Equiv.Perm (Fin nranks), cycle.IsCycleOn Set.univ ∧
        ∀ current, cycle current = next (ring * nranks + current)) ∧
    ∀ result, ncclBuildRings next nrings rings rank = .ok result →
      ∀ ring < nrings, ∀ i < nranks,
        result (ring * nranks + i) = (fun current : Fin nranks => next (ring * nranks + current))^[i] rank := by
  obtain ⟨recorded, accepted⟩ := buildRings_spec next rings rank nrings
  simp only [closed_iff_cycle, funext_iff] at accepted
  unfold ncclBuildRings
  cases built : buildRings next rings rank nrings with
  | error =>
    rw [built] at accepted
    exact ⟨.trans (by simp) accepted, by rintro result ⟨⟩⟩
  | ok state =>
    rw [built] at accepted
    refine ⟨.trans (by simp) accepted, ?_⟩
    rintro result ⟨⟩
    exact (recorded state built).recorded

end NcclCore.RingsProofs
