import NcclCore.RingAllReduce
import NcclCore.Lib.Digits

/-! The slices of the ring AllReduce kernel as a table. In every loop a rank goes
through `2 * nranks - 1` stages of `slicePerChunk` slices each; what it does in a
stage, and on which chunk, depends on the number of the stage only. -/
namespace NcclCore
open Lib List Function

/-- A list built block by block, by the number of its elements. -/
theorem flatMap_range_map (blocks size : Nat) (f : Nat → α) :
    ((range blocks).flatMap fun block => (range size).map fun i => f (block * size + i)) =
      (range (blocks * size)).map f := by
  induction blocks with
  | zero => simp
  | succ blocks ih =>
    rw [range_succ, flatMap_append, ih, Nat.succ_mul, range_add]
    simp

/-! ### Slices of a chunk -/

def Slice.Contains (slice : Slice) (e : Nat) : Prop := slice.offset ≤ e ∧ e < slice.offset + slice.size

/-- The size of the slices that are neither cut nor empty. -/
def ProtoSimple.sliceSize (proto : ProtoSimple) (stepSize nelem : Nat) : Nat :=
  max (divUp nelem (16 * proto.slicePerChunk) * 16) (stepSize * proto.stepPerSlice / 32)

/-- The slice with number `u` of a chunk. -/
def sliceAt (ix nelem sliceSize u : Nat) : Slice :=
  ⟨if u * sliceSize < nelem then ix + u * sliceSize else 0, min sliceSize (nelem - u * sliceSize)⟩

theorem genericOpLoop_eq (ix nelem sliceSize slices u current : Nat)
    (cut : current = sliceSize ∨ nelem ≤ u * sliceSize) :
    genericOpLoop ix nelem slices current (min (u * sliceSize) nelem) =
      (range' u slices).map (sliceAt ix nelem sliceSize) := by
  induction slices generalizing u current with
  | zero => rfl
  | succ slices ih =>
    have size : min current (nelem - min (u * sliceSize) nelem) = min sliceSize (nelem - u * sliceSize) := by omega
    have next : min (u * sliceSize) nelem + min sliceSize (nelem - u * sliceSize) = min ((u + 1) * sliceSize) nelem := by
      rw [Nat.succ_mul]
      omega
    have head : (min (u * sliceSize) nelem < nelem ↔ u * sliceSize < nelem) ∧
        (u * sliceSize < nelem → ix + min (u * sliceSize) nelem = ix + u * sliceSize) := by omega
    have shorter : min sliceSize (nelem - u * sliceSize) = sliceSize ∨ nelem ≤ (u + 1) * sliceSize := by
      omega
    rw [genericOpLoop, range'_succ, map_cons]
    simp only [size, next]
    rw [ih (u + 1) _ shorter]
    congr 2
    by_cases inside : u * sliceSize < nelem
    · rw [if_pos (head.1.mpr inside), if_pos inside, head.2 inside]
    · rw [if_neg (mt head.1.mp inside), if_neg inside]

theorem genericOp_eq (proto : ProtoSimple) (stepSize ix : Nat) (nelem : Int) :
    genericOp proto stepSize ix nelem = (range proto.slicePerChunk).map
      (sliceAt ix nelem.toNat (proto.sliceSize stepSize nelem.toNat)) := by
  have loop := genericOpLoop_eq ix nelem.toNat (proto.sliceSize stepSize nelem.toNat) proto.slicePerChunk 0 _ (.inl rfl)
  rw [zero_mul] at loop
  rw [range_eq_range']
  exact loop

theorem sliceAt_contains (ix nelem sliceSize u e : Nat) :
    (sliceAt ix nelem sliceSize u).Contains e ↔
      ix + u * sliceSize ≤ e ∧ e < ix + u * sliceSize + sliceSize ∧ e < ix + nelem := by
  unfold Slice.Contains sliceAt
  dsimp only
  split <;> omega

/-- The slices of a chunk cover it. -/
theorem ProtoSimple.exists_sliceAt (proto : ProtoSimple) (stepSize ix nelem e : Nat) :
    (∃ u < proto.slicePerChunk, (sliceAt ix nelem (proto.sliceSize stepSize nelem) u).Contains e) ↔
      ix ≤ e ∧ e < ix + nelem := by
  simp only [sliceAt_contains]
  constructor
  · rintro ⟨u, -, low, -, high⟩
    exact ⟨by omega, high⟩
  · rintro ⟨low, high⟩
    have enough : nelem ≤ proto.slicePerChunk * proto.sliceSize stepSize nelem := by
      have whole := le_divUp_mul (x := nelem) (y := 16 * proto.slicePerChunk) (mul_pos (by decide) proto.slices)
      calc nelem ≤ divUp nelem (16 * proto.slicePerChunk) * (16 * proto.slicePerChunk) := whole
        _ = proto.slicePerChunk * (divUp nelem (16 * proto.slicePerChunk) * 16) := by ring
        _ ≤ proto.slicePerChunk * proto.sliceSize stepSize nelem := Nat.mul_le_mul_left _ (le_max_left ..)
    generalize proto.sliceSize stepSize nelem = size at enough ⊢
    have positive : 0 < size := by
      by_contra zero
      rw [Nat.eq_zero_of_not_pos zero] at enough
      omega
    have below : (e - ix) / size * size ≤ e - ix := Nat.div_mul_le_self ..
    have above : e - ix < (e - ix) / size * size + size := Nat.lt_div_mul_add positive
    refine ⟨(e - ix) / size, ?_, by omega, by omega, high⟩
    rw [Nat.div_lt_iff_lt_mul positive]
    omega

/-! ### Stages of a loop -/

def stagePrim (nranks stage : Nat) : Prim :=
  if stage = 0 then directSend
  else if stage + 1 < nranks then directRecvReduceDirectSend
  else if stage + 1 = nranks then directRecvReduceCopyDirectSend
  else if stage + 2 < 2 * nranks then directRecvCopyDirectSend
  else directRecv

theorem stagePrim_eq (two : 2 ≤ nranks) : stagePrim nranks stage =
    ⟨decide (stage ≠ 0), decide (stage + 2 < 2 * nranks), decide (stage < nranks), decide (nranks ≤ stage + 1),
      decide (stage + 1 = nranks)⟩ := by
  unfold stagePrim
  split
  · simp [directSend]
    omega
  · split
    · simp [directRecvReduceDirectSend]
      omega
    · split
      · simp [directRecvReduceCopyDirectSend]
        omega
      · split
        · simp [directRecvCopyDirectSend]
          omega
        · simp [directRecv]
          omega

def stageChunk (nranks ringIx stage : Nat) : Nat := (ringIx + 2 * nranks - 1 - stage) % nranks

theorem modRanks_eq (bound : r < 2 * nranks) : modRanks nranks r = r % nranks := by
  unfold modRanks
  split
  next large =>
    rw [Nat.mod_eq_sub_mod large, Nat.mod_eq_of_lt (by omega)]
  next small =>
    rw [Nat.mod_eq_of_lt (by omega), Nat.sub_zero]

theorem stageChunk_eq (ringIx stage : Nat) (bound : r < 2 * nranks)
    (same : r = ringIx + 2 * nranks - 1 - stage ∨ r + nranks = ringIx + 2 * nranks - 1 - stage) :
    modRanks nranks r = stageChunk nranks ringIx stage := by
  rw [modRanks_eq bound, stageChunk]
  rcases same with same | same
  · rw [same]
  · rw [← same, Nat.add_mod_right]

theorem ringLoop_eq (work : RingWork) (two : 2 ≤ nranks) (inside : ringIx < nranks) (elemOffset : Nat) :
    work.ringLoop nranks ringIx elemOffset = (range (2 * nranks - 1)).map fun stage =>
      work.call nranks elemOffset (stagePrim nranks stage) (stageChunk nranks ringIx stage) := by
  have stages : range (2 * nranks - 1) = range' 0 1 ++ range' 1 (nranks - 2) ++
      range' (nranks - 1) 1 ++ range' nranks (nranks - 2) ++ range' (2 * nranks - 2) 1 := by
    have cut : ∀ a b c, a + b = c → range' 0 c = range' 0 a ++ range' a b := fun a b c sum => by
      rw [← sum, ← range'_append_1, zero_add]
    rw [range_eq_range', ← cut 1 (nranks - 2) (nranks - 1) (by omega), ← cut (nranks - 1) 1 nranks (by omega),
      ← cut nranks (nranks - 2) (2 * nranks - 2) (by omega), ← cut (2 * nranks - 2) 1 (2 * nranks - 1) (by omega)]
  have shifted {α} {f g : Nat → α} {a b count} (same : ∀ j < count, f (a + j) = g (b + j)) :
      (range' a count).map f = (range' b count).map g := by
    rw [range'_eq_map_range, range'_eq_map_range, map_map, map_map]
    exact map_congr_left fun j member => same j (mem_range.mp member)
  rw [stages, RingWork.ringLoop]
  simp only [map_append, range'_one, map_cons, map_nil]
  congr 1
  · congr 1
    · congr 1
      · congr 1
        · rw [stageChunk_eq ringIx 0 (by omega) (by omega), stagePrim, if_pos rfl]
        · refine shifted fun j bound => ?_
          rw [stageChunk_eq ringIx (1 + j) (by omega) (by omega), stagePrim, if_neg (by omega), if_pos (by omega)]
      · rw [stagePrim, if_neg (by omega), if_neg (by omega), if_pos (by omega)]
        have own : stageChunk nranks ringIx (nranks - 1) = ringIx := by
          rw [stageChunk, show ringIx + 2 * nranks - 1 - (nranks - 1) = ringIx + nranks by omega, Nat.add_mod_right,
            Nat.mod_eq_of_lt inside]
        rw [own]
    · refine shifted fun j bound => ?_
      rw [stageChunk_eq ringIx (nranks + j) (by omega) (by omega), stagePrim, if_neg (by omega), if_neg (by omega),
        if_neg (by omega), if_pos (by omega)]
  · rw [stageChunk_eq ringIx (2 * nranks - 2) (by omega) (by omega), stagePrim, if_neg (by omega), if_neg (by omega),
      if_neg (by omega), if_neg (by omega)]

/-- The slice with number `k` of a loop. -/
def RingWork.sliceOp (work : RingWork) (proto : ProtoSimple) (stepSize nranks ringIx loop k : Nat) : RingSlice :=
  let elemOffset := loop * work.loopCount nranks
  let stage := k / proto.slicePerChunk
  let call := work.call nranks elemOffset (stagePrim nranks stage) (stageChunk nranks ringIx stage)
  ⟨call.prim, sliceAt call.offset call.nelem.toNat (proto.sliceSize stepSize call.nelem.toNat) (k % proto.slicePerChunk)⟩

theorem ringSlices_eq (work : RingWork) (proto : ProtoSimple) (stepSize : Nat) (two : 2 ≤ nranks)
    (inside : ringIx < nranks) : work.ringSlices proto stepSize nranks ringIx =
      (range (work.nLoops nranks)).flatMap fun loop =>
        (range ((2 * nranks - 1) * proto.slicePerChunk)).map (work.sliceOp proto stepSize nranks ringIx loop) := by
  rw [RingWork.ringSlices, RingWork.runRing, flatMap_assoc]
  congr 1
  funext loop
  rw [ringLoop_eq work two inside, flatMap_map, ← flatMap_range_map]
  congr 1
  funext stage
  rw [PrimCall.slices, genericOp_eq, map_map]
  apply map_congr_left
  intro u member
  have bound := mem_range.mp member
  simp [RingWork.sliceOp, digits_div bound, Nat.mul_add_mod_of_lt bound]

end NcclCore
