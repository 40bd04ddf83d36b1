import Mathlib.Algebra.Order.Ring.Int
import NcclCore.RingProxy
import NcclCore.RingSlices

/-! The slices that the proxy assumes for a registered ring AllReduce against those of
the kernel. Both cut a chunk in the same way, but with different minimum sizes: the
proxy's comes from the chunk size, which is rounded down to the grain, the kernel's
from the step buffer. -/
namespace NcclCore.RegisteredRing
open Lib List Int
variable (ring : RegisteredRing)

theorem elemSize_pos : 0 < ring.elemSize := by
  have size := ring.typeSize
  simp only [mem_cons, not_mem_nil, or_false] at size
  omega

/-- The least slice of the proxy, and of the kernel, in elements. -/
def proxyMin : Nat := ring.chunking.sliceSize / ring.elemSize / 32

def kernelMin : Nat := ring.stepSize * ProtoSimple.allReduce.stepPerSlice / 32

/-- The elements of a chunk. -/
def chunkElems (loop chunk : Nat) : Nat :=
  (ring.work.nelem ring.nRanks (loop * ring.work.loopCount ring.nRanks) chunk).toNat

/-- The size of a slice of a chunk, for a given least size. -/
def sliceElems (least nelem : Nat) : Nat := max (divUp nelem 32 * 16) least

section
variable (ringIx : Nat)

@[simp] theorem algorithm_nRanks : (ring.algorithm ringIx).nRanks = ring.nRanks := rfl
@[simp] theorem algorithm_ringIndex : (ring.algorithm ringIx).ringIndex = ringIx := rfl
@[simp] theorem algorithm_elemSize : (ring.algorithm ringIx).elemSize = ring.elemSize := rfl
@[simp] theorem algorithm_chunkSteps : (ring.algorithm ringIx).chunkSteps = 4 := rfl
@[simp] theorem algorithm_sliceSteps : (ring.algorithm ringIx).sliceSteps = 2 := rfl
@[simp] theorem algorithm_slicePerChunk : (ring.algorithm ringIx).slicePerChunk = 2 := rfl
@[simp] theorem algorithm_sliceSize : (ring.algorithm ringIx).sliceSize = ring.chunking.sliceSize := rfl
@[simp] theorem algorithm_nStepsPerLoop : (ring.algorithm ringIx).nStepsPerLoop = 2 * (ring.nRanks - 1) * 4 := rfl
@[simp] theorem algorithm_gridOffset : (ring.algorithm ringIx).gridOffset = ring.work.gridOffset * ring.elemSize := rfl
@[simp] theorem algorithm_channelSize :
    (ring.algorithm ringIx).channelSize = ring.work.channelCount * ring.elemSize := rfl

@[simp] theorem algorithm_chunkSize : (ring.algorithm ringIx).chunkSize = ring.work.chunkCount * ring.elemSize :=
  ring.chunkCount_mul.symm

@[simp] theorem algorithm_loopSize :
    (ring.algorithm ringIx).loopSize = ring.work.loopCount ring.nRanks * ring.elemSize := by
  change ring.nRanks * (ring.algorithm ringIx).chunkSize = ring.nRanks * ring.work.chunkCount * ring.elemSize
  rw [algorithm_chunkSize, mul_assoc]

/-! ### The proxy in elements -/

theorem curChunkSize_eq (elemOffset : Nat) : (ring.algorithm ringIx).curChunkSize (elemOffset * ring.elemSize) =
    ring.work.chunkCountAt ring.nRanks elemOffset * ring.elemSize := by
  have positive := ring.elemSize_pos
  unfold RingARAlgorithm.curChunkSize RingWork.chunkCountAt
  simp only [algorithm_channelSize, algorithm_loopSize, algorithm_elemSize, algorithm_nRanks, algorithm_chunkSize,
    ← Nat.sub_mul, Nat.mul_lt_mul_right positive, Nat.mul_div_cancel _ positive]
  by_cases last : ring.work.channelCount - elemOffset < ring.work.loopCount ring.nRanks
  · rw [if_pos last, if_pos last]
    rfl
  · rw [if_neg last, if_neg last]

theorem chunkBytes_eq (elemOffset chunkId : Nat) :
    (ring.algorithm ringIx).chunkBytes (elemOffset * ring.elemSize) chunkId =
      ring.work.nelem ring.nRanks elemOffset chunkId * ring.elemSize := by
  have positive : (0 : Int) ≤ ring.elemSize := natCast_nonneg _
  unfold RingARAlgorithm.chunkBytes RingWork.nelem
  simp only [curChunkSize_eq, algorithm_channelSize, natCast_mul]
  rw [min_comm, min_mul_of_nonneg _ _ positive]
  congr 1
  ring

end

theorem curSliceSize_eq (ringIx : Nat) (nelem : Int) : (ring.algorithm ringIx).curSliceSize (nelem * ring.elemSize) =
    max (sdivUp nelem 32 * 16) ring.proxyMin * ring.elemSize := by
  have nonzero := natCast_ne_zero.mpr ring.elemSize_pos.ne'
  unfold RingARAlgorithm.curSliceSize proxyMin
  simp only [algorithm_elemSize, algorithm_slicePerChunk, algorithm_sliceSize, mul_tdiv_cancel _ nonzero]
  rfl

/-! ### Slices of the proxy -/

theorem sdivUp_natCast (x : Nat) {y : Nat} (positive : 0 < y) : sdivUp x y = divUp x y := by
  have sum : (x : Int) + y - 1 = ((x + y - 1 : Nat) : Int) := by omega
  rw [sdivUp, sum]
  rfl

theorem toNat_mul_natCast (x : Int) (m : Nat) : (x * m).toNat = x.toNat * m := by
  rcases le_total 0 x with nonneg | negative
  · obtain ⟨k, rfl⟩ := eq_ofNat_of_zero_le nonneg
    rw [← natCast_mul, toNat_natCast, toNat_natCast]
  · rw [toNat_of_nonpos negative, zero_mul, toNat_of_nonpos]
    exact mul_nonpos_of_nonpos_of_nonneg negative (natCast_nonneg m)

/-- What the proxy computes for a slice of a chunk of `nelem` elements, before it is
scaled to bytes, is a slice of the chunk. -/
theorem slice_of_signed (nelem : Int) (least ix u : Nat) : let size : Int := max (sdivUp nelem 32 * 16) least
    let slice := sliceAt ix nelem.toNat (sliceElems least nelem.toNat) u
    (min size (nelem - u * size)).toNat = slice.size ∧
      (nelem ≤ u * size ↔ nelem.toNat ≤ u * sliceElems least nelem.toNat) ∧
      (¬ nelem ≤ u * size → (ix : Int) + u * size = slice.offset) := by
  intro size slice
  rcases Int.lt_or_le nelem 0 with negative | nonneg
  · have zero := toNat_of_nonpos (le_of_lt negative)
    have sizes : 0 ≤ size := le_trans (natCast_nonneg least) (le_max_right ..)
    have far := mul_nonneg (natCast_nonneg u) sizes
    refine ⟨?_, ?_, fun inside => absurd inside (by omega)⟩
    · rw [toNat_of_nonpos (by omega)]
      simp [slice, sliceAt, zero]
    · simp only [zero, zero_le, iff_true]
      omega
  · obtain ⟨count, rfl⟩ := eq_ofNat_of_zero_le nonneg
    have cast : size = (sliceElems least count : Nat) := by
      have quotient : sdivUp count 32 = divUp count 32 := sdivUp_natCast count (by decide)
      simp only [size, sliceElems]
      omega
    have product : (u : Int) * size = (u * sliceElems least count : Nat) := by
      rw [cast, natCast_mul]
    simp only [toNat_natCast, slice, sliceAt]
    refine ⟨by omega, by omega, fun inside => ?_⟩
    rw [if_pos (by omega)]
    omega

/-- The slice of a chunk, for a given least size. -/
def chunkSlice (least loop chunk u : Nat) : Slice :=
  let elemOffset := loop * ring.work.loopCount ring.nRanks
  sliceAt (ring.work.gridOffset + elemOffset + chunk * ring.work.chunkCountAt ring.nRanks elemOffset)
    (ring.chunkElems loop chunk) (sliceElems least (ring.chunkElems loop chunk)) u

theorem sliceOf_eq (ringIx loop chunk u : Nat) :
    ((ring.algorithm ringIx).sliceOf loop chunk u).2 =
      (ring.chunkSlice ring.proxyMin loop chunk u).size * ring.elemSize ∧
      (0 < (ring.chunkSlice ring.proxyMin loop chunk u).size → ((ring.algorithm ringIx).sliceOf loop chunk u).1 =
        (ring.chunkSlice ring.proxyMin loop chunk u).offset * ring.elemSize) := by
  have positive := natCast_pos.mpr ring.elemSize_pos
  have elemOffset : loop * (ring.algorithm ringIx).loopSize =
      loop * ring.work.loopCount ring.nRanks * ring.elemSize := by
    rw [algorithm_loopSize, mul_assoc]
  obtain ⟨size, empty, offset⟩ := slice_of_signed
    (ring.work.nelem ring.nRanks (loop * ring.work.loopCount ring.nRanks) chunk) ring.proxyMin
    (ring.work.gridOffset + loop * ring.work.loopCount ring.nRanks +
      chunk * ring.work.chunkCountAt ring.nRanks (loop * ring.work.loopCount ring.nRanks)) u
  unfold RingARAlgorithm.sliceOf RingARAlgorithm.sliceEmpty
  simp only [elemOffset, chunkBytes_eq, curSliceSize_eq, curChunkSize_eq, algorithm_gridOffset]
  simp only [chunkSlice, chunkElems]
  generalize ring.work.nelem ring.nRanks (loop * ring.work.loopCount ring.nRanks) chunk = nelem at *
  generalize max (sdivUp nelem 32 * 16) (ring.proxyMin : Int) = slices at *
  constructor
  · rw [← size, ← toNat_mul_natCast, min_mul_of_nonneg _ _ positive.le, sub_mul, mul_assoc]
  · intro nonempty
    have inside : ¬ nelem ≤ u * slices := by omega
    have scaled : ¬ nelem * ring.elemSize ≤ u * (slices * ring.elemSize) := by
      rwa [← mul_assoc, mul_le_mul_iff_of_pos_right positive]
    rw [if_neg (by rwa [decide_eq_true_eq]), ← offset inside]
    push_cast
    ring

/-! ### Slices of the kernel -/

/-- The slices that are sent, or received, in a loop. -/
def loopSlices : Nat := (2 * ring.nRanks - 2) * 2

def kernelOp (ringIx loop k : Nat) : RingSlice :=
  ring.work.sliceOp .allReduce ring.stepSize ring.nRanks ringIx loop k

theorem kernelOp_slice (ringIx loop k : Nat) : (ring.kernelOp ringIx loop k).slice =
    ring.chunkSlice ring.kernelMin loop (stageChunk ring.nRanks ringIx (k / 2)) (k % 2) := rfl

theorem kernelSlices_eq (inside : ringIx < ring.nRanks) : ring.kernelSlices ringIx =
    (List.range (ring.work.nLoops ring.nRanks)).flatMap fun loop =>
      (List.range (ring.loopSlices + 2)).map (ring.kernelOp ringIx loop) := by
  have ranks := ring.ranks
  have count : ring.loopSlices + 2 = (2 * ring.nRanks - 1) * ProtoSimple.allReduce.slicePerChunk := by
    change (2 * ring.nRanks - 2) * 2 + 2 = (2 * ring.nRanks - 1) * 2
    omega
  rw [kernelSlices, ringSlices_eq _ _ _ ranks inside, count]
  rfl

/-- A list given loop by loop, by the number of the slice. -/
theorem getElem?_loops (f : Nat → Nat → α) (bound : j < loops * size) :
    ((List.range loops).flatMap fun loop => (List.range size).map (f loop))[j]? = some (f (j / size) (j % size)) := by
  have blocks : ((List.range loops).flatMap fun loop => (List.range size).map (f loop)) =
      (List.range (loops * size)).map fun j => f (j / size) (j % size) := by
    rw [← flatMap_range_map]
    congr 1
    funext loop
    apply map_congr_left
    intro k member
    rw [digits_div (mem_range.mp member), Nat.mul_add_mod_of_lt (mem_range.mp member)]
  rw [blocks, getElem?_map, getElem?_range bound, Option.map_some]

theorem kernelOp_send (ringIx loop k : Nat) :
    (ring.kernelOp ringIx loop k).prim.send = decide (k < ring.loopSlices) := by
  change (stagePrim ring.nRanks (k / 2)).send = _
  rw [stagePrim_eq ring.ranks]
  change decide (k / 2 + 2 < 2 * ring.nRanks) = decide (k < (2 * ring.nRanks - 2) * 2)
  rw [decide_eq_decide]
  omega

theorem kernelOp_recv (ringIx loop k : Nat) : (ring.kernelOp ringIx loop k).prim.recv = decide (2 ≤ k) := by
  change (stagePrim ring.nRanks (k / 2)).recv = _
  rw [stagePrim_eq ring.ranks]
  simp only [decide_eq_decide]
  omega

variable {ring}

section
variable (inside : ringIx < ring.nRanks) (bound : j < ring.work.nLoops ring.nRanks * ring.loopSlices)
include inside bound

/-- The slices of a kind, which in each loop are those at some places. -/
theorem kernelSlices_getElem? (place : Nat → Nat)
    (places : ∀ loop, (List.range (ring.loopSlices + 2)).filter (kind ∘ ring.kernelOp ringIx loop) =
      (List.range ring.loopSlices).map place) :
    (((ring.kernelSlices ringIx).filter kind).map RingSlice.slice)[j]? =
      some (ring.kernelOp ringIx (j / ring.loopSlices) (place (j % ring.loopSlices))).slice := by
  have kept : (ring.kernelSlices ringIx).filter kind = (List.range (ring.work.nLoops ring.nRanks)).flatMap fun loop =>
      (List.range ring.loopSlices).map fun k => ring.kernelOp ringIx loop (place k) := by
    rw [kernelSlices_eq ring inside, filter_flatMap]
    congr 1
    funext loop
    rw [filter_map, places, map_map]
    rfl
  rw [kept, getElem?_map, getElem?_loops (fun loop k => ring.kernelOp ringIx loop (place k)) bound, Option.map_some]

theorem kernelSends_getElem? : (ring.kernelSends ringIx)[j]? =
    some (ring.kernelOp ringIx (j / ring.loopSlices) (j % ring.loopSlices)).slice := by
  refine kernelSlices_getElem? inside bound id fun loop => ?_
  simp only [Function.comp_def, kernelOp_send, map_id]
  rw [range_add, filter_append, filter_eq_self.mpr, filter_eq_nil_iff.mpr, append_nil]
  · simp
  · simp

theorem kernelRecvs_getElem? : (ring.kernelRecvs ringIx)[j]? =
    some (ring.kernelOp ringIx (j / ring.loopSlices) (2 + j % ring.loopSlices)).slice := by
  refine kernelSlices_getElem? inside bound (2 + ·) fun loop => ?_
  simp only [Function.comp_def, kernelOp_recv]
  rw [add_comm, range_add, filter_append, filter_eq_nil_iff.mpr, filter_eq_self.mpr, nil_append]
  · simp
  · simp

end

/-! ### Steps -/

theorem nsteps_eq (ring : RegisteredRing) : ring.nsteps = 2 * (ring.work.nLoops ring.nRanks * ring.loopSlices) := by
  have positive := ring.elemSize_pos
  have loops : divUp (ring.channelCount * ring.elemSize) (ring.nRanks * ring.chunking.chunkSize) =
      ring.work.nLoops ring.nRanks := by
    have chunk : 0 < ring.nRanks * ring.chunkCount :=
      mul_pos (Nat.two_pos.trans_le ring.ranks) ring.work.chunkPositive
    apply eq_of_forall_ge_iff
    intro count
    rw [← chunkCount_mul, ← mul_assoc, divUp_le_iff (mul_pos chunk positive), ← mul_assoc,
      Nat.mul_le_mul_right_iff positive, ← divUp_le_iff chunk]
    rfl
  change 2 * (ring.nRanks - 1) * divUp _ _ * 4 = _
  rw [loops, loopSlices, show 2 * ring.nRanks - 2 = 2 * (ring.nRanks - 1) by omega]
  ring

/-- The loop, the stage and the slice of a step. -/
theorem step_parts (ring : RegisteredRing) (t : Nat) :
    t / (2 * (ring.nRanks - 1) * 4) = t / 2 / ring.loopSlices ∧
      t % (2 * (ring.nRanks - 1) * 4) / 4 = t / 2 % ring.loopSlices / 2 ∧ t % 4 / 2 = t / 2 % ring.loopSlices % 2 := by
  have period : 2 * (ring.nRanks - 1) * 4 = 2 * ring.loopSlices := by
    unfold loopSlices
    omega
  refine ⟨?_, ?_, ?_⟩
  · rw [period, Nat.div_div_eq_div_mul]
  · rw [period, ← Nat.mod_mul_right_div_self, Nat.div_div_eq_div_mul]
  · have even : 2 ∣ ring.loopSlices := Nat.dvd_mul_left ..
    rw [Nat.mod_mod_of_dvd _ even]
    omega

/-- The chunk of a stage as the proxy computes it. -/
theorem proxyChunk_eq (ringIx : Nat) (bound : stage + 1 < 2 * nranks) :
    (ringIx + nranks - 1 - stage % nranks) % nranks = stageChunk nranks ringIx stage := by
  unfold stageChunk
  by_cases small : stage < nranks
  · rw [Nat.mod_eq_of_lt small, show ringIx + 2 * nranks - 1 - stage = ringIx + nranks - 1 - stage + nranks by omega,
      Nat.add_mod_right]
  · have wrapped : stage % nranks = stage - nranks := by
      rw [Nat.mod_eq_sub_mod (by omega), Nat.mod_eq_of_lt (by omega)]
    congr 1
    omega

theorem stageChunk_next (inside : ringIx < nranks) (bound : stage + 1 < 2 * nranks) :
    stageChunk nranks ((ringIx + 1) % nranks) (stage + 1) = stageChunk nranks ringIx stage := by
  unfold stageChunk
  by_cases last : ringIx + 1 = nranks
  · rw [last, Nat.mod_self, show ringIx + 2 * nranks - 1 - stage = 0 + 2 * nranks - 1 - (stage + 1) + nranks by omega,
      Nat.add_mod_right]
  · rw [Nat.mod_eq_of_lt (show ringIx + 1 < nranks by omega)]
    congr 1
    omega

theorem getNextSendAddr_eq (ring : RegisteredRing) (ringIx t : Nat) :
    let slice := (ring.algorithm ringIx).sliceOf (t / 2 / ring.loopSlices)
      (stageChunk ring.nRanks ringIx (t / 2 % ring.loopSlices / 2)) (t / 2 % ring.loopSlices % 2)
    ((ring.algorithm ringIx).getNextSendAddr t).offset = slice.1 ∧
      ((ring.algorithm ringIx).getNextSendAddr t).size = slice.2 := by
  obtain ⟨loop, stage, part⟩ := ring.step_parts t
  have bound : t / 2 % ring.loopSlices / 2 + 1 < 2 * ring.nRanks := by
    have ranks := ring.ranks
    have less : t / 2 % ring.loopSlices < ring.loopSlices := Nat.mod_lt _ (by unfold loopSlices; omega)
    unfold loopSlices at *
    omega
  unfold RingARAlgorithm.getNextSendAddr
  simp only [algorithm_nStepsPerLoop, algorithm_chunkSteps, algorithm_sliceSteps, algorithm_nRanks, algorithm_ringIndex,
    loop, stage, part, proxyChunk_eq ringIx bound]
  split
  · exact ⟨rfl, rfl⟩
  · split <;> exact ⟨rfl, rfl⟩

theorem getNextRecvAddr_eq (ring : RegisteredRing) (ringIx t : Nat) :
    let slice := (ring.algorithm ringIx).sliceOf (t / 2 / ring.loopSlices)
      (stageChunk ring.nRanks ringIx (t / 2 % ring.loopSlices / 2 + 1)) (t / 2 % ring.loopSlices % 2)
    ((ring.algorithm ringIx).getNextRecvAddr t).offset = slice.1 ∧
      ((ring.algorithm ringIx).getNextRecvAddr t).size = slice.2 := by
  obtain ⟨loop, -, part⟩ := ring.step_parts t
  obtain ⟨-, stage, -⟩ := ring.step_parts (t + 4)
  have ranks := ring.ranks
  have less : t / 2 % ring.loopSlices < ring.loopSlices := Nat.mod_lt _ (by unfold loopSlices; omega)
  have chunk : (if (t + 4) / 2 % ring.loopSlices / 2 = 0 then (ringIx + 1) % ring.nRanks
      else (ringIx + ring.nRanks - 1 - (t + 4) / 2 % ring.loopSlices / 2 % ring.nRanks) % ring.nRanks) =
      stageChunk ring.nRanks ringIx (t / 2 % ring.loopSlices / 2 + 1) := by
    have later : (t + 4) / 2 % ring.loopSlices = (t / 2 % ring.loopSlices + 2) % ring.loopSlices := by
      rw [show (t + 4) / 2 = t / 2 + 2 by omega, Nat.mod_add_mod]
    generalize t / 2 % ring.loopSlices = k at *
    by_cases last : k + 2 < ring.loopSlices
    · rw [later, Nat.mod_eq_of_lt last, Nat.add_div_right k Nat.two_pos, if_neg (Nat.succ_ne_zero _),
        proxyChunk_eq ringIx (by unfold loopSlices at last; omega)]
    · have wrapped : (k + 2) % ring.loopSlices / 2 = 0 := by
        rw [Nat.mod_eq_sub_mod (by omega), Nat.mod_eq_of_lt (by unfold loopSlices at *; omega)]
        omega
      have final : k / 2 + 1 = 2 * ring.nRanks - 2 := by
        unfold loopSlices at *
        omega
      rw [later, if_pos wrapped]
      congr 1
      omega
  unfold RingARAlgorithm.getNextRecvAddr
  simp only [algorithm_nStepsPerLoop, algorithm_chunkSteps, algorithm_sliceSteps, algorithm_nRanks, algorithm_ringIndex,
    loop, stage, part, chunk, and_self]

/-! ### Agreement -/

section
variable (ring : RegisteredRing)

/-- The same bytes: an empty slice has no place in the buffer. -/
def Same (addr : RingAddr) (slice : Slice) : Prop :=
  addr.size = slice.size * ring.elemSize ∧ (0 < addr.size → addr.offset = slice.offset * ring.elemSize)

/-- At a step the proxy has the slices that the kernel sends and receives, and the next rank
receives what this one sends. -/
def StepMatches (ringIx t : Nat) : Prop :=
  (∃ slice, (ring.kernelSends ringIx)[t / allReduceSliceSteps]? = some slice ∧
    ring.Same ((ring.algorithm ringIx).getNextSendAddr t) slice) ∧
  (∃ slice, (ring.kernelRecvs ringIx)[t / allReduceSliceSteps]? = some slice ∧
    ring.Same ((ring.algorithm ringIx).getNextRecvAddr t) slice) ∧
  ((ring.algorithm ringIx).getNextSendAddr t).size =
    ((ring.algorithm ((ringIx + 1) % ring.nRanks)).getNextRecvAddr t).size ∧
  ((ring.algorithm ringIx).getNextSendAddr t).offset =
    ((ring.algorithm ((ringIx + 1) % ring.nRanks)).getNextRecvAddr t).offset

/-- The chunk is one slice for both, or the least slice of the kernel makes no
difference. -/
def ChunkMatches (nelem : Nat) : Prop :=
  nelem ≤ sliceElems ring.proxyMin nelem ∨ ring.kernelMin ≤ sliceElems ring.proxyMin nelem

/-- The chunk size is rounded down to the grain, so the proxy's least slice is not the
larger one. -/
theorem proxyMin_le_kernelMin : ring.proxyMin ≤ ring.kernelMin := by
  have bound : ring.chunking.chunkSize ≤ ring.chunking.buffSize / ncclSteps * allReduceChunkSteps := by
    refine le_trans (Nat.div_mul_le_self ..) ?_
    cases ring.chunking.tunerChunkSize with
    | none => exact le_rfl
    | some => exact min_le_right ..
  have size := ring.typeSize
  unfold proxyMin kernelMin stepSize RingChunking.sliceSize
  change _ ≤ _ / ncclSteps / ring.elemSize * 2 / 32
  simp only [allReduceChunkSteps, allReduceSliceSteps, ncclSteps] at *
  simp only [mem_cons, not_mem_nil, or_false] at size
  rcases size with size | size | size | size <;> rw [size] <;> omega

theorem same_iff (least : Nat) (offset : addr.offset = ((ring.algorithm ringIx).sliceOf loop chunk u).1)
    (size : addr.size = ((ring.algorithm ringIx).sliceOf loop chunk u).2) :
    ring.Same addr (ring.chunkSlice least loop chunk u) ↔
      (ring.chunkSlice ring.proxyMin loop chunk u).size = (ring.chunkSlice least loop chunk u).size ∧
      (0 < (ring.chunkSlice ring.proxyMin loop chunk u).size →
        (ring.chunkSlice ring.proxyMin loop chunk u).offset = (ring.chunkSlice least loop chunk u).offset) := by
  have positive := ring.elemSize_pos
  obtain ⟨sizes, offsets⟩ := ring.sliceOf_eq ringIx loop chunk u
  unfold Same
  rw [size, offset, sizes, Nat.mul_left_inj positive.ne', Nat.mul_pos_iff_of_pos_right positive]
  refine and_congr_right fun _ => forall_congr' fun nonempty => ?_
  rw [offsets nonempty, ← natCast_mul, ← natCast_mul, ofNat_inj, Nat.mul_left_inj positive.ne']

/-- All slices of a chunk agree, or already the first one differs. -/
theorem chunkSlices_agree (loop chunk : Nat) (agrees : ring.ChunkMatches (ring.chunkElems loop chunk))
    (u : Nat) :
    (ring.chunkSlice ring.proxyMin loop chunk u).size = (ring.chunkSlice ring.kernelMin loop chunk u).size ∧
      (0 < (ring.chunkSlice ring.proxyMin loop chunk u).size →
        (ring.chunkSlice ring.proxyMin loop chunk u).offset = (ring.chunkSlice ring.kernelMin loop chunk u).offset) := by
  have order := ring.proxyMin_le_kernelMin
  unfold chunkSlice ChunkMatches at *
  generalize ring.chunkElems loop chunk = nelem at *
  have larger : sliceElems ring.proxyMin nelem ≤ sliceElems ring.kernelMin nelem := by
    unfold sliceElems
    omega
  rcases agrees with single | same
  · simp only [sliceAt]
    cases u with
    | zero =>
      simp only [zero_mul]
      exact ⟨by omega, fun _ => trivial⟩
    | succ u =>
      have far : sliceElems ring.proxyMin nelem ≤ (u + 1) * sliceElems ring.proxyMin nelem :=
        Nat.le_mul_of_pos_left _ u.succ_pos
      have farther : sliceElems ring.kernelMin nelem ≤ (u + 1) * sliceElems ring.kernelMin nelem :=
        Nat.le_mul_of_pos_left _ u.succ_pos
      exact ⟨by omega, fun nonempty => by omega⟩
  · have equal : sliceElems ring.kernelMin nelem = sliceElems ring.proxyMin nelem := by
      unfold sliceElems at *
      omega
    rw [equal]
    exact ⟨rfl, fun _ => rfl⟩

theorem chunkMatches_of_first
    (first : (ring.chunkSlice ring.proxyMin loop chunk 0).size = (ring.chunkSlice ring.kernelMin loop chunk 0).size) :
    ring.ChunkMatches (ring.chunkElems loop chunk) := by
  unfold chunkSlice ChunkMatches at *
  generalize ring.chunkElems loop chunk = nelem at *
  simp only [sliceAt, zero_mul, Nat.sub_zero] at first
  have least : ring.kernelMin ≤ sliceElems ring.kernelMin nelem := le_max_right ..
  omega

end

theorem loopSlices_pos (ring : RegisteredRing) : 0 < ring.loopSlices := by
  have ranks := ring.ranks
  unfold loopSlices
  omega

theorem stepMatches_of_chunks
    (agree : ∀ loop < ring.work.nLoops ring.nRanks, ∀ chunk < ring.nRanks,
      ring.ChunkMatches (ring.chunkElems loop chunk))
    (inside : ringIx < ring.nRanks) (bound : t < ring.nsteps) : ring.StepMatches ringIx t := by
  have ranks := ring.ranks
  have slices := ring.loopSlices_pos
  rw [nsteps_eq] at bound
  have early : t / 2 < ring.work.nLoops ring.nRanks * ring.loopSlices := by omega
  have loop : t / 2 / ring.loopSlices < ring.work.nLoops ring.nRanks := by
    rwa [Nat.div_lt_iff_lt_mul slices]
  have stage : t / 2 % ring.loopSlices / 2 + 1 < 2 * ring.nRanks := by
    have less : t / 2 % ring.loopSlices < ring.loopSlices := Nat.mod_lt _ slices
    unfold loopSlices at *
    omega
  have chunk : ∀ s, stageChunk ring.nRanks ringIx s < ring.nRanks := fun s => Nat.mod_lt _ (by omega)
  obtain ⟨sendOffset, sendSize⟩ := ring.getNextSendAddr_eq ringIx t
  obtain ⟨recvOffset, recvSize⟩ := ring.getNextRecvAddr_eq ringIx t
  obtain ⟨nextOffset, nextSize⟩ := ring.getNextRecvAddr_eq ((ringIx + 1) % ring.nRanks) t
  rw [StepMatches, show allReduceSliceSteps = 2 from rfl]
  refine ⟨⟨_, kernelSends_getElem? inside early, ?_⟩, ⟨_, kernelRecvs_getElem? inside early, ?_⟩, ?_, ?_⟩
  · rw [kernelOp_slice, ring.same_iff _ sendOffset sendSize]
    exact ring.chunkSlices_agree _ _ (agree _ loop _ (chunk _)) _
  · rw [kernelOp_slice, Nat.add_div_left _ Nat.two_pos, Nat.add_mod_left, ring.same_iff _ recvOffset recvSize]
    exact ring.chunkSlices_agree _ _ (agree _ loop _ (chunk _)) _
  · rw [sendSize, nextSize, stageChunk_next inside stage]
    rfl
  · rw [sendOffset, nextOffset, stageChunk_next inside stage]
    rfl

/-- The proxy and the kernel have the same slices, and so have a rank and the next
one, exactly if the least slices make no difference for any chunk. -/
theorem proxy_slices_match_iff (ring : RegisteredRing) :
    (∀ ringIx < ring.nRanks, ∀ t < ring.nsteps, ring.StepMatches ringIx t) ↔
    ∀ loop < ring.work.nLoops ring.nRanks, ∀ chunk < ring.nRanks, ring.ChunkMatches (ring.chunkElems loop chunk) := by
  refine ⟨fun same loop bound chunk less => ?_, fun agree _ inside _ bound => stepMatches_of_chunks agree inside bound⟩
  have ranks := ring.ranks
  have slices := ring.loopSlices_pos
  -- the chunk is what the next rank on the ring sends first
  have inside : (chunk + 1) % ring.nRanks < ring.nRanks := Nat.mod_lt _ (by omega)
  have first : stageChunk ring.nRanks ((chunk + 1) % ring.nRanks) 0 = chunk := by
    rw [stageChunk, Nat.sub_zero, Nat.add_sub_assoc (by omega), Nat.mod_add_mod,
      show chunk + 1 + (2 * ring.nRanks - 1) = chunk + 2 * ring.nRanks by omega, Nat.add_mul_mod_self_right,
      Nat.mod_eq_of_lt less]
  have early := Nat.mul_lt_mul_of_pos_right bound slices
  obtain ⟨⟨slice, found, same⟩, -⟩ := same _ inside (2 * (loop * ring.loopSlices)) (by rw [nsteps_eq]; omega)
  have half : 2 * (loop * ring.loopSlices) / 2 = loop * ring.loopSlices := Nat.mul_div_cancel_left _ Nat.two_pos
  obtain ⟨offset, size⟩ := ring.getNextSendAddr_eq ((chunk + 1) % ring.nRanks) (2 * (loop * ring.loopSlices))
  rw [show allReduceSliceSteps = 2 from rfl, half, kernelSends_getElem? inside early] at found
  rw [half] at offset size
  simp only [Nat.mul_div_cancel _ slices, Nat.mul_mod_left, kernelOp_slice, Nat.zero_div, Nat.zero_mod, first,
    Option.some.injEq] at found offset size
  rw [← found] at same
  exact ring.chunkMatches_of_first ((ring.same_iff _ offset size).mp same).1

/-- A buffer of 1000000 bytes: the proxy sends 1952 of 2000 elements in the first
slice, the kernel 1953. -/
theorem first_slice_differs : ∃ ring : RegisteredRing, ring.chunking = ⟨1000000, none⟩ ∧ 0 < ring.nsteps ∧
    (ring.kernelSends 0)[0]? = some ⟨2000, 1953⟩ ∧
    (ring.algorithm 0).getNextSendAddr 0 = ⟨.sendbuff, 2000 * 4, 1952 * 4, .sendMhandle⟩ :=
  ⟨⟨⟨1000000, none⟩, 2, 4, 0, 4000, by decide, by decide, by decide, by decide⟩, rfl, by decide, by decide +kernel,
    by decide +kernel⟩

/-- With whole grains in the buffer, and no tuner, the least slices are equal, so the proxy
and the kernel have the same slices. -/
theorem proxy_slices_match_of_whole_grains (noTuner : ring.chunking.tunerChunkSize = none)
    (whole : simpleGrainSize ∣ ring.chunking.buffSize / ncclSteps * allReduceChunkSteps)
    (inside : ringIx < ring.nRanks) (bound : t < ring.nsteps) : ring.StepMatches ringIx t := by
  have chunk : ring.chunking.chunkSize = ring.chunking.buffSize / ncclSteps * allReduceChunkSteps := by
    simp [RingChunking.chunkSize, noTuner, Nat.div_mul_cancel whole]
  have equal : ring.kernelMin = ring.proxyMin := by
    have size := ring.typeSize
    unfold proxyMin kernelMin stepSize RingChunking.sliceSize
    change _ / ncclSteps / ring.elemSize * 2 / 32 = _
    simp only [simpleGrainSize, allReduceChunkSteps, allReduceSliceSteps, ncclSteps] at *
    simp only [mem_cons, not_mem_nil, or_false] at size
    rcases size with size | size | size | size <;> rw [size] <;> omega
  refine stepMatches_of_chunks (fun _ _ _ _ => .inr ?_) inside bound
  rw [equal]
  exact le_max_right ..

theorem slices_match_default : ∃ ring : RegisteredRing, ring.chunking = ⟨2 ^ 22, none⟩ ∧ 3 < ring.nsteps ∧
    ring.StepMatches 1 3 :=
  ⟨⟨⟨2 ^ 22, none⟩, 2, 4, 0, 4000, by decide, by decide, by decide, by decide⟩, rfl, by decide,
    proxy_slices_match_of_whole_grains rfl (by decide) (by decide) (by decide)⟩

end NcclCore.RegisteredRing
