import Mathlib.Algebra.BigOperators.Fin
import Mathlib.Data.ZMod.Defs
import NcclCore.RingSlices

/-! Ring AllReduce leaves the full reduction at every rank. A slice that a rank posts
in stage `s` is the sum of the inputs of the last `s + 1` ranks on the ring, or the
result once all ranks have been passed; in the second half of a loop every rank writes
each chunk once. The ranks may run in any order. -/
namespace NcclCore.RingAllReduceProofs
open Lib List Function

/-! ### Chunks of a loop -/

section
variable (work : RingWork) {nranks : Nat}

theorem nelem_toNat (elemOffset chunk : Nat) :
    (work.nelem nranks elemOffset chunk).toNat = min (work.chunkCountAt nranks elemOffset)
      (work.channelCount - elemOffset - chunk * work.chunkCountAt nranks elemOffset) := by
  unfold RingWork.nelem
  simp only
  generalize work.chunkCountAt nranks elemOffset = chunkCount
  omega

/-- The chunks of a loop reach over what is left, or over a whole loop. -/
theorem chunkCountAt_covers (positive : 0 < nranks) (elemOffset : Nat) :
    min (work.channelCount - elemOffset) (work.loopCount nranks) ≤ nranks * work.chunkCountAt nranks elemOffset := by
  unfold RingWork.chunkCountAt
  simp only
  split
  · have whole := le_divUp_mul (x := work.channelCount - elemOffset) positive
    have align : 0 < 16 / work.sizeofT := by
      have size := work.typeSize
      simp only [mem_cons, not_mem_nil, or_false] at size
      rcases size with size | size | size | size <;> rw [size] <;> decide
    have aligned := le_alignUp (divUp (work.channelCount - elemOffset) nranks) align
    have scaled := Nat.mul_le_mul_left nranks aligned
    rw [mul_comm] at whole
    omega
  · exact min_le_right ..

/-- Where a chunk lies in what is left. -/
def ChunkContains (work : RingWork) (nranks elemOffset chunk x : Nat) : Prop :=
  chunk * work.chunkCountAt nranks elemOffset ≤ x ∧
    x < chunk * work.chunkCountAt nranks elemOffset + (work.nelem nranks elemOffset chunk).toNat

instance (work : RingWork) (nranks elemOffset chunk x : Nat) :
    Decidable (ChunkContains work nranks elemOffset chunk x) :=
  inferInstanceAs (Decidable (_ ∧ _))

/-- The chunks of a loop cover what is left, up to one loop. -/
theorem exists_chunk_iff (positive : 0 < nranks) (elemOffset x : Nat) :
    (∃ chunk < nranks, ChunkContains work nranks elemOffset chunk x) ↔
      x < min (work.channelCount - elemOffset) (work.loopCount nranks) := by
  have covers := chunkCountAt_covers work positive elemOffset
  unfold ChunkContains
  simp only [nelem_toNat]
  constructor
  · rintro ⟨chunk, less, low, high⟩
    refine Nat.lt_min.mpr ⟨by omega, ?_⟩
    by_cases full : work.loopCount nranks ≤ work.channelCount - elemOffset
    · rw [RingWork.chunkCountAt, if_neg (Nat.not_lt.mpr full)] at high low
      have inside := digits_lt less (show x - chunk * work.chunkCount < work.chunkCount by omega)
      unfold RingWork.loopCount
      omega
    · omega
  · intro bound
    generalize work.chunkCountAt nranks elemOffset = chunkCount at covers
    have size : 0 < chunkCount := by
      by_contra zero
      rw [Nat.eq_zero_of_not_pos zero] at covers
      omega
    have below : x / chunkCount * chunkCount ≤ x := Nat.div_mul_le_self ..
    have above : x < x / chunkCount * chunkCount + chunkCount := Nat.lt_div_mul_add size
    refine ⟨x / chunkCount, ?_, below, by omega⟩
    rw [Nat.div_lt_iff_lt_mul size]
    omega

theorem chunk_unique (here : ChunkContains work nranks elemOffset chunk x)
    (there : ChunkContains work nranks elemOffset chunk' x) : chunk = chunk' := by
  unfold ChunkContains at here there
  simp only [nelem_toNat] at here there
  generalize work.chunkCountAt nranks elemOffset = chunkCount at here there
  have rest : x - chunk * chunkCount < chunkCount := by omega
  have rest' : x - chunk' * chunkCount < chunkCount := by omega
  exact ((digits_inj rest rest').mp (by omega)).1

end

/-! ### Partial sums along the ring -/

section
variable {n : Nat} [NeZero n] {M : Type} [AddCommMonoid M]

/-- The sum over a rank and the ranks before it. -/
def partialSum (x : Fin n → M) (i : Fin n) : Nat → M
  | 0 => x i
  | s + 1 => x i + partialSum x (i - 1) s

theorem partialSum_eq_range (x : Fin n → M) (i : Fin n) (s : Nat) :
    partialSum x i s = ∑ j ∈ Finset.range (s + 1), x (i - Fin.ofNat n j) := by
  induction s generalizing i with
  | zero => simp [partialSum]
  | succ s ih =>
    have shift : ∀ j, i - 1 - Fin.ofNat n j = i - Fin.ofNat n (j + 1) := fun j => by
      have succ : Fin.ofNat n (j + 1) = 1 + Fin.ofNat n j := by
        apply Fin.ext
        simp [Fin.val_add, add_comm]
      rw [succ, sub_sub]
    rw [partialSum, ih, Finset.sum_range_succ' _ (s + 1), add_comm]
    simp only [shift, Fin.ofNat_zero, sub_zero]

theorem partialSum_eq_sum (x : Fin n → M) (i : Fin n) : partialSum x i (n - 1) = ∑ r, x r := by
  rw [partialSum_eq_range, Nat.sub_add_cancel (NeZero.one_le), Finset.sum_range]
  simp only [Fin.ofNat_eq_cast, Fin.cast_val_eq_self]
  exact Equiv.sum_comp (Equiv.subLeft i) x

end

/-! ### Stages -/

section
variable {n : Nat} [NeZero n]

theorem stageChunk_prev (two : 2 ≤ n) (i : Fin n) (bound : stage + 1 < 2 * n) :
    stageChunk n (i - 1).val stage = stageChunk n i.val (stage + 1) := by
  have one := (Fin.val_one' n).trans (Nat.mod_eq_of_lt two)
  unfold stageChunk
  rw [Fin.sub_def, one]
  dsimp only
  by_cases zero : i.val = 0
  · have last : (n - 1 + i.val) % n = n - 1 := by rw [zero, add_zero, Nat.mod_eq_of_lt (by omega)]
    rw [last, show n - 1 + 2 * n - 1 - stage = i.val + 2 * n - 1 - (stage + 1) + n by omega, Nat.add_mod_right]
  · have before : (n - 1 + i.val) % n = i.val - 1 := by
      rw [show n - 1 + i.val = i.val - 1 + n by omega, Nat.add_mod_right, Nat.mod_eq_of_lt (by omega)]
    congr 1
    omega

omit [NeZero n] in
/-- In the second half of a loop a rank comes to every chunk. -/
theorem exists_stage (inside : ringIx < n) (less : chunk < n) :
    ∃ stage, n ≤ stage + 1 ∧ stage < 2 * n - 1 ∧ stageChunk n ringIx stage = chunk := by
  unfold stageChunk
  by_cases before : chunk ≤ ringIx
  · refine ⟨n - 1 + (ringIx - chunk), by omega, by omega, ?_⟩
    rw [show ringIx + 2 * n - 1 - (n - 1 + (ringIx - chunk)) = chunk + n by omega, Nat.add_mod_right,
      Nat.mod_eq_of_lt less]
  · refine ⟨n - 1 + (ringIx + n - chunk), by omega, by omega, ?_⟩
    rw [show ringIx + 2 * n - 1 - (n - 1 + (ringIx + n - chunk)) = chunk by omega, Nat.mod_eq_of_lt less]

end

/-! ### The slices of a loop -/

section
variable {n : Nat} (ring : RingAllReduce n M)

def op (loop : Nat) (i : Fin n) (k : Nat) : RingSlice :=
  ring.work.sliceOp ring.proto ring.stepSize n i.val loop k

/-- The slices that are sent in a loop. -/
def sends : Nat := (2 * n - 2) * ring.proto.slicePerChunk

theorem loop_slices (positive : 0 < n) :
    (2 * n - 1) * ring.proto.slicePerChunk = sends ring + ring.proto.slicePerChunk := by
  rw [sends, ← Nat.succ_mul]
  congr 1
  omega

/-- A rank has written an element in an earlier loop, or in this loop before its
slice `k`. -/
def Written (loop : Nat) (i : Fin n) (k e : Nat) : Prop :=
  (ring.work.gridOffset ≤ e ∧ e < ring.work.gridOffset + min (loop * ring.work.loopCount n) ring.work.channelCount) ∨
    ∃ k' < k, n ≤ k' / ring.proto.slicePerChunk + 1 ∧ (op ring loop i k').slice.Contains e

variable {ring}

theorem op_contains (inside : (op ring loop i k).slice.Contains e) :
    ring.work.gridOffset + loop * ring.work.loopCount n ≤ e := by
  have low := ((sliceAt_contains ..).mp inside).1
  simp only [RingWork.call] at low
  omega

/-- The part of the input that a rank reads has not been overwritten. -/
theorem not_written (reading : k / ring.proto.slicePerChunk < n) (inside : (op ring loop i k).slice.Contains e) :
    ¬ Written ring loop i k e := by
  rintro (⟨-, high⟩ | ⟨k', before, writing, there⟩)
  · have low := op_contains inside
    omega
  · have order : k' / ring.proto.slicePerChunk ≤ k / ring.proto.slicePerChunk := Nat.div_le_div_right before.le
    have same : k' / ring.proto.slicePerChunk = k / ring.proto.slicePerChunk := by omega
    have slices : k' % ring.proto.slicePerChunk + 1 ≤ k % ring.proto.slicePerChunk := by
      have cut := Nat.div_add_mod k ring.proto.slicePerChunk
      have cut' := Nat.div_add_mod k' ring.proto.slicePerChunk
      rw [same] at cut'
      omega
    have here := ((sliceAt_contains ..).mp inside).1
    have there := ((sliceAt_contains ..).mp there).2.1
    rw [same] at there
    generalize ring.proto.sliceSize _ _ = size at here there
    have next := Nat.mul_le_mul_right size slices
    rw [Nat.succ_mul] at next
    omega

theorem written_succ : Written ring loop i (k + 1) e ↔ Written ring loop i k e ∨
    (n ≤ k / ring.proto.slicePerChunk + 1 ∧ (op ring loop i k).slice.Contains e) := by
  constructor
  · rintro (earlier | ⟨k', less, writing, inside⟩)
    · exact .inl (.inl earlier)
    · rcases Nat.lt_or_eq_of_le (Nat.lt_succ_iff.mp less) with before | rfl
      · exact .inl (.inr ⟨k', before, writing, inside⟩)
      · exact .inr ⟨writing, inside⟩
  · rintro ((earlier | ⟨k', less, rest⟩) | now)
    · exact .inl earlier
    · exact .inr ⟨k', Nat.lt_succ_of_lt less, rest⟩
    · exact .inr ⟨k, Nat.lt_succ_self k, now⟩

/-- The slices of a stage cover its chunk. -/
theorem exists_slice_iff (stage : Nat) :
    (∃ u < ring.proto.slicePerChunk, (op ring loop i (stage * ring.proto.slicePerChunk + u)).slice.Contains e) ↔
      ring.work.gridOffset + loop * ring.work.loopCount n ≤ e ∧
        ChunkContains ring.work n (loop * ring.work.loopCount n) (stageChunk n i stage)
          (e - (ring.work.gridOffset + loop * ring.work.loopCount n)) := by
  have slices : ∀ u < ring.proto.slicePerChunk,
      (op ring loop i (stage * ring.proto.slicePerChunk + u)).slice =
        let call := ring.work.call n (loop * ring.work.loopCount n) (stagePrim n stage) (stageChunk n i stage)
        sliceAt call.offset call.nelem.toNat (ring.proto.sliceSize ring.stepSize call.nelem.toNat) u := by
    intro u bound
    simp [op, RingWork.sliceOp, digits_div bound, Nat.mul_add_mod_of_lt bound]
  have covers := ring.proto.exists_sliceAt ring.stepSize
    (ring.work.call n (loop * ring.work.loopCount n) (stagePrim n stage) (stageChunk n i stage)).offset
    (ring.work.nelem n (loop * ring.work.loopCount n) (stageChunk n i stage)).toNat e
  constructor
  · rintro ⟨u, bound, inside⟩
    rw [slices u bound] at inside
    obtain ⟨low, high⟩ := covers.mp ⟨u, bound, inside⟩
    simp only [RingWork.call] at low high
    exact ⟨by omega, by omega, by omega⟩
  · rintro ⟨above, low, high⟩
    obtain ⟨u, bound, inside⟩ := covers.mpr ⟨by simp only [RingWork.call]; omega, by simp only [RingWork.call]; omega⟩
    refine ⟨u, bound, ?_⟩
    rw [slices u bound]
    exact inside

/-- In a whole loop a rank writes every element once. -/
theorem written_loop (positive : 0 < n) (left : loop * ring.work.loopCount n ≤ ring.work.channelCount) :
    Written ring loop i ((2 * n - 1) * ring.proto.slicePerChunk) e ↔ Written ring (loop + 1) i 0 e := by
  have slices := ring.proto.slices
  have chunks := exists_chunk_iff ring.work positive (loop * ring.work.loopCount n)
  have next : (loop + 1) * ring.work.loopCount n = loop * ring.work.loopCount n + ring.work.loopCount n :=
    Nat.succ_mul ..
  constructor
  · rintro (⟨low, high⟩ | ⟨k', less, writing, inside⟩)
    · exact .inl ⟨low, by omega⟩
    · have here : k' / ring.proto.slicePerChunk * ring.proto.slicePerChunk + k' % ring.proto.slicePerChunk = k' :=
        Nat.div_add_mod' ..
      rw [← here] at inside
      obtain ⟨above, chunk⟩ := (exists_slice_iff _).mp ⟨_, Nat.mod_lt k' slices, inside⟩
      have bound := (chunks _).mp ⟨_, Nat.mod_lt _ positive, chunk⟩
      exact .inl ⟨by omega, by omega⟩
  · rintro (⟨low, high⟩ | ⟨k', less, -⟩)
    · by_cases before : e < ring.work.gridOffset + loop * ring.work.loopCount n
      · exact .inl ⟨low, by omega⟩
      · obtain ⟨chunk, less, inside⟩ := (chunks (e - (ring.work.gridOffset + loop * ring.work.loopCount n))).mpr
          (by omega)
        obtain ⟨stage, writing, bound, rfl⟩ := exists_stage i.isLt less
        obtain ⟨u, small, inside⟩ := (exists_slice_iff stage).mpr ⟨Nat.not_lt.mp before, inside⟩
        exact .inr ⟨_, digits_lt bound small, by rwa [digits_div small], inside⟩
    · omega

variable [NeZero n]

/-- The slice a rank takes is the one the rank before it posted. -/
theorem op_prev (two : 2 ≤ n) (loop : Nat) (i : Fin n) (bound : k < sends ring) :
    (op ring loop (i - 1) k).slice = (op ring loop i (k + ring.proto.slicePerChunk)).slice := by
  have positive := ring.proto.slices
  have stage : k / ring.proto.slicePerChunk < 2 * n - 2 := by
    rw [Nat.div_lt_iff_lt_mul positive]
    exact bound
  unfold op RingWork.sliceOp
  simp only [Nat.add_div_right k positive, Nat.add_mod_right]
  rw [stageChunk_prev two i (by omega)]
  rfl

end

/-! ### The invariant -/

variable {n : Nat} [NeZero n] {M : Type} [AddCommMonoid M] (ring : RingAllReduce n M)

/-- An input as it enters the reduction. -/
def term (i : Fin n) (e : Nat) : M := ring.redOp.preOp (ring.sendbuff i e)

/-- The combination of all inputs. -/
def result (e : Nat) : M := ring.redOp.postOp (∑ i, term ring i e)

/-- What a rank posts in a stage. -/
def stageValue (i : Fin n) (stage e : Nat) : M :=
  if stage + 1 < n then partialSum (fun r => term ring r e) i stage else result ring e

def content (loop : Nat) (i : Fin n) (k : Nat) : List M :=
  (range (op ring loop i k).slice.size).map fun j =>
    stageValue ring i (k / ring.proto.slicePerChunk) ((op ring loop i k).slice.offset + j)

/-- The ranks before slice `k` of a loop. -/
structure Progress (loop k : Nat) (states : Fin n → RingRank M) : Prop where
  sent : ∀ i, (states i).sent = loop * sends ring + min k (sends ring)
  rcvd : ∀ i, (states i).rcvd = loop * sends ring + (k - ring.proto.slicePerChunk)
  fifo : ∀ i k', k' < min k (sends ring) → (states i).fifo (loop * sends ring + k') = content ring loop i k'
  written : ∀ i e, Written ring loop i k e → (states i).output e = result ring e
  kept : ∀ i e, ¬ Written ring loop i k e → (states i).output e = (ring.initial i).output e

theorem progress_initial : Progress ring 0 0 ring.initial := by
  constructor
  · intro i
    simp [RingAllReduce.initial, RingRank.initial]
  · intro i
    simp [RingAllReduce.initial, RingRank.initial]
  · intro i k' less
    simp at less
  · rintro i e (⟨low, high⟩ | ⟨k', less, -⟩)
    · simp only [zero_mul, Nat.zero_min] at high
      omega
    · omega
  · intro i e _
    rfl

variable {ring} {loop k : Nat} {states : Fin n → RingRank M}

/-- A rank reads its own input. -/
theorem Progress.input (progress : Progress ring loop k states) (reading : k / ring.proto.slicePerChunk < n)
    (inside : (op ring loop i k).slice.Contains e) :
    (states i).userInput ring.inPlace (ring.sendbuff i) e = ring.sendbuff i e := by
  unfold RingRank.userInput
  split
  next inPlace =>
    rw [progress.kept i e (not_written reading inside), RingAllReduce.initial, RingRank.initial]
    simp [inPlace]
  · rfl

/-- What a rank takes from the one before it. -/
theorem Progress.received (two : 2 ≤ n) (progress : Progress ring loop k states) (i : Fin n)
    (taking : ring.proto.slicePerChunk ≤ k) (bound : k < (2 * n - 1) * ring.proto.slicePerChunk) :
    (states (i - 1)).fifo (states i).rcvd = (range (op ring loop i k).slice.size).map fun j =>
      stageValue ring (i - 1) (k / ring.proto.slicePerChunk - 1) ((op ring loop i k).slice.offset + j) := by
  have room : k - ring.proto.slicePerChunk < sends ring := by
    rw [loop_slices ring (by omega)] at bound
    omega
  have stage : (k - ring.proto.slicePerChunk) / ring.proto.slicePerChunk = k / ring.proto.slicePerChunk - 1 := by
    have less := Nat.sub_mul_div k ring.proto.slicePerChunk 1
    rwa [mul_one] at less
  have same := op_prev two loop i room
  rw [Nat.sub_add_cancel taking] at same
  rw [progress.rcvd, progress.fifo (i - 1) _ (by have := ring.proto.slices; omega), content, same, stage]

theorem network_received (states : Fin n → RingRank M) (i : Fin n) (slice : RingSlice) :
    ring.network.received states i slice =
      if slice.prim.recv then some ((states (i - 1)).fifo (states i).rcvd) else none := by
  cases recv : slice.prim.recv <;> simp [Network.received, RingAllReduce.network, ringNetwork, ringPort, recv]

section
variable (two : 2 ≤ n) (progress : Progress ring loop k states) (i : Fin n)
  (bound : k < (2 * n - 1) * ring.proto.slicePerChunk)
include two progress i bound

/-- The sum over the sources of a slice. -/
theorem Progress.reduced :
    let stage := k / ring.proto.slicePerChunk
    let slice := (op ring loop i k).slice
    let input := (range slice.size).map fun j =>
      ring.redOp.preOp ((states i).userInput ring.inPlace (ring.sendbuff i) (slice.offset + j))
    ∃ data, reduceCopy slice.size (if stage < n then some input else none)
        (if stage ≠ 0 then some ((states (i - 1)).fifo (states i).rcvd) else none) = some data ∧
      (if stage + 1 = n then data.map ring.redOp.postOp else data) = content ring loop i k := by
  intro stage slice input
  have own : stage < n → input = (range slice.size).map fun j => term ring i (slice.offset + j) := by
    intro reading
    apply map_congr_left
    intro j member
    have less := mem_range.mp member
    rw [progress.input reading ⟨Nat.le_add_right .., Nat.add_lt_add_left less _⟩, term]
  have taken : stage ≠ 0 → (states (i - 1)).fifo (states i).rcvd =
      (range slice.size).map fun j => stageValue ring (i - 1) (stage - 1) (slice.offset + j) := by
    intro later
    exact progress.received two i (by rwa [ne_eq, Nat.div_eq_zero_iff_lt ring.proto.slices, Nat.not_lt] at later) bound
  change ∃ data, _ ∧ _ = (range slice.size).map fun j => stageValue ring i stage (slice.offset + j)
  rcases Nat.eq_zero_or_pos stage with first | later
  · -- the first stage sends the input
    refine ⟨_, by rw [if_pos (by omega), if_neg (by omega)]; rfl, ?_⟩
    rw [if_neg (by omega), own (by omega)]
    simp [stageValue, first, if_pos (show 0 + 1 < n by omega), partialSum]
  · rw [if_pos later.ne', taken later.ne']
    by_cases reducing : stage < n
    · rw [if_pos reducing, own reducing, reduceCopy, length_map, length_range, if_pos rfl, zipWith_map, zipWith_self]
      refine ⟨_, rfl, ?_⟩
      have before : ∀ e, term ring i e + stageValue ring (i - 1) (stage - 1) e =
          partialSum (fun r => term ring r e) i stage := fun e => by
        rw [stageValue, if_pos (by omega)]
        conv_rhs => rw [← Nat.sub_add_cancel later, partialSum]
      simp only [before]
      split
      next last =>
        rw [map_map]
        simp [stageValue, show stage = n - 1 by omega, if_neg (show ¬ n - 1 + 1 < n by omega),
          partialSum_eq_sum, result]
      next more =>
        simp [stageValue, if_pos (show stage + 1 < n by omega)]
    · rw [if_neg reducing, reduceCopy, length_map, length_range, if_pos rfl]
      refine ⟨_, rfl, ?_⟩
      rw [if_neg (by omega)]
      simp [stageValue, if_neg (show ¬ stage + 1 < n by omega), if_neg (show ¬ stage - 1 + 1 < n by omega)]

/-- One slice at one rank. -/
theorem Progress.exec :
    ring.network.result states i (op ring loop i k) = some {
        sent := if k < sends ring then (states i).sent + 1 else (states i).sent
        rcvd := if ring.proto.slicePerChunk ≤ k then (states i).rcvd + 1 else (states i).rcvd
        fifo := if k < sends ring then update (states i).fifo (states i).sent (content ring loop i k)
          else (states i).fifo
        output := if n ≤ k / ring.proto.slicePerChunk + 1
          then writeSlice (states i).output (op ring loop i k).slice.offset (content ring loop i k)
          else (states i).output } := by
  have positive := ring.proto.slices
  have prim : (op ring loop i k).prim = stagePrim n (k / ring.proto.slicePerChunk) := rfl
  have sending : k / ring.proto.slicePerChunk + 2 < 2 * n ↔ k < sends ring := by
    rw [sends, ← Nat.div_lt_iff_lt_mul positive]
    omega
  have taking : k / ring.proto.slicePerChunk ≠ 0 ↔ ring.proto.slicePerChunk ≤ k := by
    rw [ne_eq, Nat.div_eq_zero_iff_lt positive, not_lt]
  obtain ⟨data, reduced, same⟩ := progress.reduced two i bound
  rw [Network.result, network_received]
  change RingRank.exec _ _ _ _ _ = _
  unfold RingRank.exec
  rw [prim, stagePrim_eq two]
  simp only [decide_eq_true_eq] at *
  rw [reduced, Option.map_some, same]
  simp [sending, taking]

end

theorem writeSlice_content (output : Nat → M) :
    ((op ring loop i k).slice.Contains e →
        writeSlice output (op ring loop i k).slice.offset (content ring loop i k) e =
          stageValue ring i (k / ring.proto.slicePerChunk) e) ∧
      (¬ (op ring loop i k).slice.Contains e →
        writeSlice output (op ring loop i k).slice.offset (content ring loop i k) e = output e) := by
  unfold writeSlice content Slice.Contains
  constructor
  · rintro ⟨low, high⟩
    rw [if_pos low, getElem?_map, getElem?_range (by omega), Option.map_some, Option.getD_some,
      Nat.add_sub_cancel' low]
  · intro outside
    split
    · rw [getElem?_eq_none (by simp; omega), Option.getD_none]
    · rfl

theorem Progress.ready (progress : Progress ring loop k states) (two : 2 ≤ n) (i : Fin n)
    (bound : k < (2 * n - 1) * ring.proto.slicePerChunk) : ring.network.Ready states i (op ring loop i k) := by
  have positive := ring.proto.slices
  have prim : (op ring loop i k).prim = stagePrim n (k / ring.proto.slicePerChunk) := rfl
  have capacity : ring.proto.slicePerChunk < ncclSteps / ring.proto.stepPerSlice := by
    rw [Nat.lt_iff_add_one_le, Nat.le_div_iff_mul_le ring.proto.steps]
    exact ring.proto.room
  have split := loop_slices ring (by omega)
  constructor
  · intro port isPort
    change port ∈ ringPort (op ring loop i k).prim.recv at isPort
    change (if port.dim = 0 then (states i).rcvd else 0) + port.ahead < if port.dim = 0 then (states (i - 1)).sent else 0
    rw [prim, stagePrim_eq two] at isPort
    by_cases later : k / ring.proto.slicePerChunk ≠ 0
    · obtain rfl : port = ⟨0, 0, true⟩ := by simpa [ringPort, later, eq_comm] using isPort
      rw [ne_eq, Nat.div_eq_zero_iff_lt positive] at later
      rw [if_pos rfl, if_pos rfl, progress.rcvd, progress.sent]
      dsimp only
      omega
    · simp [ringPort, later] at isPort
  · intro port isPort
    change port ∈ ringPort (op ring loop i k).prim.send at isPort
    change (if port.dim = 0 then (states i).sent else 0) + port.ahead <
      (if port.dim = 0 then (states (i + 1)).rcvd else 0) + ncclSteps / ring.proto.stepPerSlice
    rw [prim, stagePrim_eq two] at isPort
    by_cases sending : k / ring.proto.slicePerChunk + 2 < 2 * n
    · obtain rfl : port = ⟨0, 0, true⟩ := by simpa [ringPort, sending, eq_comm] using isPort
      rw [if_pos rfl, if_pos rfl, progress.rcvd, progress.sent]
      dsimp only
      omega
    · simp [ringPort, sending] at isPort

/-- All ranks take their next slice together. -/
theorem Progress.step (two : 2 ≤ n) (progress : Progress ring loop k states)
    (bound : k < (2 * n - 1) * ring.proto.slicePerChunk) :
    ∃ next, ring.network.Together states (fun i => op ring loop i k) next ∧ Progress ring loop (k + 1) next := by
  refine ⟨_, fun i => ⟨progress.ready two i bound, progress.exec two i bound⟩, ?_⟩
  constructor
  · intro i
    simp only [progress.sent]
    split <;> omega
  · intro i
    simp only [progress.rcvd]
    split <;> omega
  · intro i k' less
    dsimp only
    by_cases old : k' < min k (sends ring)
    · rw [← progress.fifo i k' old]
      split
      · rw [progress.sent]
        exact update_of_ne (by omega) ..
      · rfl
    · rw [if_pos (by omega), progress.sent, show k' = k by omega, min_eq_left (by omega)]
      exact update_self ..
  · intro i e now
    dsimp only
    by_cases writing : n ≤ k / ring.proto.slicePerChunk + 1
    · rw [if_pos writing]
      by_cases inside : (op ring loop i k).slice.Contains e
      · rw [(writeSlice_content _).1 inside, stageValue, if_neg (Nat.not_lt.mpr writing)]
      · rw [(writeSlice_content _).2 inside]
        exact progress.written i e ((written_succ.mp now).resolve_right fun both => inside both.2)
    · rw [if_neg writing]
      exact progress.written i e ((written_succ.mp now).resolve_right fun both => writing both.1)
  · intro i e never
    dsimp only
    rw [written_succ, not_or] at never
    by_cases writing : n ≤ k / ring.proto.slicePerChunk + 1
    · rw [if_pos writing, (writeSlice_content _).2 fun inside => never.2 ⟨writing, inside⟩]
      exact progress.kept i e never.1
    · rw [if_neg writing]
      exact progress.kept i e never.1

/-! ### Whole runs -/

theorem Progress.wholeLoop (two : 2 ≤ n) (progress : Progress ring loop 0 states)
    (left : loop * ring.work.loopCount n ≤ ring.work.channelCount) :
    ∃ next, ring.network.Runs states ((range ((2 * n - 1) * ring.proto.slicePerChunk)).map fun k i => op ring loop i k)
      next ∧ Progress ring (loop + 1) 0 next := by
  have slices : ∀ m ≤ (2 * n - 1) * ring.proto.slicePerChunk, ∃ next,
      ring.network.Runs states ((range m).map fun k i => op ring loop i k) next ∧ Progress ring loop m next := by
    intro m bound
    induction m with
    | zero => exact ⟨states, .nil states, progress⟩
    | succ m ih =>
      obtain ⟨middle, run, progress⟩ := ih (Nat.le_of_succ_le bound)
      obtain ⟨next, together, progress⟩ := progress.step two bound
      refine ⟨next, ?_, progress⟩
      rw [range_succ, map_append]
      exact run.concat together
  obtain ⟨next, run, progress⟩ := slices _ le_rfl
  refine ⟨next, run, ?_⟩
  have split := loop_slices ring (by omega)
  have base : (loop + 1) * sends ring = loop * sends ring + sends ring := Nat.succ_mul ..
  constructor
  · intro i
    rw [progress.sent]
    omega
  · intro i
    rw [progress.rcvd]
    omega
  · intro i k' less
    omega
  · intro i e now
    exact progress.written i e ((written_loop (by omega) left).mpr now)
  · intro i e never
    exact progress.kept i e (mt (written_loop (by omega) left).mp never)

variable (ring)

def columns : List (Fin n → RingSlice) :=
  (range (ring.work.nLoops n)).flatMap fun loop =>
    (range ((2 * n - 1) * ring.proto.slicePerChunk)).map fun k i => op ring loop i k

omit [NeZero n] [AddCommMonoid M] in
theorem program_eq (two : 2 ≤ n) (i : Fin n) : ring.program i = (columns ring).map (· i) := by
  rw [RingAllReduce.program, ringSlices_eq _ _ _ two i.isLt, columns, map_flatMap]
  simp only [map_map]
  rfl

theorem exists_run (two : 2 ≤ n) : ∃ final, ring.network.Runs ring.initial (columns ring) final ∧
    Progress ring (ring.work.nLoops n) 0 final := by
  have loops : ∀ count ≤ ring.work.nLoops n, ∃ final, ring.network.Runs ring.initial ((range count).flatMap
      fun loop => (range ((2 * n - 1) * ring.proto.slicePerChunk)).map fun k i => op ring loop i k) final ∧
      Progress ring count 0 final := by
    intro count bound
    induction count with
    | zero => exact ⟨_, .nil _, progress_initial ring⟩
    | succ count ih =>
      obtain ⟨middle, run, progress⟩ := ih (Nat.le_of_succ_le bound)
      have left : count * ring.work.loopCount n ≤ ring.work.channelCount := by
        have positive : 0 < ring.work.loopCount n := mul_pos (by omega) ring.work.chunkPositive
        by_contra past
        have enough := (divUp_le_iff positive).mpr (le_of_not_ge past)
        exact absurd bound (Nat.not_le.mpr (Nat.lt_succ_of_le enough))
      obtain ⟨next, more, progress⟩ := progress.wholeLoop two left
      refine ⟨next, ?_, progress⟩
      rw [range_succ, flatMap_append, flatMap_singleton]
      exact run.append more
  exact loops _ le_rfl

/-- In whatever order the ranks run, none gets stuck, and when all have finished every
rank holds the combination of all inputs on the range of the channel. The chunks of
every loop partition what the loop is about. -/
theorem ring_all_reduce_correct (two : 2 ≤ n) (ring : RingAllReduce n M) :
    (∀ config, ring.network.Reachable ring.program ring.initial config →
      ¬ ring.network.Faulty ring.program config ∧
      (∃ last, Relation.ReflTransGen (ring.network.Step ring.program) config last ∧
        ∀ i, (ring.program i).length ≤ last.pc i) ∧
      ((∀ i, (ring.program i).length ≤ config.pc i) → ∀ i e,
        (config.states i).output e =
          if ring.work.gridOffset ≤ e ∧ e < ring.work.gridOffset + ring.work.channelCount
            then ring.redOp.postOp (∑ r, ring.redOp.preOp (ring.sendbuff r e))
            else (ring.initial i).output e)) ∧
    ∀ loop < ring.work.nLoops n, ∀ x,
      x < min (ring.work.channelCount - loop * ring.work.loopCount n) (ring.work.loopCount n) ↔
        ∃! chunk, chunk < n ∧ ChunkContains ring.work n (loop * ring.work.loopCount n) chunk x := by
  have positive : 0 < n := by omega
  refine ⟨fun config reached => ?_, fun loop _ x => ?_⟩
  · obtain ⟨final, run, progress⟩ := exists_run ring two
    have programs := program_eq ring two
    have length : ∀ i, (ring.program i).length = (columns ring).length := fun i => by
      rw [programs, length_map]
    obtain ⟨sound, finish⟩ := run.any_order programs reached
    refine ⟨sound, ?_, fun finished i e => ?_⟩
    · simp only [length]
      exact run.completes programs reached
    · have all : ring.work.channelCount ≤ ring.work.nLoops n * ring.work.loopCount n :=
        le_divUp_mul (mul_pos positive ring.work.chunkPositive)
      simp only [length] at finished
      rw [finish finished]
      split
      next inside =>
        exact progress.written i e (.inl ⟨inside.1, by omega⟩)
      next outside =>
        apply progress.kept i e
        rintro (⟨low, high⟩ | ⟨k', less, -⟩) <;> omega
  · rw [← exists_chunk_iff ring.work positive]
    constructor
    · rintro ⟨chunk, less, inside⟩
      exact ⟨chunk, ⟨less, inside⟩, fun other there => chunk_unique ring.work there.2 inside⟩
    · rintro ⟨chunk, ⟨less, inside⟩, -⟩
      exact ⟨chunk, less, inside⟩

/-- Two ranks and five elements in two full loops and a short one, in place. -/
theorem ring_all_reduce_correct_two_ranks :
    ∃ (ring : RingAllReduce 2 Nat) (config : Network.Config (Fin 2) (RingRank Nat)),
    ring.work.nLoops 2 = 3 ∧ ring.network.Reachable ring.program ring.initial config ∧
      ∀ i, ∀ e < 5, (config.states i).output e = ring.sendbuff 0 e + ring.sendbuff 1 e := by
  let ring : RingAllReduce 2 Nat := {
    work := ⟨0, 5, 1, 4, by decide, by decide⟩
    proto := .allReduce
    stepSize := 8
    redOp := ⟨id, id⟩
    inPlace := true
    sendbuff := fun i e => 10 * e + i.val
    recvbuff := fun _ _ => 0 }
  obtain ⟨-, ⟨last, steps, finished⟩, -⟩ := (ring_all_reduce_correct (by decide) ring).1 _ .refl
  obtain ⟨-, -, output⟩ := (ring_all_reduce_correct (by decide) ring).1 last steps
  refine ⟨ring, last, by decide, steps, fun i e bound => ?_⟩
  rw [output finished i e, if_pos ⟨Nat.zero_le e, by rw [Nat.zero_add]; exact bound⟩]
  exact Fin.sum_univ_two fun i => ring.sendbuff i e

/-- In a loop that is not the last one the chunks end before what is left does. -/
theorem chunks_end_before_rest : ∃ (work : RingWork) (x : Nat), 0 < work.nLoops 2 ∧ x < work.channelCount - 0 ∧
    ∀ chunk < 2, ¬ ChunkContains work 2 0 chunk x :=
  ⟨⟨0, 4, 1, 4, by decide, by decide⟩, 2, by decide, by decide, by decide⟩

end NcclCore.RingAllReduceProofs
