import Mathlib.Data.Nat.Log
import NcclCore.P2pTransfer
import NcclCore.Lib.Residues
import NcclCore.Lib.Cuts

/-! The proxy and the kernel count the steps of a part from different
expressions: the proxy divides, the kernel runs a loop that always takes one
step before it looks at its cursor. The counts agree exactly when no part that
was handed out is empty, unless the whole transfer is. -/
namespace NcclCore.P2pTransferProofs
open Option

/-! ## The channel count -/

theorem divUp_divUp (hy : 0 < y) (hz : 0 < z) : divUp (divUp x y) z = divUp x (y * z) := by
  apply le_antisymm
  · rw [divUp_le_iff hz, divUp_le_iff hy, mul_assoc, mul_comm z y]
    exact le_divUp_mul (mul_pos hy hz)
  · rw [divUp_le_iff (mul_pos hy hz), mul_comm y z, ← mul_assoc]
    exact le_trans (le_divUp_mul hy) (Nat.mul_le_mul_right y (le_divUp_mul hz))

section
variable (comm : P2pComm)

/-- How often the channel count is doubled: until the parts are small enough
or no further doubling fits. -/
def doublings (bytes nChannels : Nat) : Nat :=
  min (Nat.log 2 (comm.nChannelsMax / nChannels)) (Nat.clog 2 (divUp (divUp bytes comm.maxPartSize) nChannels))

theorem maxPartSize_pos : 0 < comm.maxPartSize := by
  have large := comm.chunkLarge
  unfold P2pComm.maxPartSize
  split at large <;> split <;> omega

theorem minPartSize_pos : 0 < comm.minPartSize := by
  have large := comm.chunkLarge
  unfold P2pComm.minPartSize
  split at large <;> split <;> omega

theorem minPartSize_le_max : comm.minPartSize ≤ comm.maxPartSize := by
  unfold P2pComm.minPartSize P2pComm.maxPartSize
  split <;> omega

end

variable {bytes : Nat}

section
variable (comm : P2pComm)
include comm

private theorem doublings_succ (positive : 0 < nChannels) (large : comm.maxPartSize < divUp bytes nChannels)
    (room : nChannels ≤ comm.nChannelsMax / 2) :
    doublings comm bytes nChannels = doublings comm bytes (nChannels * 2) + 1 := by
  have twice : 2 ≤ comm.nChannelsMax / nChannels := by
    rw [Nat.le_div_iff_mul_le positive]
    omega
  have many : 2 ≤ divUp (divUp bytes comm.maxPartSize) nChannels := by
    by_contra few
    have fits : divUp (divUp bytes comm.maxPartSize) nChannels ≤ 1 := by omega
    rw [divUp_le_iff positive, divUp_le_iff (maxPartSize_pos comm)] at fits
    have : divUp bytes nChannels ≤ comm.maxPartSize := by
      rw [divUp_le_iff positive, mul_comm]
      simpa using fits
    omega
  unfold doublings
  rw [Nat.log_of_one_lt_of_le (by decide) twice, Nat.clog_of_two_le (by decide) many, Nat.div_div_eq_div_mul,
    ← divUp_divUp positive (by decide), Nat.add_min_add_right]
  rfl

private theorem doublings_zero (positive : 0 < nChannels)
    (stop : ¬ (comm.maxPartSize < divUp bytes nChannels ∧ nChannels ≤ comm.nChannelsMax / 2)) :
    doublings comm bytes nChannels = 0 := by
  by_cases room : nChannels ≤ comm.nChannelsMax / 2
  · have small : divUp bytes nChannels ≤ comm.maxPartSize := by
      by_contra large
      exact stop ⟨by omega, room⟩
    have one : divUp (divUp bytes comm.maxPartSize) nChannels ≤ 1 := by
      rw [divUp_le_iff positive, divUp_le_iff (maxPartSize_pos comm), one_mul, mul_comm]
      exact (divUp_le_iff positive).mp small
    simp [doublings, Nat.clog_of_right_le_one one]
  · have few : comm.nChannelsMax / nChannels < 2 := by
      rw [Nat.div_lt_iff_lt_mul positive]
      omega
    simp [doublings, Nat.log_of_lt few]

private theorem growChannels_eq (fuel nChannels partSize : Nat)
    (positive : 0 < nChannels) (enough : Nat.log 2 (comm.nChannelsMax / nChannels) ≤ fuel)
    (same : comm.maxPartSize < partSize ↔ comm.maxPartSize < divUp bytes nChannels) :
    comm.growChannels bytes fuel nChannels partSize = nChannels * 2 ^ doublings comm bytes nChannels := by
  induction fuel generalizing nChannels partSize with
  | zero =>
    have : doublings comm bytes nChannels = 0 := by
      unfold doublings
      omega
    simp [P2pComm.growChannels, this]
  | succ fuel ih =>
    by_cases grow : comm.maxPartSize < divUp bytes nChannels ∧ nChannels ≤ comm.nChannelsMax / 2
    · have step := doublings_succ comm positive grow.1 grow.2
      have room : Nat.log 2 (comm.nChannelsMax / (nChannels * 2)) ≤ fuel := by
        have twice : 2 ≤ comm.nChannelsMax / nChannels := by
          rw [Nat.le_div_iff_mul_le positive]
          omega
        rw [Nat.log_of_one_lt_of_le (by decide) twice, Nat.div_div_eq_div_mul] at enough
        omega
      simp only [P2pComm.growChannels, same, grow, and_self, ↓reduceIte]
      rw [ih (nChannels * 2) _ (by omega) room Iff.rfl, step, pow_succ, mul_assoc, mul_comm 2]
    · simp [P2pComm.growChannels, same, grow, doublings_zero comm positive grow]

/-- The parts of a transfer of `bytes` bytes: as many as `nChannelsMin` allows
for parts of the minimal size, doubled while they are too large. -/
def partCount (comm : P2pComm) (bytes : Nat) : Nat :=
  let first := min comm.nChannelsMin (divUp bytes comm.minPartSize)
  first * 2 ^ doublings comm bytes first

private theorem first_pos (nonempty : 0 < bytes) : 0 < min comm.nChannelsMin (divUp bytes comm.minPartSize) := by
  have := comm.someChannel
  have := divUp_pos (minPartSize_pos comm) nonempty
  omega

theorem nChannels_eq (nonempty : 0 < bytes) : comm.nChannels (some bytes) = partCount comm bytes := by
  cases bytes with
  | zero => cases nonempty
  | succ =>
    have minimal := minPartSize_le_max comm
    apply growChannels_eq comm _ _ _ (first_pos comm nonempty)
    · exact le_trans (Nat.log_le_self 2 _) (Nat.div_le_self _ _)
    · omega

theorem partCount_pos (nonempty : 0 < bytes) : 0 < partCount comm bytes :=
  mul_pos (first_pos comm nonempty) (Nat.two_pow_pos _)

theorem nChannels_pos (bytes : Nat) : 0 < comm.nChannels (some bytes) := by
  cases bytes with
  | zero => exact one_pos
  | succ less =>
    rw [nChannels_eq comm less.succ_pos]
    exact partCount_pos comm less.succ_pos

end

/-! ## The bounds of the parts -/

theorem bytes_le_parts (bytes : Nat) (positive : 0 < nParts) : bytes ≤ nParts * partBytes nParts bytes := by
  have covered : bytes ≤ divUp bytes nParts * nParts := le_divUp_mul positive
  have aligned : divUp bytes nParts ≤ partBytes nParts bytes := le_alignUp _ (by decide)
  calc bytes ≤ nParts * divUp bytes nParts := by rwa [mul_comm]
    _ ≤ nParts * partBytes nParts bytes := Nat.mul_le_mul_left _ aligned

/-- The parts `0, ..., nParts - 1` cut the bytes of the transfer into
consecutive ranges: each byte lies in exactly one of them. -/
structure Partition (nParts bytes : Nat) : Prop where
  inside : ∀ part < nParts,
    (ncclP2pPartBounds nParts part bytes).1 ≤ (ncclP2pPartBounds nParts part bytes).2 ∧
      (ncclP2pPartBounds nParts part bytes).2 ≤ bytes
  unique : ∀ byte < bytes, ∃! part, part < nParts ∧
    (ncclP2pPartBounds nParts part bytes).1 ≤ byte ∧ byte < (ncclP2pPartBounds nParts part bytes).2

theorem parts_partition (positive : 0 < nParts) : Partition nParts bytes := by
  have ordered : ∀ part, min (part * partBytes nParts bytes) bytes ≤
      min ((part + 1) * partBytes nParts bytes) bytes := by
    intro part
    have : part * partBytes nParts bytes ≤ (part + 1) * partBytes nParts bytes :=
      Nat.mul_le_mul_right _ (Nat.le_succ part)
    omega
  constructor
  · intro part bound
    exact ⟨ordered part, Nat.min_le_right _ _⟩
  · intro byte bound
    have covered := bytes_le_parts bytes positive
    simpa [ncclP2pPartBounds] using Lib.existsUnique_piece (fun part _ _ => ordered part) (Nat.zero_le nParts)
      (show min (0 * partBytes nParts bytes) bytes ≤ byte by omega)
      (show byte < min (nParts * partBytes nParts bytes) bytes by omega)

/-! ## The kernel's loop -/

/-- The loop takes at least one step, whatever it is given. -/
theorem chunkLoop_pos (done : chunkLoop chunkSize bytes fuel cursor = some steps) : 0 < steps := by
  cases fuel with
  | zero => cases done
  | succ =>
    simp only [chunkLoop] at done
    split at done
    · obtain ⟨rest, -, rfl⟩ := map_eq_some_iff.mp done
      exact Nat.succ_pos rest
    · cases done
      exact one_pos

/-- What is left after one full chunk takes one step less. -/
private theorem divUp_sub (positive : 0 < chunkSize) (more : chunkSize < left) :
    divUp left chunkSize = divUp (left - chunkSize) chunkSize + 1 := by
  unfold divUp
  rw [← Nat.add_div_right _ positive]
  congr 1
  omega

/-- With a positive chunk size the loop ends, after as many steps as chunks
are needed, and after one step if there is nothing to do. -/
theorem chunkLoop_eq (bytes : Nat) (positive : 0 < chunkSize) (fuel cursor : Nat) (enough : bytes - cursor ≤ fuel) :
    chunkLoop chunkSize bytes (fuel + 1) cursor = some (max 1 (divUp (bytes - cursor) chunkSize)) := by
  induction fuel generalizing cursor with
  | zero =>
    have empty : divUp (bytes - cursor) chunkSize = 0 := by
      rw [← Nat.le_zero_eq, divUp_le_iff positive]
      omega
    simp only [chunkLoop, empty, show ¬ cursor + min chunkSize (bytes - cursor) < bytes by omega, ↓reduceIte]
    rfl
  | succ fuel ih =>
    by_cases more : cursor + min chunkSize (bytes - cursor) < bytes
    · have full : min chunkSize (bytes - cursor) = chunkSize := by omega
      have shorter : bytes - (cursor + chunkSize) = bytes - cursor - chunkSize := by omega
      have rest : 0 < divUp (bytes - cursor - chunkSize) chunkSize := divUp_pos positive (by omega)
      rw [chunkLoop]
      simp only [more, ↓reduceIte]
      rw [full, ih _ (by omega), shorter, divUp_sub positive (show chunkSize < bytes - cursor by omega)]
      simp only [map_some, some.injEq]
      omega
    · have last : divUp (bytes - cursor) chunkSize ≤ 1 := by
        rw [divUp_le_iff positive]
        omega
      rw [chunkLoop]
      simp only [more, ↓reduceIte, some.injEq]
      omega

/-! ## Both counts -/

section
variable (comm : P2pComm)

theorem chunkDataSize_pos (buffsLL : Bool) (bytes : Option Nat) :
    0 < comm.chunkDataSize buffsLL bytes := by
  have large : 4 ≤ comm.p2pChunkSize := by
    have := comm.chunkLarge
    split at this <;> omega
  have buffers := comm.buffLarge
  have param := comm.paramChunk
  unfold P2pComm.chunkDataSize P2pComm.chunkSize
  cases comm.protoLL buffsLL bytes with
  | false =>
    simp only [Bool.false_eq_true, ↓reduceIte]
    repeat' split
    all_goals omega
  | true =>
    simp only [↓reduceIte, Bool.not_true, Bool.false_and, Bool.false_eq_true]
    repeat' split
    all_goals omega

/-- The device finds the part a channel was given. -/
theorem channelToPart_forPart (inside : base < comm.p2pnChannels) (bound : part < comm.p2pnChannels) :
    ncclP2pChannelToPart comm.p2pnChannels base (ncclP2pChannelForPart comm.p2pnChannels base part) = part := by
  obtain ⟨bits, pow2⟩ : ∃ bits, comm.p2pnChannels = 2 ^ bits := ⟨_, comm.channelsPow2⟩
  have small := comm.channelsBound
  have width : bits ≤ 6 := by
    rw [pow2] at small
    exact (Nat.pow_le_pow_iff_right (by decide : 1 < 2)).mp small
  obtain ⟨less, wraps⟩ : ∃ less, 2 ^ 32 = 2 ^ bits + 2 ^ bits * less := by
    refine ⟨2 ^ (32 - bits) - 1, ?_⟩
    rw [Nat.mul_sub_one, ← Nat.pow_add, show bits + (32 - bits) = 32 by omega]
    omega
  simp only [ncclP2pChannelToPart, ncclP2pChannelForPart]
  rw [pow2] at inside bound ⊢
  rw [Nat.and_two_pow_sub_one_eq_mod, Nat.and_two_pow_sub_one_eq_mod, wraps]
  have landed : (base + part) % 2 ^ bits < 2 ^ bits := Nat.mod_lt _ (Nat.two_pow_pos _)
  have shifted : (base + part) % 2 ^ bits + (2 ^ bits + 2 ^ bits * less) - base =
      (base + part) % 2 ^ bits + 2 ^ bits - base + 2 ^ bits * less := by omega
  rw [shifted, Nat.add_mul_mod_self_left]
  exact (Lib.ring_shift_iff bound landed inside).mp (by rw [add_comm part base])

theorem channelBase_lt (round : Nat) :
    comm.ncclP2pChannelBaseForRound round < comm.p2pnChannels := by
  have pow2 := comm.channelsPow2
  have width : log2Up comm.p2pnChannels ≤ 6 := by
    have bounded : 2 ^ log2Up comm.p2pnChannels ≤ 2 ^ 6 := pow2 ▸ comm.channelsBound
    exact (Nat.pow_le_pow_iff_right (by decide : 1 < 2)).mp bounded
  calc comm.ncclP2pChannelBaseForRound round
      < 2 ^ log2Up comm.p2pnChannels := reverseBits_lt (by omega)
    _ = comm.p2pnChannels := pow2.symm

/-- Proxy and kernel agree on one direction of a work: the parts partition the
bytes, and on the channel of every part the kernel takes as many FIFO steps as
the proxy op for the part has, none if no op is created. -/
structure StepsAgree (base : Nat) (work : DevWorkP2pDir) : Prop where
  partition : Partition work.nChannels work.bytes
  steps : ∀ part < comm.p2pnChannels, ∃ fuel,
    deviceSteps comm.p2pnChannels base work fuel (ncclP2pChannelForPart comm.p2pnChannels base part) =
      some (proxyOpNsteps work part)

/-- One part: the kernel's count and the proxy's are the same unless the part
is handed out, is empty, and belongs to a transfer that is not. -/
private theorem part_steps_iff (inside : base < comm.p2pnChannels)
    (bound : part < comm.p2pnChannels) (chunk : 0 < u32fp8Decode work.chunkSizeU32fp8) :
    (∃ fuel, deviceSteps comm.p2pnChannels base work fuel (ncclP2pChannelForPart comm.p2pnChannels base part) =
      some (proxyOpNsteps work part)) ↔
      (part < work.nChannels → work.bytes = 0 ∨ part * partBytes work.nChannels work.bytes < work.bytes) := by
  simp only [deviceSteps, channelToPart_forPart comm inside bound]
  by_cases owned : part < work.nChannels
  · simp only [owned, ↓reduceIte, forall_const, proxyOpNsteps, Nat.not_le.mpr owned, ncclP2pPartBounds]
    have covered := bytes_le_parts work.bytes owned.pos
    generalize partBytes work.nChannels work.bytes = size at covered ⊢
    generalize u32fp8Decode work.chunkSizeU32fp8 = chunkSize at chunk ⊢
    have next : (part + 1) * size = part * size + size := Nat.succ_mul _ _
    constructor
    · rintro ⟨fuel, done⟩
      have taken := chunkLoop_pos done
      by_cases empty : work.bytes = 0
      · exact Or.inl empty
      · simp only [empty, ↓reduceIte] at taken
        by_contra late
        have none : divUp (min ((part + 1) * size) work.bytes - min (part * size) work.bytes) chunkSize ≤ 0 := by
          rw [divUp_le_iff chunk]
          omega
        omega
    · intro filled
      refine ⟨_, (chunkLoop_eq _ chunk _ 0 le_rfl).trans ?_⟩
      by_cases empty : work.bytes = 0
      · have none : divUp 0 chunkSize ≤ 0 := by
          rw [divUp_le_iff chunk]
          omega
        simp only [empty, Nat.min_zero, Nat.sub_zero, ↓reduceIte, some.injEq]
        omega
      · have sized : 0 < size := by
          by_contra zero
          simp only [not_lt, Nat.le_zero_eq] at zero
          simp only [zero, mul_zero] at covered
          omega
        have taken : 0 < divUp (min ((part + 1) * size) work.bytes - min (part * size) work.bytes) chunkSize :=
          divUp_pos chunk (by omega)
        simp only [Nat.sub_zero, empty, ↓reduceIte, some.injEq]
        omega
  · simp [proxyOpNsteps, owned]

theorem partCount_le (nonempty : 0 < bytes) : partCount comm bytes ≤ comm.p2pnChannels := by
  have positive := first_pos comm nonempty
  have capped := comm.minLeMax
  have most := comm.maxLeAll
  unfold partCount
  generalize first_eq : min comm.nChannelsMin (divUp bytes comm.minPartSize) = first at positive ⊢
  have fits : 0 < comm.nChannelsMax / first := Nat.div_pos (by omega) positive
  calc first * 2 ^ doublings comm bytes first
      ≤ first * 2 ^ Nat.log 2 (comm.nChannelsMax / first) :=
        Nat.mul_le_mul_left _ (Nat.pow_le_pow_right (by decide) (Nat.min_le_left _ _))
    _ ≤ first * (comm.nChannelsMax / first) := Nat.mul_le_mul_left _ (Nat.pow_log_le_self 2 (by omega))
    _ ≤ comm.nChannelsMax := Nat.mul_div_le _ _
    _ ≤ comm.p2pnChannels := most

end

/-- Two ranks on two nodes, the default chunk size, and 32 channels to a peer. -/
def wideComm : P2pComm where
  nNodes := 2
  p2pSchedGroupSize := 8
  p2pChunkSize := 131072
  buffSizeLL := 4194304
  paramChunkSize := 0
  paramP2pLLThreshold := 16384
  p2pnChannels := 32
  nChannelsMin := 16
  nChannelsMax := 32
  channelsPow2 := by decide
  channelsBound := by decide
  someChannel := by decide
  minLeMax := by decide
  maxLeAll := by decide
  chunkLarge := by decide
  buffLarge := by decide
  paramChunk := by decide

end NcclCore.P2pTransferProofs
