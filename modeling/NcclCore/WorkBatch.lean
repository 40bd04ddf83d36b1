import NcclCore.Lib.SetBits

/-! How the works of a plan reach the device. The host gathers the works of
each channel in batches, which name their works by a base offset and a bit set
(`ncclAddWorkBatchToPlan`), and lays the batches of all channels out in one
table (`finishPlan`). A block of the kernel finds its channel and walks through
that channel's batches (`loadWorkBatchToShmem`, `ncclKernelMain`). -/
namespace NcclCore
open Lib

inductive DevWorkType where
  | p2p
  | coll
  | collReg
  | bcast
  deriving DecidableEq

/-- `ncclDevWorkSize`. -/
def DevWorkType.size : DevWorkType → Nat
  | .p2p => 48
  | .coll => 96
  | .collReg => 288
  | .bcast => 48

def MAXCHANNELS : Nat := 64

def NCCL_MAX_DEV_WORK_BATCH_BYTES : Nat := 1024

def NCCL_MAX_DEV_WORK_P2P_PER_BATCH : Nat := 8

def NCCL_MIN_NTHREADS : Nat := 128

def NCCL_MAX_NTHREADS : Nat := 640

def WARP_SIZE : Nat := 32

/-- The shared memory a fused batch may fill. -/
def ncclMaxDevWorkBatchBytes (cudaArch : Nat) : Nat :=
  if cudaArch < 800 then 1024 else if cudaArch < 900 then 8192 else 16384

structure DevWorkBatch where
  nextJump : Nat
  nextExtends : Bool
  workType : DevWorkType
  funcId : Nat
  func : Nat
  offsetBase : Nat
  offsetBitset : Nat
  deriving DecidableEq

/-- The arguments of one `ncclAddWorkBatchToPlan`. The flag for a new batch is
left out, since the function overwrites it before it looks at it. -/
structure WorkCall where
  channelId : Nat
  workType : DevWorkType
  devFuncId : Nat
  progressSlot : Nat
  workOffset : Nat
  p2pEpoch : Int
  p2pRound : Int
  channel_lt : channelId < MAXCHANNELS
  devFuncId_lt : devFuncId < 2 ^ 11
  progressSlot_lt : progressSlot < 2 ^ 4
  workOffset_lt : workOffset < 2 ^ 32
  workOffset_aligned : 16 ∣ workOffset

/-- What is known about the batch being filled, its extensions included.
`p2pRounds` lists the first `nP2ps` entries of the array. -/
structure WipBatch where
  workBytes : Nat
  nBcasts : Nat
  p2pEpoch : Int
  p2pRounds : List Int

def WipBatch.nP2ps (wipBatch : WipBatch) : Nat := wipBatch.p2pRounds.length

structure WipChannel where
  wipBatch : WipBatch
  nWorkBatchesP2p : Nat
  nWorkBatchesBcast : Nat
  workBatchQueue : List DevWorkBatch

def WipChannel.empty : WipChannel := ⟨⟨0, 0, 0, []⟩, 0, 0, []⟩

/-- `NCCL_P2P_EPOCH_ENABLE` and `comm->cudaArch`. -/
structure BatchConfig where
  p2pEpochEnable : Bool
  cudaArch : Nat

/-- All of the conditions that prevent appending to the current batch. -/
def needsNewBatch (config : BatchConfig) (wipBatch : WipBatch) (batch : DevWorkBatch) (call : WorkCall) : Bool :=
  batch.workType != call.workType ||
  batch.funcId != call.devFuncId ||
  (call.workType == .p2p &&
    ((config.p2pEpochEnable && wipBatch.p2pEpoch != call.p2pEpoch) ||
      wipBatch.nP2ps == NCCL_MAX_DEV_WORK_P2P_PER_BATCH ||
      wipBatch.p2pRounds.any fun round =>
        call.p2pRound == round ||
          call.p2pRound.tdiv NCCL_MAX_DEV_WORK_P2P_PER_BATCH != round.tdiv NCCL_MAX_DEV_WORK_P2P_PER_BATCH)) ||
  if call.workType == .bcast then
    wipBatch.nBcasts == ncclMaxDevWorkBatchBytes config.cudaArch / DevWorkType.bcast.size
  else
    decide (NCCL_MAX_DEV_WORK_BATCH_BYTES < wipBatch.workBytes + call.workType.size)

/-- The work cannot be named by a bit of the batch. -/
def needsExtension (offset workSize : Nat) : Bool := decide (63 * workSize < offset) || offset % workSize != 0

/-- The zeroed batch of a new queue entry with the fields of the call. -/
def blankBatch (call : WorkCall) : DevWorkBatch where
  nextJump := 0
  nextExtends := false
  workType := call.workType
  funcId := call.devFuncId % 2 ^ 11
  func := call.progressSlot % 2 ^ 4
  offsetBase := call.workOffset
  offsetBitset := 0

/-- `batch->offsetBitset |= 1ull << (offset / workSize)`. -/
def DevWorkBatch.addOffset (batch : DevWorkBatch) (offset workSize : Nat) : DevWorkBatch :=
  { batch with offsetBitset := batch.offsetBitset ||| 2 ^ (offset / workSize) }

/-- The counters a new batch, but not an extension, starts afresh. -/
def WipChannel.openBatch (chan : WipChannel) (call : WorkCall) : WipChannel :=
  { chan with
    wipBatch := { chan.wipBatch with workBytes := 0, nBcasts := 0, p2pRounds := [] }
    nWorkBatchesP2p := chan.nWorkBatchesP2p + (if call.workType == .p2p then 1 else 0)
    nWorkBatchesBcast := chan.nWorkBatchesBcast + (if call.workType == .bcast then 1 else 0) }

/-- The work is counted in the batch being filled. -/
def WipBatch.count (wipBatch : WipBatch) (call : WorkCall) : WipBatch where
  workBytes := wipBatch.workBytes + call.workType.size
  nBcasts := if call.workType == .bcast then wipBatch.nBcasts + 1 else wipBatch.nBcasts
  p2pEpoch := if call.workType == .p2p then call.p2pEpoch else wipBatch.p2pEpoch
  p2pRounds := if call.workType == .p2p then wipBatch.p2pRounds ++ [call.p2pRound] else wipBatch.p2pRounds

/-- The tail of the queue, if the work need not start a new batch. -/
def WipChannel.openTail (config : BatchConfig) (chan : WipChannel) (call : WorkCall) : Option DevWorkBatch :=
  chan.workBatchQueue.getLast?.filter fun batch => !needsNewBatch config chan.wipBatch batch call

/-- A work is added to its channel; the flag tells whether a batch was allocated
for it. -/
def WipChannel.addWork (config : BatchConfig) (chan : WipChannel) (call : WorkCall) : WipChannel × Bool :=
  let workSize := call.workType.size
  let fresh := (blankBatch call).addOffset 0 workSize
  match chan.openTail config call with
  | none =>
    let chan := chan.openBatch call
    ({ chan with workBatchQueue := chan.workBatchQueue ++ [fresh], wipBatch := chan.wipBatch.count call }, true)
  | some batch =>
    let offset := (call.workOffset + (2 ^ 32 - batch.offsetBase)) % 2 ^ 32
    let before := chan.workBatchQueue.dropLast
    if needsExtension offset workSize then
      ({ chan with
         workBatchQueue := before ++ [{ batch with nextExtends := true }, fresh]
         wipBatch := chan.wipBatch.count call }, true)
    else
      ({ chan with
         workBatchQueue := before ++ [batch.addOffset offset workSize]
         wipBatch := chan.wipBatch.count call }, false)

/-- The batches of a plan while works are added. -/
structure WipPlan where
  channels : Nat → WipChannel
  nWorkBatches : Nat

def WipPlan.empty : WipPlan := ⟨fun _ => .empty, 0⟩

def ncclAddWorkBatchToPlan (config : BatchConfig) (plan : WipPlan) (call : WorkCall) : WipPlan :=
  let (chan, allocated) := (plan.channels call.channelId).addWork config call
  { channels := Function.update plan.channels call.channelId chan
    nWorkBatches := plan.nWorkBatches + if allocated then 1 else 0 }

def addWorks (config : BatchConfig) (calls : List WorkCall) : WipPlan :=
  calls.foldl (ncclAddWorkBatchToPlan config) .empty

/-- `plan->channelMask` after the callers have set the bit of each channel that
received a work. -/
def channelMaskOf (calls : List WorkCall) : Nat := calls.foldl (fun mask call => mask ||| 2 ^ call.channelId) 0

/-- `popFirstOneBit`: the lowest one and the mask without it. -/
def popFirstOneBit (mask : Nat) : Nat × Nat :=
  (((List.range 64).find? mask.testBit).getD 64, mask &&& (mask - 1))

/-- The variables of the loops that put the batches into the kernel arguments.
`batchIx` is the length of the table, and `batchPrev` holds indices into it. -/
structure FinishState where
  queues : Nat → List DevWorkBatch
  hasBatchMask : Nat
  batchPrev : Nat → Option Nat
  batchZero : List DevWorkBatch

def DevWorkBatch.withJump (batch : DevWorkBatch) (nextJump : Nat) : DevWorkBatch := { batch with nextJump := nextJump }

/-- `batchPrev[c]->nextJump = int(&batchZero[batchIx] - batchPrev[c])`. -/
def linkPrev (batchZero : List DevWorkBatch) : (prev : Option Nat) → List DevWorkBatch
  | none => batchZero
  | some prev => batchZero.modify prev fun batch => batch.withJump ((batchZero.length - prev) % 2 ^ 14)

/-- The next batch of a channel goes into the table and is linked to the one
before it. -/
def FinishState.dequeue (state : FinishState) (c : Nat) : FinishState :=
  match state.queues c with
  | [] => state
  | batch :: rest =>
    { state with
      queues := Function.update state.queues c rest
      batchPrev := Function.update state.batchPrev c (some state.batchZero.length)
      batchZero := linkPrev state.batchZero (state.batchPrev c) ++ [batch] }

/-- The body of the inner loop. -/
def FinishState.visit (state : FinishState) (c : Nat) : FinishState :=
  let state := state.dequeue c
  if (state.queues c).isEmpty then { state with hasBatchMask := state.hasBatchMask ^^^ 2 ^ c } else state

/-- The inner `do … while (tmpMask != 0)`; a mask of 64 bits has that many turns
at most. -/
def visitChannels : (turns tmpMask : Nat) → FinishState → FinishState
  | 0, _, state => state
  | turns + 1, tmpMask, state =>
    let (c, tmpMask) := popFirstOneBit tmpMask
    let state := state.visit c
    if tmpMask = 0 then state else visitChannels turns tmpMask state

/-- The outer `while (hasBatchMask != 0)`; none if it has not ended in time. -/
def placeBatches : (rounds : Nat) → FinishState → Option FinishState
  | 0, state => if state.hasBatchMask = 0 then some state else none
  | rounds + 1, state =>
    if state.hasBatchMask = 0 then some state
    else placeBatches rounds (visitChannels 64 state.hasBatchMask state)

/-- What is scheduled to a plan, with the warps of its algorithm. -/
inductive PlanTask where
  | coll (nWarps : Nat)
  | bcast (nWarps : Nat)
  | p2p

/-- `plan->threadPerBlock` behind a task of `scheduleCollTasksToPlan`, behind
`ncclScheduleBcastTasksToPlan` and behind `scheduleP2pTasksToPlan`. -/
def PlanTask.threads (threadPerBlock : Nat) : PlanTask → Nat
  | .coll nWarps => max threadPerBlock (nWarps * WARP_SIZE)
  | .bcast nWarps => max (nWarps * WARP_SIZE) (64 * DevWorkType.bcast.size / 16 + 3 * WARP_SIZE)
  | .p2p => max threadPerBlock NCCL_MAX_NTHREADS

/-- The kernel arguments, as far as they decide which works a block runs. -/
structure KernelArgs where
  threadPerBlock : Nat
  channelMask : Nat
  batchZero : List DevWorkBatch

def finishPlan (rounds threadPerBlock channelMask : Nat) (plan : WipPlan) : Option KernelArgs := do
  let state ← placeBatches rounds
    { queues := fun c => (plan.channels c).workBatchQueue
      hasBatchMask := channelMask
      batchPrev := fun _ => none
      batchZero := [] }
  return ⟨max threadPerBlock NCCL_MIN_NTHREADS, channelMask, state.batchZero⟩

/-- The part of the block's shared memory that concerns works. A pack of 16
bytes in `workStorage` is known by the offset it was read from, and
`nextBatchIx` is none for -1. -/
structure DevShmem where
  scratch : Nat → Nat
  workStorage : Nat → Option Nat
  workSize : Nat
  nWorks : Nat
  workType : DevWorkType
  funcId : Nat
  func : Nat
  nextBatchIx : Option Nat

/-- `uint32_t(batch.offsetBitset)` and `uint32_t(batch.offsetBitset >> 32)`. -/
def DevWorkBatch.low32 (batch : DevWorkBatch) : Nat := batch.offsetBitset % 2 ^ 32

@[inherit_doc DevWorkBatch.low32]
def DevWorkBatch.high32 (batch : DevWorkBatch) : Nat := (batch.offsetBitset >>> 32) % 2 ^ 32

/-- Every lane of a warp whose bit is set writes it behind the bits below. -/
def scatterLanes (word start shift : Nat) (table : Nat → Nat) : Nat → Nat :=
  scatter (fun lane => word.testBit lane = true) (fun lane => start + popcount 32 (word &&& (2 ^ lane - 1)))
    (fun lane => shift + lane) (List.range 32) table

/-- `fnsOfBitset[n]` is the index of the n-th set bit. Every warp computes the
same table, over whatever its scratch memory held before. -/
def DevWorkBatch.fnsOfBitset (batch : DevWorkBatch) (scratch : Nat → Nat) : Nat → Nat :=
  scatterLanes batch.high32 (popcount 32 batch.low32) 32 (scatterLanes batch.low32 0 0 scratch)

def DevWorkBatch.nWorks (batch : DevWorkBatch) : Nat := popcount 32 batch.low32 + popcount 32 batch.high32

/-- The threads copy one pack each, behind the works of earlier batches. -/
def copyPacks (batch : DevWorkBatch) (fnsOfBitset : Nat → Nat) (tids : List Nat) (workCursor : Nat)
    (workStorage : Nat → Option Nat) : Nat → Option Nat :=
  let workSize := batch.workType.size
  let packs := workSize / 16
  scatter (fun tid => tid < batch.nWorks * packs) (fun tid => (workCursor + tid / packs) * packs + tid % packs)
    (fun tid => some ((batch.offsetBase + fnsOfBitset (tid / packs) * workSize + tid % packs * 16) % 2 ^ 32))
    tids workStorage

/-- `tid -= 64; if (tid < 0) tid += tn`. -/
def rotateThread (tn tid : Nat) : Nat := if tid < 64 then tid + tn - 64 else tid - 64

/-- What thread 0 publishes when the last extension has been loaded. -/
def DevShmem.publish (shmem : DevShmem) (batch : DevWorkBatch) (batchIx nWorks : Nat) : DevShmem :=
  { shmem with
    nextBatchIx := if batch.nextJump = 0 then none else some (batchIx + batch.nextJump)
    workType := batch.workType
    nWorks := nWorks
    funcId := batch.funcId
    func := batch.func }

/-- `tids` are the values the threads have for `tid`; none if the loop over the
extensions leaves the table or has not ended in time. -/
def loadWorkBatchToShmem : (fuel : Nat) → (tids : List Nat) → (tn : Nat) → (batches : List DevWorkBatch) →
    (batchIx workCursor : Nat) → DevShmem → Option DevShmem
  | 0, _, _, _, _, _, _ => none
  | fuel + 1, tids, tn, batches, batchIx, workCursor, shmem => do
    let batch ← batches[batchIx]?
    let fnsOfBitset := batch.fnsOfBitset shmem.scratch
    let shmem :=
      { shmem with
        scratch := fnsOfBitset
        workSize := if 0 ∈ tids then batch.workType.size else shmem.workSize
        workStorage := copyPacks batch fnsOfBitset tids workCursor shmem.workStorage }
    let workCursor := workCursor + batch.nWorks
    if batch.nextExtends then
      loadWorkBatchToShmem fuel (tids.map (rotateThread tn)) tn batches (batchIx + batch.nextJump) workCursor shmem
    else if 0 ∈ tids then some (shmem.publish batch batchIx workCursor)
    else some shmem

/-- The offset a slot was read from, if all its packs belong to one work. -/
def DevShmem.workAt (shmem : DevShmem) (slot : Nat) : Option Nat :=
  let packs := shmem.workSize / 16
  (shmem.workStorage (slot * packs)).filter fun offset =>
    (List.range packs).all fun pack =>
      shmem.workStorage (slot * packs + pack) == some ((offset + pack * 16) % 2 ^ 32)

/-- The works a device function is run on. -/
structure BatchRun where
  workType : DevWorkType
  funcId : Nat
  works : List (Option Nat)

def DevShmem.runWorkBatch (shmem : DevShmem) : BatchRun :=
  ⟨shmem.workType, shmem.funcId, (List.range shmem.nWorks).map shmem.workAt⟩

/-- The loop of `ncclKernelMain`. -/
def runBatches : (fuel tn : Nat) → (batches : List DevWorkBatch) → DevShmem → Option (List BatchRun)
  | 0, _, _, _ => none
  | fuel + 1, tn, batches, shmem =>
    match shmem.nextBatchIx with
    | none => some [shmem.runWorkBatch]
    | some batchIx => do
      let next ← loadWorkBatchToShmem fuel (List.range tn) tn batches batchIx 0 shmem
      let later ← runBatches fuel tn batches next
      return shmem.runWorkBatch :: later

/-- The thread whose channel is the n-th of the mask names it. -/
def blockChannelId (channelMask blockIdx : Nat) : Option Nat :=
  (List.range MAXCHANNELS).find? fun tid =>
    channelMask.testBit tid && popcount 64 (channelMask &&& (2 ^ tid - 1)) == blockIdx

/-- The channel of a block and the batches it runs. The first two warps load
other things while the rest load the first batch. -/
def ncclKernelMain (fuel : Nat) (args : KernelArgs) (blockIdx : Nat) (shmem : DevShmem) :
    Option (Nat × List BatchRun) := do
  let channelId ← blockChannelId args.channelMask blockIdx
  let subtn := args.threadPerBlock - 64
  let shmem ← loadWorkBatchToShmem fuel (List.range subtn) subtn args.batchZero blockIdx 0 shmem
  let runs ← runBatches fuel args.threadPerBlock args.batchZero shmem
  return (channelId, runs)

end NcclCore
