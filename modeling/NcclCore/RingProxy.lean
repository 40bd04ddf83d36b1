import NcclCore.RingAllReduce

/-! What the proxy knows of a registered ring AllReduce: the chunking that
`calcCollChunking` computes for a channel, and the addresses and sizes that
`RingARAlgorithm` gives for every step. -/
namespace NcclCore

/-- `ncclProtoGrainSize(NCCL_PROTO_SIMPLE)`. -/
def simpleGrainSize : Nat := 512

def allReduceChunkSteps : Nat := ncclSteps / 2

def allReduceSliceSteps : Nat := ncclSteps / 4

/-- What `calcCollChunking` reads for a ring AllReduce with the SIMPLE protocol: the
size of the buffer, and the answer of a tuner plugin if there is one. -/
structure RingChunking where
  buffSize : Nat
  tunerChunkSize : Option Nat

section
variable (chunking : RingChunking)

def RingChunking.chunkSize : Nat :=
  let stepSize := chunking.buffSize / ncclSteps
  let bufferMaxChunkSize := stepSize * allReduceChunkSteps
  let chunkSize := match chunking.tunerChunkSize with
    | none => bufferMaxChunkSize
    | some tunerChunkSize => min tunerChunkSize bufferMaxChunkSize
  chunkSize / simpleGrainSize * simpleGrainSize

def RingChunking.sliceSize : Nat :=
  chunking.chunkSize / allReduceChunkSteps * allReduceSliceSteps

/-- `proxyOp->nsteps` of a channel of `nBytes`. -/
def RingChunking.nsteps (nRanks nBytes : Nat) : Nat :=
  let nstepsPerLoop := 2 * (nRanks - 1)
  let loopSize := nRanks * chunking.chunkSize
  let nLoops := divUp nBytes loopSize
  nstepsPerLoop * nLoops * allReduceChunkSteps

theorem RingChunking.dvd_chunkSize : simpleGrainSize ∣ chunking.chunkSize :=
  Nat.dvd_mul_left ..

end

/-! ### `RingARAlgorithm` -/

structure RingARAlgorithm where
  nRanks : Nat
  ringIndex : Nat
  nStepsPerLoop : Nat
  chunkSteps : Nat
  sliceSteps : Nat
  slicePerChunk : Nat
  chunkSize : Nat
  sliceSize : Nat
  loopSize : Nat
  channelSize : Nat
  elemSize : Nat
  gridOffset : Nat

/-- The constructor. The buffers are known by the offset of the channel in them. -/
def RingARAlgorithm.new
    (nRanks ringIndex chunkSteps sliceSteps chunkSize sliceSize gridOffset channelSize elemSize : Nat) :
    RingARAlgorithm where
  nRanks
  ringIndex
  nStepsPerLoop := 2 * (nRanks - 1) * chunkSteps
  chunkSteps
  sliceSteps
  slicePerChunk := chunkSteps / sliceSteps
  chunkSize
  sliceSize
  loopSize := nRanks * chunkSize
  channelSize
  elemSize
  gridOffset

inductive UserBuffer where
  | sendbuff
  | recvbuff
  deriving DecidableEq

inductive Mhandle where
  | sendMhandle
  | recvMhandle
  | srecvMhandle
  deriving DecidableEq

/-- An address, as an offset in bytes from the start of a user buffer, a size, and the
handle the buffer is registered under. -/
structure RingAddr where
  buffer : UserBuffer
  offset : Int
  size : Nat
  mhandle : Mhandle
  deriving DecidableEq

/-- `divUp` of a size that may be negative; the division of C rounds to zero. -/
def sdivUp (x y : Int) : Int := (x + y - 1).tdiv y

namespace RingARAlgorithm
variable (algo : RingARAlgorithm)

def curChunkSize (elemOffset : Nat) : Nat :=
  let remSize := algo.channelSize - elemOffset
  if remSize < algo.loopSize then
    alignUp (divUp (remSize / algo.elemSize) algo.nRanks) (16 / algo.elemSize) * algo.elemSize
  else algo.chunkSize

/-- The bytes of a chunk, less than zero for one that begins behind the end. -/
def chunkBytes (elemOffset chunkId : Nat) : Int :=
  let remSize : Int := algo.channelSize - elemOffset
  let curChunkSize : Int := algo.curChunkSize elemOffset
  min (remSize - chunkId * curChunkSize) curChunkSize

def curSliceSize (nelem : Int) : Int :=
  max (sdivUp (nelem.tdiv algo.elemSize) (16 * algo.slicePerChunk) * 16)
    ((algo.sliceSize / algo.elemSize / 32 : Nat) : Int) * algo.elemSize

/-- The slice is empty, so that the start of the buffer is returned. -/
def sliceEmpty (curLoop chunkId sliceStage : Nat) : Bool :=
  let nelem := algo.chunkBytes (curLoop * algo.loopSize) chunkId
  nelem ≤ sliceStage * algo.curSliceSize nelem

/-- The offset and the size of a slice, which both functions compute alike. -/
def sliceOf (curLoop chunkId sliceStage : Nat) : Int × Nat :=
  let elemOffset := curLoop * algo.loopSize
  let chunkOffset := chunkId * algo.curChunkSize elemOffset
  let nelem := algo.chunkBytes elemOffset chunkId
  let curSliceSize := algo.curSliceSize nelem
  let sliceOffset := sliceStage * curSliceSize
  let offset : Int := if algo.sliceEmpty curLoop chunkId sliceStage then algo.gridOffset
    else algo.gridOffset + elemOffset + chunkOffset + sliceOffset
  (offset, (min curSliceSize (nelem - sliceOffset)).toNat)

def getNextSendAddr (curStep : Nat) : RingAddr :=
  let curLoop := curStep / algo.nStepsPerLoop
  let curLoopStage := curStep % algo.nStepsPerLoop / algo.chunkSteps
  let chunkStage := curLoopStage % algo.nRanks
  let sliceStage := curStep % algo.chunkSteps / algo.sliceSteps
  let chunkId := (algo.ringIndex + algo.nRanks - 1 - chunkStage) % algo.nRanks
  let slice := algo.sliceOf curLoop chunkId sliceStage
  if algo.sliceEmpty curLoop chunkId sliceStage then ⟨.sendbuff, slice.1, slice.2, .sendMhandle⟩
  else if curLoopStage = 0 then ⟨.sendbuff, slice.1, slice.2, .sendMhandle⟩
  else ⟨.recvbuff, slice.1, slice.2, .srecvMhandle⟩

def getNextRecvAddr (curStep : Nat) : RingAddr :=
  let curLoop := curStep / algo.nStepsPerLoop
  let curLoopStage := (curStep + algo.chunkSteps) % algo.nStepsPerLoop / algo.chunkSteps
  let chunkStage := curLoopStage % algo.nRanks
  let sliceStage := curStep % algo.chunkSteps / algo.sliceSteps
  let chunkId := if curLoopStage = 0 then (algo.ringIndex + 1) % algo.nRanks
    else (algo.ringIndex + algo.nRanks - 1 - chunkStage) % algo.nRanks
  let slice := algo.sliceOf curLoop chunkId sliceStage
  ⟨.recvbuff, slice.1, slice.2, .recvMhandle⟩

end RingARAlgorithm

/-! ### A registered channel -/

/-- A channel of a registered AllReduce, of `channelCount` elements of `elemSize` bytes. -/
structure RegisteredRing where
  chunking : RingChunking
  nRanks : Nat
  elemSize : Nat
  gridOffset : Nat
  channelCount : Nat
  ranks : 2 ≤ nRanks
  typeSize : elemSize ∈ [1, 2, 4, 8]
  nonempty : 0 < channelCount
  chunkPositive : 0 < chunking.chunkSize

namespace RegisteredRing
variable (ring : RegisteredRing)

def nsteps : Nat := ring.chunking.nsteps ring.nRanks (ring.channelCount * ring.elemSize)

/-- The algorithm that `scheduleCollTasksToPlan` hands to the proxy. -/
def algorithm (ringIndex : Nat) : RingARAlgorithm :=
  .new ring.nRanks ringIndex allReduceChunkSteps allReduceSliceSteps ring.chunking.chunkSize ring.chunking.sliceSize
    (ring.gridOffset * ring.elemSize) (ring.channelCount * ring.elemSize) ring.elemSize

/-- `chunkCount` as `ncclCollCbdPart` decodes it. -/
def chunkCount : Nat := ring.chunking.chunkSize / simpleGrainSize * (simpleGrainSize / ring.elemSize)

theorem chunkCount_mul : ring.chunkCount * ring.elemSize = ring.chunking.chunkSize := by
  have divides : ring.elemSize ∣ simpleGrainSize := by
    have size := ring.typeSize
    simp only [List.mem_cons, List.not_mem_nil, or_false] at size
    rcases size with size | size | size | size <;> rw [size] <;> decide
  rw [chunkCount, mul_assoc, Nat.div_mul_cancel divides, Nat.div_mul_cancel ring.chunking.dvd_chunkSize]

/-- The work of the kernel on the channel. -/
def work : RingWork where
  gridOffset := ring.gridOffset
  channelCount := ring.channelCount
  chunkCount := ring.chunkCount
  sizeofT := ring.elemSize
  chunkPositive := by
    have positive := ring.chunkPositive
    rw [← chunkCount_mul] at positive
    exact Nat.pos_of_mul_pos_right positive
  typeSize := ring.typeSize

/-- The elements of a step buffer in the kernel. -/
def stepSize : Nat := ring.chunking.buffSize / ncclSteps / ring.elemSize

def kernelSlices (ringIx : Nat) : List RingSlice :=
  ring.work.ringSlices .allReduce ring.stepSize ring.nRanks ringIx

/-- The slices that the kernel sends to its neighbour, and those it receives. -/
def kernelSends (ringIx : Nat) : List Slice :=
  ((ring.kernelSlices ringIx).filter (·.prim.send)).map (·.slice)

def kernelRecvs (ringIx : Nat) : List Slice :=
  ((ring.kernelSlices ringIx).filter (·.prim.recv)).map (·.slice)

end NcclCore.RegisteredRing
