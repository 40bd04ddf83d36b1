import NcclCore.Bitops
import NcclCore.U32fp

/-! One direction of a p2p operation, seen from both sides. On the host
`addP2pToPlan` chooses how many channels share it, the protocol and the chunk
size, and gives each part a proxy op; on the device `runSend` and `runRecv`
walk the part in chunks. The direction goes through the network and its buffer
is not registered. -/
namespace NcclCore

/-- `partBytes` of `ncclP2pPartBounds`: an even share, rounded up to 4 KiB. -/
def partBytes (nParts bytes : Nat) : Nat := alignUp (divUp bytes nParts) 4096

/-- `ncclP2pPartBounds`: where a part of the transfer begins and ends. -/
def ncclP2pPartBounds (nParts part bytes : Nat) : Nat × Nat :=
  (min (part * partBytes nParts bytes) bytes, min ((part + 1) * partBytes nParts bytes) bytes)

def ncclP2pChannelForPart (nP2pChannels base part : Nat) : Nat :=
  (base + part) &&& (nP2pChannels - 1)

/-- `ncclP2pChannelToPart`; the difference is taken in 32 bit words. -/
def ncclP2pChannelToPart (nP2pChannels base channel : Nat) : Nat :=
  (channel + 2 ^ 32 - base) &&& (nP2pChannels - 1)

/-- What `addP2pToPlan` reads of the communicator and of the environment. The
channel counts are those `scheduleP2pTasksToPlan` passes on; the sizes are
large enough for its divisions to be defined. -/
structure P2pComm where
  nNodes : Nat
  p2pSchedGroupSize : Nat
  p2pChunkSize : Nat
  /-- `buffSizes[NCCL_PROTO_LL]` -/
  buffSizeLL : Nat
  paramChunkSize : Nat
  paramP2pLLThreshold : Int
  p2pnChannels : Nat
  nChannelsMin : Nat
  nChannelsMax : Nat
  channelsPow2 : p2pnChannels = 2 ^ log2Up p2pnChannels
  channelsBound : p2pnChannels ≤ 64
  someChannel : 0 < nChannelsMin
  minLeMax : nChannelsMin ≤ nChannelsMax
  maxLeAll : nChannelsMax ≤ p2pnChannels
  chunkLarge : if 1 < nNodes then 4 ≤ p2pChunkSize else 8 ≤ p2pChunkSize
  buffLarge : 32 ≤ buffSizeLL
  paramChunk : paramChunkSize ≠ 1

namespace P2pComm

/-- `ncclP2pChannelBaseForRound`: the channel of the first part, spread so that
the rounds one batch can hold start on the same channel. -/
def ncclP2pChannelBaseForRound (comm : P2pComm) (p2pRound : Nat) : Nat :=
  let base :=
    if 1 < comm.nNodes then
      let localSize := comm.p2pSchedGroupSize
      let groupDelta := p2pRound / localSize
      let localDelta := p2pRound % localSize
      groupDelta * divUp localSize 8 + localDelta / 8
    else p2pRound
  reverseBits base (log2Up comm.p2pnChannels)

def minPartSize (comm : P2pComm) : Nat :=
  if 1 < comm.nNodes then comm.p2pChunkSize / 2 else comm.p2pChunkSize / 8

def maxPartSize (comm : P2pComm) : Nat :=
  if 1 < comm.nNodes then comm.p2pChunkSize else comm.p2pChunkSize * 32

/-- The loop that doubles the channel count while the parts are too large. -/
def growChannels (comm : P2pComm) (bytes : Nat) : (fuel nChannels partSize : Nat) → Nat
  | 0, nChannels, _ => nChannels
  | fuel + 1, nChannels, partSize =>
    if comm.maxPartSize < partSize ∧ nChannels ≤ comm.nChannelsMax / 2 then
      growChannels comm bytes fuel (nChannels * 2) (divUp bytes (nChannels * 2))
    else nChannels

/-- `nChannels[dir]`; a direction without an operation has none. -/
def nChannels (comm : P2pComm) : (bytes : Option Nat) → Nat
  | none => 0
  | some 0 => 1
  | some bytes =>
    let first := min comm.nChannelsMin (divUp bytes comm.minPartSize)
    comm.growChannels bytes comm.nChannelsMax first (max comm.minPartSize (divUp bytes first))

/-- `protoLL[dir]`: whether every connector has LL buffers, and the payload of
a channel stays below the threshold. -/
def protoLL (comm : P2pComm) (buffsLL : Bool) : (bytes : Option Nat) → Bool
  | none => buffsLL
  | some bytes => buffsLL && decide ((bytes : Int) ≤ comm.nChannels (some bytes) * comm.paramP2pLLThreshold)

/-- The `bytes[dir] < bound` tests; a missing operation has size `-1`. -/
def bytesBelow (bytes : Option Nat) (bound : Nat) : Bool :=
  match bytes with
  | none => true
  | some bytes => bytes < bound

/-- `chunkSize[dir]` for a direction that goes through the network. -/
def chunkSize (comm : P2pComm) (buffsLL : Bool) (bytes : Option Nat) : Nat :=
  let isLL := comm.protoLL buffsLL bytes
  let stepSize := if isLL then comm.buffSizeLL / 8 else comm.p2pChunkSize
  if comm.paramChunkSize ≠ 0 then comm.paramChunkSize
  else if !isLL && bytesBelow bytes stepSize then stepSize / 4
  else if bytesBelow bytes (8 * stepSize) then stepSize / 2
  else stepSize

/-- `chunkDataSize[dir]` before it is rounded by the 8 bit encoding. -/
def chunkDataSize (comm : P2pComm) (buffsLL : Bool) (bytes : Option Nat) : Nat :=
  if comm.protoLL buffsLL bytes then comm.chunkSize buffsLL bytes / 2 else comm.chunkSize buffsLL bytes

end P2pComm

/-- One direction's fields of `ncclDevWorkP2p`. -/
structure DevWorkP2pDir where
  nChannels : Nat
  bytes : Nat
  protoLL : Bool
  chunkSizeU32fp8 : Nat

/-- The fields `addP2pToPlan` fills in for one direction. -/
def P2pComm.workDir (comm : P2pComm) (buffsLL : Bool) (bytes : Option Nat) : DevWorkP2pDir where
  nChannels := comm.nChannels bytes
  bytes := bytes.getD 0
  protoLL := comm.protoLL buffsLL bytes
  chunkSizeU32fp8 := u32fp8Encode (comm.chunkDataSize buffsLL bytes)

/-- `proxyOps[dir].nsteps` for one part; no op is created when it is zero. -/
def proxyOpNsteps (work : DevWorkP2pDir) (part : Nat) : Nat :=
  if work.nChannels ≤ part then 0
  else if work.bytes = 0 then 1
  else
    let chunkDataSize := u32fp8Decode work.chunkSizeU32fp8
    let (partBeg, partEnd) := ncclP2pPartBounds work.nChannels part work.bytes
    divUp (partEnd - partBeg) chunkDataSize

/-- The `do ... while (cursor < bytes)` loop of `runSend` and `runRecv`, each
iteration of which takes one FIFO step. It has no result while `fuel` iterations
do not finish it. -/
def chunkLoop (chunkSize bytes : Nat) : (fuel cursor : Nat) → Option Nat
  | 0, _ => none
  | fuel + 1, cursor =>
    let n := min chunkSize (bytes - cursor)
    if cursor + n < bytes then (chunkLoop chunkSize bytes fuel (cursor + n)).map (· + 1) else some 1

/-- The FIFO steps channel `channelId` executes for one direction of a work. -/
def deviceSteps (nP2pChannels channelBase : Nat) (work : DevWorkP2pDir) (fuel channelId : Nat) : Option Nat :=
  let part := ncclP2pChannelToPart nP2pChannels channelBase channelId
  if part < work.nChannels then
    let (partBeg, partEnd) := ncclP2pPartBounds work.nChannels part work.bytes
    chunkLoop (u32fp8Decode work.chunkSizeU32fp8) (partEnd - partBeg) fuel 0
  else some 0

end NcclCore
