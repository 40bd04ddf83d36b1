import NcclCore.Lib.Rendezvous
import NcclCore.P2pTasks
import NcclCore.P2pTransfer
import NcclCore.WorkBatchEncode

/-! How the plans of all ranks run against each other. `addP2pToPlan` puts an
operation as one work on several channels; on the device a channel takes the
fused batches of a plan in order, and the part of an operation that a channel
was given waits there for the other end. -/
namespace NcclCore
open Lib

structure PlanBudget where
  inArgsBytes : Int
  outArgsBytes : Int

/-- `ncclTestBudget`; a `ncclDevWorkBatch` has 16 bytes. -/
def ncclTestBudget (budget : PlanBudget) (nWorkBatches workBytes : Nat) : Bool :=
  let batchBytes : Int := nWorkBatches * 16
  decide (batchBytes + workBytes ≤ budget.inArgsBytes) ||
    (decide (batchBytes ≤ budget.inArgsBytes) && decide ((workBytes : Int) ≤ budget.outArgsBytes))

/-- What `addP2pToPlan` finds on one rank: its devices, which buffers could be
registered with the network, by direction, peer and epoch, and the settings of
the batches. -/
structure P2pHost where
  config : BatchConfig
  /-- `ncclDevFuncId_P2p()` -/
  devFuncId : Fin (2 ^ 11)
  minNetCount : Nat
  minLocalNetBw : Nat
  paramP2pPerChannelRegNetBw : Nat
  netRegistered : (isSend : Bool) → (peer p2pEpoch : Nat) → Bool

def NCCL_PROGRESS_P2P_COUNTER_INDEX : Nat := 15

namespace P2pHost
variable (host : P2pHost) (comm : P2pComm)

def regChannels : Nat :=
  let regChannels := max 1 host.minNetCount
  if 0 < host.paramP2pPerChannelRegNetBw then
    max regChannels (divUp host.minLocalNetBw host.paramP2pPerChannelRegNetBw)
  else regChannels

/-- `nChannels[dir]`, tuned for a registered buffer. -/
def dirChannels (isSend : Bool) (peer p2pEpoch : Nat) (task : Option TaskP2p) : Nat :=
  let nChannels := comm.nChannels (task.map TaskP2p.bytes)
  if host.netRegistered isSend peer p2pEpoch then min nChannels host.regChannels else nChannels

def nSendChannels (op : P2pOp) : Nat := host.dirChannels comm true op.sendRank op.p2pEpoch op.send

def nRecvChannels (op : P2pOp) : Nat := host.dirChannels comm false op.recvRank op.p2pEpoch op.recv

/-- The `ncclAddWorkBatchToPlan` for one part of the operation. -/
def partCall (index : Nat) (op : P2pOp) (part : Nat) : WorkCall where
  channelId := ncclP2pChannelForPart comm.p2pnChannels (comm.ncclP2pChannelBaseForRound op.p2pRound) part
  workType := .p2p
  devFuncId := host.devFuncId
  progressSlot := NCCL_PROGRESS_P2P_COUNTER_INDEX
  workOffset := index * DevWorkType.p2p.size % 2 ^ 32
  p2pEpoch := op.p2pEpoch
  p2pRound := op.p2pRound
  channel_lt := by
    have bound := comm.channelsBound
    have landed : ncclP2pChannelForPart comm.p2pnChannels (comm.ncclP2pChannelBaseForRound op.p2pRound) part ≤
      comm.p2pnChannels - 1 := Nat.and_le_right
    simp only [MAXCHANNELS]
    omega
  devFuncId_lt := host.devFuncId.isLt
  progressSlot_lt := by decide
  workOffset_lt := Nat.mod_lt _ (by decide)
  workOffset_aligned := by
    simp only [DevWorkType.size]
    omega

/-- The works of the `index`-th operation of a plan. -/
def addP2pToPlan (index : Nat) (op : P2pOp) : List WorkCall :=
  (List.range (max (host.nRecvChannels comm op) (host.nSendChannels comm op))).map (host.partCall comm index op)

def planCalls (plan : List P2pOp) : List WorkCall :=
  plan.zipIdx.flatMap fun item => host.addP2pToPlan comm item.2 item.1

/-- The test `scheduleP2pTasksToPlan` makes before it adds an operation, with
room for one new batch per channel. -/
def testBudget (budget : PlanBudget) (plan : List P2pOp) : Bool :=
  ncclTestBudget budget ((addWorks host.config (host.planCalls comm plan)).nWorkBatches + comm.nChannelsMax)
    (plan.length * DevWorkType.p2p.size + DevWorkType.p2p.size)

end P2pHost

/-- The offsets of the works that run at once: those of a batch with its
extensions. -/
def fusedOffsets : List DevWorkBatch → List (List Nat)
  | [] => []
  | batch :: rest =>
    match batch.nextExtends, fusedOffsets rest with
    | true, offsets :: later => (batch.offsets ++ offsets) :: later
    | _, later => batch.offsets :: later

namespace P2pHost
variable (host : P2pHost) (comm : P2pComm)

/-- What a channel runs of a plan, one fused batch after the other. -/
def channelBatches (plan : List P2pOp) (channelId : Nat) : List (List P2pOp) :=
  (fusedOffsets ((addWorks host.config (host.planCalls comm plan)).channels channelId).workBatchQueue).map fun offsets =>
    offsets.filterMap fun offset => plan[offset / DevWorkType.p2p.size]?

end P2pHost

/-- One part of the `index`-th transfer from a rank to another. -/
structure TransferPart where
  sendRank : Nat
  recvRank : Nat
  index : Nat
  part : Nat
  deriving DecidableEq

/-- The part of a work that a channel has, in each direction. -/
def P2pHost.workParts (host : P2pHost) (comm : P2pComm) (rank channelId : Nat) (op : P2pOp) : List TransferPart :=
  let part := ncclP2pChannelToPart comm.p2pnChannels (comm.ncclP2pChannelBaseForRound op.p2pRound) channelId
  (if part < host.nSendChannels comm op then [⟨rank, op.sendRank, op.p2pEpoch, part⟩] else []) ++
    if part < host.nRecvChannels comm op then [⟨op.recvRank, rank, op.p2pEpoch, part⟩] else []

/-- All ranks with their plans. -/
def p2pSystem (comm : P2pComm) (hosts : Nat → P2pHost) (nRanks : Nat) (plans : Nat → List (List P2pOp)) :
    Rendezvous Nat Nat TransferPart where
  program rank :=
    if rank < nRanks then
      (plans rank).map fun plan channelId =>
        ((hosts rank).channelBatches comm plan channelId).map fun works =>
          works.flatMap ((hosts rank).workParts comm rank channelId)
    else []
  left := TransferPart.sendRank
  right := TransferPart.recvRank

end NcclCore
