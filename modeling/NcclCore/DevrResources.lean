import NcclCore.P2pSchedule

/-! The resources of a device communicator (`ncclDevrCommCreateInternal` in
`dev_runtime.cc`, `ginDevCommSetupWithBackend` in `gin_host.cc`, and what the device makes
of them in `ncclGinInitCommon`). -/
namespace NcclCore

/-- `ncclDevResourceRequirements`; of the output pointers, whether they are there. -/
structure DevResourceRequirements where
  bufferSize : Nat := 0
  bufferAlign : Nat := 0
  outBufferHandle : Bool := false
  ginSignalCount : Nat := 0
  ginCounterCount : Nat := 0
  outGinSignalStart : Bool := false
  outGinCounterStart : Bool := false

/-- `ncclGinConnectionType_t`. -/
inductive GinConnectionType where
  | none
  | full
  | rail
  | customStride
  deriving DecidableEq

/-- The fields of `ncclDevCommRequirements` that are read. -/
structure DevCommRequirements where
  resourceRequirementsList : List DevResourceRequirements
  barrierCount : Nat
  lsaBarrierCount : Nat
  railGinBarrierCount : Nat
  worldGinBarrierCount : Nat
  cftBarrierCount : Nat
  /-- `NCCL_CFT` and `NCCL_CFT_MULTIMEM` of `cftCaps`. -/
  cft : Bool
  cftMultimem : Bool
  ginForceEnable : Bool
  ginConnectionType : GinConnectionType
  ginCustomStride : Nat
  ginContextCount : Nat
  ginSignalCount : Nat
  ginCounterCount : Nat

def DevCommRequirements.requestedConnectionType (reqs : DevCommRequirements) : GinConnectionType :=
  if reqs.ginForceEnable then .full else reqs.ginConnectionType

/-- What the communicator brings: its teams, the granularity of its memory and its GIN
connections. -/
structure DevrComm where
  nRanks : Nat
  lsaSize : Nat
  cftSize : Nat
  cftMultimemSize : Nat
  granularity : Nat
  globalGinSupport : GinConnectionType
  ginCommCount : Nat

/-- `ncclLsaBarrierCreateRequirement`. -/
def ncclLsaBarrierCreateRequirement (teamRanks nBarriers : Nat) : DevResourceRequirements :=
  { bufferSize := (3 * nBarriers + nBarriers * teamRanks) * 4, bufferAlign := 4, outBufferHandle := true }

/-- `ncclCftBarrierCreateRequirement`. -/
def ncclCftBarrierCreateRequirement (teamRanks nBarriers : Nat) : DevResourceRequirements :=
  { bufferSize := (3 * nBarriers + nBarriers * teamRanks) * 16, bufferAlign := 16, outBufferHandle := true }

/-- `ncclGinBarrierCreateRequirement`. -/
def ncclGinBarrierCreateRequirement (teamRanks nBarriers : Nat) : DevResourceRequirements :=
  { ginSignalCount := nBarriers * teamRanks, outGinSignalStart := true }

/-- `ncclGinResourcesRequested`. -/
def ncclGinResourcesRequested (reqs : DevCommRequirements) : Bool :=
  0 < reqs.ginSignalCount || 0 < reqs.ginCounterCount || 0 < reqs.barrierCount || 0 < reqs.railGinBarrierCount ||
    0 < reqs.worldGinBarrierCount ||
    reqs.resourceRequirementsList.any fun rr => 0 < rr.ginSignalCount || 0 < rr.ginCounterCount

namespace DevrComm
variable (comm : DevrComm)

def railRanks : Nat := comm.nRanks / comm.lsaSize

/-- The list of requirements: those of the user behind the internal ones. -/
def resReqs (reqs : DevCommRequirements) (requested : GinConnectionType) : List DevResourceRequirements :=
  let ginStride := if requested = .customStride then reqs.ginCustomStride else 1
  let denseBarrierCount := if requested = .rail then 0 else reqs.barrierCount
  (if 0 < reqs.cftBarrierCount ∧ reqs.cftMultimem then
    [ncclCftBarrierCreateRequirement comm.cftMultimemSize reqs.cftBarrierCount] else []) ++
  (if 0 < reqs.cftBarrierCount ∧ reqs.cft then
    [ncclCftBarrierCreateRequirement comm.cftSize reqs.cftBarrierCount] else []) ++
  [ncclGinBarrierCreateRequirement comm.nRanks reqs.worldGinBarrierCount,
    ncclGinBarrierCreateRequirement comm.railRanks reqs.railGinBarrierCount,
    ncclLsaBarrierCreateRequirement comm.lsaSize reqs.lsaBarrierCount,
    ncclGinBarrierCreateRequirement (comm.nRanks / ginStride) denseBarrierCount,
    ncclGinBarrierCreateRequirement comm.railRanks reqs.barrierCount,
    ncclLsaBarrierCreateRequirement comm.lsaSize reqs.barrierCount] ++
  reqs.resourceRequirementsList

end DevrComm

/-- A requirement and what is stored through its output pointers. -/
structure DevResourcePlace where
  req : DevResourceRequirements
  bufferHandle : Nat
  ginSignalStart : Nat
  ginCounterStart : Nat

/-- The bytes of the buffer in the window. -/
def DevResourcePlace.bufferOffset (place : DevResourcePlace) : Nat := place.bufferHandle * 128

/-- The running totals. -/
structure DevResourceTotals where
  bufSizeTotal : Nat
  ginSignalTotal : Nat
  ginCounterTotal : Nat

namespace DevResourceTotals

/-- Where the next requirement's buffer begins. -/
def bufferStart (totals : DevResourceTotals) (rr : DevResourceRequirements) : Nat :=
  alignUp totals.bufSizeTotal (max 128 rr.bufferAlign)

/-- The totals behind a requirement. -/
def add (totals : DevResourceTotals) (rr : DevResourceRequirements) : DevResourceTotals where
  bufSizeTotal := totals.bufferStart rr + rr.bufferSize
  ginSignalTotal := totals.ginSignalTotal + rr.ginSignalCount
  ginCounterTotal := totals.ginCounterTotal + rr.ginCounterCount

/-- The loop over the requirements. -/
def layout : DevResourceTotals → List DevResourceRequirements → List DevResourcePlace × DevResourceTotals
  | totals, [] => ([], totals)
  | totals, rr :: rest =>
    let (places, last) := layout (totals.add rr) rest
    (⟨rr, totals.bufferStart rr / 128, totals.ginSignalTotal, totals.ginCounterTotal⟩ :: places, last)

end DevResourceTotals

variable (comm : DevrComm) (reqs : DevCommRequirements)

/-- The loop over all requirements, behind the signals and counters of the user. -/
def DevrComm.laid : List DevResourcePlace × DevResourceTotals :=
  DevResourceTotals.layout ⟨0, reqs.ginSignalCount, reqs.ginCounterCount⟩
    (comm.resReqs reqs reqs.requestedConnectionType)

/-- `ginSignalShadowsOffset`. -/
def DevrComm.shadowsOffset : Nat :=
  alignUp (comm.laid reqs).2.bufSizeTotal 128

/-- The product of two numbers of type `int`. -/
def intMul (x y : Nat) : Int := Int.bmod (x * y : Nat) (2 ^ 32)

/-- The fields of `ncclDevComm` that describe resources. The window and the shadows of the
signals are given by the size and the offset. -/
structure DevComm where
  places : List DevResourcePlace
  windowSize : Nat
  ginSignalShadows : Nat
  ginSignalCount : Nat
  ginCounterCount : Nat
  ginConnectionCount : Nat
  ginContextCount : Nat

/-- The layout of the resources in `ncclDevrCommCreateInternal`, with the window in `size_t`.
With GIN, `ginDevCommSetupWithBackend` rounds the number of contexts up. -/
def DevrComm.devComm : DevComm :=
  let requested := reqs.requestedConnectionType
  let laid := comm.laid reqs
  let bufSizeTotal := comm.shadowsOffset reqs + intMul reqs.ginContextCount laid.2.ginSignalTotal * 8
  { places := laid.1
    windowSize := alignUp (bufSizeTotal % 2 ^ 64).toNat comm.granularity % 2 ^ 64
    ginSignalShadows := comm.shadowsOffset reqs
    ginSignalCount := if requested ≠ .none then laid.2.ginSignalTotal else 0
    ginCounterCount := if requested ≠ .none then laid.2.ginCounterTotal else 0
    ginConnectionCount := if requested ≠ .none then comm.ginCommCount else 0
    ginContextCount := if requested ≠ .none then roundUp reqs.ginContextCount comm.ginCommCount else 0 }

/-- `ncclDevrCommCreateInternal`. -/
def ncclDevrCommCreateInternal : Except NcclError DevComm :=
  let requested := reqs.requestedConnectionType
  if ncclGinResourcesRequested reqs ∧ requested = .none then .error .invalidArgument
  else if requested ≠ .none ∧ comm.globalGinSupport = .none then .error .invalidArgument
  else if requested = .full ∧ comm.globalGinSupport = .rail then .error .invalidArgument
  else if 0 < reqs.worldGinBarrierCount ∧ requested = .rail then .error .invalidArgument
  else if requested = .customStride ∧ reqs.ginCustomStride = 0 then .error .invalidUsage
  else .ok (comm.devComm reqs)

/-- The fields of `ncclGin` that `ncclGinInitCommon` sets; the shadows as an offset. -/
structure GinDevice where
  connectionId : Nat
  contextId : Nat
  signalShadows : Int

/-- `ncclGinInitCommon`. -/
def ncclGinInitCommon (devComm : DevComm) (contextIndex : Nat) : GinDevice where
  connectionId :=
    if devComm.ginConnectionCount = 3 then contextIndex % 3 else contextIndex &&& (devComm.ginConnectionCount - 1)
  contextId :=
    if devComm.ginConnectionCount = 3 then contextIndex / 3
    else contextIndex >>> if devComm.ginConnectionCount = 4 then 2 else devComm.ginConnectionCount - 1
  signalShadows := devComm.ginSignalShadows + intMul contextIndex devComm.ginSignalCount * 8

/-- The shadow word of a signal, as an offset in the window. -/
def signalShadow (devComm : DevComm) (contextIndex signal : Nat) : Int :=
  (ncclGinInitCommon devComm contextIndex).signalShadows + signal * 8

end NcclCore
