import NcclCore.Bitops

/-! `scheduleCollTasksToPlan`: a first pass estimates how many collectives fit
in the plan and how much traffic each kind of channel gets, a second one gives
every task its channels. The arithmetic is checked: a division by zero, an
unsigned difference below zero or an `int` out of range leaves no result. -/
namespace NcclCore

def checkedSub (x y : Nat) : Option Nat := if y ≤ x then some (x - y) else none

def checkedDiv (x y : Nat) : Option Nat := if y = 0 then none else some (x / y)

def checkedMod (x y : Nat) : Option Nat := if y = 0 then none else some (x % y)

def checkedDivUp (x y : Nat) : Option Nat := if y = 0 then none else some (divUp x y)

/-- A `size_t` stored in an `int`. -/
def asInt (x : Nat) : Option Nat := if x < 2 ^ 31 then some x else none

inductive CollFunc where
  | broadcast
  | reduce
  | allGather
  | reduceScatter
  | allReduce
  deriving DecidableEq

/-- `ncclFuncTrafficPerByte`. -/
def ncclFuncTrafficPerByte (func : CollFunc) (nRanks : Nat) : Nat :=
  match func with
  | .allReduce => 2
  | .allGather => nRanks
  | .reduceScatter => nRanks
  | _ => 1

inductive DataType where
  | int8 | uint8 | float8e4m3 | float8e5m2
  | float16 | bfloat16
  | int32 | uint32 | float32
  | int64 | uint64 | float64
  deriving DecidableEq

/-- `ncclTypeSize`. -/
def ncclTypeSize : DataType → Nat
  | .int8 | .uint8 | .float8e4m3 | .float8e5m2 => 1
  | .float16 | .bfloat16 => 2
  | .int32 | .uint32 | .float32 => 4
  | .int64 | .uint64 | .float64 => 8

/-- `2 * task->isCollnet + task->isNvls`. -/
structure ChannelKind where
  isCollnet : Bool
  isNvls : Bool
  deriving DecidableEq

/-- The channel counts of a communicator. -/
structure CollComm where
  nRanks : Nat
  nChannels : Nat
  nvlsChannels : Nat
  someRank : 0 < nRanks
  someChannel : 0 < nChannels
  channelsBound : nChannels ≤ 64
  nvlsBound : nvlsChannels ≤ 64

/-- `nMaxChannels[kind]`. -/
def CollComm.nMaxChannels (comm : CollComm) : ChannelKind → Nat
  | ⟨false, false⟩ => comm.nChannels
  | ⟨false, true⟩ => comm.nvlsChannels
  | ⟨true, false⟩ => comm.nChannels
  | ⟨true, true⟩ => min comm.nChannels comm.nvlsChannels

/-- What the scheduler reads of a `ncclTaskColl` and of its work. The CTA limits
were resolved to at least one when the task was appended, NVLS algorithms are
chosen only when there are NVLS channels, and `trafficBytes` is the byte count
times the traffic per byte, up to the factors for the protocol and for the
element size that not every caller includes. -/
structure CollTask (comm : CollComm) where
  func : CollFunc
  datatype : DataType
  count : Nat
  isLL : Bool
  kind : ChannelKind
  trafficBytes : Nat
  nMaxChannels : Nat
  minCTAs : Nat
  maxCTAs : Nat
  nvlsCTAs : Option Nat
  aggIsolate : Bool
  /-- `workNode->size` -/
  workSize : Nat
  someCount : 0 < count := by decide
  someMinCTA : 0 < minCTAs := by decide
  someMaxCTA : 0 < maxCTAs := by decide
  someNvlsCTA : nvlsCTAs ≠ some 0 := by decide
  nvlsAvailable : kind.isNvls = true → 0 < comm.nvlsChannels := by decide
  weighted : count * (ncclTypeSize datatype * (ncclFuncTrafficPerByte func comm.nRanks * 4)) ≤ 32 * trafficBytes := by
    decide

def minTrafficPerChannel : Nat := 32768

namespace CollTask
variable {comm : CollComm}

/-- `task->nMaxChannels` after the CTA limits are applied. -/
def cappedChannels (task : CollTask comm) : Nat :=
  let capped := min (max task.nMaxChannels task.minCTAs) task.maxCTAs
  match task.kind.isNvls, task.nvlsCTAs with
  | true, some nvlsCTAs => min capped nvlsCTAs
  | _, _ => capped

/-- `trafficPerByte`, with the flags that accompany LL data. -/
def trafficPerByte (task : CollTask comm) : Nat :=
  if task.isLL then ncclFuncTrafficPerByte task.func comm.nRanks * 4 else ncclFuncTrafficPerByte task.func comm.nRanks

end CollTask

/-- What the first pass computes, for each kind of channel. -/
structure CollEstimate where
  nPlanColls : Nat
  trafficBytes : ChannelKind → Nat
  nChannels : ChannelKind → Nat

/-- One task of the first pass, once it has been accepted. -/
def CollEstimate.add {comm : CollComm} (estimate : CollEstimate) (task : CollTask comm) : CollEstimate where
  nPlanColls := estimate.nPlanColls + 1
  trafficBytes := Function.update estimate.trafficBytes task.kind
    (estimate.trafficBytes task.kind + max minTrafficPerChannel task.trafficBytes)
  nChannels := Function.update estimate.nChannels task.kind
    (min (estimate.nChannels task.kind + task.cappedChannels) (comm.nMaxChannels task.kind))

/-- The first pass. `testBudget` is `ncclTestBudget` of the plan's budget. -/
def estimateColls {comm : CollComm} (testBudget : Nat → Nat → Bool) :
    CollEstimate → (workBytes : Nat) → List (CollTask comm) → CollEstimate
  | estimate, _, [] => estimate
  | estimate, workBytes, task :: rest =>
    if !testBudget (divUp estimate.nPlanColls 4) (workBytes + task.workSize) then estimate
    else if task.aggIsolate && 0 < estimate.nPlanColls then estimate
    else if task.aggIsolate then estimate.add task
    else estimateColls testBudget (estimate.add task) (workBytes + task.workSize) rest

/-- The cells a task is cut into, `MinTrafficPerChannel` of traffic each. -/
structure CellShape where
  elementsPerCell : Nat
  cells : Nat
  trafficPerElement : Nat
  trafficPerCell : Nat

def CollTask.cellShape {comm : CollComm} (task : CollTask comm) : Option CellShape := do
  let elementSize := ncclTypeSize task.datatype
  let cellSize := (← checkedDivUp (← checkedDivUp minTrafficPerChannel task.trafficPerByte) 16) * 16
  let elementsPerCell ← asInt (← checkedDiv cellSize elementSize)
  let cells ← checkedDivUp (task.count * elementSize) cellSize
  return ⟨elementsPerCell, cells, elementSize * task.trafficPerByte, cellSize * task.trafficPerByte⟩

/-- How the cells of a task are spread: the least channel, `nMidChannels` equal
ones, and the greatest. -/
structure CellSplit where
  channelId : Nat
  cellsPerChannel : Nat
  cellsLo : Nat
  nMidChannels : Nat
  cellsHi : Nat

/-- The number of channels a split touches. -/
def channelsUsed (lo nMidChannels hi : Nat) : Nat :=
  (if lo ≠ 0 then 1 else 0) + nMidChannels + (if hi ≠ 0 then 1 else 0)

/-- The cells the current channel takes: what its traffic budget leaves room
for, and everything if it is the last one. -/
def leastCells (nMax trafficPerChannel channelId currentTraffic : Nat) (shape : CellShape) : Option Nat :=
  if channelId + 1 = nMax then some shape.cells
  else do
    let vacant ← checkedSub trafficPerChannel currentTraffic
    return min shape.cells (← checkedDivUp vacant shape.trafficPerCell)

/-- The split as it falls out of the traffic budget of the current channel. -/
def splitByTraffic (nMax trafficPerChannel channelId currentTraffic : Nat) (shape : CellShape) :
    Option CellSplit := do
  let cellsPerChannel := min shape.cells (← checkedDivUp trafficPerChannel shape.trafficPerCell)
  let cellsLo ← leastCells nMax trafficPerChannel channelId currentTraffic shape
  let left ← checkedSub shape.cells cellsLo
  let nMidChannels ← asInt (← checkedDiv left cellsPerChannel)
  let cellsHi ← checkedMod left cellsPerChannel
  return ⟨channelId, cellsPerChannel, cellsLo, nMidChannels, cellsHi⟩

/-- Too many channels: the rest is spread over those that are left, and the
last one takes the remainder. -/
def splitOverflow (nMax cells : Nat) (split : CellSplit) : Option CellSplit := do
  let nMidChannels ← checkedSub nMax (split.channelId + 2)
  let left ← checkedSub cells split.cellsLo
  let cellsPerChannel ← checkedDiv left (nMidChannels + 1)
  let rest ← checkedMod left (nMidChannels + 1)
  return { split with nMidChannels, cellsPerChannel, cellsHi := cellsPerChannel + rest }

/-- A last channel that got nothing trades places with a middle one, and so
does a first one. -/
def normalizeSplit (split : CellSplit) : CellSplit :=
  let split :=
    if split.cellsHi = 0 ∧ split.nMidChannels ≠ 0 then
      { split with cellsHi := split.cellsPerChannel, nMidChannels := split.nMidChannels - 1 }
    else split
  if split.cellsLo = 0 then
    if split.nMidChannels = 0 then
      { split with channelId := split.channelId + 1, cellsLo := split.cellsHi, cellsHi := 0 }
    else
      { split with channelId := split.channelId + 1, cellsLo := split.cellsPerChannel,
                   nMidChannels := split.nMidChannels - 1 }
  else split

def splitCells (nMax trafficPerChannel channelId currentTraffic : Nat) (shape : CellShape) :
    Option CellSplit := do
  let split ← splitByTraffic nMax trafficPerChannel channelId currentTraffic shape
  let split ←
    if nMax < channelId + channelsUsed split.cellsLo split.nMidChannels split.cellsHi then
      splitOverflow nMax shape.cells split
    else some split
  return normalizeSplit split

/-- The fields of `ncclDevWorkColl` that say who does what. -/
structure DevWorkColl where
  channelLo : Nat
  channelHi : Nat
  countLo : Nat
  countMid : Nat
  countHi : Nat
  deriving DecidableEq

/-- The counts of a split, in elements; the part of the last cell that lies
behind the task comes off the last channel. -/
def cbdWork (count : Nat) (shape : CellShape) (split : CellSplit) : Option DevWorkColl := do
  let countMid := if split.nMidChannels ≠ 0 then split.cellsPerChannel * shape.elementsPerCell else 0
  let countLo := split.cellsLo * shape.elementsPerCell
  let countHi := split.cellsHi * shape.elementsPerCell
  let excess ← checkedSub (shape.cells * shape.elementsPerCell) count
  let (countLo, countHi) ←
    if countHi ≠ 0 then (checkedSub countHi excess).map (countLo, ·)
    else (checkedSub countLo excess).map (·, countHi)
  let channelHi ← checkedSub (split.channelId + channelsUsed countLo split.nMidChannels split.cellsHi) 1
  return ⟨split.channelId, channelHi, countLo, countMid, countHi⟩

/-- Where the second pass stands. -/
structure CollCursor where
  kindPrev : Option ChannelKind
  trafficPerChannel : Nat
  channelId : Nat
  currentTraffic : Nat

/-- A change of kind starts over at channel zero. -/
def CollCursor.enter (cursor : CollCursor) (estimate : CollEstimate) (kind : ChannelKind) : Option CollCursor :=
  if cursor.kindPrev = some kind then some cursor
  else do
    let share ← checkedDiv (estimate.trafficBytes kind) (estimate.nChannels kind)
    return ⟨some kind, divUp share 16 * 16, 0, 0⟩

/-- The cursor behind a task: on the task's last channel, or on the next one if
that is full and there is a next one. -/
def CollCursor.advance (cursor : CollCursor) (nMax : Nat) (shape : CellShape) (split : CellSplit)
    (work : DevWorkColl) : CollCursor :=
  let nChannels := channelsUsed work.countLo split.nMidChannels split.cellsHi
  let (channelId, currentTraffic) :=
    if work.countHi ≠ 0 then
      (split.channelId + nChannels - 1, split.cellsHi * shape.elementsPerCell * shape.trafficPerElement)
    else if split.nMidChannels ≠ 0 then (split.channelId + nChannels, 0)
    else (split.channelId,
      cursor.currentTraffic + split.cellsLo * shape.elementsPerCell * shape.trafficPerElement)
  if cursor.trafficPerChannel ≤ currentTraffic ∧ channelId + 1 ≠ nMax then
    { cursor with channelId := channelId + 1, currentTraffic := 0 }
  else { cursor with channelId, currentTraffic }

/-- A task with the work that was built for it. -/
structure PlacedColl (comm : CollComm) where
  task : CollTask comm
  work : DevWorkColl

/-- The second pass. `nWorkBatches` says how many batches the works placed so
far have filled, which decides where the budget cuts the plan. -/
def placeColls {comm : CollComm} (testBudget : Nat → Nat → Bool) (nWorkBatches : List (PlacedColl comm) → Nat)
    (estimate : CollEstimate) : (nPlanColls : Nat) → CollCursor → (workBytes : Nat) →
      (placed : List (PlacedColl comm)) → List (CollTask comm) → Option (List (PlacedColl comm))
  | 0, _, _, placed, _ => some placed
  | _, _, _, placed, [] => some placed
  | nPlanColls + 1, cursor, workBytes, placed, task :: rest => do
    let cursor ← cursor.enter estimate task.kind
    if task.kind.isCollnet then
      if !testBudget (nWorkBatches placed + task.cappedChannels) (workBytes + task.workSize) then return placed
      let work : DevWorkColl := ⟨0, task.cappedChannels - 1, 0, 0, 0⟩
      placeColls testBudget nWorkBatches estimate nPlanColls cursor (workBytes + task.workSize)
        (placed ++ [⟨task, work⟩]) rest
    else
      let nMax := comm.nMaxChannels task.kind
      let shape ← task.cellShape
      let split ← splitCells nMax cursor.trafficPerChannel cursor.channelId cursor.currentTraffic shape
      let work ← cbdWork task.count shape split
      let nChannels := channelsUsed work.countLo split.nMidChannels split.cellsHi
      if !testBudget (nWorkBatches placed + nChannels) (workBytes + task.workSize) then return placed
      placeColls testBudget nWorkBatches estimate nPlanColls
        (cursor.advance nMax shape split work) (workBytes + task.workSize) (placed ++ [⟨task, work⟩]) rest

/-- `scheduleCollTasksToPlan` on the tasks that are queued. -/
def scheduleCollTasksToPlan {comm : CollComm} (testBudget : Nat → Nat → Bool)
    (nWorkBatches : List (PlacedColl comm) → Nat) (tasks : List (CollTask comm)) : Option (List (PlacedColl comm)) :=
  let estimate := estimateColls testBudget ⟨0, fun _ => 0, fun _ => 0⟩ 0 tasks
  placeColls testBudget nWorkBatches estimate estimate.nPlanColls ⟨none, 0, 0, 0⟩ 0 [] tasks

/-- The range `ncclCollCbdPart` gives a channel, as `(partOffset, partCount)`. -/
def ncclCollCbdPart (work : DevWorkColl) (channelId : Nat) : Nat × Nat :=
  let nMidChannels := work.channelHi - work.channelLo - 1
  if channelId = work.channelLo then (0, work.countLo)
  else if channelId = work.channelHi then (work.countLo + nMidChannels * work.countMid, work.countHi)
  else (work.countLo + (channelId - work.channelLo - 1) * work.countMid, work.countMid)

/-- The total `ncclCollCbdPart` computes, where `nMidChannels` may be `-1`. -/
def cbdCount (work : DevWorkColl) : Int :=
  let nMidChannels : Int := work.channelHi - work.channelLo - 1
  work.countLo + work.countMid * nMidChannels + work.countHi

end NcclCore
