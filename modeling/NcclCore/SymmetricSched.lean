import NcclCore.CollPlan

/-! `ncclSymmetricTaskScheduler` and the device code that reads what it writes. The
scheduler lays the works of a batch behind one another in cells, fills the channels with
equally many cells, and notes for each channel where it ends: the work, and how much of
it as a fraction of 16 bits. A work also notes the channels that may share it. The blocks
turn the fractions back into element ranges, with or without that sharing. -/
namespace NcclCore

/-- `NCCL_SYM_KERNEL_CELL_SIZE`. -/
def symKernelCellSize : Nat := 1024

/-- The elements of a cell, `cellCount` on the host and `EltPerCell` on the device. -/
def eltPerCell (datatype : DataType) : Nat := symKernelCellSize / ncclTypeSize datatype

/-- What the scheduler reads of an `ncclTaskColl`. `nMaxChannels` is a signed field of 8 bits. -/
structure SymTask where
  count : Nat
  datatype : DataType
  devFuncId : Nat
  nMaxChannels : Nat
  isSymLast : Bool
  channelBits : nMaxChannels < 2 ^ 7

/-- `ncclSymkChannelWorkRange`, two fields of 16 bits. -/
structure ChannelWorkRange where
  workHi : Nat
  fracHi : Nat

/-- `ncclSymkDevWork`: the elements, and the channels that share the work in two fields
of 16 bits. -/
structure SymDevWork where
  nElts : Nat
  sChannelId : Nat
  nChannels : Nat
  deriving DecidableEq

/-- `ncclSymkDevWorkArgs`, with the number of blocks that are launched. -/
structure SymDevWorkArgs where
  nBlocks : Nat
  workRange : Nat → ChannelWorkRange
  works : List SymDevWork

inductive SymSchedError where
  | cellMismatch
  | outOfChannels
  deriving DecidableEq

/-! ### The scheduler -/

/-- The channel that is being filled, and the ranges written so far. -/
structure SymFill where
  curChannel : Nat
  curChannelWork : Nat
  remainCell : Nat
  workRange : Nat → ChannelWorkRange

/-- Whether the channel is one of those that share the work. -/
def claimChannel (fill : SymFill) (taskCell cellLeft : Nat) (queueEmpty : Bool) (devWork : SymDevWork) :
    Except SymSchedError SymDevWork :=
  if fill.curChannelWork = 0 then
    if devWork.nChannels = 0 then
      .ok { devWork with sChannelId := fill.curChannel % 2 ^ 16, nChannels := 1 }
    else if cellLeft ≤ fill.remainCell then
      -- the last segment of the task
      if (fill.remainCell - cellLeft) * symKernelCellSize ≤ 2 ^ 10 || queueEmpty then
        .ok { devWork with nChannels := (devWork.nChannels + 1) % 2 ^ 16 }
      else .ok devWork
    else .ok { devWork with nChannels := (devWork.nChannels + 1) % 2 ^ 16 }
  else if cellLeft ≠ taskCell then .error .cellMismatch
  else if taskCell ≤ fill.remainCell then
    .ok { devWork with sChannelId := fill.curChannel % 2 ^ 16, nChannels := 1 }
  else .ok devWork

/-- The entry of the current channel. -/
def SymFill.withRange (fill : SymFill) (workIndex fracHi : Nat) : SymFill :=
  { fill with workRange := Function.update fill.workRange fill.curChannel ⟨workIndex % 2 ^ 16, fracHi % 2 ^ 16⟩ }

/-- The next channel, which is empty. -/
def SymFill.nextChannel (fill : SymFill) (cellPerChannel : Nat) : SymFill :=
  { fill with curChannel := fill.curChannel + 1, curChannelWork := 0, remainCell := cellPerChannel }

/-- The loop that puts one task on the channels, of which `channelsLeft` remain. -/
def fillChannels (cellPerChannel workIndex taskCell : Nat) (queueEmpty : Bool) :
    (channelsLeft cellLeft : Nat) → SymFill → SymDevWork → Except SymSchedError (SymFill × SymDevWork)
  | 0, _, fill, devWork => .ok (fill, devWork)
  | channelsLeft + 1, cellLeft, fill, devWork => do
    let devWork ← claimChannel fill taskCell cellLeft queueEmpty devWork
    if cellLeft < fill.remainCell then
      let fill := fill.withRange workIndex (0x10000 - 1)
      return ({ fill with
        remainCell := fill.remainCell - cellLeft
        curChannelWork := fill.curChannelWork + 1 }, devWork)
    else if cellLeft = fill.remainCell then
      return ((fill.withRange workIndex (0x10000 - 1)).nextChannel cellPerChannel, devWork)
    else
      let cellLeft := cellLeft - fill.remainCell
      let fill := fill.withRange workIndex (divUp (0x10000 * (taskCell - cellLeft)) taskCell - 1)
      fillChannels cellPerChannel workIndex taskCell queueEmpty channelsLeft cellLeft
        (fill.nextChannel cellPerChannel) devWork

/-- `ncclSymkMakeDevWork`. -/
def ncclSymkMakeDevWork (task : SymTask) : SymDevWork := ⟨task.count, 0xffff, 0⟩

/-- The loop over the queue, up to the end of the batch. -/
def scheduleTasks (cellCount cellPerChannel nMaxChannels devFuncId : Nat) :
    (symTaskQueue : List SymTask) → SymFill → (works : List SymDevWork) →
      Except SymSchedError (List SymTask × SymFill × List SymDevWork)
  | [], fill, works => .ok ([], fill, works)
  | task :: queue, fill, works =>
    if task.devFuncId ≠ devFuncId then .ok (task :: queue, fill, works)
    else do
      let taskCell := divUp task.count cellCount
      let (fill, devWork) ← fillChannels cellPerChannel works.length taskCell queue.isEmpty
        (nMaxChannels - fill.curChannel) taskCell fill (ncclSymkMakeDevWork task)
      if task.isSymLast then return (queue, fill, works ++ [devWork])
      if fill.curChannel = nMaxChannels then throw .outOfChannels
      scheduleTasks cellCount cellPerChannel nMaxChannels devFuncId queue fill (works ++ [devWork])

/-- `totalCount`: the aligned elements of the batch. -/
def batchCount (cellCount devFuncId : Nat) : List SymTask → Nat
  | [] => 0
  | task :: queue =>
    if task.devFuncId ≠ devFuncId then 0
    else if task.isSymLast then alignUp task.count cellCount
    else alignUp task.count cellCount + batchCount cellCount devFuncId queue

/-- `ncclSymmetricTaskScheduler`: the arguments of the kernel and the queue that is
left. The head of the queue is given with it, as the queue is not empty. -/
def ncclSymmetricTaskScheduler (headTask : SymTask) (queue : List SymTask) :
    Except SymSchedError (SymDevWorkArgs × List SymTask) := do
  let cellCount := eltPerCell headTask.datatype
  let totalCount := batchCount cellCount headTask.devFuncId (headTask :: queue)
  let cellPerChannel := divUp (divUp totalCount headTask.nMaxChannels) cellCount
  let (rest, fill, works) ← scheduleTasks cellCount cellPerChannel headTask.nMaxChannels headTask.devFuncId
    (headTask :: queue) ⟨0, 0, cellPerChannel, fun _ => ⟨0, 0⟩⟩ []
  let curChannel := if fill.remainCell < cellPerChannel then fill.curChannel + 1 else fill.curChannel
  return (⟨curChannel, fill.workRange, works⟩, rest)

/-! ### The device -/

/-- The locals of `getWorkRange`. -/
structure WorkRange where
  workLo : Nat
  indexLo : Nat
  workHi : Nat
  indexHi : Nat

/-- A call of the function that is run for each work. Blocks that share the work get the
same range, and each its number among them. -/
structure SymWorkCall where
  work : Nat
  block : Nat
  nBlocks : Nat
  indexLo : Nat
  indexHi : Nat
  deriving DecidableEq

namespace SymDevWorkArgs
variable (args : SymDevWorkArgs) (datatype : DataType)

/-- `devWork[w].nElts`. Behind the last work nothing is read of the result. -/
def nElts (work : Nat) : Nat := (args.works[work]?.map SymDevWork.nElts).getD 0

/-- The first element behind this fraction of a work. -/
def indexAt (work frac : Nat) : Nat :=
  (frac * divUp (args.nElts work) (eltPerCell datatype)) / 2 ^ 16 * eltPerCell datatype

/-- `getWorkRange`. -/
def getWorkRange (block : Nat) : WorkRange :=
  let workLo := if block = 0 then 0 else (args.workRange (block - 1)).workHi
  let fracLo := if block = 0 then 0 else (args.workRange (block - 1)).fracHi + 1
  let (workLo, fracLo) := if fracLo = 0x10000 then ((workLo + 1) % 2 ^ 16, 0) else (workLo, fracLo)
  let workHi := (args.workRange block).workHi
  let fracHi := (args.workRange block).fracHi + 1
  { workLo
    indexLo := args.indexAt datatype workLo fracLo
    workHi
    indexHi := min (args.indexAt datatype workHi fracHi) (args.nElts workHi) }

/-- `getWorkRangeFused`. -/
def getWorkRangeFused (blockIdx work : Nat) (devWork : SymDevWork) : SymWorkCall :=
  let first := devWork.sChannelId
  let lastBlock := first + devWork.nChannels - 1
  let fracLo :=
    if 0 < first ∧ (args.workRange (first - 1)).workHi = work then ((args.workRange (first - 1)).fracHi + 1) % 2 ^ 16
    else 0
  let fracHi :=
    if (args.workRange lastBlock).workHi = work then (args.workRange lastBlock).fracHi + 1 else 0x10000
  { work
    block := blockIdx - first
    nBlocks := devWork.nChannels
    indexLo := args.indexAt datatype work fracLo
    indexHi := min (args.indexAt datatype work fracHi) devWork.nElts }

/-- The part of a work that a block has to itself. -/
def ownCall (range : WorkRange) (work : Nat) : SymWorkCall where
  work
  block := 0
  nBlocks := 1
  indexLo := if range.workLo < work then 0 else range.indexLo
  indexHi := if work < range.workHi then args.nElts work else range.indexHi

/-- The works from `workLo` to `workHi`. -/
def rangeWorks (range : WorkRange) : List Nat :=
  List.range' range.workLo (range.workHi + 1 - range.workLo)

/-- The calls of `forEachWorkNoFusion` in a block. -/
def forEachWorkNoFusion (blockIdx : Nat) : List SymWorkCall :=
  let range := args.getWorkRange datatype blockIdx
  (rangeWorks range).map (args.ownCall range)

/-- The calls of `forEachWork` in a block. -/
def forEachWork (blockIdx : Nat) : List SymWorkCall :=
  let range := args.getWorkRange datatype blockIdx
  (rangeWorks range).map fun work =>
    let devWork := args.works[work]?.getD ⟨0, 0, 0⟩
    if devWork.sChannelId ≤ blockIdx ∧ blockIdx < devWork.sChannelId + devWork.nChannels then
      args.getWorkRangeFused datatype blockIdx work devWork
    else args.ownCall range work

end SymDevWorkArgs

/-- `partitionElts`: where a part begins, and its elements. -/
def partitionElts (datatype : DataType) (nParts part nElts : Nat) : Nat × Nat :=
  let eltPerB16 := 16 / ncclTypeSize datatype
  let nB16 := divUp nElts eltPerB16
  let beginB16 := part * (nB16 / nParts) + min part (nB16 % nParts)
  (beginB16 * eltPerB16,
    if part < nParts - 1 then (nB16 / nParts + if part < nB16 % nParts then 1 else 0) * eltPerB16
    else (nElts + 2 ^ 64 - beginB16 * eltPerB16) % 2 ^ 64)

/-- The element is in the part. -/
def InPart (datatype : DataType) (nParts nElts part element : Nat) : Prop :=
  let range := partitionElts datatype nParts part nElts
  range.1 ≤ element ∧ element < range.1 + range.2

/-! ### What is covered -/

/-- Every element below `nElts` is visited by one of the first `blocks` blocks, and no
other element by any. -/
def CoveredOnce (blocks nElts : Nat) (visits : (block element : Nat) → Prop) : Prop :=
  (∀ element, element < nElts → ∃! block, block < blocks ∧ visits block element) ∧
    ∀ block element, block < blocks → visits block element → element < nElts

/-- The element is in the range of the call, and it is the turn of this block. Blocks
that share a range take the elements by turns, in any way in which each element of a range
falls to one of them. -/
def SymWorkCall.Visits (turn : (nBlocks nElts element : Nat) → Nat) (call : SymWorkCall) (work element : Nat) : Prop :=
  call.work = work ∧ call.indexLo ≤ element ∧ element < call.indexHi ∧
    turn call.nBlocks (call.indexHi - call.indexLo) (element - call.indexLo) = call.block

/-- A batch at the front of the queue: tasks with elements for one kernel, of which only
the last is marked, and at least one channel. Its works can be numbered by 16 bits. -/
structure SymBatch where
  headTask : SymTask
  tasks : List SymTask
  rest : List SymTask
  oneKernel : ∀ task ∈ tasks, task.devFuncId = headTask.devFuncId
  marked : ∃ init last, headTask :: tasks = init ++ [last] ∧ (∀ task ∈ init, task.isSymLast = false) ∧
    last.isSymLast = true
  positive : ∀ task ∈ headTask :: tasks, 0 < task.count
  channels : 0 < headTask.nMaxChannels
  numbered : tasks.length + 1 < 2 ^ 16

end NcclCore
