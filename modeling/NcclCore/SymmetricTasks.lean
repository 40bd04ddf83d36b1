import NcclCore.P2pSchedule
import NcclCore.Lib.LinkedList

/-! `ncclMakeSymmetricTaskList` on its heap. Tasks are nodes with one `next`
pointer, which first links the input, then the bins, and in the end the two
lists the tasks are handed to. Every loop follows pointers, so each has a fuel;
running out of it means that the loop did not end. -/
namespace NcclCore
open Lib Function

/-- What a batch of symmetric tasks is run with. -/
structure SymKernel where
  devFuncId : Nat
  nMaxChannels : Nat
  nWarps : Nat

/-- The input list with what the function asks about its tasks. The answers of
`ncclSymkAvailable`, of the window lookups and of `ncclTuningCompute`, which is
asked once for each batch, are arbitrary. -/
structure SymInput where
  head : Option Nat
  next : Nat → Option Nat
  tasks : List Nat
  linked : Linked next head tasks none
  distinct : tasks.Nodup
  nTasksColl : Int
  func : Nat → Nat
  symkOp : Nat → Nat
  datatype : Nat → Nat
  winRegType : Nat → Nat
  symkAvailable : Nat → Bool
  effAlgMask : Nat → Nat
  maskSymKernels : Nat
  maskGeneralKernels : Nat
  forceAlgSelection : Nat → Bool
  aggIsolate : Nat → Bool
  /-- `calcArgsSize(MAXCHANNELS, nWorks) <= comm->workArgsBytes` -/
  argsFit : Nat → Bool
  /-- `bestTuning` of the batch a task heads; none for `ncclSymkKernelId_Count` -/
  tuning : Nat → Option SymKernel
  /-- one of the head's windows has a sysmem segment -/
  hasSysmemSegment : Nat → Bool

namespace SymInput
variable (input : SymInput)

/-- `symAvailable && cfgAllowsSymk`. -/
def symmetric (task : Nat) : Bool :=
  input.symkAvailable task &&
    (input.effAlgMask task == 0 || (input.effAlgMask task &&& input.maskSymKernels) != 0)

/-- The bin of a task: function, operation, type and registration. -/
def index (task : Nat) : Nat :=
  ((input.func task * 5 + input.symkOp task) * 12 + input.datatype task) * 4 + input.winRegType task

/-- The selection names symmetric kernels only and must not be ignored. -/
def symmetricOnly (task : Nat) : Bool :=
  input.effAlgMask task != 0 && (input.effAlgMask task &&& input.maskSymKernels) != 0 &&
    (input.effAlgMask task &&& input.maskGeneralKernels) == 0 && input.forceAlgSelection task

/-- No kernel was found for the batch, or its memory cannot be used. -/
def fallsBack (headTask : Nat) : Bool :=
  (input.tuning headTask).isNone || input.hasSysmemSegment headTask

/-- The batch is refused with an error. -/
def refuses (headTask : Nat) : Bool :=
  (input.tuning headTask).isNone && input.symmetricOnly headTask

end SymInput

/-- The heap, and the two lists that are being built. -/
structure SymState where
  next : Nat → Option Nat
  isSymLast : Nat → Bool
  kernel : Nat → Option SymKernel
  /-- `*remainTasksHead` and `remainTasksTail` -/
  remain : Option (Ends Nat)
  collSymTaskQueue : Option (Ends Nat)
  nTasksColl : Int

/-- `tasksSymByFnOpTy` and `fnOpTySymIndices`. -/
structure SymBins where
  tasksSymByFnOpTy : Nat → Option Nat
  fnOpTySymIndices : List Nat

namespace SymState

/-- Append to the remaining tasks; the task keeps its own `next`. -/
def appendRemain (state : SymState) (task : Nat) : SymState :=
  let (next, remain) := pushBack state.next state.remain task
  { state with next, remain }

/-- `if (remainTasksTail) remainTasksTail->next = nullptr`. -/
def terminateRemain (state : SymState) : SymState :=
  match state.remain with
  | none => state
  | some ends => { state with next := update state.next ends.tail none }

/-- A task of a batch that falls back. -/
def fallBack (state : SymState) (task : Nat) : SymState :=
  { state.appendRemain task with nTasksColl := state.nTasksColl + 1 }

/-- A task of a batch that got a kernel: `ncclIntruQueueEnqueue`. -/
def enqueueSym (kernel : SymKernel) (state : SymState) (task : Nat) : SymState :=
  let (next, collSymTaskQueue) := pushBack (update state.next task none) state.collSymTaskQueue task
  { state with next, collSymTaskQueue, kernel := update state.kernel task (some kernel) }

end SymState

/-- The first loop: symmetric tasks go to the front of their bin, the others to
the end of the remaining ones. -/
def binTasks (input : SymInput) : (fuel : Nat) → (task : Option Nat) → SymState → SymBins →
    Option (SymState × SymBins)
  | _, none, state, bins => some (state, bins)
  | 0, some _, _, _ => none
  | fuel + 1, some task, state, bins =>
    let next := state.next task
    if input.symmetric task then
      let index := input.index task
      let front := bins.tasksSymByFnOpTy index
      binTasks input fuel next
        { state with next := update state.next task front, nTasksColl := state.nTasksColl - 1 }
        { tasksSymByFnOpTy := update bins.tasksSymByFnOpTy index (some task)
          fnOpTySymIndices :=
            if front = none then bins.fnOpTySymIndices ++ [index] else bins.fnOpTySymIndices }
    else binTasks input fuel next (state.appendRemain task) bins

/-- The loop that looks for the last task of a batch. -/
def scanBatch (input : SymInput) (next : Nat → Option Nat) : (fuel nWorks task : Nat) → Option Nat
  | 0, _, _ => none
  | fuel + 1, nWorks, task =>
    match next task with
    | none => some task
    | some after =>
      let configBoundary := input.aggIsolate task || input.aggIsolate after
      if !input.argsFit (nWorks + 2) || configBoundary then some task
      else scanBatch input next fuel (nWorks + 1) after

/-- The loops that hand the tasks of a batch on, up to the one marked last. -/
def moveBatch (move : SymState → Nat → SymState) : (fuel : Nat) → (task : Option Nat) → SymState →
    Option (SymState × Option Nat)
  | _, none, state => some (state, none)
  | 0, some _, _ => none
  | fuel + 1, some task, state =>
    let next := state.next task
    let isSymLast := state.isSymLast task
    let state := move state task
    if isSymLast then some (state, next) else moveBatch move fuel next state

/-- A batch falls back as a whole, or all its tasks get the same kernel. -/
def handOn (input : SymInput) (headTask : Nat) (state : SymState) : Option (SymState × Option Nat) :=
  match input.tuning headTask, input.hasSysmemSegment headTask with
  | some kernel, false => moveBatch (SymState.enqueueSym kernel) input.tasks.length (some headTask) state
  | _, _ => moveBatch SymState.fallBack input.tasks.length (some headTask) state

/-- The batches of one bin: `while (task != NULL)`. -/
def processBin (input : SymInput) : (fuel : Nat) → (task : Option Nat) → SymState →
    Option (Except NcclError SymState)
  | _, none, state => some (.ok state)
  | 0, some _, _ => none
  | fuel + 1, some headTask, state => do
    let last ← scanBatch input state.next input.tasks.length 0 headTask
    let state := { state with isSymLast := update state.isSymLast last true }
    if input.refuses headTask then return .error .invalidArgument
    let (state, task) ← handOn input headTask state
    processBin input fuel task state

/-- `for (int cursor = 0; cursor < fnOpTySymCount; cursor++)`. -/
def processBins (input : SymInput) (tasksSymByFnOpTy : Nat → Option Nat) :
    (indices : List Nat) → SymState → Option (Except NcclError SymState)
  | [], state => some (.ok state)
  | index :: rest, state => do
    match ← processBin input input.tasks.length (tasksSymByFnOpTy index) state with
    | .error e => return .error e
    | .ok state => processBins input tasksSymByFnOpTy rest state

/-- The heap on entry: the queue of symmetric tasks is empty, and fresh tasks
are not marked. -/
def SymInput.start (input : SymInput) : SymState where
  next := input.next
  isSymLast _ := false
  kernel _ := none
  remain := none
  collSymTaskQueue := none
  nTasksColl := input.nTasksColl

/-- `ncclMakeSymmetricTaskList`. -/
def ncclMakeSymmetricTaskList (input : SymInput) : Option (Except NcclError SymState) := do
  let (state, bins) ← binTasks input input.tasks.length input.head input.start ⟨fun _ => none, []⟩
  let state := state.terminateRemain
  if bins.fnOpTySymIndices = [] then return .ok state
  if !input.argsFit 1 then return .error .internalError
  processBins input bins.tasksSymByFnOpTy bins.fnOpTySymIndices state

/-- Every input task ended in exactly one place: the remaining tasks and the
symmetric ones are two lists that end, they share no task and together hold
the input tasks, and the count fell by the length of the second. -/
structure TasksSplit (input : SymInput) (state : SymState) (remain symmetric : List Nat) : Prop where
  remaining : Linked state.next (state.remain.map Ends.head) remain none
  queued : Linked state.next (state.collSymTaskQueue.map Ends.head) symmetric none
  complete : (remain ++ symmetric).Perm input.tasks
  counted : state.nTasksColl = input.nTasksColl - symmetric.length

end NcclCore
