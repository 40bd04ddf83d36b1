import NcclCore.WorkBatch

/-! The work FIFO of a communicator. `uploadWork` copies the works of a plan
behind those of earlier plans, around a ring of `workFifoBytes`;
`ncclLaunchFinish` records from time to time how far the ring was filled, and an
event callback takes this over as consumed when the kernels launched before it
have finished. All positions are 32 bit counters that wrap. -/
namespace NcclCore

inductive WorkStorageType where
  | args
  | fifo
  | persistent
  deriving DecidableEq

/-- What `uploadWork` reads of a plan: the sizes of the works in `workQueue` and
the batches placed behind the kernel arguments. The plan budget is half the FIFO,
or 2^30 bytes for a persistent plan. -/
structure UploadPlan where
  workStorageType : WorkStorageType
  works : List Nat
  batches : List DevWorkBatch
  aligned : ∀ size ∈ works, 16 ∣ size
  budget : works.sum ≤ 2 ^ 30

def UploadPlan.workBytes (plan : UploadPlan) : Nat := plan.works.sum

/-- An entry of `eventCallbackQueue`. A `KernelFinishCallback` runs when the
kernels launched before its event have finished, and carries the position to be
consumed. An `uploadWork_cleanup_t` waits for no kernel and carries none. -/
structure EventCallback where
  event : Nat
  workFifoConsumed : Option (BitVec 32)

/-- The fields of the communicator. A slot of 16 bytes of `workFifoBuf` is known
by its address, and what it holds by the plan and the offset in its works. -/
structure WorkFifo where
  workFifoProduced : BitVec 32
  workFifoProducedLastRecorded : BitVec 32
  workFifoConsumed : BitVec 32
  eventCallbackQueue : List EventCallback
  workFifoBuf : Nat → Option (Nat × Nat)

/-- The test of `waitWorkFifoAvailable`. -/
def hasRoom (workFifoBytes : Nat) (workFifoConsumed desiredProduced : BitVec 32) : Bool :=
  desiredProduced - workFifoConsumed ≤ BitVec.ofNat 32 workFifoBytes

def fifoMask (workFifoBytes : Nat) : BitVec 32 := BitVec.ofNat 32 workFifoBytes - 1

/-- The cursors of the loops that write the works, and the buffer. -/
structure UploadState where
  fifoCursor : BitVec 32
  src : Nat
  buf : Nat → Option (Nat × Nat)

/-- One copy of 16 bytes. -/
def UploadState.copy (state : UploadState) (mask : BitVec 32) (plan : Nat) : UploadState where
  fifoCursor := state.fifoCursor + 16
  src := state.src + 16
  buf := Function.update state.buf (state.fifoCursor &&& mask).toNat (some (plan, state.src))

/-- `for (int n = workNode->size; n != 0; n -= 16)`. -/
def UploadState.copyWork (state : UploadState) (mask : BitVec 32) (plan size : Nat) : UploadState :=
  (fun state => UploadState.copy state mask plan)^[size / 16] state

def UploadState.copyWorks (state : UploadState) (mask : BitVec 32) (plan : Nat) (works : List Nat) : UploadState :=
  works.foldl (fun state size => state.copyWork mask plan size) state

/-- `batchZero[b].offsetBase += fifoCursor`. -/
def DevWorkBatch.translate (batch : DevWorkBatch) (fifoCursor : BitVec 32) : DevWorkBatch :=
  { batch with offsetBase := (batch.offsetBase + fifoCursor.toNat) % 2 ^ 32 }

/-- The kernel arguments `uploadWork` sets. -/
structure UploadedWork where
  batches : List DevWorkBatch
  workMask : BitVec 32

/-- Where a thread of `loadWorkBatchToShmem` reads a pack from. -/
def UploadedWork.address (work : UploadedWork) (batch : DevWorkBatch) (srcWork packInWork : Nat) : Nat :=
  (BitVec.ofNat 32 (batch.offsetBase + srcWork * batch.workType.size + packInWork * 16) &&& work.workMask).toNat

/-- `uploadWork` of the plan with this number; none as long as it waits for room.
The offset of works in the kernel arguments does not concern the FIFO. -/
def uploadWork (workFifoBytes : Nat) (comm : WorkFifo) (number : Nat) (plan : UploadPlan) :
    Option (WorkFifo × UploadedWork) :=
  match plan.workStorageType with
  | .args => some (comm, ⟨plan.batches, BitVec.allOnes 32⟩)
  | .persistent =>
    let cleanup : EventCallback := ⟨0, none⟩
    some ({ comm with eventCallbackQueue := comm.eventCallbackQueue ++ [cleanup] }, ⟨plan.batches, BitVec.allOnes 32⟩)
  | .fifo =>
    let fifoCursor := comm.workFifoProduced
    if hasRoom workFifoBytes comm.workFifoConsumed (fifoCursor + BitVec.ofNat 32 plan.workBytes) then
      let mask := fifoMask workFifoBytes
      let copied := (⟨fifoCursor, 0, comm.workFifoBuf⟩ : UploadState).copyWorks mask number plan.works
      some ({ comm with workFifoProduced := copied.fifoCursor, workFifoBuf := copied.buf },
        ⟨plan.batches.map fun batch => batch.translate fifoCursor, mask⟩)
    else none

/-- `ncclLaunchFinish`, after this many kernels have been launched. -/
def ncclLaunchFinish (workFifoBytes : Nat) (comm : WorkFifo) (planQueueEmpty : Bool) (launched : Nat) : WorkFifo :=
  if planQueueEmpty then comm
  else if BitVec.ofNat 32 (workFifoBytes / 8) < comm.workFifoProduced - comm.workFifoProducedLastRecorded then
    { comm with
      workFifoProducedLastRecorded := comm.workFifoProduced
      eventCallbackQueue := comm.eventCallbackQueue ++ [⟨launched, some comm.workFifoProduced⟩] }
  else comm

/-- The first callback is taken off the queue and run. -/
def WorkFifo.runCallback (comm : WorkFifo) : WorkFifo :=
  match comm.eventCallbackQueue with
  | [] => comm
  | callback :: rest =>
    { comm with
      eventCallbackQueue := rest
      workFifoConsumed := callback.workFifoConsumed.getD comm.workFifoConsumed }

/-- A kernel that was launched, with the position its works were written from. -/
structure Launched where
  plan : UploadPlan
  work : UploadedWork
  start : BitVec 32
  finished : Bool

structure WorkSystem where
  comm : WorkFifo
  launched : List Launched

def WorkSystem.initial : WorkSystem := ⟨⟨0, 0, 0, [], fun _ => none⟩, []⟩

def WorkSystem.finish (system : WorkSystem) (kernel : Nat) : WorkSystem :=
  { system with launched := system.launched.modify kernel fun launched => { launched with finished := true } }

/-- The kernels an event was recorded behind have finished. -/
def WorkSystem.Reached (system : WorkSystem) (event : Nat) : Prop :=
  ∀ kernel ∈ system.launched.take event, kernel.finished = true

/-- A plan is uploaded and launched, a group is finished, a kernel finishes, or a
callback runs. -/
inductive WorkSystem.Step (workFifoBytes : Nat) : WorkSystem → WorkSystem → Prop where
  | upload {system : WorkSystem} {plan : UploadPlan} {comm : WorkFifo} {work : UploadedWork}
      (uploaded : uploadWork workFifoBytes system.comm system.launched.length plan = some (comm, work)) :
      Step workFifoBytes system ⟨comm, system.launched ++ [⟨plan, work, system.comm.workFifoProduced, false⟩]⟩
  | launchFinish {system : WorkSystem} (planQueueEmpty : Bool) :
      Step workFifoBytes system
        { system with comm := ncclLaunchFinish workFifoBytes system.comm planQueueEmpty system.launched.length }
  | kernel {system : WorkSystem} (kernel : Nat) : Step workFifoBytes system (system.finish kernel)
  | callback {system : WorkSystem} {callback : EventCallback} {rest : List EventCallback}
      (queued : system.comm.eventCallbackQueue = callback :: rest) (reached : system.Reached callback.event) :
      Step workFifoBytes system { system with comm := system.comm.runCallback }

def WorkSystem.Reachable (workFifoBytes : Nat) (system : WorkSystem) : Prop :=
  Relation.ReflTransGen (WorkSystem.Step workFifoBytes) .initial system

/-! ### Groups -/

/-- What `doLaunches` does for one communicator: a plan is uploaded and launched,
or `ncclLaunchFinish` is called. -/
inductive LaunchOp where
  | launch (plan : UploadPlan)
  | finish (planQueueEmpty : Bool)

/-- Each group launches its plans and then finishes once. -/
def doLaunches (groups : List (List UploadPlan)) : List LaunchOp :=
  groups.flatMap fun plans => plans.map .launch ++ [.finish plans.isEmpty]

structure LaunchState where
  system : WorkSystem
  remaining : List LaunchOp

inductive LaunchState.Step (workFifoBytes : Nat) : LaunchState → LaunchState → Prop where
  | launch {system : WorkSystem} {plan : UploadPlan} {comm : WorkFifo} {work : UploadedWork} {rest : List LaunchOp}
      (uploaded : uploadWork workFifoBytes system.comm system.launched.length plan = some (comm, work)) :
      Step workFifoBytes ⟨system, .launch plan :: rest⟩
        ⟨⟨comm, system.launched ++ [⟨plan, work, system.comm.workFifoProduced, false⟩]⟩, rest⟩
  | finish {system : WorkSystem} (planQueueEmpty : Bool) {rest : List LaunchOp} :
      Step workFifoBytes ⟨system, .finish planQueueEmpty :: rest⟩
        ⟨{ system with comm := ncclLaunchFinish workFifoBytes system.comm planQueueEmpty system.launched.length }, rest⟩
  | kernel {system : WorkSystem} (kernel : Nat) {rest : List LaunchOp} :
      Step workFifoBytes ⟨system, rest⟩ ⟨system.finish kernel, rest⟩
  | callback {system : WorkSystem} {callback : EventCallback} {callbacks : List EventCallback} {rest : List LaunchOp}
      (queued : system.comm.eventCallbackQueue = callback :: callbacks) (reached : system.Reached callback.event) :
      Step workFifoBytes ⟨system, rest⟩ ⟨{ system with comm := system.comm.runCallback }, rest⟩

def LaunchState.Reachable (workFifoBytes : Nat) (groups : List (List UploadPlan)) (state : LaunchState) : Prop :=
  Relation.ReflTransGen (LaunchState.Step workFifoBytes) ⟨.initial, doLaunches groups⟩ state

/-- `waitWorkFifoAvailable` finds no room for the next plan. -/
def LaunchState.Waits (workFifoBytes : Nat) (state : LaunchState) (plan : UploadPlan) : Prop :=
  state.remaining.head? = some (.launch plan) ∧
    hasRoom workFifoBytes state.system.comm.workFifoConsumed
      (state.system.comm.workFifoProduced + BitVec.ofNat 32 plan.workBytes) = false

/-- A `KernelFinishCallback` is queued that, run after those before it, makes room. -/
def WorkFifo.CanRelease (workFifoBytes : Nat) (comm : WorkFifo) (desiredProduced : BitVec 32) : Prop :=
  ∃ n callback, comm.eventCallbackQueue[n]? = some callback ∧ callback.workFifoConsumed.isSome ∧
    hasRoom workFifoBytes (WorkFifo.runCallback^[n + 1] comm).workFifoConsumed desiredProduced = true

end NcclCore
