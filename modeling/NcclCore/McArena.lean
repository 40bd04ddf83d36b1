import NcclCore.Space

/-! `mc_arena.cc`: ranges of a multicast partition, handed out by an `ncclSpace`. A range
that is given up is first retired, to a queue in the order of the offsets, and freed once
all ranks have retired it. -/
namespace NcclCore

/-- `ncclMcArenaReg`. The link of the queue is the list that it is in. -/
structure McArenaReg where
  offset : Nat
  bindSize : Nat
  mcBaseAddress : Nat
  bound : Bool
  deriving DecidableEq

def McArenaReg.range (reg : McArenaReg) : Nat × Nat := (reg.offset, reg.bindSize)

/-- What the arena reads of an `ncclMcPartition`. -/
structure McPartition where
  ptr : Nat
  size : Nat
  minGranularity : Nat
  deriving DecidableEq

/-- `ncclMcArena`. -/
structure McArena where
  partition : McPartition
  ucGranularity : Nat
  space : List Nat
  retiredQueue : List McArenaReg
  hasNewRetiredSinceLastReclaim : Bool
  deriving DecidableEq

/-- `ncclMcRetiredReg`. -/
structure McRetiredReg where
  offset : Nat
  bindSize : Nat
  deriving DecidableEq

def McRetiredReg.range (reg : McRetiredReg) : Nat × Nat := (reg.offset, reg.bindSize)

def McArenaReg.retired (reg : McArenaReg) : McRetiredReg := ⟨reg.offset, reg.bindSize⟩

/-- `ncclMcBindStatus`. -/
inductive McBindStatus where
  | ok
  | noSupport
  | transient
  deriving DecidableEq

/-- `ncclMcPartitionTryBindAddr`: how the driver ends the bind is given, but a range beyond
the partition is not passed to it. -/
def ncclMcPartitionTryBindAddr (partition : McPartition) (offsetInPartition bindSize : Nat) (verdict : McBindStatus) :
    McBindStatus :=
  if partition.size < offsetInPartition + bindSize then .transient else verdict

def ncclMcArenaInit (partition : McPartition) (ucGranularity : Nat) : McArena where
  partition
  ucGranularity
  space := []
  retiredQueue := []
  hasNewRetiredSinceLastReclaim := false

def McArena.reserveSize (arena : McArena) (bindSize : Nat) : Nat := alignUp bindSize arena.partition.minGranularity

def ncclMcArenaDeregister (arena : McArena) (reg : McArenaReg) : McArena :=
  { arena with space := (ncclSpaceFree arena.space reg.offset (arena.reserveSize reg.bindSize)).2 }

section
variable {ι : Type} [DecidableEq ι]

/-- The first loop of `ncclMcArenaRegister`, over the requests that are left: whether all
could be reserved. -/
def reserveRanges (sizes : ι → Nat) : McArena → (ι → Option McArenaReg) → List ι →
    McArena × (ι → Option McArenaReg) × Bool
  | arena, outRegs, [] => (arena, outRegs, true)
  | arena, outRegs, i :: requests =>
    if sizes i = 0 then reserveRanges sizes arena outRegs requests
    else
      match ncclSpaceTryAlloc arena.space arena.partition.size (arena.reserveSize (sizes i))
        arena.partition.minGranularity with
      | (some offset, space) =>
        reserveRanges sizes { arena with space }
          (Function.update outRegs i (some ⟨offset, sizes i, arena.partition.ptr + offset, false⟩)) requests
      | (none, space) => ({ arena with space }, outRegs, false)

/-- The loop behind `fail`. -/
def unwind (outRegs : ι → Option McArenaReg) (arena : McArena) (requests : List ι) : McArena :=
  requests.foldl (fun arena i => match outRegs i with
    | none => arena
    | some reg => ncclMcArenaDeregister arena reg) arena

/-- The bind of one range, and its status. -/
def bindRange (partition : McPartition) (outReg : Option McArenaReg) (verdict : McBindStatus) :
    Option McArenaReg × McBindStatus :=
  match outReg with
  | none => (none, .transient)
  | some reg =>
    let status := ncclMcPartitionTryBindAddr partition reg.offset reg.bindSize verdict
    (some { reg with bound := status = .ok }, status)

/-- The records and statuses. The result of the function only tells whether all ranges
were bound. -/
def ncclMcArenaRegister (arena : McArena) (requests : List ι) (sizes : ι → Nat) (verdicts : ι → McBindStatus) :
    McArena × (ι → Option McArenaReg × McBindStatus) :=
  match reserveRanges sizes arena (fun _ => none) requests with
  | (arena, outRegs, true) => (arena, fun i => bindRange arena.partition (outRegs i) (verdicts i))
  | (arena, outRegs, false) => (unwind outRegs arena requests, fun _ => (none, .transient))

end

/-- `ncclIntruQueueInsertSorted` with `mcRetiredOffsetLess`. -/
def insertSorted (reg : McArenaReg) : List McArenaReg → List McArenaReg
  | [] => [reg]
  | cur :: queue => if cur.offset < reg.offset then cur :: insertSorted reg queue else reg :: cur :: queue

/-- The unbind may fail; the record is retired either way. -/
def ncclMcArenaRetireReg (arena : McArena) (reg : McArenaReg) : McArena :=
  { arena with
    retiredQueue := insertSorted { reg with bound := false } arena.retiredQueue
    hasNewRetiredSinceLastReclaim := true }

/-- Into an array of `cap` zeroed entries. -/
def ncclMcArenaRetiredSnapshot (arena : McArena) (cap : Nat) : List McRetiredReg :=
  let regs := (arena.retiredQueue.take cap).map McArenaReg.retired
  regs ++ List.replicate (cap - regs.length) ⟨0, 0⟩

/-- The walk of `ncclMcArenaReclaim` over the queue from `node` on: the space, what stays
in the queue, and the records that were freed. -/
def McArena.reclaimWalk (arena : McArena) : List Nat → List McArenaReg → List McRetiredReg →
    List Nat × List McArenaReg × List McArenaReg
  | space, queue, [] => (space, queue, [])
  | space, queue, reg :: regs =>
    let passed := queue.takeWhile (·.offset < reg.offset)
    match queue.dropWhile (·.offset < reg.offset) with
    | [] => (space, queue, [])
    | node :: next =>
      if node.offset ≠ reg.offset then
        let rest := arena.reclaimWalk space (node :: next) regs
        (rest.1, passed ++ rest.2.1, rest.2.2)
      else
        match ncclSpaceFree space node.offset (arena.reserveSize node.bindSize) with
        | (true, space) =>
          let rest := arena.reclaimWalk space next regs
          (rest.1, passed ++ rest.2.1, node :: rest.2.2)
        | (false, space) =>
          let rest := arena.reclaimWalk space next regs
          (rest.1, passed ++ node :: rest.2.1, rest.2.2)

/-- With the records that were freed; `outFreedBytes` is the sum of what was reserved for
them. -/
def ncclMcArenaReclaim (arena : McArena) (regs : List McRetiredReg) : McArena × List McArenaReg :=
  let walk := arena.reclaimWalk arena.space arena.retiredQueue regs
  ({ arena with space := walk.1, retiredQueue := walk.2.1, hasNewRetiredSinceLastReclaim := false }, walk.2.2)

end NcclCore
