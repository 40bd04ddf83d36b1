import Mathlib.Data.List.Basic
import Mathlib.Logic.Relation

/-! How the main threads of the local ranks hand proxy operations to the progress
thread. The slots of all ranks lie in one shared array, and every list of slots is
threaded through it by index. A rank takes a slot from its own free list, or takes over
the whole shared one with an exchange; it chains operations privately and posts them
under a mutex. The progress thread takes the posted chain, appends its operations in
batches, and gives every slot back to the rank it belongs to. The index -1 is `none`. -/
namespace NcclCore
open Function

/-- `MAX_OPS_PER_PEER`. -/
def maxOpsPerPeer : Nat := 2 * 64 * 2 * 8

/-- `ncclProxyOpsPool`. A slot that was never written holds no operation. -/
structure OpsPool (α : Type) where
  next : Nat → Option Nat
  op : Nat → Option α
  nextOps : Option Nat
  nextOpsEnd : Option Nat
  freeOps : Nat → Option Nat

/-- `ncclProxyOps`, and whether its thread is about to post because the chain is
full. -/
structure PeerOps where
  count : Nat
  freeOp : Option Nat
  nextOps : Option Nat
  nextOpsEnd : Option Nat
  full : Bool

/-- The locals of `ncclProxyGetPostedOps`. `returning` is the index of the loop that
gives the slots back. -/
structure PostedPass where
  freeOp : Nat → Option Nat
  freeOpEnd : Nat → Option Nat
  lastOpCount : Nat
  lastPeer : Option Nat
  count : Nat
  returning : Option Nat

/-- The progress thread: the point to resume from, and the pass it is in. -/
structure ProgressState where
  nextOps : Option Nat
  pass : Option PostedPass

/-- The threads, with what every rank has appended and what was delivered. -/
structure ProxySystem (α : Type) where
  pool : OpsPool α
  ranks : Nat → PeerOps
  progress : ProgressState
  submitted : Nat → List α
  delivered : List (Nat × α)

section
variable {α : Type}

/-! ### Main threads -/

section
variable (pool : OpsPool α)

/-- `ncclProxyPost`. -/
def ncclProxyPost (nextOps nextOpsEnd : Option Nat) : OpsPool α :=
  match pool.nextOps, pool.nextOpsEnd with
  | none, _ => { pool with nextOps := nextOps, nextOpsEnd := nextOpsEnd }
  | some _, some last => { pool with next := update pool.next last nextOps, nextOpsEnd := nextOpsEnd }
  | some _, none => { pool with nextOpsEnd := nextOpsEnd }

/-- A free slot: from the list of the thread, or else from the shared list, which is
exchanged for an empty one. None while that is empty too. -/
def takeFreeOp (rank : Nat) (ops : PeerOps) : Option (Nat × OpsPool α × PeerOps) :=
  match ops.freeOp with
  | some opIndex => some (opIndex, pool, { ops with freeOp := pool.next opIndex })
  | none =>
    match pool.freeOps rank with
    | some opIndex =>
      some (opIndex, { pool with freeOps := update pool.freeOps rank none },
        { ops with freeOp := pool.next opIndex })
    | none => none

/-- The slot is filled and put at the end of the chain. -/
def chainOp (ops : PeerOps) (opIndex : Nat) (proxyOp : α) : OpsPool α × PeerOps :=
  let pool := { pool with
    op := update pool.op opIndex (some proxyOp)
    next := update pool.next opIndex none }
  let count := ops.count + 1
  let full := decide (count = maxOpsPerPeer)
  match ops.nextOps, ops.nextOpsEnd with
  | some _, some last =>
    ({ pool with next := update pool.next last (some opIndex) },
      { ops with nextOpsEnd := some opIndex, count, full })
  | some _, none => (pool, { ops with nextOpsEnd := some opIndex, count, full })
  | none, _ => (pool, { ops with nextOps := some opIndex, nextOpsEnd := some opIndex, count, full })

/-- `ncclLocalOpAppend` up to the test for a full chain. -/
def ncclLocalOpAppend (rank : Nat) (ops : PeerOps) (proxyOp : α) :
    Option (OpsPool α × PeerOps) :=
  (takeFreeOp pool rank ops).map fun (opIndex, pool, ops) => chainOp pool ops opIndex proxyOp

end

/-- The loop over the chain that looks for the last operation with another `opCount`
than the end of the chain. -/
def findLastOp (opCount : α → Nat) (pool : OpsPool α) (nextOpsEnd : Option Nat) :
    (fuel : Nat) → (op : Option Nat) → (ops : Nat) → (lastOp : Option Nat) → (toSend : Nat) → Option Nat × Nat
  | 0, _, _, lastOp, toSend => (lastOp, toSend)
  | fuel + 1, op, ops, lastOp, toSend =>
    if op = nextOpsEnd then (lastOp, toSend)
    else
      match op with
      | none => (lastOp, toSend)
      | some opIndex =>
        if (pool.op opIndex).map opCount ≠ (nextOpsEnd.bind pool.op).map opCount then
          findLastOp opCount pool nextOpsEnd fuel (pool.next opIndex) (ops + 1) (some opIndex) (ops + 1)
        else findLastOp opCount pool nextOpsEnd fuel (pool.next opIndex) (ops + 1) lastOp toSend

/-- The rest of `ncclLocalOpAppend` for a full chain, which is cut behind the last
operation that can be posted. None is an internal error. -/
def postFullChain (opCount : α → Nat) (pool : OpsPool α) (ops : PeerOps) : Option (OpsPool α × PeerOps) :=
  match findLastOp opCount pool ops.nextOpsEnd ops.count ops.nextOps 0 none 0 with
  | (none, _) => none
  | (some lastOp, toSend) =>
    let cut := { pool with next := update pool.next lastOp none }
    some (ncclProxyPost cut ops.nextOps (some lastOp),
      { ops with nextOps := pool.next lastOp, count := ops.count - toSend })

/-- `ncclProxyStart` for the pool. -/
def ncclProxyStart (pool : OpsPool α) (ops : PeerOps) : OpsPool α × PeerOps :=
  if ops.nextOps = none then (pool, ops)
  else (ncclProxyPost pool ops.nextOps ops.nextOpsEnd, { ops with nextOps := none, nextOpsEnd := none, count := 0 })

/-! ### The progress thread -/

def PostedPass.initial : PostedPass := ⟨fun _ => none, fun _ => none, 0, none, 0, none⟩

/-- The posted chain is taken, unless there is one to resume. -/
def takePostedOps (pool : OpsPool α) (progress : ProgressState) : OpsPool α × ProgressState :=
  match progress.nextOps with
  | some opIndex => (pool, ⟨some opIndex, some .initial⟩)
  | none => ({ pool with nextOps := none, nextOpsEnd := none }, ⟨pool.nextOps, some .initial⟩)

/-- `count` when an operation is looked at. -/
def PostedPass.countFor (pass : PostedPass) (peer opCount : Nat) : Nat :=
  if (pass.lastOpCount ≠ 0 ∧ opCount ≠ pass.lastOpCount) ∨ (pass.lastPeer ≠ none ∧ some peer ≠ pass.lastPeer)
    then pass.count + 1 else pass.count

/-- A slot goes in front of those that will be given back to its rank. -/
def freePeerOp (pool : OpsPool α) (pass : PostedPass) (opIndex : Nat) : OpsPool α × PostedPass :=
  match pass.freeOp (opIndex / maxOpsPerPeer) with
  | none =>
    (pool, { pass with
      freeOpEnd := update pass.freeOpEnd (opIndex / maxOpsPerPeer) (some opIndex)
      freeOp := update pass.freeOp (opIndex / maxOpsPerPeer) (some opIndex) })
  | some first =>
    ({ pool with next := update pool.next opIndex (some first) },
      { pass with freeOp := update pass.freeOp (opIndex / maxOpsPerPeer) (some opIndex) })

/-- An operation was appended. -/
def consumeOp (opCount : α → Nat) (pool : OpsPool α) (pass : PostedPass) (opIndex : Nat) (peerOp : α) :
    OpsPool α × ProgressState :=
  let freed := freePeerOp pool { pass with
    count := pass.countFor (opIndex / maxOpsPerPeer) (opCount peerOp)
    lastOpCount := opCount peerOp
    lastPeer := some (opIndex / maxOpsPerPeer) } opIndex
  (freed.1, ⟨pool.next opIndex, some freed.2⟩)

/-- The exchange that puts the list of a rank in front of its `freeOps`. -/
def returnOps (pool : OpsPool α) (pass : PostedPass) (peer newFree last : Nat) : OpsPool α × PostedPass :=
  ({ pool with
      next := update pool.next last (pool.freeOps peer)
      freeOps := update pool.freeOps peer (some newFree) },
    { pass with returning := some (peer + 1) })

end

/-! ### Interleavings -/

namespace ProxySystem
variable {α : Type}

/-- The pool as `ncclProxyProgressInit` leaves it, for this many local ranks. -/
def initial (localRanks : Nat) : ProxySystem α where
  pool := {
    next := fun opIndex => if (opIndex + 1) % maxOpsPerPeer = 0 then none else some (opIndex + 1)
    op := fun _ => none
    nextOps := none
    nextOpsEnd := some 0
    freeOps := fun rank => if rank < localRanks then some (rank * maxOpsPerPeer) else none }
  ranks := fun _ => ⟨0, none, none, none, false⟩
  progress := ⟨none, none⟩
  submitted := fun _ => []
  delivered := []

def withRank (system : ProxySystem α) (rank : Nat) (result : OpsPool α × PeerOps) : ProxySystem α :=
  { system with pool := result.1, ranks := update system.ranks rank result.2 }

/-- One atomic step of a main thread, or of the progress thread. -/
inductive Step (opCount : α → Nat) (localRanks : Nat) (batchSize : Int) : ProxySystem α → ProxySystem α → Prop where
  /-- An operation is appended to the chain of a rank. -/
  | append {system : ProxySystem α} {rank : Nat} {result : OpsPool α × PeerOps} (proxyOp : α)
      (isRank : rank < localRanks) (ready : (system.ranks rank).full = false)
      (done : ncclLocalOpAppend system.pool rank (system.ranks rank) proxyOp = some result) :
      Step opCount localRanks batchSize system { system.withRank rank result with
        submitted := update system.submitted rank (system.submitted rank ++ [proxyOp]) }
  /-- A full chain is posted but for its end. -/
  | postFull {system : ProxySystem α} {rank : Nat} {result : OpsPool α × PeerOps} (isRank : rank < localRanks)
      (full : (system.ranks rank).full = true)
      (done : postFullChain opCount system.pool (system.ranks rank) = some result) :
      Step opCount localRanks batchSize system (system.withRank rank (result.1, { result.2 with full := false }))
  /-- A full chain cannot be posted; the append returns an error. -/
  | postError {system : ProxySystem α} {rank : Nat} (isRank : rank < localRanks)
      (full : (system.ranks rank).full = true) (failed : postFullChain opCount system.pool (system.ranks rank) = none) :
      Step opCount localRanks batchSize system
        (system.withRank rank (system.pool, { system.ranks rank with full := false }))
  /-- The chain of a rank is posted. -/
  | start {system : ProxySystem α} {rank : Nat} (isRank : rank < localRanks) (ready : (system.ranks rank).full = false) :
      Step opCount localRanks batchSize system
        (system.withRank rank (ncclProxyStart system.pool (system.ranks rank)))
  /-- The progress thread begins a pass. -/
  | take {system : ProxySystem α} (idle : system.progress.pass = none) :
      Step opCount localRanks batchSize system
        { system with
          pool := (takePostedOps system.pool system.progress).1
          progress := (takePostedOps system.pool system.progress).2 }
  /-- An operation is appended to those in progress. -/
  | consume {system : ProxySystem α} {pass : PostedPass} {opIndex : Nat} {peerOp : α}
      (inPass : system.progress.pass = some pass) (consuming : pass.returning = none)
      (next : system.progress.nextOps = some opIndex) (found : system.pool.op opIndex = some peerOp)
      (more : (pass.countFor (opIndex / maxOpsPerPeer) (opCount peerOp) : Int) ≠ batchSize + 1) :
      Step opCount localRanks batchSize system
        { system with
          pool := (consumeOp opCount system.pool pass opIndex peerOp).1
          progress := (consumeOp opCount system.pool pass opIndex peerOp).2
          delivered := system.delivered ++ [(opIndex / maxOpsPerPeer, peerOp)] }
  /-- The chain or the batch is at its end. -/
  | stop {system : ProxySystem α} {pass : PostedPass} (inPass : system.progress.pass = some pass)
      (consuming : pass.returning = none)
      (last : ∀ opIndex peerOp, system.progress.nextOps = some opIndex → system.pool.op opIndex = some peerOp →
        (pass.countFor (opIndex / maxOpsPerPeer) (opCount peerOp) : Int) = batchSize + 1) :
      Step opCount localRanks batchSize system
        { system with progress := { system.progress with pass := some { pass with returning := some 0 } } }
  /-- A rank has nothing to be given back. -/
  | skip {system : ProxySystem α} {pass : PostedPass} {peer : Nat} (inPass : system.progress.pass = some pass)
      (returning : pass.returning = some peer) (isRank : peer < localRanks) (nothing : pass.freeOp peer = none) :
      Step opCount localRanks batchSize system
        { system with progress := { system.progress with pass := some { pass with returning := some (peer + 1) } } }
  /-- The comparison fails: the end was linked to a value that is no longer there. -/
  | retry {system : ProxySystem α} {pass : PostedPass} {peer newFree last : Nat} (oldFree : Option Nat)
      (inPass : system.progress.pass = some pass) (returning : pass.returning = some peer) (isRank : peer < localRanks)
      (first : pass.freeOp peer = some newFree) (final : pass.freeOpEnd peer = some last) :
      Step opCount localRanks batchSize system
        { system with pool := { system.pool with next := update system.pool.next last oldFree } }
  /-- The slots of a rank are given back. -/
  | giveBack {system : ProxySystem α} {pass : PostedPass} {peer newFree last : Nat}
      (inPass : system.progress.pass = some pass) (returning : pass.returning = some peer) (isRank : peer < localRanks)
      (first : pass.freeOp peer = some newFree) (final : pass.freeOpEnd peer = some last) :
      Step opCount localRanks batchSize system
        { system with
          pool := (returnOps system.pool pass peer newFree last).1
          progress := { system.progress with pass := some (returnOps system.pool pass peer newFree last).2 } }
  /-- The pass is over. -/
  | leave {system : ProxySystem α} {pass : PostedPass} (inPass : system.progress.pass = some pass)
      (returning : pass.returning = some localRanks) :
      Step opCount localRanks batchSize system { system with progress := { system.progress with pass := none } }

def Reachable (opCount : α → Nat) (localRanks : Nat) (batchSize : Int) (system : ProxySystem α) : Prop :=
  Relation.ReflTransGen (Step opCount localRanks batchSize) (initial localRanks) system

end ProxySystem

/-! ### Where the slots are -/

/-- The lists a slot can be in: the free list of a rank and the one it shares with the
progress thread, the chain it appends to, the posted chain, the chain being consumed, and
the slots of a rank that were consumed in this pass and not given back yet. -/
inductive SlotPlace where
  | free (rank : Nat)
  | shared (rank : Nat)
  | pending (rank : Nat)
  | posted
  | consuming
  | consumed (rank : Nat)
  deriving DecidableEq

namespace SlotPlace

/-- The slots of this rank can be here. -/
def Admits (rank : Nat) : SlotPlace → Prop
  | free owner | shared owner | pending owner | consumed owner => owner = rank
  | posted | consuming => True

/-- The last slot of the list may still point to an earlier follower. -/
def Dangling : SlotPlace → Prop
  | consumed _ => True
  | _ => False

end SlotPlace

/-- The first slot of a rank that waits to be given back. -/
def PostedPass.held (pass : PostedPass) (rank : Nat) : Option Nat :=
  match pass.returning with
  | some peer => if rank < peer then none else pass.freeOp rank
  | none => pass.freeOp rank

namespace ProxySystem
variable {α : Type}

/-- Where the list of a place begins. -/
def head (system : ProxySystem α) : SlotPlace → Option Nat
  | .free rank => (system.ranks rank).freeOp
  | .shared rank => system.pool.freeOps rank
  | .pending rank => (system.ranks rank).nextOps
  | .posted => system.pool.nextOps
  | .consuming => system.progress.nextOps
  | .consumed rank => system.progress.pass.bind (·.held rank)

/-- The operations of a rank that were delivered. -/
def deliveredOps (system : ProxySystem α) (rank : Nat) : List α :=
  (system.delivered.filter (·.1 = rank)).map (·.2)

/-- The slots with operations of a rank that are still to be delivered, in order. -/
def inFlight (slots : SlotPlace → List Nat) (rank : Nat) : List Nat :=
  (slots .consuming ++ slots .posted).filter (· / maxOpsPerPeer = rank) ++ slots (.pending rank)

end NcclCore.ProxySystem
