import Mathlib.Algebra.Group.Nat.Even
import NcclCore.Lib.Blocks

/-! The barrier of the copy-engine collectives (`ncclMemOpSync` in `ce_coll.cc`).
Every rank has two arrays of flags, ready and complete, with one flag for each rank
of the LSA team. A barrier writes the flag of its rank on all others and waits for
theirs. The host numbers the barriers it issues, those it captures into a graph
too; what it puts on the stream is executed in order, and a write to another rank
takes effect some time later. -/
namespace NcclCore
open Lib Function

/-- `GRAPH_SYNC_VALUE`. -/
def graphSyncValue : UInt32 := 1

/-- The flags a copy writes: of one peer, or of all ranks through the multicast
address. -/
inductive CeFlagDst (n : Nat) where
  | peer (rank : Fin n)
  | multicast
  deriving DecidableEq

def CeFlagDst.hits (dst : CeFlagDst n) (rank : Fin n) : Bool :=
  match dst with
  | .peer other => other == rank
  | .multicast => true

/-- What a barrier puts on the stream. `isComplete` chooses the array. -/
inductive CeMemOp (n : Nat) where
  /-- `cuStreamWriteValue32` to `ceSeqNumDev[0]`. -/
  | storeSeq (value : UInt32)
  /-- `cudaMemcpyAsync` of `ceSeqNumDev[capturing]` to the rank's own flag elsewhere. -/
  | copyFlag (dst : CeFlagDst n) (isComplete capturing : Bool)
  /-- `CU_STREAM_MEM_OP_WAIT_VALUE_32` with `CU_STREAM_WAIT_VALUE_EQ`. -/
  | waitValue (isComplete : Bool) (slot : Fin n) (value : UInt32)
  /-- `CU_STREAM_MEM_OP_WRITE_VALUE_32`. -/
  | writeValue (isComplete : Bool) (slot : Fin n) (value : UInt32)

/-- All ranks but one, in order. -/
def otherRanks (self : Fin n) : List (Fin n) := (List.finRange n).filter (· != self)

/-- The waits of `ncclPrepMCSync` and `ncclPrepUCSync`. -/
def waitOps (self : Fin n) (isComplete capturing : Bool) (currentSeq : UInt32) : List (CeMemOp n) :=
  (otherRanks self).map fun r => .waitValue isComplete r (if capturing then graphSyncValue else currentSeq)

/-- The sequence number goes to the device first, unless the barrier is captured. -/
def storeSeqOps (capturing : Bool) (currentSeq : UInt32) : List (CeMemOp n) :=
  if !capturing then [.storeSeq currentSeq] else []

/-- `ncclPrepMCSync`. -/
def ncclPrepMCSync (self : Fin n) (isComplete capturing : Bool) (currentSeq : UInt32) : List (CeMemOp n) :=
  storeSeqOps capturing currentSeq ++ [.copyFlag .multicast isComplete capturing] ++
    waitOps self isComplete capturing currentSeq

/-- `ncclPrepUCSync`. -/
def ncclPrepUCSync (self : Fin n) (isComplete capturing : Bool) (currentSeq : UInt32) : List (CeMemOp n) :=
  storeSeqOps capturing currentSeq ++ (otherRanks self).map (fun r => .copyFlag (.peer r) isComplete capturing) ++
    waitOps self isComplete capturing currentSeq

/-- The part of `ncclCeColl` that the barrier uses. -/
structure CeSyncHost where
  ceSeqNum : UInt32
  useCompletePtr : Bool

/-- The operations of a barrier. -/
def syncOps (useMCSync : Bool) (self : Fin n) (isComplete capturing : Bool) (currentSeq : UInt32) : List (CeMemOp n) :=
  (if useMCSync then ncclPrepMCSync self isComplete capturing currentSeq
    else ncclPrepUCSync self isComplete capturing currentSeq) ++
    (if capturing then (List.finRange n).map fun i => .writeValue isComplete i 0 else [])

/-- `ncclMemOpSync`. -/
def ncclMemOpSync (useMCSync : Bool) (self : Fin n) (capturing : Bool) (host : CeSyncHost) :
    CeSyncHost × List (CeMemOp n) :=
  let currentSeq := host.ceSeqNum + 1
  ({ ceSeqNum := currentSeq, useCompletePtr := !host.useCompletePtr },
    syncOps useMCSync self host.useCompletePtr capturing currentSeq)

/-- The barriers of one collective, one after the other. -/
def memOpSyncs (useMCSync : Bool) (self : Fin n) (capturing : Bool) :
    Nat → CeSyncHost → CeSyncHost × List (List (CeMemOp n))
  | 0, host => (host, [])
  | count + 1, host =>
    let (next, ops) := ncclMemOpSync useMCSync self capturing host
    let (last, rest) := memOpSyncs useMCSync self capturing count next
    (last, ops :: rest)

/-- What the host does: it launches a collective, captures one into a graph, or
replays a captured one. A graph of several collectives replays them in turn. Every
collective holds an even number of barriers. -/
inductive CeLaunch where
  | eager (syncs : {count : Nat // Even count})
  | capture (syncs : {count : Nat // Even count})
  | replay (captured : Nat)

/-- The host of a rank, the captured collectives and what it put on the stream, one
block for each barrier. -/
structure CeHistory (n : Nat) where
  host : CeSyncHost
  graphs : List (List (List (CeMemOp n)))
  stream : List (List (CeMemOp n))

/-- The state after `ncclCeInit`. -/
def CeHistory.initial : CeHistory n := ⟨⟨0, false⟩, [], []⟩

def CeHistory.launch (useMCSync : Bool) (self : Fin n) (history : CeHistory n) : CeLaunch → CeHistory n
  | .eager syncs =>
    let (host, ops) := memOpSyncs useMCSync self false syncs history.host
    { history with host, stream := history.stream ++ ops }
  | .capture syncs =>
    let (host, ops) := memOpSyncs useMCSync self true syncs history.host
    { history with host, graphs := history.graphs ++ [ops] }
  | .replay captured => { history with stream := history.stream ++ history.graphs[captured]?.getD [] }

/-- The blocks of barriers that the launches put on the stream of a rank. -/
def ceStream (useMCSync : Bool) (launches : List CeLaunch) (self : Fin n) : List (List (CeMemOp n)) :=
  (launches.foldl (CeHistory.launch useMCSync self) .initial).stream

/-- A flag write on its way. -/
structure CeFlagWrite (n : Nat) where
  dst : CeFlagDst n
  isComplete : Bool
  value : UInt32

/-- A rank: how far its stream is, `ceSeqNumDev`, its two arrays of flags, and its
writes that have not taken effect, the oldest first. -/
structure CeSyncRank (n : Nat) where
  cursor : Cursor
  ceSeqNumDev : Bool → UInt32
  flags : Bool → Fin n → UInt32
  pending : List (CeFlagWrite n)

def CeSyncRank.initial : CeSyncRank n where
  cursor := ⟨0, 0⟩
  ceSeqNumDev := fun index => if index then graphSyncValue else 0
  flags := fun _ _ => 0
  pending := []

/-- A flag gets a value. -/
def CeSyncRank.setFlag (rank : CeSyncRank n) (isComplete : Bool) (slot : Fin n) (value : UInt32) : CeSyncRank n :=
  { rank with flags := update rank.flags isComplete (update (rank.flags isComplete) slot value) }

/-- An operation of the stream; `none` if it is a wait that has to go on. -/
def CeSyncRank.exec (rank : CeSyncRank n) : CeMemOp n → Option (CeSyncRank n)
  | .storeSeq value => some { rank with ceSeqNumDev := update rank.ceSeqNumDev false value }
  | .copyFlag dst isComplete capturing =>
    some { rank with pending := rank.pending ++ [⟨dst, isComplete, rank.ceSeqNumDev capturing⟩] }
  | .waitValue isComplete slot value => if rank.flags isComplete slot = value then some rank else none
  | .writeValue isComplete slot value => some (rank.setFlag isComplete slot value)

/-- A team and its streams. -/
abbrev CeSyncState (n : Nat) : Type := Fin n → CeSyncRank n

inductive CeSyncEvent (n : Nat) where
  /-- The stream of a rank executes its next operation. -/
  | exec (rank : Fin n)
  /-- The oldest write of a rank takes effect. -/
  | land (rank : Fin n)

/-- The next operation of a stream. -/
def execNext (streams : Fin n → List (List (CeMemOp n))) (state : CeSyncState n) (self : Fin n) :
    Option (CeSyncState n) := do
  let rank := state self
  let op ← rank.cursor.next? (streams self)
  let next ← rank.exec op
  return update state self { next with cursor := rank.cursor.advance (streams self) }

/-- The oldest write of `writer` takes effect where it goes. -/
def landNext (state : CeSyncState n) (writer : Fin n) : Option (CeSyncState n) :=
  match (state writer).pending with
  | [] => none
  | write :: rest =>
    let landed : CeSyncState n := fun rank =>
      if write.dst.hits rank then (state rank).setFlag write.isComplete writer write.value else state rank
    some (update landed writer { landed writer with pending := rest })

def ceSyncStep (streams : Fin n → List (List (CeMemOp n))) (state : CeSyncState n) :
    CeSyncEvent n → Option (CeSyncState n)
  | .exec rank => execNext streams state rank
  | .land rank => landNext state rank

/-- A run of the team. -/
def ceSyncRun (streams : Fin n → List (List (CeMemOp n))) (state : CeSyncState n) (events : List (CeSyncEvent n)) :
    Option (CeSyncState n) :=
  events.foldlM (ceSyncStep streams) state

end NcclCore
