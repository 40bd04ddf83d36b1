import NcclCore.Bitops

/-! The all-to-all schedule every rank computes for itself at the end of
communicator initialisation. The layout is the one `initTransportsRank` derives
from the first ring rank each peer reports; the schedule is `ncclP2pSchedule`,
error branches included. -/
namespace NcclCore
open List

inductive NcclError where
  | internalError
  | invalidUsage
  | invalidArgument
  deriving DecidableEq

/-- The node assignment loop: `nodesFirstRank` collects the distinct first
ranks in order of discovery, and a rank's node is the position of its own. -/
def assignNode (found : List Nat × List Nat) (firstRank : Nat) : List Nat × List Nat :=
  let (nodesFirstRank, rankToNode) := found
  (if firstRank ∈ nodesFirstRank then nodesFirstRank else nodesFirstRank ++ [firstRank],
    rankToNode ++ [nodesFirstRank.idxOf firstRank])

/-- The part of a communicator that describes where its ranks live. -/
structure NodeLayout where
  nRanks : Nat
  nNodes : Nat
  rankToNode : List Nat

/-- Layout of a communicator whose peer `r` reported `firstRanks[r]`. -/
def NodeLayout.ofFirstRanks (firstRanks : List Nat) : NodeLayout :=
  let found := firstRanks.foldl assignNode ([], [])
  ⟨firstRanks.length, found.1.length, found.2⟩

namespace NodeLayout
variable (comm : NodeLayout)

/-- `nodeRanks[n].localRankToRank`: the ranks of a node, in increasing order. -/
def localRankToRank (node : Nat) : List Nat :=
  (range comm.nRanks).filter fun rank => comm.rankToNode.getD rank 0 = node

/-- `comm->nodeRanks`, one entry for each node. -/
def nodeRanks : List (List Nat) :=
  (range comm.nNodes).map comm.localRankToRank

/-- `comm->maxLocalRanks`. -/
def maxLocalRanks : Nat :=
  (comm.nodeRanks.map length).foldl max 0

/-- `comm->node`, as rank `rank` sees it. -/
def node (rank : Nat) : Nat := comm.rankToNode.getD rank 0

/-- `comm->localRank`: how many lower ranks share the node. -/
def localRank (rank : Nat) : Nat :=
  ((range rank).filter fun other => comm.rankToNode.getD other 0 = comm.node rank).length

end NodeLayout

/-- One round of the schedule: whom to send to, and whom to receive from. -/
structure P2pPeers where
  sendRank : Nat
  recvRank : Nat
  deriving DecidableEq

/-- The loop that shrinks `groupSize` until it divides every node. -/
def p2pSchedGroupSize (comm : NodeLayout) (paramGroupSize : Nat) : Nat :=
  comm.nodeRanks.foldl
    (fun groupSize ranks =>
      if ranks.length % groupSize ≠ 0 ∨ ranks.length < groupSize then Nat.gcd groupSize ranks.length
      else groupSize)
    (if 1 < comm.nNodes then paramGroupSize else comm.maxLocalRanks)

/-- `groupToNode` and `groupToLocal` together, filled node after node. -/
def groupTable (groupSize : Nat) : Nat → List (List Nat) → List (Nat × Nat)
  | _, [] => []
  | node, ranks :: rest =>
    (range (ranks.length / groupSize)).map (fun group => (node, group * groupSize)) ++
      groupTable groupSize (node + 1) rest

/-- The groups on the nodes before `node`, added to this rank's own. -/
def groupIndex (comm : NodeLayout) (groupSize rank : Nat) : Nat :=
  comm.localRank rank / groupSize +
    ((comm.nodeRanks.take (comm.node rank)).map fun ranks => ranks.length / groupSize).sum

/-- The rank found at `offset` inside a group. -/
def rankInGroup (comm : NodeLayout) (table : List (Nat × Nat)) (group offset : Nat) : Nat :=
  let (node, first) := table.getD group (0, 0)
  (comm.nodeRanks.getD node []).getD (first + offset) 0

/-- The rounds of one group delta: the inner loop over `delta`. -/
def groupDeltaRounds (comm : NodeLayout) (table : List (Nat × Nat))
    (groupSize nGroups group localId groupDelta : Nat) : List P2pPeers :=
  let sendGroup := (group + groupDelta) % nGroups
  let recvGroup := (group + nGroups - groupDelta) % nGroups
  (range groupSize).map fun delta =>
    { sendRank := rankInGroup comm table sendGroup ((localId + delta) % groupSize)
      recvRank := rankInGroup comm table recvGroup ((localId + groupSize - delta) % groupSize) }

/-- The `do ... while (groupRound != nGroupsPow2)` loop over the quadratic
deltas. `left` counts the iterations still to come. -/
def groupRounds (nGroups nGroupsPow2 : Nat) (rounds : Nat → List P2pPeers) :
    (left groupRound groupDelta : Nat) → List P2pPeers
  | 0, _, _ => []
  | left + 1, groupRound, groupDelta =>
    (if groupDelta < nGroups then rounds groupDelta else []) ++
      groupRounds nGroups nGroupsPow2 rounds left (groupRound + 1)
        ((groupDelta + (groupRound + 1)) &&& (nGroupsPow2 - 1))

/-- `ncclP2pSchedule`, as computed by `rank`. -/
def ncclP2pSchedule (comm : NodeLayout) (paramGroupSize rank : Nat) :
    Except NcclError (List P2pPeers) :=
  let groupSize := p2pSchedGroupSize comm paramGroupSize
  let localId := comm.localRank rank % groupSize
  let nGroups := comm.nRanks / groupSize
  let nGroupsPow2 := pow2Up nGroups
  if comm.nodeRanks.any (fun ranks => ranks.length % groupSize != 0) then .error .internalError
  else
    let table := groupTable groupSize 0 comm.nodeRanks
    if table.length ≠ nGroups then .error .internalError
    else
      let group := groupIndex comm groupSize rank
      let schedule := groupRounds nGroups nGroupsPow2
        (groupDeltaRounds comm table groupSize nGroups group localId) nGroupsPow2 0 0
      if schedule.length ≠ comm.nRanks then .error .internalError else .ok schedule

/-- The schedules of `nRanks` ranks fit together: over the rounds every rank
meets every other exactly once in each direction, in each round the sends form
a permutation, both ends of a transfer name the same round, and the first
round is spent with oneself. -/
structure ConsistentSchedule (nRanks : Nat) (schedule : Nat → List P2pPeers) : Prop where
  length : ∀ rank < nRanks, (schedule rank).length = nRanks
  sendRow : ∀ rank < nRanks, ((schedule rank).map P2pPeers.sendRank).Perm (range nRanks)
  recvRow : ∀ rank < nRanks, ((schedule rank).map P2pPeers.recvRank).Perm (range nRanks)
  column : ∀ round < nRanks,
    ((range nRanks).map fun rank => ((schedule rank).getD round ⟨0, 0⟩).sendRank).Perm (range nRanks)
  matched : ∀ i < nRanks, ∀ j < nRanks, ∀ round < nRanks,
    ((schedule i).getD round ⟨0, 0⟩).sendRank = j ↔ ((schedule j).getD round ⟨0, 0⟩).recvRank = i
  selfFirst : ∀ rank < nRanks, (schedule rank).head? = some ⟨rank, rank⟩

end NcclCore
