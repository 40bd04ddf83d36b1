import NcclCore.P2pSchedule

/-! Sends and receives of one group, from the queues `p2pTaskAppend` fills to
the plans `ncclLaunchPrepare` builds from them. A plan takes tasks round by
round and stops wherever its budget is used up; the next plan goes on at the
same epoch and round. -/
namespace NcclCore
open Function

structure TaskP2p where
  buff : Nat
  bytes : Nat
  deriving DecidableEq

/-- One `p2pTaskAppend`. -/
structure P2pCall where
  isSendNotRecv : Bool
  peer : Nat
  task : TaskP2p

/-- The part of `ncclKernelPlanner` that holds p2p tasks, with the queues of all
peers. -/
structure P2pPlanner where
  sendQueue : Nat → List TaskP2p
  recvQueue : Nat → List TaskP2p
  nTasksP2p : Int
  nTasksP2pSend : Int
  nTasksP2pRecv : Int

namespace P2pPlanner

def empty : P2pPlanner := ⟨fun _ => [], fun _ => [], 0, 0, 0⟩

def p2pTaskAppend (planner : P2pPlanner) (call : P2pCall) : P2pPlanner :=
  if call.isSendNotRecv then
    { planner with
      sendQueue := update planner.sendQueue call.peer (planner.sendQueue call.peer ++ [call.task])
      nTasksP2p := planner.nTasksP2p + 1
      nTasksP2pSend := planner.nTasksP2pSend + 1 }
  else
    { planner with
      recvQueue := update planner.recvQueue call.peer (planner.recvQueue call.peer ++ [call.task])
      nTasksP2p := planner.nTasksP2p + 1
      nTasksP2pRecv := planner.nTasksP2pRecv + 1 }

def ofCalls (calls : List P2pCall) : P2pPlanner := calls.foldl p2pTaskAppend empty

/-- The head of a send queue is taken, if there is one. -/
def dequeueSend (planner : P2pPlanner) (peer : Nat) : P2pPlanner :=
  match planner.sendQueue peer with
  | [] => planner
  | _ :: rest =>
    { planner with
      sendQueue := update planner.sendQueue peer rest
      nTasksP2p := planner.nTasksP2p - 1
      nTasksP2pSend := planner.nTasksP2pSend - 1 }

/-- The head of a receive queue is taken, if there is one. -/
def dequeueRecv (planner : P2pPlanner) (peer : Nat) : P2pPlanner :=
  match planner.recvQueue peer with
  | [] => planner
  | _ :: rest =>
    { planner with
      recvQueue := update planner.recvQueue peer rest
      nTasksP2p := planner.nTasksP2p - 1
      nTasksP2pRecv := planner.nTasksP2pRecv - 1 }

end P2pPlanner

/-- What `addP2pToPlan` is given for one round; a direction without a task has
size -1 there. -/
structure P2pOp where
  p2pEpoch : Nat
  p2pRound : Nat
  sendRank : Nat
  recvRank : Nat
  send : Option TaskP2p
  recv : Option TaskP2p
  deriving DecidableEq

/-- The body of the loop over the rounds: the planner afterwards and what was
added to the plan, or none if the budget has no room for it. -/
def scheduleRound (rank : Nat) (hasRoom : Bool) (p2pEpoch p2pRound : Nat) (peers : P2pPeers) (planner : P2pPlanner) :
    Except NcclError (Option (P2pPlanner × List P2pOp)) :=
  let send := (planner.sendQueue peers.sendRank).head?
  let recv := (planner.recvQueue peers.recvRank).head?
  if send.isNone && recv.isNone then .ok (some (planner, []))
  else if peers.sendRank == rank && (send.isNone || recv.isNone) then .error .invalidUsage
  else if peers.sendRank == rank && send.map TaskP2p.buff == recv.map TaskP2p.buff then
    -- send to self in place
    .ok (some ((planner.dequeueSend peers.sendRank).dequeueRecv peers.recvRank, []))
  else if hasRoom then
    .ok (some ((planner.dequeueSend peers.sendRank).dequeueRecv peers.recvRank,
      [⟨p2pEpoch, p2pRound, peers.sendRank, peers.recvRank, send, recv⟩]))
  else .ok none

/-- The loop over the rounds that are left, from `p2pRound` on. It ends behind
the last round, or at a round for which the budget has no room. -/
def scheduleRounds (rank : Nat) (testBudget : List P2pOp → Bool) (p2pEpoch : Nat) :
    (left : List P2pPeers) → (p2pRound : Nat) → P2pPlanner → (plan : List P2pOp) →
      Except NcclError (Option Nat × P2pPlanner × List P2pOp)
  | [], _, planner, plan => .ok (none, planner, plan)
  | peers :: left, p2pRound, planner, plan =>
    match scheduleRound rank (testBudget plan) p2pEpoch p2pRound peers planner with
    | .error error => .error error
    | .ok none => .ok (some p2pRound, planner, plan)
    | .ok (some (planner, added)) =>
      scheduleRounds rank testBudget p2pEpoch left (p2pRound + 1) planner (plan ++ added)

/-- The variables `ncclLaunchPrepare` carries from one plan to the next. -/
structure P2pCursor where
  p2pEpoch : Nat
  p2pRound : Nat

/-- One plan. What `ncclTestBudget` answers may depend on all that the plan
holds already. The result is none if the loop has not ended after `fuel`
epochs. -/
def scheduleP2pTasksToPlan (rank : Nat) (p2pSchedule : List P2pPeers) (testBudget : List P2pOp → Bool) :
    (fuel : Nat) → P2pCursor → P2pPlanner → (plan : List P2pOp) →
      Except NcclError (Option (P2pCursor × P2pPlanner × List P2pOp))
  | 0, _, _, _ => .ok none
  | fuel + 1, cursor, planner, plan =>
    if planner.nTasksP2p = 0 then .ok (some (cursor, planner, plan))
    else
      match scheduleRounds rank testBudget cursor.p2pEpoch (p2pSchedule.drop cursor.p2pRound) cursor.p2pRound
          planner plan with
      | .error error => .error error
      | .ok (some p2pRound, planner, plan) => .ok (some (⟨cursor.p2pEpoch, p2pRound⟩, planner, plan))
      | .ok (none, planner, plan) =>
        scheduleP2pTasksToPlan rank p2pSchedule testBudget fuel ⟨cursor.p2pEpoch + 1, 0⟩ planner plan

/-- What a plan does for the p2p tasks. A plan without budget is one that still
drains other tasks and leaves these alone. -/
def planP2pTasks (rank : Nat) (p2pSchedule : List P2pPeers) (budget : Option (List P2pOp → Bool)) (fuel : Nat)
    (cursor : P2pCursor) (planner : P2pPlanner) : Except NcclError (Option (P2pCursor × P2pPlanner × List P2pOp)) :=
  match budget with
  | none => .ok (some (cursor, planner, []))
  | some testBudget => scheduleP2pTasksToPlan rank p2pSchedule testBudget fuel cursor planner []

/-- The loop of `ncclLaunchPrepare` over the plans, from the k-th on. -/
def launchPlans (rank : Nat) (p2pSchedule : List P2pPeers) (budgets : Nat → Option (List P2pOp → Bool)) :
    (fuel k : Nat) → P2pCursor → P2pPlanner → (plans : List (List P2pOp)) →
      Except NcclError (Option (P2pPlanner × List (List P2pOp)))
  | 0, _, _, _, _ => .ok none
  | fuel + 1, k, cursor, planner, plans =>
    match planP2pTasks rank p2pSchedule (budgets k) fuel cursor planner with
    | .error error => .error error
    | .ok none => .ok none
    | .ok (some (cursor, planner, plan)) =>
      if planner.nTasksP2p = 0 then .ok (some (planner, plans ++ [plan]))
      else launchPlans rank p2pSchedule budgets fuel (k + 1) cursor planner (plans ++ [plan])

def ncclLaunchPrepare (rank : Nat) (p2pSchedule : List P2pPeers) (budgets : Nat → Option (List P2pOp → Bool))
    (fuel : Nat) (planner : P2pPlanner) : Except NcclError (Option (P2pPlanner × List (List P2pOp))) :=
  if planner.nTasksP2p = 0 then .ok (some (planner, []))
  else launchPlans rank p2pSchedule budgets fuel 0 ⟨0, 0⟩ planner []

end NcclCore
