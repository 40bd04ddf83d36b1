import Mathlib.Algebra.Order.BigOperators.Group.Finset
import Mathlib.Data.List.GetD
import NcclCore.P2pTasks
import NcclCore.Lib.Digits

/-! Where a task is scheduled does not depend on the budgets. The k-th task for
a peer is taken in epoch k, in the round that serves this peer, so the two ends
of a transfer agree on both, whatever other tasks a rank has and wherever its
plans are cut. -/
namespace NcclCore.P2pTasksProofs
open Lib Function List P2pPlanner Option

/-! ### The counters -/

/-- The number of tasks in the queues of `nRanks` peers. -/
def queued (nRanks : Nat) (queues : Nat → List TaskP2p) : Int :=
  ∑ peer ∈ Finset.range nRanks, ((queues peer).length : Int)

theorem queued_update (inside : peer < nRanks) (queues : Nat → List TaskP2p) (queue : List TaskP2p) :
    queued nRanks (update queues peer queue) = queued nRanks queues + (queue.length - (queues peer).length) := by
  have member := Finset.mem_range.mpr inside
  have others : ∑ other ∈ (Finset.range nRanks).erase peer, ((update queues peer queue other).length : Int) =
      ∑ other ∈ (Finset.range nRanks).erase peer, ((queues other).length : Int) :=
    Finset.sum_congr rfl fun other apart => by rw [update_of_ne (Finset.ne_of_mem_erase apart)]
  rw [queued, queued, ← Finset.add_sum_erase _ _ member, ← Finset.add_sum_erase _ _ member, update_self]
  omega

theorem queued_eq_zero (outside : ∀ peer, nRanks ≤ peer → queues peer = []) :
    queued nRanks queues = 0 ↔ ∀ peer, queues peer = [] := by
  rw [queued, Finset.sum_eq_zero_iff_of_nonneg fun _ _ => Int.natCast_nonneg _]
  constructor
  · intro zero peer
    by_cases inside : peer < nRanks
    · exact length_eq_zero_iff.mp (Int.ofNat_eq_zero.mp (zero peer (Finset.mem_range.mpr inside)))
    · exact outside peer (Nat.not_lt.mp inside)
  · intro empty peer _
    rw [empty peer]
    rfl

/-- The counters of the planner count its queues. -/
structure Counted (nRanks : Nat) (planner : P2pPlanner) : Prop where
  sends : planner.nTasksP2pSend = queued nRanks planner.sendQueue
  recvs : planner.nTasksP2pRecv = queued nRanks planner.recvQueue
  all : planner.nTasksP2p = planner.nTasksP2pSend + planner.nTasksP2pRecv
  sendPeers : ∀ peer, nRanks ≤ peer → planner.sendQueue peer = []
  recvPeers : ∀ peer, nRanks ≤ peer → planner.recvQueue peer = []

section
variable {nRanks : Nat} {planner : P2pPlanner}

theorem dequeueSend_queues (planner : P2pPlanner) (peer : Nat) :
    (planner.dequeueSend peer).sendQueue = update planner.sendQueue peer (planner.sendQueue peer).tail ∧
      (planner.dequeueSend peer).recvQueue = planner.recvQueue := by
  unfold dequeueSend
  split
  next empty =>
    rw [empty, tail_nil, ← empty, update_eq_self]
    exact ⟨rfl, rfl⟩
  next rest waiting =>
    rw [waiting]
    exact ⟨rfl, rfl⟩

theorem dequeueRecv_queues (planner : P2pPlanner) (peer : Nat) :
    (planner.dequeueRecv peer).recvQueue = update planner.recvQueue peer (planner.recvQueue peer).tail ∧
      (planner.dequeueRecv peer).sendQueue = planner.sendQueue := by
  unfold dequeueRecv
  split
  next empty =>
    rw [empty, tail_nil, ← empty, update_eq_self]
    exact ⟨rfl, rfl⟩
  next rest waiting =>
    rw [waiting]
    exact ⟨rfl, rfl⟩

private theorem update_outside (inside : peer < nRanks) (outside : ∀ other, nRanks ≤ other → queues other = [])
    (queue : List TaskP2p) : ∀ other, nRanks ≤ other → update queues peer queue other = [] := by
  intro other far
  rw [update_of_ne (ne_of_gt (inside.trans_le far))]
  exact outside other far

private theorem peer_inside {queues : Nat → List TaskP2p} {peer : Nat} {task : TaskP2p} {rest : List TaskP2p}
    (outside : ∀ other, nRanks ≤ other → queues other = []) (waiting : queues peer = task :: rest) : peer < nRanks := by
  by_contra far
  rw [outside peer (Nat.not_lt.mp far)] at waiting
  cases waiting

theorem Counted.dequeueSend (counted : Counted nRanks planner) (peer : Nat) :
    Counted nRanks (planner.dequeueSend peer) := by
  unfold P2pPlanner.dequeueSend
  split
  · exact counted
  next task rest waiting =>
    have inside := peer_inside counted.sendPeers waiting
    refine ⟨?_, counted.recvs, ?_, update_outside inside counted.sendPeers rest, counted.recvPeers⟩
    · rw [queued_update inside, waiting, ← counted.sends]
      simp only [length_cons]
      omega
    · have := counted.all
      simp only
      omega

theorem Counted.dequeueRecv (counted : Counted nRanks planner) (peer : Nat) :
    Counted nRanks (planner.dequeueRecv peer) := by
  unfold P2pPlanner.dequeueRecv
  split
  · exact counted
  next task rest waiting =>
    have inside := peer_inside counted.recvPeers waiting
    refine ⟨counted.sends, ?_, ?_, counted.sendPeers, update_outside inside counted.recvPeers rest⟩
    · rw [queued_update inside, waiting, ← counted.recvs]
      simp only [length_cons]
      omega
    · have := counted.all
      simp only
      omega

theorem Counted.append (counted : Counted nRanks planner) (inside : call.peer < nRanks) :
    Counted nRanks (planner.p2pTaskAppend call) := by
  have all := counted.all
  unfold p2pTaskAppend
  split
  · refine ⟨?_, counted.recvs, ?_, update_outside inside counted.sendPeers _, counted.recvPeers⟩
    · rw [queued_update inside, ← counted.sends]
      simp
    · simp only
      omega
  · refine ⟨counted.sends, ?_, ?_, counted.sendPeers, update_outside inside counted.recvPeers _⟩
    · rw [queued_update inside, ← counted.recvs]
      simp
    · simp only
      omega

theorem counted_ofCalls (inside : ∀ call ∈ calls, call.peer < nRanks) : Counted nRanks (.ofCalls calls) := by
  have start : Counted nRanks .empty := by
    refine ⟨?_, ?_, rfl, fun _ _ => rfl, fun _ _ => rfl⟩ <;> simp [empty, queued]
  exact calls.foldlRecOn _ start fun _ counted call member => counted.append (inside call member)

theorem queued_nonneg (nRanks : Nat) (queues : Nat → List TaskP2p) : 0 ≤ queued nRanks queues :=
  Finset.sum_nonneg fun _ _ => Int.natCast_nonneg _

/-- The counters are zero exactly if the queues are empty. -/
structure ZeroWhenEmpty (planner : P2pPlanner) : Prop where
  sends : planner.nTasksP2pSend = 0 ↔ ∀ peer, planner.sendQueue peer = []
  recvs : planner.nTasksP2pRecv = 0 ↔ ∀ peer, planner.recvQueue peer = []
  all : planner.nTasksP2p = 0 ↔ ∀ peer, planner.sendQueue peer = [] ∧ planner.recvQueue peer = []

theorem Counted.zeroWhenEmpty (counted : Counted nRanks planner) : ZeroWhenEmpty planner := by
  have sends : planner.nTasksP2pSend = 0 ↔ ∀ peer, planner.sendQueue peer = [] := by
    rw [counted.sends]
    exact queued_eq_zero counted.sendPeers
  have recvs : planner.nTasksP2pRecv = 0 ↔ ∀ peer, planner.recvQueue peer = [] := by
    rw [counted.recvs]
    exact queued_eq_zero counted.recvPeers
  refine ⟨sends, recvs, ?_⟩
  have sendsNonneg := counted.sends ▸ queued_nonneg nRanks planner.sendQueue
  have recvsNonneg := counted.recvs ▸ queued_nonneg nRanks planner.recvQueue
  rw [forall_and, ← sends, ← recvs, counted.all]
  omega

end

/-- Some round was served. -/
def RoundStep (rank : Nat) (schedule : List P2pPeers) (planner planner' : P2pPlanner) : Prop :=
  ∃ hasRoom epoch round, ∃ peers ∈ schedule, ∃ added,
    scheduleRound rank hasRoom epoch round peers planner = .ok (some (planner', added))

theorem Counted.roundStep (counted : Counted nRanks planner) (step : RoundStep rank schedule planner planner') :
    Counted nRanks planner' := by
  obtain ⟨hasRoom, epoch, round, peers, -, added, served⟩ := step
  have taken := (counted.dequeueSend peers.sendRank).dequeueRecv peers.recvRank
  unfold scheduleRound at served
  dsimp only at served
  split at served
  · cases served
    exact counted
  · split at served
    · cases served
    · split at served
      · cases served
        exact taken
      · split at served <;> cases served
        exact taken

/-- Along every run of rounds the counters are zero exactly if the queues are
empty. -/
theorem Counted.reached (counted : Counted nRanks planner)
    (steps : Relation.ReflTransGen (RoundStep rank schedule) planner planner') : Counted nRanks planner' := by
  induction steps with
  | refl => exact counted
  | tail _ step ih => exact ih.roundStep step

/-! ### One rank -/

/-- A rank with its row of the schedule and the tasks of a group. It meets every
peer once in each direction, itself in one and the same round, and has as many
sends to itself as receives. -/
structure RankView where
  nRanks : Nat
  rank : Nat
  schedule : List P2pPeers
  sends : Nat → List TaskP2p
  recvs : Nat → List TaskP2p
  length_eq : schedule.length = nRanks
  sendRow : (schedule.map P2pPeers.sendRank).Perm (range nRanks)
  recvRow : (schedule.map P2pPeers.recvRank).Perm (range nRanks)
  selfRound : ∀ peers ∈ schedule, peers.sendRank = rank ↔ peers.recvRank = rank
  selfPaired : (sends rank).length = (recvs rank).length
  sendPeers : ∀ peer, nRanks ≤ peer → sends peer = []
  recvPeers : ∀ peer, nRanks ≤ peer → recvs peer = []

/-- Plans with room keep coming. -/
def Fair (budgets : Nat → Option (List P2pOp → Bool)) : Prop :=
  ∀ k, ∃ later ≥ k, ∃ testBudget, budgets later = some testBudget ∧ testBudget [] = true

namespace RankView
variable (view : RankView) {round : Nat}

def peersAt (round : Nat) : P2pPeers := view.schedule.getD round ⟨0, 0⟩

/-- The planner when the tasks of a round are taken. -/
def serve (planner : P2pPlanner) (round : Nat) : P2pPlanner :=
  (planner.dequeueSend (view.peersAt round).sendRank).dequeueRecv (view.peersAt round).recvRank

/-- No queue has tasks beyond these epochs. -/
def Short (epochs : Nat) : Prop := ∀ peer, (view.sends peer).length ≤ epochs ∧ (view.recvs peer).length ≤ epochs

/-- The rounds that are served take a planner to another. -/
def Reaches : P2pPlanner → P2pPlanner → Prop := Relation.ReflTransGen (RoundStep view.rank view.schedule)

/-- What a round of an epoch has to do. -/
def op (epoch round : Nat) : P2pOp :=
  ⟨epoch, round, (view.peersAt round).sendRank, (view.peersAt round).recvRank,
    (view.sends (view.peersAt round).sendRank)[epoch]?, (view.recvs (view.peersAt round).recvRank)[epoch]?⟩

/-- A pair of tasks for the rank itself that share their buffer. -/
def inPlace (op : P2pOp) : Bool :=
  op.sendRank == view.rank && op.send.map TaskP2p.buff == op.recv.map TaskP2p.buff

/-- What the round adds to a plan. -/
def event (epoch round : Nat) : List P2pOp :=
  if ((view.op epoch round).send.isNone && (view.op epoch round).recv.isNone) ||
      view.inPlace (view.op epoch round) then []
  else [view.op epoch round]

/-- What is added before a round of an epoch. -/
def upTo (epoch round : Nat) : List P2pOp :=
  (range epoch).flatMap (fun earlier => (range view.nRanks).flatMap (view.event earlier)) ++
    (range round).flatMap (view.event epoch)

theorem upTo_succ (epoch round : Nat) :
    view.upTo epoch (round + 1) = view.upTo epoch round ++ view.event epoch round := by
  simp [upTo, range_succ]

theorem upTo_epoch (epoch : Nat) : view.upTo (epoch + 1) 0 = view.upTo epoch view.nRanks := by
  simp [upTo, range_succ]

theorem peersAt_eq (inside : round < view.nRanks) : view.schedule[round]? = some (view.peersAt round) := by
  rw [← view.length_eq] at inside
  rw [peersAt, getD_eq_getElem?_getD, getElem?_eq_getElem inside, getD_some]

theorem peersAt_mem (inside : round < view.nRanks) : view.peersAt round ∈ view.schedule :=
  mem_of_getElem? (view.peersAt_eq inside)

/-- The planner before a round of an epoch: of every queue, one task for each
epoch is gone, and one more if the peer was met in this epoch already. -/
structure At (epoch round : Nat) (planner : P2pPlanner) : Prop where
  bound : round ≤ view.nRanks
  sendQueue : ∀ peer, planner.sendQueue peer =
    (view.sends peer).drop (epoch + ((view.schedule.take round).map P2pPeers.sendRank).count peer)
  recvQueue : ∀ peer, planner.recvQueue peer =
    (view.recvs peer).drop (epoch + ((view.schedule.take round).map P2pPeers.recvRank).count peer)
  counted : Counted view.nRanks planner

variable {view}

/-- Before its round, a peer of a row without repetition has not been met. -/
private theorem count_take {row : List P2pPeers} {select : P2pPeers → Nat} (nodup : (row.map select).Nodup)
    {round : Nat} {peers : P2pPeers} (found : row[round]? = some peers) :
    ((row.take round).map select).count (select peers) = 0 := by
  rw [count_eq_zero]
  intro earlier
  obtain ⟨inside, here⟩ := List.getElem?_eq_some_iff.mp found
  have split : row.map select = (row.take round).map select ++ select peers :: (row.drop (round + 1)).map select := by
    rw [← here, ← map_cons, ← map_append, cons_getElem_drop_succ, take_append_drop]
  rw [split] at nodup
  exact (nodup_append.mp nodup).2.2 _ earlier _ mem_cons_self rfl

theorem sendRow_nodup : (view.schedule.map P2pPeers.sendRank).Nodup := view.sendRow.nodup_iff.mpr nodup_range

theorem recvRow_nodup : (view.schedule.map P2pPeers.recvRank).Nodup := view.recvRow.nodup_iff.mpr nodup_range

private theorem drop_update (queues : Nat → List TaskP2p) (met : List Nat) (epoch peer other : Nat) :
    update (fun peer => (queues peer).drop (epoch + met.count peer)) peer
        ((queues peer).drop (epoch + met.count peer)).tail other =
      (queues other).drop (epoch + (met ++ [peer]).count other) := by
  by_cases same : other = peer
  · subst same
    rw [update_self, tail_drop, count_append, count_singleton_self, add_assoc]
  · rw [update_of_ne same, count_append, count_singleton, beq_false_of_ne (Ne.symm same)]
    rfl

/-- After the last round every queue has lost one more task. -/
theorem At.nextEpoch (position : view.At epoch view.nRanks planner) : view.At (epoch + 1) 0 planner := by
  have whole := take_of_length_le view.length_eq.le
  have met : ∀ {row : List Nat} {queues : Nat → List TaskP2p}, row.Perm (range view.nRanks) →
      (∀ peer, view.nRanks ≤ peer → queues peer = []) → ∀ peer,
      (queues peer).drop (epoch + row.count peer) = (queues peer).drop (epoch + 1) := by
    intro row queues perm none peer
    by_cases inside : peer < view.nRanks
    · rw [perm.count_eq, count_eq_one_of_mem nodup_range (mem_range.mpr inside)]
    · rw [none peer (Nat.not_lt.mp inside), drop_nil, drop_nil]
  refine ⟨Nat.zero_le _, fun peer => ?_, fun peer => ?_, position.counted⟩
  · rw [position.sendQueue, whole]
    exact met view.sendRow view.sendPeers peer
  · rw [position.recvQueue, whole]
    exact met view.recvRow view.recvPeers peer

/-- In the round with itself a rank has a send exactly if it has a receive. -/
theorem self_paired (epoch : Nat) (inside : round < view.nRanks)
    (self : (view.op epoch round).sendRank = view.rank) :
    (view.op epoch round).send.isNone = (view.op epoch round).recv.isNone := by
  have recvSelf := (view.selfRound _ (view.peersAt_mem inside)).mp self
  have sendSelf : (view.peersAt round).sendRank = view.rank := self
  rw [Bool.eq_iff_iff, isNone_iff_eq_none, isNone_iff_eq_none]
  simp [op, sendSelf, recvSelf, view.selfPaired]

/-- Without tasks in both directions there is nothing to take. -/
private theorem dequeue_none {planner : P2pPlanner} {sendRank recvRank : Nat}
    (noSend : (planner.sendQueue sendRank).head? = none) (noRecv : (planner.recvQueue recvRank).head? = none) :
    (planner.dequeueSend sendRank).dequeueRecv recvRank = planner := by
  rw [head?_eq_none_iff] at noSend noRecv
  have same : planner.dequeueSend sendRank = planner := by rw [dequeueSend, noSend]
  rw [same, dequeueRecv, noRecv]

section
variable {epoch : Nat} {planner : P2pPlanner} (position : view.At epoch round planner)
    (inside : round < view.nRanks)
include position inside

theorem At.heads :
    (planner.sendQueue (view.peersAt round).sendRank).head? = (view.op epoch round).send ∧
      (planner.recvQueue (view.peersAt round).recvRank).head? = (view.op epoch round).recv := by
  have here := view.peersAt_eq inside
  rw [position.sendQueue, position.recvQueue, count_take sendRow_nodup here, count_take recvRow_nodup here, head?_drop,
    head?_drop]
  exact ⟨rfl, rfl⟩

theorem At.next : view.At epoch (round + 1) (view.serve planner round) := by
  have row : view.schedule.take (round + 1) = view.schedule.take round ++ [view.peersAt round] := by
    rw [take_add_one, view.peersAt_eq inside, toList_some]
  refine ⟨inside, fun peer => ?_, fun peer => ?_, (position.counted.dequeueSend _).dequeueRecv _⟩
  · rw [serve, (dequeueRecv_queues _ _).2, (dequeueSend_queues _ _).1, funext position.sendQueue,
      drop_update, row, map_append]
    rfl
  · rw [serve, (dequeueRecv_queues _ _).1, (dequeueSend_queues _ _).2, funext position.recvQueue,
      drop_update, row, map_append]
    rfl

/-- A round of a rank whose tasks for itself are paired succeeds. It stops only
for a plan without room. -/
theorem At.scheduleRound_eq (hasRoom : Bool) :
    scheduleRound view.rank hasRoom epoch round (view.peersAt round) planner =
      .ok (if view.event epoch round = [] ∨ hasRoom = true then
        some (view.serve planner round, view.event epoch round) else none) := by
  obtain ⟨sendHead, recvHead⟩ := position.heads inside
  rw [scheduleRound, sendHead, recvHead, event, serve]
  by_cases idle : ((view.op epoch round).send.isNone && (view.op epoch round).recv.isNone) = true
  · simp only [idle, Bool.true_or, ↓reduceIte, true_or]
    rw [Bool.and_eq_true, isNone_iff_eq_none, isNone_iff_eq_none] at idle
    rw [dequeue_none (sendHead.trans idle.1) (recvHead.trans idle.2)]
  · have paired : ((view.peersAt round).sendRank == view.rank &&
        ((view.op epoch round).send.isNone || (view.op epoch round).recv.isNone)) = false := by
      rw [Bool.and_eq_false_iff, beq_eq_false_iff_ne]
      by_cases self : (view.peersAt round).sendRank = view.rank
      · have same := view.self_paired epoch inside self
        rw [same, Bool.and_self] at idle
        rw [same, Bool.or_self]
        exact .inr (Bool.eq_false_iff.mpr idle)
      · exact .inl self
    rw [paired, Bool.eq_false_iff.mpr idle]
    have kind : ((view.peersAt round).sendRank == view.rank &&
        (view.op epoch round).send.map TaskP2p.buff == (view.op epoch round).recv.map TaskP2p.buff) =
        view.inPlace (view.op epoch round) := rfl
    rw [kind]
    cases view.inPlace (view.op epoch round) <;> cases hasRoom <;> simp [op]

end

/-- The rounds before this one have been served: what they add is what earlier
plans and this plan hold. -/
structure Planned (view : RankView) (before : List P2pOp) (cursor : P2pCursor) (planner : P2pPlanner)
    (plan : List P2pOp) : Prop where
  position : view.At cursor.p2pEpoch cursor.p2pRound planner
  log : before ++ plan = view.upTo cursor.p2pEpoch cursor.p2pRound

/-- The plan has no room for what comes next. -/
structure Full (view : RankView) (testBudget : List P2pOp → Bool) (cursor : P2pCursor) (plan : List P2pOp) : Prop where
  inside : cursor.p2pRound < view.nRanks
  waiting : view.event cursor.p2pEpoch cursor.p2pRound ≠ []
  refused : testBudget plan = false

variable {before plan : List P2pOp} {planner : P2pPlanner} {cursor : P2pCursor}

section
variable (planned : Planned view before cursor planner plan)
include planned

theorem Planned.next (inside : cursor.p2pRound < view.nRanks) :
    Planned view before ⟨cursor.p2pEpoch, cursor.p2pRound + 1⟩ (view.serve planner cursor.p2pRound)
      (plan ++ view.event cursor.p2pEpoch cursor.p2pRound) := by
  refine ⟨planned.position.next inside, ?_⟩
  rw [upTo_succ, ← planned.log, append_assoc]

theorem Planned.roundStep (inside : cursor.p2pRound < view.nRanks) :
    RoundStep view.rank view.schedule planner (view.serve planner cursor.p2pRound) := by
  refine ⟨true, cursor.p2pEpoch, cursor.p2pRound, _, view.peersAt_mem inside,
    view.event cursor.p2pEpoch cursor.p2pRound, ?_⟩
  rw [planned.position.scheduleRound_eq inside, if_pos (Or.inr rfl)]

/-- The loop over the rounds serves the rounds in order, up to the last or to one
the plan has no room for. -/
theorem Planned.scheduleRounds (testBudget : List P2pOp → Bool) :
    ∃ round planner' plan', cursor.p2pRound ≤ round ∧ Planned view before ⟨cursor.p2pEpoch, round⟩ planner' plan' ∧
      view.Reaches planner planner' ∧
      ((round = view.nRanks ∧ scheduleRounds view.rank testBudget cursor.p2pEpoch (view.schedule.drop cursor.p2pRound)
          cursor.p2pRound planner plan = .ok (none, planner', plan')) ∨
        (Full view testBudget ⟨cursor.p2pEpoch, round⟩ plan' ∧
          scheduleRounds view.rank testBudget cursor.p2pEpoch (view.schedule.drop cursor.p2pRound)
            cursor.p2pRound planner plan = .ok (some round, planner', plan'))) := by
  obtain ⟨epoch, round⟩ := cursor
  obtain ⟨left, split⟩ : ∃ left, view.nRanks = round + left := Nat.exists_eq_add_of_le planned.position.bound
  induction left generalizing round planner plan with
  | zero =>
    have last : round = view.nRanks := split.symm
    have none_left : view.schedule.drop round = [] := drop_eq_nil_of_le (by rw [view.length_eq, last])
    exact ⟨round, planner, plan, le_rfl, planned, .refl, .inl ⟨last, by rw [none_left]; rfl⟩⟩
  | succ left ih =>
    have inside : round < view.nRanks := by omega
    have front : view.schedule.drop round = view.peersAt round :: view.schedule.drop (round + 1) := by
      obtain ⟨bound, here⟩ := List.getElem?_eq_some_iff.mp (view.peersAt_eq inside)
      rw [drop_eq_getElem_cons bound, here]
    simp only [front, NcclCore.scheduleRounds, planned.position.scheduleRound_eq inside]
    by_cases served : view.event epoch round = [] ∨ testBudget plan = true
    · rw [if_pos served]
      obtain ⟨round', planner', plan', later, planned', reached, run⟩ :=
        ih (round + 1) (planned.next inside) (by omega)
      exact ⟨round', planner', plan', Nat.le_of_succ_le later, planned',
        .head (planned.roundStep inside) reached, run⟩
    · rw [if_neg served]
      obtain ⟨waiting, refused⟩ := not_or.mp served
      exact ⟨round, planner, plan, le_rfl, planned, .refl,
        .inr ⟨⟨inside, waiting, Bool.eq_false_iff.mpr refused⟩, rfl⟩⟩

end

/-- A round with something to add means that there are tasks. -/
theorem At.busy (position : view.At epoch round planner) (inside : round < view.nRanks)
    (waiting : view.event epoch round ≠ []) : planner.nTasksP2p ≠ 0 := by
  intro zero
  have empty := position.counted.zeroWhenEmpty.all.mp zero
  obtain ⟨noSend, noRecv⟩ := position.heads inside
  rw [(empty _).1] at noSend
  rw [(empty _).2] at noRecv
  simp [event, ← noSend, ← noRecv] at waiting

/-- Tasks are left only in epochs below the length of some queue. -/
theorem At.epoch_lt (position : view.At epoch round planner) (tasks : planner.nTasksP2p ≠ 0)
    (short : view.Short epochs) : epoch < epochs := by
  by_contra late
  refine tasks (position.counted.zeroWhenEmpty.all.mpr fun peer => ?_)
  have := short peer
  rw [position.sendQueue, position.recvQueue]
  exact ⟨drop_eq_nil_of_le (by omega), drop_eq_nil_of_le (by omega)⟩

/-- The number of rounds before a cursor, with one more for the end of each
epoch. -/
def steps (view : RankView) (cursor : P2pCursor) : Nat := cursor.p2pEpoch * (view.nRanks + 1) + cursor.p2pRound

theorem steps_injective (bound : cursor.p2pRound ≤ view.nRanks) (bound' : cursor'.p2pRound ≤ view.nRanks)
    (same : view.steps cursor = view.steps cursor') : cursor = cursor' := by
  obtain ⟨epoch, round⟩ := (digits_inj (Nat.lt_succ_of_le bound) (Nat.lt_succ_of_le bound')).mp same
  cases cursor
  cases cursor'
  congr

/-- How a plan ends: without tasks, or without room. -/
def Ended (view : RankView) (testBudget : List P2pOp → Bool) (cursor : P2pCursor) (planner : P2pPlanner)
    (plan : List P2pOp) : Prop :=
  (planner.nTasksP2p = 0 ∧ cursor.p2pRound = 0) ∨ (planner.nTasksP2p ≠ 0 ∧ Full view testBudget cursor plan)

/-- A plan serves rounds until it ends. -/
theorem Planned.schedule (testBudget : List P2pOp → Bool) (planned : Planned view before cursor planner plan)
    (start : planner.nTasksP2p ≠ 0 ∨ cursor.p2pRound = 0) (short : view.Short epochs) :
    ∃ cursor' planner' plan', Planned view before cursor' planner' plan' ∧ view.steps cursor ≤ view.steps cursor' ∧
      view.Reaches planner planner' ∧
      Ended view testBudget cursor' planner' plan' ∧
      ∃ bound, ∀ fuel, bound ≤ fuel →
        scheduleP2pTasksToPlan view.rank view.schedule testBudget fuel cursor planner plan =
          .ok (some (cursor', planner', plan')) := by
  obtain ⟨left, enough⟩ : ∃ left, epochs - cursor.p2pEpoch < left := ⟨_, lt_add_one _⟩
  induction left generalizing cursor planner plan with
  | zero => cases enough
  | succ left ih =>
    by_cases tasks : planner.nTasksP2p = 0
    · refine ⟨cursor, planner, plan, planned, le_rfl, .refl, .inl ⟨tasks, start.resolve_left (absurd tasks)⟩, 1,
        fun fuel positive => ?_⟩
      obtain ⟨fuel, rfl⟩ := Nat.exists_eq_add_of_le' positive
      rw [scheduleP2pTasksToPlan, if_pos tasks]
    have inTime := planned.position.epoch_lt tasks short
    obtain ⟨round, planner₁, plan₁, later, planned₁, reached, ⟨last, run⟩ | ⟨full, run⟩⟩ :=
      planned.scheduleRounds testBudget
    · have epochEnd : Planned view before ⟨cursor.p2pEpoch + 1, 0⟩ planner₁ plan₁ := by
        subst last
        refine ⟨planned₁.position.nextEpoch, ?_⟩
        rw [upTo_epoch]
        exact planned₁.log
      obtain ⟨cursor', planner', plan', planned', further, reached', ended, bound, ran⟩ :=
        ih epochEnd (.inr rfl) (by simp only; omega)
      refine ⟨cursor', planner', plan', planned', ?_, reached.trans reached', ended, bound + 1, fun fuel positive => ?_⟩
      · refine le_trans ?_ further
        rw [steps, steps, Nat.succ_mul]
        omega
      · obtain ⟨fuel, rfl⟩ := Nat.exists_eq_add_of_le' positive
        rw [← add_assoc, scheduleP2pTasksToPlan, if_neg tasks, run]
        exact ran _ le_add_self
    · refine ⟨⟨cursor.p2pEpoch, round⟩, planner₁, plan₁, planned₁, Nat.add_le_add_left later _, reached,
        .inr ⟨planned₁.position.busy full.inside full.waiting, full⟩, 1, fun fuel positive => ?_⟩
      obtain ⟨fuel, rfl⟩ := Nat.exists_eq_add_of_le' positive
      rw [scheduleP2pTasksToPlan, if_neg tasks, run]

/-- A plan that has room for one operation ends further on than it began, unless
it ends without tasks. -/
theorem Planned.plan_runs (budget : Option (List P2pOp → Bool)) (planned : Planned view before cursor planner [])
    (tasks : planner.nTasksP2p ≠ 0) (short : view.Short epochs) :
    ∃ cursor' planner' plan', Planned view before cursor' planner' plan' ∧ view.steps cursor ≤ view.steps cursor' ∧
      view.Reaches planner planner' ∧
      (planner'.nTasksP2p = 0 → cursor'.p2pRound = 0) ∧
      (∀ testBudget, budget = some testBudget → testBudget [] = true → planner'.nTasksP2p ≠ 0 →
        view.steps cursor < view.steps cursor') ∧
      ∃ bound, ∀ fuel, bound ≤ fuel → planP2pTasks view.rank view.schedule budget fuel cursor planner =
        .ok (some (cursor', planner', plan')) := by
  cases budget with
  | none =>
    exact ⟨cursor, planner, [], planned, le_rfl, .refl, fun zero => absurd zero tasks,
      (fun _ isSome => by cases isSome), 0, fun _ _ => rfl⟩
  | some testBudget =>
    obtain ⟨cursor', planner', plan', planned', further, reached, ended, bound, ran⟩ :=
      planned.schedule testBudget (.inl tasks) short
    refine ⟨cursor', planner', plan', planned', further, reached, fun zero => ?_, fun room isBudget hasRoom left => ?_,
      bound, ran⟩
    · rcases ended with ⟨-, epochStart⟩ | ⟨left, -⟩
      · exact epochStart
      · exact absurd zero left
    · cases isBudget
      rcases ended with ⟨zero, -⟩ | ⟨-, full⟩
      · exact absurd zero left
      refine Nat.lt_of_le_of_ne further fun same => ?_
      have cursors := steps_injective planned.position.bound planned'.position.bound same
      have logs : before ++ plan' = before ++ [] := by rw [planned'.log, planned.log, cursors]
      have refused := full.refused
      rw [append_cancel_left logs, hasRoom] at refused
      cases refused

/-- From the k-th plan on, the plans take all tasks and then stop. -/
def Launches (view : RankView) (budgets : Nat → Option (List P2pOp → Bool)) (k : Nat) (cursor : P2pCursor)
    (planner : P2pPlanner) (plans : List (List P2pOp)) : Prop :=
  ∃ planner' plans' epoch, view.At epoch 0 planner' ∧ plans'.flatten = view.upTo epoch 0 ∧
    view.Reaches planner planner' ∧ planner'.nTasksP2p = 0 ∧
    ∃ bound, ∀ fuel, bound ≤ fuel → launchPlans view.rank view.schedule budgets fuel k cursor planner plans =
      .ok (some (planner', plans'))

theorem Planned.launches_of_rest (planned : Planned view plans.flatten cursor' planner' plan)
    (start : planner'.nTasksP2p = 0 → cursor'.p2pRound = 0) (reached : view.Reaches planner planner')
    (runs : ∃ bound, ∀ fuel, bound ≤ fuel → planP2pTasks view.rank view.schedule (budgets k) fuel cursor planner =
      .ok (some (cursor', planner', plan)))
    (rest : planner'.nTasksP2p ≠ 0 → Launches view budgets (k + 1) cursor' planner' (plans ++ [plan])) :
    Launches view budgets k cursor planner plans := by
  obtain ⟨bound, ran⟩ := runs
  by_cases tasks : planner'.nTasksP2p = 0
  · have position := planned.position
    have log := planned.log
    rw [start tasks] at position log
    refine ⟨planner', plans ++ [plan], cursor'.p2pEpoch, position, by simpa using log, reached, tasks, bound + 1,
      fun fuel enough => ?_⟩
    obtain ⟨fuel, rfl⟩ := Nat.exists_eq_add_of_le' enough
    rw [← add_assoc, launchPlans, ran _ le_add_self]
    simp [tasks]
  · obtain ⟨final, plans', epoch, position, log, reached', zero, bound', ran'⟩ := rest tasks
    refine ⟨final, plans', epoch, position, log, reached.trans reached', zero, max bound bound' + 1,
      fun fuel enough => ?_⟩
    obtain ⟨fuel, rfl⟩ := Nat.exists_eq_add_of_le' enough
    rw [← add_assoc, launchPlans, ran _ (by omega)]
    simp only [tasks, ↓reduceIte]
    exact ran' _ (by omega)

/-- As long as plans with room keep coming, the plans take all tasks. -/
theorem Planned.launches (fair : Fair budgets) (short : view.Short epochs)
    (planned : Planned view plans.flatten cursor planner []) (tasks : planner.nTasksP2p ≠ 0) (k : Nat) :
    Launches view budgets k cursor planner plans := by
  -- on the rounds that are left, and for these on the plans until the next one with room
  obtain ⟨left, enough⟩ : ∃ left, epochs * (view.nRanks + 1) - view.steps cursor < left := ⟨_, lt_add_one _⟩
  induction left generalizing cursor planner plans k with
  | zero => cases enough
  | succ left ih =>
    obtain ⟨later, isLater, testBudget, isBudget, hasRoom⟩ := fair k
    obtain ⟨wait, rfl⟩ := Nat.exists_eq_add_of_le isLater
    induction wait generalizing cursor planner plans k with
    | zero =>
      have inTime : view.steps cursor < epochs * (view.nRanks + 1) :=
        digits_lt (planned.position.epoch_lt tasks short) (Nat.lt_succ_of_le planned.position.bound)
      obtain ⟨cursor', planner', plan, planned', -, reached, start, further, runs⟩ :=
        planned.plan_runs (budgets k) tasks short
      refine planned'.launches_of_rest start reached runs fun left => ih ?_ left (k + 1) ?_
      · exact ⟨planned'.position, by simpa using planned'.log⟩
      · have := further testBudget isBudget hasRoom left
        omega
    | succ wait waiting =>
      obtain ⟨cursor', planner', plan, planned', further, reached, start, -, runs⟩ :=
        planned.plan_runs (budgets k) tasks short
      refine planned'.launches_of_rest start reached runs fun left => waiting ?_ left (k + 1) ?_ ?_ ?_
      · exact ⟨planned'.position, by simpa using planned'.log⟩
      · omega
      · omega
      · rwa [add_assoc, add_comm 1]

end RankView

/-! ### What the plans hold -/

/-- The sends to a peer among these operations, with their epochs and rounds. -/
def sendsIn (ops : List P2pOp) (peer : Nat) : List (Nat × Nat × TaskP2p) :=
  ops.filterMap fun op =>
    if op.sendRank = peer then op.send.map fun task => (op.p2pEpoch, op.p2pRound, task) else none

/-- The receives from a peer among these operations. -/
def recvsIn (ops : List P2pOp) (peer : Nat) : List (Nat × Nat × TaskP2p) :=
  ops.filterMap fun op =>
    if op.recvRank = peer then op.recv.map fun task => (op.p2pEpoch, op.p2pRound, task) else none

/-- The k-th task in epoch k, all in one round, without those that are dropped. -/
def placed (tasks : List TaskP2p) (round : Nat) (dropped : Nat → Bool) : List (Nat × Nat × TaskP2p) :=
  (tasks.zipIdx.filter fun item => !dropped item.2).map fun item => (item.2, round, item.1)

/-- What epoch k contributes to `placed`. -/
private def placedAt (tasks : List TaskP2p) (round : Nat) (dropped : Nat → Bool) (k : Nat) : List (Nat × Nat × TaskP2p) :=
  if dropped k then [] else (tasks[k]?.map fun task => (k, round, task)).toList

private theorem placed_eq (round : Nat) (dropped : Nat → Bool) (enough : tasks.length ≤ epochs) :
    (range epochs).flatMap (placedAt tasks round dropped) = placed tasks round dropped := by
  induction epochs, enough using Nat.le_induction with
  | base =>
    induction tasks using reverseRecOn with
    | nil => rfl
    | append_singleton tasks task ih =>
      have early : (range tasks.length).flatMap (placedAt (tasks ++ [task]) round dropped) =
          (range tasks.length).flatMap (placedAt tasks round dropped) := by
        refine flatMap_congr fun k member => ?_
        rw [placedAt, placedAt, getElem?_append_left (mem_range.mp member)]
      rw [length_append, length_singleton, range_succ, flatMap_append, early, ih, placed, placed, zipIdx_append]
      cases isDropped : dropped tasks.length <;> simp [placedAt, isDropped]
  | succ epochs late ih =>
    have none_left : placedAt tasks round dropped epochs = [] := by
      rw [placedAt, getElem?_eq_none late]
      cases dropped epochs <;> rfl
    rw [range_succ, flatMap_append, ih, flatMap_singleton, none_left, append_nil]

namespace RankView
variable (view : RankView) {round : Nat}

/-- The tasks of the round with itself that share their buffer. -/
def selfInPlace (peer k : Nat) : Bool :=
  peer == view.rank && (view.sends view.rank)[k]?.map TaskP2p.buff == (view.recvs view.rank)[k]?.map TaskP2p.buff

section
variable (inside : round < view.nRanks)
include inside

theorem inPlace_eq :
    view.inPlace (view.op epoch round) = view.selfInPlace (view.peersAt round).sendRank epoch := by
  by_cases self : (view.peersAt round).sendRank = view.rank
  · have recvSelf := (view.selfRound _ (view.peersAt_mem inside)).mp self
    simp [inPlace, op, selfInPlace, self, recvSelf]
  · simp [inPlace, op, selfInPlace, beq_false_of_ne self]

theorem selfInPlace_recvRank (k : Nat) :
    view.selfInPlace (view.peersAt round).recvRank k = view.selfInPlace (view.peersAt round).sendRank k := by
  have self := view.selfRound _ (view.peersAt_mem inside)
  rw [selfInPlace, selfInPlace, Bool.eq_iff_iff]
  simp [self]

theorem sendsIn_event (peer : Nat) :
    sendsIn (view.event epoch round) peer =
      if (view.peersAt round).sendRank = peer then placedAt (view.sends peer) round (view.selfInPlace peer) epoch
      else [] := by
  rw [event, view.inPlace_eq inside, placedAt]
  by_cases here : (view.peersAt round).sendRank = peer
  · subst here
    cases view.selfInPlace (view.peersAt round).sendRank epoch with
    | true => simp [sendsIn]
    | false => cases task : (view.sends (view.peersAt round).sendRank)[epoch]? <;> simp [sendsIn, op, task]
  · rw [if_neg here]
    split <;> simp [sendsIn, op, here]

theorem recvsIn_event (peer : Nat) :
    recvsIn (view.event epoch round) peer =
      if (view.peersAt round).recvRank = peer then placedAt (view.recvs peer) round (view.selfInPlace peer) epoch
      else [] := by
  rw [event, view.inPlace_eq inside, ← view.selfInPlace_recvRank inside, placedAt]
  by_cases here : (view.peersAt round).recvRank = peer
  · subst here
    cases view.selfInPlace (view.peersAt round).recvRank epoch with
    | true => simp [recvsIn]
    | false => cases task : (view.recvs (view.peersAt round).recvRank)[epoch]? <;> simp [recvsIn, op, task]
  · rw [if_neg here]
    split <;> simp [recvsIn, op, here]

/-- A row meets a peer in one round only. -/
theorem round_unique (nodup : (view.schedule.map select).Nodup) (inside' : other < view.nRanks)
    (same : select (view.peersAt other) = select (view.peersAt round)) : other = round := by
  refine (getElem?_inj (by simpa [view.length_eq] using inside') nodup).mp ?_
  rw [getElem?_map, getElem?_map, view.peersAt_eq inside, view.peersAt_eq inside', map_some, map_some, same]

/-- The tasks of a peer, from the rounds that serve it. -/
theorem filterMap_upTo {select : P2pPeers → Nat} (nodup : (view.schedule.map select).Nodup)
    {pick : P2pOp → Option (Nat × Nat × TaskP2p)} {tasks : List TaskP2p} {dropped : Nat → Bool}
    (events : ∀ {epoch other}, other < view.nRanks → (view.event epoch other).filterMap pick =
      if select (view.peersAt other) = select (view.peersAt round) then placedAt tasks other dropped epoch else [])
    {epochs : Nat} (enough : tasks.length ≤ epochs) :
    (view.upTo epochs 0).filterMap pick = placed tasks round dropped := by
  rw [← placed_eq _ _ enough, upTo, range_zero, flatMap_nil, append_nil, filterMap_flatMap]
  refine flatMap_congr fun epoch _ => ?_
  rw [filterMap_flatMap, flatMap_range_eq inside]
  · exact (events inside).trans (if_pos rfl)
  · intro other inside' apart
    refine (events inside').trans (if_neg fun same => apart ?_)
    exact view.round_unique inside nodup inside' same

end

theorem exists_epochs : ∃ epochs, view.Short epochs := by
  refine ⟨(Finset.range view.nRanks).sup fun peer => max (view.sends peer).length (view.recvs peer).length,
    fun peer => ?_⟩
  by_cases inside : peer < view.nRanks
  · exact max_le_iff.mp (Finset.le_sup (f := fun peer => max (view.sends peer).length (view.recvs peer).length)
      (Finset.mem_range.mpr inside))
  · rw [view.sendPeers peer (Nat.not_lt.mp inside), view.recvPeers peer (Nat.not_lt.mp inside)]
    exact ⟨Nat.zero_le _, Nat.zero_le _⟩

/-- What a rank's plans come to: they serve the rounds of some epochs, in order,
after which no tasks are left. -/
structure Launched (budgets : Nat → Option (List P2pOp → Bool)) (planner final : P2pPlanner)
    (plans : List (List P2pOp)) : Prop where
  ran : ∃ bound, ∀ fuel, bound ≤ fuel →
    ncclLaunchPrepare view.rank view.schedule budgets fuel planner = .ok (some (final, plans))
  reached : Relation.ReflTransGen (RoundStep view.rank view.schedule) planner final
  drained : final.nTasksP2p = 0
  log : ∃ epochs, plans.flatten = view.upTo epochs 0 ∧
    ∀ peer, (view.sends peer).length ≤ epochs ∧ (view.recvs peer).length ≤ epochs

/-- The plans of a rank take all its tasks. -/
theorem exists_launched (fair : Fair budgets)
    (start : view.At 0 0 planner) : ∃ final plans, view.Launched budgets planner final plans := by
  obtain ⟨epochs, short⟩ := view.exists_epochs
  have drained : ∀ {final : P2pPlanner} {epoch : Nat}, view.At epoch 0 final → final.nTasksP2p = 0 →
      view.Short epoch := by
    intro final epoch position zero peer
    have empty := position.counted.zeroWhenEmpty.all.mp zero peer
    rw [position.sendQueue, position.recvQueue, drop_eq_nil_iff, drop_eq_nil_iff] at empty
    exact empty
  by_cases tasks : planner.nTasksP2p = 0
  · exact ⟨planner, [], ⟨0, fun fuel _ => by rw [ncclLaunchPrepare, if_pos tasks]⟩, .refl, tasks, 0, rfl,
      drained start tasks⟩
  · have planned : Planned view ([] : List (List P2pOp)).flatten ⟨0, 0⟩ planner [] := ⟨start, rfl⟩
    obtain ⟨final, plans, epoch, position, log, reached, zero, bound, ran⟩ := planned.launches fair short tasks 0
    refine ⟨final, plans, ⟨bound, fun fuel enough => ?_⟩, reached, zero, epoch, log, drained position zero⟩
    rw [ncclLaunchPrepare, if_neg tasks]
    exact ran fuel enough

variable {view : RankView} (launched : view.Launched budgets planner final plans)
  (inside : round < view.nRanks)
include launched inside

/-- A task's epoch and round do not depend on the budgets. -/
theorem Launched.sendsIn : sendsIn plans.flatten (view.peersAt round).sendRank =
    placed (view.sends (view.peersAt round).sendRank) round (view.selfInPlace (view.peersAt round).sendRank) := by
  obtain ⟨epochs, log, enough⟩ := launched.log
  rw [log]
  exact view.filterMap_upTo inside view.sendRow_nodup (view.sendsIn_event · _) (enough _).1

@[inherit_doc Launched.sendsIn]
theorem Launched.recvsIn : recvsIn plans.flatten (view.peersAt round).recvRank =
    placed (view.recvs (view.peersAt round).recvRank) round (view.selfInPlace (view.peersAt round).recvRank) := by
  obtain ⟨epochs, log, enough⟩ := launched.log
  rw [log]
  exact view.filterMap_upTo inside view.recvRow_nodup (view.recvsIn_event · _) (enough _).2

end RankView

/-! ### All ranks -/

/-- Every rank meets every peer, and both ends of a transfer name its round. -/
structure MatchingSchedule (nRanks : Nat) (schedule : Nat → List P2pPeers) : Prop where
  length : ∀ rank < nRanks, (schedule rank).length = nRanks
  sendRow : ∀ rank < nRanks, ((schedule rank).map P2pPeers.sendRank).Perm (range nRanks)
  matched : ∀ i < nRanks, ∀ j < nRanks, ∀ round < nRanks,
    ((schedule i).getD round ⟨0, 0⟩).sendRank = j ↔ ((schedule j).getD round ⟨0, 0⟩).recvRank = i

/-- The schedules of `ncclP2pSchedule` are of this kind. -/
theorem MatchingSchedule.of_consistent (consistent : ConsistentSchedule nRanks schedule) :
    MatchingSchedule nRanks schedule :=
  ⟨consistent.length, consistent.sendRow, consistent.matched⟩

/-- The sends a rank was given for a peer, and its receives from a peer. -/
def sendsTo (calls : List P2pCall) (peer : Nat) : List TaskP2p :=
  (calls.filter fun call => call.isSendNotRecv && call.peer == peer).map P2pCall.task

@[inherit_doc sendsTo]
def recvsFrom (calls : List P2pCall) (peer : Nat) : List TaskP2p :=
  (calls.filter fun call => !call.isSendNotRecv && call.peer == peer).map P2pCall.task

theorem ofCalls_queues (calls : List P2pCall) (peer : Nat) :
    (ofCalls calls).sendQueue peer = sendsTo calls peer ∧
      (ofCalls calls).recvQueue peer = recvsFrom calls peer := by
  induction calls using reverseRecOn with
  | nil => exact ⟨rfl, rfl⟩
  | append_singleton calls call ih =>
    rw [ofCalls, foldl_append, foldl_cons, ← ofCalls, p2pTaskAppend]
    by_cases here : call.peer = peer
    · subst here
      cases direction : call.isSendNotRecv <;> simp [sendsTo, recvsFrom, direction, ih]
    · cases direction : call.isSendNotRecv <;>
        simp [sendsTo, recvsFrom, ih, here, update_of_ne (Ne.symm here)]

/-- The k-th send of a rank to itself shares its buffer with the k-th receive. -/
def droppedInPlace (calls : Nat → List P2pCall) (i j k : Nat) : Bool :=
  j == i && (sendsTo (calls i) i)[k]?.map TaskP2p.buff == (recvsFrom (calls i) i)[k]?.map TaskP2p.buff

theorem droppedInPlace_comm (calls : Nat → List P2pCall) (i j : Nat) :
    droppedInPlace calls j i = droppedInPlace calls i j := by
  funext k
  by_cases same : i = j
  · rw [same]
  · simp [droppedInPlace, beq_false_of_ne same, beq_false_of_ne (Ne.symm same)]

/-- The round in which a rank sends to another. -/
structure MeetsIn (nRanks : Nat) (schedule : Nat → List P2pPeers) (round : Nat → Nat → Nat) : Prop where
  inside : ∀ i < nRanks, ∀ j < nRanks, round i j < nRanks
  sends : ∀ i < nRanks, ∀ j < nRanks, ((schedule i).getD (round i j) ⟨0, 0⟩).sendRank = j

section
variable {nRanks : Nat} {schedule : Nat → List P2pPeers} (matching : MatchingSchedule nRanks schedule)
include matching

theorem MatchingSchedule.round_of (insideI : i < nRanks) (insideJ : j < nRanks) :
    ∃ round < nRanks, ((schedule i).getD round ⟨0, 0⟩).sendRank = j := by
  have member := (matching.sendRow i insideI).mem_iff.mpr (mem_range.mpr insideJ)
  obtain ⟨round, inside, here⟩ := getElem_of_mem member
  rw [length_map] at inside
  refine ⟨round, (matching.length i insideI) ▸ inside, ?_⟩
  rw [getD_eq_getElem _ _ inside, ← here, getElem_map]

theorem MatchingSchedule.recvRow (insideRank : rank < nRanks) :
    ((schedule rank).map P2pPeers.recvRank).Perm (range nRanks) := by
  have covered : range nRanks ⊆ (schedule rank).map P2pPeers.recvRank := by
    intro peer member
    have insidePeer := mem_range.mp member
    obtain ⟨round, inside, sends⟩ := matching.round_of insidePeer insideRank
    have recvs := (matching.matched peer insidePeer rank insideRank round inside).mp sends
    have bound : round < (schedule rank).length := (matching.length rank insideRank).symm ▸ inside
    rw [getD_eq_getElem _ _ bound] at recvs
    exact mem_map.mpr ⟨_, getElem_mem bound, recvs⟩
  refine ((subperm_of_subset nodup_range covered).perm_of_length_le ?_).symm
  rw [length_map, matching.length rank insideRank, length_range]

end

/-- The calls of a group fit together: their peers are ranks, and every send has its receive. -/
structure P2pGroup (nRanks : Nat) (schedule : Nat → List P2pPeers) (calls : Nat → List P2pCall) : Prop
    extends MatchingSchedule nRanks schedule where
  peers : ∀ rank < nRanks, ∀ call ∈ calls rank, call.peer < nRanks
  paired : ∀ i < nRanks, ∀ j < nRanks, (sendsTo (calls i) j).length = (recvsFrom (calls j) i).length

/-- The plans of the ranks take all tasks: the k-th send to a rank and the k-th receive
there are in epoch k and in the round in which the two meet. -/
structure TasksMeet (nRanks : Nat) (schedule : Nat → List P2pPeers) (calls : Nat → List P2pCall)
    (budgets : Nat → Nat → Option (List P2pOp → Bool)) (round : Nat → Nat → Nat) (final : Nat → P2pPlanner)
    (plans : Nat → List (List P2pOp)) : Prop extends MeetsIn nRanks schedule round where
  ran : ∀ rank < nRanks, ∃ bound, ∀ fuel, bound ≤ fuel →
    ncclLaunchPrepare rank (schedule rank) (budgets rank) fuel (.ofCalls (calls rank)) =
      .ok (some (final rank, plans rank))
  placed : ∀ i < nRanks, ∀ j < nRanks,
    sendsIn (plans i).flatten j = placed (sendsTo (calls i) j) (round i j) (droppedInPlace calls i j) ∧
      recvsIn (plans j).flatten i = placed (recvsFrom (calls j) i) (round i j) (droppedInPlace calls i j)

section
variable {nRanks : Nat} {schedule : Nat → List P2pPeers} {calls : Nat → List P2pCall}
  (group : P2pGroup nRanks schedule calls)
include group

/-- A rank with its part of a group. -/
def P2pGroup.view {rank : Nat} (inside : rank < nRanks) : RankView where
  nRanks := nRanks
  rank := rank
  schedule := schedule rank
  sends := sendsTo (calls rank)
  recvs := recvsFrom (calls rank)
  length_eq := group.length rank inside
  sendRow := group.sendRow rank inside
  recvRow := group.recvRow inside
  selfRound := by
    intro peers member
    obtain ⟨round, bound, rfl⟩ := getElem_of_mem member
    have matched := group.matched rank inside rank inside round ((group.length rank inside) ▸ bound)
    rwa [getD_eq_getElem _ _ bound] at matched
  selfPaired := group.paired rank inside rank inside
  sendPeers := by
    intro peer far
    rw [← (ofCalls_queues (calls rank) peer).1]
    exact (counted_ofCalls (group.peers rank inside)).sendPeers peer far
  recvPeers := by
    intro peer far
    rw [← (ofCalls_queues (calls rank) peer).2]
    exact (counted_ofCalls (group.peers rank inside)).recvPeers peer far

theorem P2pGroup.view_start (inside : rank < nRanks) :
    (group.view inside).At 0 0 (.ofCalls (calls rank)) := by
  refine ⟨Nat.zero_le _, fun peer => ?_, fun peer => ?_, counted_ofCalls (group.peers rank inside)⟩
  · rw [(ofCalls_queues (calls rank) peer).1]
    rfl
  · rw [(ofCalls_queues (calls rank) peer).2]
    rfl

section
variable {round : Nat → Nat → Nat} (meets : MeetsIn nRanks schedule round) (inside : rank < nRanks) (insidePeer : peer < nRanks)
include meets inside insidePeer

theorem MeetsIn.sendRank_eq : ((group.view inside).peersAt (round rank peer)).sendRank = peer :=
  meets.sends rank inside peer insidePeer

theorem MeetsIn.recvRank_eq : ((group.view inside).peersAt (round peer rank)).recvRank = peer :=
  (group.matched peer insidePeer rank inside _ (meets.inside peer insidePeer rank inside)).mp
    (meets.sends peer insidePeer rank inside)

end

/-- The plans of all ranks take their tasks, and both ends of a transfer are in the round
in which its ranks meet. -/
theorem P2pGroup.exists_launched (fair : ∀ rank < nRanks, Fair (budgets rank)) :
    ∃ round final plans, TasksMeet nRanks schedule calls budgets round final plans ∧ ∀ rank (inside : rank < nRanks),
      (group.view inside).Launched (budgets rank) (.ofCalls (calls rank)) (final rank) (plans rank) := by
  have nonempty : Nonempty P2pPlanner := ⟨.empty⟩
  choose! final plans launched using fun rank (inside : rank < nRanks) =>
    (group.view inside).exists_launched (fair rank inside) (group.view_start inside)
  choose! round insideRound sends using fun i (insideI : i < nRanks) j (insideJ : j < nRanks) =>
    group.round_of insideI insideJ
  have meets : MeetsIn nRanks schedule round := ⟨insideRound, sends⟩
  refine ⟨round, final, plans, ⟨meets, fun rank inside => (launched rank inside).ran, fun i insideI j insideJ => ?_⟩,
    launched⟩
  have bound := insideRound i insideI j insideJ
  have here := (launched i insideI).sendsIn bound
  have there := (launched j insideJ).recvsIn bound
  rw [meets.sendRank_eq group insideI insideJ] at here
  rw [meets.recvRank_eq group insideJ insideI] at there
  refine ⟨here, ?_⟩
  rw [← droppedInPlace_comm]
  exact there

end

/-- Whatever the tasks of a group and wherever the budgets cut the plans of each
rank: the k-th send from one rank to another and the k-th receive there are
both scheduled once, in epoch k and in the round that pairs them, unless they are one
rank's tasks for itself that share their buffer, which are dropped. All queues
are drained, and in every state on the way the counters are zero exactly if the
queues they count are empty. -/
theorem p2p_tasks_meet (group : P2pGroup nRanks schedule calls) (budgets : Nat → Nat → Option (List P2pOp → Bool))
    (fair : ∀ rank < nRanks, Fair (budgets rank)) :
    ∃ round final plans, TasksMeet nRanks schedule calls budgets round final plans ∧ ∀ rank < nRanks,
      (∀ peer, (final rank).sendQueue peer = [] ∧ (final rank).recvQueue peer = []) ∧
      Relation.ReflTransGen (RoundStep rank (schedule rank)) (.ofCalls (calls rank)) (final rank) ∧
      ∀ planner, Relation.ReflTransGen (RoundStep rank (schedule rank)) (.ofCalls (calls rank)) planner →
        ZeroWhenEmpty planner := by
  obtain ⟨round, final, plans, meets, launched⟩ := group.exists_launched fair
  refine ⟨round, final, plans, meets, fun rank inside => ⟨?_, (launched rank inside).reached, fun planner steps => ?_⟩⟩
  · have counted := (counted_ofCalls (group.peers rank inside)).reached (launched rank inside).reached
    exact counted.zeroWhenEmpty.all.mp (launched rank inside).drained
  · exact ((counted_ofCalls (group.peers rank inside)).reached steps).zeroWhenEmpty

/-- Two ranks, the first of which sends twice to the second. -/
def pairSchedule (rank : Nat) : List P2pPeers := [⟨rank, rank⟩, ⟨1 - rank, 1 - rank⟩]

@[inherit_doc pairSchedule]
def pairCalls (rank : Nat) : List P2pCall := [⟨rank == 0, 1 - rank, ⟨4, 8⟩⟩, ⟨rank == 0, 1 - rank, ⟨12, 8⟩⟩]

theorem pair_group : P2pGroup 2 pairSchedule pairCalls := ⟨⟨by decide, by decide, by decide⟩, by decide, by decide⟩

theorem p2p_tasks_meet_pair :
    ∃ (round : Nat → Nat → Nat) (final : Nat → P2pPlanner) (plans : Nat → List (List P2pOp)),
      (∀ rank < 2, ∃ bound, ncclLaunchPrepare rank (pairSchedule rank)
        (fun _ => some fun plan => decide (plan.length ≤ rank)) bound (.ofCalls (pairCalls rank)) =
          .ok (some (final rank, plans rank))) ∧
      MeetsIn 2 pairSchedule round ∧
      sendsIn (plans 0).flatten 1 = [(0, round 0 1, ⟨4, 8⟩), (1, round 0 1, ⟨12, 8⟩)] ∧
      recvsIn (plans 1).flatten 0 = [(0, round 0 1, ⟨4, 8⟩), (1, round 0 1, ⟨12, 8⟩)] := by
  obtain ⟨round, final, plans, meet, -⟩ := p2p_tasks_meet pair_group
    (fun rank _ => some fun plan => decide (plan.length ≤ rank)) (fun rank _ k => ⟨k, le_refl k, _, rfl, by simp⟩)
  refine ⟨round, final, plans, fun rank inside => ?_, meet.toMeetsIn, meet.placed 0 (by decide) 1 (by decide)⟩
  obtain ⟨bound, run⟩ := meet.ran rank inside
  exact ⟨bound, run bound le_rfl⟩

/-- A send to oneself and the receive that shares its buffer: no plan holds
them. -/
theorem in_place_self_tasks_unscheduled :
    MatchingSchedule 1 (fun _ => [⟨0, 0⟩]) ∧
      sendsTo [⟨true, 0, ⟨4, 8⟩⟩, ⟨false, 0, ⟨4, 8⟩⟩] 0 = [⟨4, 8⟩] ∧
      recvsFrom [⟨true, 0, ⟨4, 8⟩⟩, ⟨false, 0, ⟨4, 8⟩⟩] 0 = [⟨4, 8⟩] ∧
      ∃ final plans, ncclLaunchPrepare 0 [⟨0, 0⟩] (fun _ => some fun _ => true) 4
          (.ofCalls [⟨true, 0, ⟨4, 8⟩⟩, ⟨false, 0, ⟨4, 8⟩⟩]) = .ok (some (final, plans)) ∧
        sendsIn plans.flatten 0 = [] ∧ recvsIn plans.flatten 0 = [] :=
  ⟨⟨by decide, by decide, by decide⟩, rfl, rfl, _, _, rfl, rfl, rfl⟩

end NcclCore.P2pTasksProofs
