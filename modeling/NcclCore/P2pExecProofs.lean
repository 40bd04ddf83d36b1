import Mathlib.Data.Prod.Lex
import NcclCore.P2pExec
import NcclCore.P2pTasksProofs
import NcclCore.P2pTransferProofs

/-! The plans of matched ranks never wait for each other in a circle. On every
channel the batches of a rank follow the order of epochs and rounds, and so do
its plans; both ends of a transfer are in the same epoch and round, so the
earliest transfer that has not completed can always be brought forward. -/
namespace NcclCore.P2pExecProofs
open Lib P2pTasksProofs P2pTransferProofs List DevWorkType

/-! ### The length of a plan -/

section
variable {fits : List P2pOp → Prop} {round : Nat}

/-- A budget that keeps the plans small. -/
def Keeps (fits : List P2pOp → Prop) (testBudget : List P2pOp → Bool) : Prop :=
  ∀ plan op, fits plan → testBudget plan = true → fits (plan ++ [op])

theorem scheduleRound_fits (keeps : Keeps fits testBudget) (fit : fits plan)
    (served : scheduleRound rank (testBudget plan) epoch round peers planner = .ok (some (planner', added))) :
    fits (plan ++ added) := by
  unfold scheduleRound at served
  dsimp only at served
  split at served
  · cases served
    rwa [append_nil]
  · split at served
    · cases served
    · split at served
      · cases served
        rwa [append_nil]
      · split at served
        next room =>
          cases served
          exact keeps plan _ fit room
        · cases served

theorem scheduleRounds_fits (keeps : Keeps fits testBudget) (fit : fits plan)
    (run : scheduleRounds rank testBudget epoch left round planner plan = .ok result) : fits result.2.2 := by
  induction left generalizing round planner plan with
  | nil =>
    cases run
    exact fit
  | cons peers left ih =>
    rw [scheduleRounds] at run
    split at run
    · cases run
    · cases run
      exact fit
    next served =>
      exact ih (scheduleRound_fits keeps fit served) run

theorem scheduleP2pTasksToPlan_fits (keeps : Keeps fits testBudget) (fit : fits plan)
    (run : scheduleP2pTasksToPlan rank schedule testBudget fuel cursor planner plan = .ok (some result)) :
    fits result.2.2 := by
  induction fuel generalizing cursor planner plan with
  | zero => cases run
  | succ fuel ih =>
    rw [scheduleP2pTasksToPlan] at run
    split at run
    · cases run
      exact fit
    · split at run
      · cases run
      next rounds =>
        cases run
        exact scheduleRounds_fits keeps fit rounds
      next rounds =>
        exact ih (scheduleRounds_fits keeps fit rounds) run

theorem launchPlans_fits (empty : fits [])
    (keeps : ∀ k testBudget, budgets k = some testBudget → Keeps fits testBudget)
    (fit : ∀ plan ∈ plans, fits plan)
    (run : launchPlans rank schedule budgets fuel k cursor planner plans = .ok (some result)) :
    ∀ plan ∈ result.2, fits plan := by
  induction fuel generalizing k cursor planner plans with
  | zero => cases run
  | succ fuel ih =>
    rw [launchPlans] at run
    split at run
    · cases run
    · cases run
    next cursor' planner' plan planned =>
      have next : ∀ other ∈ plans ++ [plan], fits other := by
        intro other member
        rcases mem_append.mp member with old | new
        · exact fit other old
        · rw [mem_singleton.mp new]
          cases budget : budgets k with
          | none =>
            rw [budget] at planned
            cases planned
            exact empty
          | some testBudget =>
            rw [budget] at planned
            exact scheduleP2pTasksToPlan_fits (keeps k testBudget budget) empty planned
      split at run
      · cases run
        exact next
      · exact ih next run

end

/-- The works of a plan have offsets of 32 bits. -/
def Short (plan : List P2pOp) : Prop := plan.length * p2p.size ≤ 2 ^ 32

/-- The budgets of `ncclLaunchPrepare` keep the plans short: at most 4 KiB of
kernel arguments and 1 GiB outside. -/
theorem testBudget_keeps (host : P2pHost) (comm : P2pComm) (inArgs : budget.inArgsBytes ≤ 2 ^ 12)
    (outArgs : budget.outArgsBytes ≤ 2 ^ 30) : Keeps Short (host.testBudget comm budget) := by
  intro plan op _ room
  simp only [P2pHost.testBudget, ncclTestBudget, Bool.or_eq_true, Bool.and_eq_true, decide_eq_true_eq] at room
  simp only [Short, length_append, length_singleton, size] at room ⊢
  omega

/-! ### The batches of a channel -/

theorem fusedOffsets_extended (ends : last.nextExtends = false) (rest : List DevWorkBatch)
    (extended : ∀ batch ∈ init, batch.nextExtends = true) :
    fusedOffsets (init ++ last :: rest) = (init ++ [last]).flatMap DevWorkBatch.offsets :: fusedOffsets rest := by
  induction init with
  | nil => simp [fusedOffsets, ends]
  | cons batch init ih =>
    have next := ih fun other member => extended other (mem_cons_of_mem _ member)
    rw [cons_append, fusedOffsets, extended batch mem_cons_self, next]
    simp

theorem fusedOffsets_eq (fused : List FusedBatch) :
    fusedOffsets (fused.flatMap FusedBatch.batches) = fused.map fun batch => batch.works.map WorkCall.workOffset := by
  induction fused with
  | nil => rfl
  | cons batch rest ih =>
    rw [flatMap_cons, FusedBatch.batches, append_assoc, singleton_append,
      fusedOffsets_extended batch.ends _ batch.extended, ih, batch.named]
    rfl

section
variable (host : P2pHost) (comm : P2pComm)

theorem dirChannels_le (isSend : Bool) (peer epoch : Nat) (task : Option TaskP2p) :
    host.dirChannels comm isSend peer epoch task ≤ comm.p2pnChannels := by
  have most : comm.nChannels (task.map TaskP2p.bytes) ≤ comm.p2pnChannels := by
    cases task with
    | none => exact Nat.zero_le _
    | some task =>
      rcases Nat.eq_zero_or_pos task.bytes with zero | positive
      · have one := Nat.le_trans comm.someChannel (Nat.le_trans comm.minLeMax comm.maxLeAll)
        rw [Option.map_some, zero]
        exact one
      · rw [Option.map_some, nChannels_eq comm positive]
        exact partCount_le comm positive
  rw [P2pHost.dirChannels]
  split
  · exact Nat.le_trans (Nat.min_le_left _ _) most
  · exact most

theorem dirChannels_none (isSend : Bool) (peer epoch : Nat) : host.dirChannels comm isSend peer epoch none = 0 := by
  rw [P2pHost.dirChannels, Option.map_none, P2pComm.nChannels, Nat.zero_min, ite_self]

section
variable (op : P2pOp)

/-- The channel of a part of an operation. -/
def partChannel (part : Nat) : Nat :=
  ncclP2pChannelForPart comm.p2pnChannels (comm.ncclP2pChannelBaseForRound op.p2pRound) part

/-- How many channels work on an operation. -/
def opParts : Nat := max (host.nRecvChannels comm op) (host.nSendChannels comm op)

theorem opParts_le : opParts host comm op ≤ comm.p2pnChannels :=
  Nat.max_le.mpr ⟨dirChannels_le host comm _ _ _ _, dirChannels_le host comm _ _ _ _⟩

theorem channelToPart_partChannel (bound : part < comm.p2pnChannels) :
    ncclP2pChannelToPart comm.p2pnChannels (comm.ncclP2pChannelBaseForRound op.p2pRound) (partChannel comm op part) =
      part :=
  channelToPart_forPart comm (channelBase_lt comm _) bound

theorem partChannel_injective (bound : part < comm.p2pnChannels) (bound' : other < comm.p2pnChannels)
    (same : partChannel comm op other = partChannel comm op part) : other = part := by
  rw [← channelToPart_partChannel comm op bound', same, channelToPart_partChannel comm op bound]

end

/-- The channel has a part of the operation. -/
def Uses (channelId : Nat) (op : P2pOp) : Prop := ∃ part < opParts host comm op, partChannel comm op part = channelId

instance (channelId : Nat) (op : P2pOp) : Decidable (Uses host comm channelId op) :=
  inferInstanceAs (Decidable (∃ part < opParts host comm op, partChannel comm op part = channelId))

/-- The operation a call of a plan is made for. -/
def callOp (plan : List P2pOp) (call : WorkCall) : P2pOp :=
  (plan[call.workOffset / p2p.size]?).getD ⟨0, 0, 0, 0, none, none⟩

/-- A call that `addP2pToPlan` makes for a plan. -/
def IsCall (plan : List P2pOp) (call : WorkCall) : Prop :=
  ∃ index op part, plan[index]? = some op ∧ call = host.partCall comm index op part

variable {host comm} (short : Short plan)
include short

theorem partCall_offset (found : plan[index]? = some op) (part : Nat) :
    (host.partCall comm index op part).workOffset = index * p2p.size := by
  have inside := (List.getElem?_eq_some_iff.mp found).1
  have bound := short
  simp only [Short, size] at bound
  refine Nat.mod_eq_of_lt ?_
  simp only [size]
  omega

theorem partCall_found (found : plan[index]? = some op) (part : Nat) :
    plan[(host.partCall comm index op part).workOffset / p2p.size]? = some op := by
  rw [partCall_offset short found, Nat.mul_div_cancel _ (size_pos _), found]

theorem callOp_partCall (found : plan[index]? = some op) (part : Nat) :
    callOp plan (host.partCall comm index op part) = op := by
  rw [callOp, partCall_found short found, Option.getD_some]

omit short in
theorem isCall_of_mem (member : call ∈ host.planCalls comm plan) : IsCall host comm plan call := by
  obtain ⟨⟨op, index⟩, item, made⟩ := mem_flatMap.mp member
  obtain ⟨part, -, rfl⟩ := mem_map.mp made
  exact ⟨index, op, part, mk_mem_zipIdx_iff_getElem?.mp item, rfl⟩

/-- Of the works of an operation, one channel has at most one. -/
theorem addP2pToPlan_channel (found : plan[index]? = some op) (channelId : Nat) :
    ((host.addP2pToPlan comm index op).filter (·.channelId = channelId)).map (callOp plan) =
      [op].filter (Uses host comm channelId ·) := by
  rw [P2pHost.addP2pToPlan, ← opParts, filter_map, map_map]
  have constant : callOp plan ∘ host.partCall comm index op = fun _ => op := by
    funext part
    exact callOp_partCall short found part
  rw [constant]
  by_cases uses : Uses host comm channelId op
  · obtain ⟨part, inside, rfl⟩ := uses
    have bound := inside.trans_le (opParts_le host comm op)
    have unique : (range (opParts host comm op)).filter
        ((fun call : WorkCall => decide (call.channelId = partChannel comm op part)) ∘ host.partCall comm index op) =
        (range (opParts host comm op)).filter fun other => decide (other = part) := by
      refine filter_congr fun other member => ?_
      have bound' := lt_of_lt_of_le (mem_range.mp member) (opParts_le host comm op)
      refine decide_eq_decide.mpr ⟨fun same => partChannel_injective comm op bound bound' same, fun same => ?_⟩
      rw [same]
      rfl
    rw [unique, filter_eq, count_eq_one_of_mem nodup_range (mem_range.mpr inside)]
    simp [show Uses host comm (partChannel comm op part) op from ⟨part, inside, rfl⟩]
  · have none_here : (range (opParts host comm op)).filter
        ((fun call : WorkCall => decide (call.channelId = channelId)) ∘ host.partCall comm index op) = [] := by
      refine filter_eq_nil_iff.mpr fun part member same => uses ⟨part, mem_range.mp member, ?_⟩
      exact of_decide_eq_true same
    rw [none_here]
    simp [uses]

/-- A channel has the works of the operations that use it, in their order. -/
theorem planCalls_channel (channelId : Nat) :
    ((host.planCalls comm plan).filter (·.channelId = channelId)).map (callOp plan) =
      plan.filter (Uses host comm channelId ·) := by
  have each : ∀ item ∈ plan.zipIdx,
      ((host.addP2pToPlan comm item.2 item.1).filter (·.channelId = channelId)).map (callOp plan) =
        [item.1].filter (Uses host comm channelId ·) := by
    rintro ⟨op, index⟩ member
    exact addP2pToPlan_channel short (mk_mem_zipIdx_iff_getElem?.mp member) channelId
  rw [P2pHost.planCalls, filter_flatMap, map_flatMap, flatMap_congr each, ← filter_flatMap,
    ← map_eq_flatMap, zipIdx_map_fst]

end

/-- What must hold of the works of a batch for one more to be fused with them. -/
structure OpJoins (batch : List P2pOp) (op : P2pOp) : Prop where
  epoch : ∀ other ∈ batch, other.p2pEpoch = op.p2pEpoch
  rounds : ∀ other ∈ batch, op.p2pRound ≠ other.p2pRound ∧
    op.p2pRound / NCCL_MAX_DEV_WORK_P2P_PER_BATCH = other.p2pRound / NCCL_MAX_DEV_WORK_P2P_PER_BATCH
  room : batch.length ≠ NCCL_MAX_DEV_WORK_P2P_PER_BATCH
  bytes : batch.length * p2p.size + p2p.size ≤ NCCL_MAX_DEV_WORK_BATCH_BYTES

section
variable {host : P2pHost} {comm : P2pComm} (short : Short plan) (enabled : host.config.p2pEpochEnable = true)
include short

theorem IsCall.found (isCall : IsCall host comm plan call) :
    plan[call.workOffset / p2p.size]? = some (callOp plan call) := by
  obtain ⟨index, op, part, found, rfl⟩ := isCall
  rw [callOp_partCall short found, partCall_found short found]

theorem IsCall.fields (isCall : IsCall host comm plan call) :
    call.workType = .p2p ∧ call.devFuncId = host.devFuncId ∧ call.p2pEpoch = (callOp plan call).p2pEpoch ∧
      call.p2pRound = (callOp plan call).p2pRound := by
  obtain ⟨index, op, part, found, rfl⟩ := isCall
  rw [callOp_partCall short found]
  exact ⟨rfl, rfl, rfl, rfl⟩

include enabled in
/-- With epochs enabled, the fields of the operations decide about the batches. -/
theorem joins_iff (group : List WorkCall) (call : WorkCall) (members : ∀ member ∈ group, IsCall host comm plan member)
    (isCall : IsCall host comm plan call) :
    Joins host.config group call ↔ OpJoins (group.map (callOp plan)) (callOp plan call) := by
  obtain ⟨type, func, epoch, round⟩ := isCall.fields short
  have rounds : ∀ member ∈ group, (call.p2pRound ≠ member.p2pRound ∧
      call.p2pRound.tdiv NCCL_MAX_DEV_WORK_P2P_PER_BATCH = member.p2pRound.tdiv NCCL_MAX_DEV_WORK_P2P_PER_BATCH) ↔
      ((callOp plan call).p2pRound ≠ (callOp plan member).p2pRound ∧
        (callOp plan call).p2pRound / NCCL_MAX_DEV_WORK_P2P_PER_BATCH =
          (callOp plan member).p2pRound / NCCL_MAX_DEV_WORK_P2P_PER_BATCH) := by
    intro member inside
    obtain ⟨-, -, -, round'⟩ := (members member inside).fields short
    rw [round, round', ← Int.ofNat_tdiv, ← Int.ofNat_tdiv, Int.ofNat_inj, ne_eq, Int.ofNat_inj]
  constructor
  · intro joins
    refine ⟨?_, ?_, ?_, ?_⟩
    · intro other member
      obtain ⟨work, inside, rfl⟩ := mem_map.mp member
      have same := joins.epoch type enabled work inside
      rw [((members work inside).fields short).2.2.1, epoch] at same
      exact Int.ofNat_inj.mp same
    · intro other member
      obtain ⟨work, inside, rfl⟩ := mem_map.mp member
      exact (rounds work inside).mp (joins.rounds type work inside)
    · simpa using joins.room type
    · have bytes := joins.bytes (by rw [type]; decide)
      rwa [type, ← length_map (callOp plan)] at bytes
  · intro joins
    refine ⟨?_, ?_, ?_, ?_, ?_, ?_⟩
    · intro work inside
      obtain ⟨type', func', -, -⟩ := (members work inside).fields short
      exact ⟨type'.trans type.symm, func'.trans func.symm⟩
    · intro _ _ work inside
      rw [((members work inside).fields short).2.2.1, epoch, joins.epoch _ (mem_map_of_mem inside)]
    · intro _
      simpa using joins.room
    · intro _ work inside
      exact (rounds work inside).mpr (joins.rounds _ (mem_map_of_mem inside))
    · intro isBcast
      rw [type] at isBcast
      cases isBcast
    · intro _
      have bytes := joins.bytes
      rwa [length_map, ← type] at bytes

/-- The works of a plan lie at increasing offsets on each channel. -/
theorem planCalls_increase : OffsetsIncrease (host.planCalls comm plan) := by
  rw [OffsetsIncrease, P2pHost.planCalls, pairwise_flatMap]
  refine ⟨?_, ?_⟩
  · rintro ⟨op, index⟩ member
    rw [P2pHost.addP2pToPlan, pairwise_map]
    refine (nodup_range (n := opParts host comm op)).imp_of_mem fun {part other} inside inside' apart same => ?_
    have bound := lt_of_lt_of_le (mem_range.mp inside) (opParts_le host comm op)
    have bound' := lt_of_lt_of_le (mem_range.mp inside') (opParts_le host comm op)
    exact absurd (partChannel_injective comm op bound' bound same) apart
  · have indices : plan.zipIdx.Pairwise fun item later => item.2 < later.2 := by
      rw [← pairwise_map, zipIdx_map_snd]
      exact pairwise_lt_range'
    refine indices.imp_of_mem ?_
    rintro ⟨op, index⟩ ⟨later, index'⟩ member member' less call made call' made' -
    obtain ⟨part, -, rfl⟩ := mem_map.mp made
    obtain ⟨part', -, rfl⟩ := mem_map.mp made'
    rw [partCall_offset short (mk_mem_zipIdx_iff_getElem?.mp member),
      partCall_offset short (mk_mem_zipIdx_iff_getElem?.mp member')]
    exact Nat.mul_lt_mul_of_pos_right less (size_pos _)

variable (comm) in
include enabled in
/-- A channel runs the operations that use it, fused greedily. -/
theorem channelBatches_greedy (channelId : Nat) :
    Greedy OpJoins (host.channelBatches comm plan channelId) ∧
      (host.channelBatches comm plan channelId).flatten = plan.filter (Uses host comm channelId ·) := by
  obtain ⟨fused, channel, listed⟩ := addWorks_fused host.config (planCalls_increase short) channelId
  have calls : ∀ call ∈ (fused.map FusedBatch.works).flatten, IsCall host comm plan call := by
    intro call member
    rw [← flatMap_def, listed] at member
    exact isCall_of_mem (mem_of_mem_filter member)
  have batches : host.channelBatches comm plan channelId =
      (fused.map FusedBatch.works).map (map (callOp plan)) := by
    rw [P2pHost.channelBatches, channel.queue, fusedOffsets_eq, map_map, map_map]
    refine map_congr_left fun batch member => ?_
    simp only [Function.comp_apply]
    rw [filterMap_map, filterMap_eq_map_iff_forall_eq_some]
    intro call inside
    exact (calls call (mem_flatten.mpr ⟨_, mem_map_of_mem member, inside⟩)).found short
  rw [batches]
  refine ⟨channel.greedy.map (joins_iff short enabled) calls, ?_⟩
  rw [← map_flatten, ← flatMap_def, listed, planCalls_channel short]

end

/-! ### The order of the batches -/

/-- Where an operation stands in the schedule. -/
def opKey (op : P2pOp) : ℕ ×ₗ ℕ := toLex (op.p2pEpoch, op.p2pRound)

/-- The epoch and the group of rounds of an operation. -/
def batchKey (op : P2pOp) : ℕ ×ₗ ℕ := toLex (op.p2pEpoch, op.p2pRound / NCCL_MAX_DEV_WORK_P2P_PER_BATCH)

variable {op : P2pOp}

theorem opKey_lt : opKey op < opKey later ↔
    op.p2pEpoch < later.p2pEpoch ∨ op.p2pEpoch = later.p2pEpoch ∧ op.p2pRound < later.p2pRound :=
  Prod.Lex.toLex_lt_toLex

theorem batchKey_lt : batchKey op < batchKey later ↔
    op.p2pEpoch < later.p2pEpoch ∨ op.p2pEpoch = later.p2pEpoch ∧
      op.p2pRound / NCCL_MAX_DEV_WORK_P2P_PER_BATCH < later.p2pRound / NCCL_MAX_DEV_WORK_P2P_PER_BATCH :=
  Prod.Lex.toLex_lt_toLex

theorem batchKey_eq : batchKey op = batchKey other ↔ op.p2pEpoch = other.p2pEpoch ∧
      op.p2pRound / NCCL_MAX_DEV_WORK_P2P_PER_BATCH = other.p2pRound / NCCL_MAX_DEV_WORK_P2P_PER_BATCH := by
  rw [batchKey, batchKey, EmbeddingLike.apply_eq_iff_eq, Prod.mk.injEq]

theorem batchKey_le (less : opKey op < opKey later) : batchKey op ≤ batchKey later := by
  refine not_lt.mp fun back => ?_
  rw [opKey_lt] at less
  rw [batchKey_lt] at back
  simp only [NCCL_MAX_DEV_WORK_P2P_PER_BATCH] at back
  omega

theorem opKey_lt_of_batchKey (less : batchKey op < batchKey later) : opKey op < opKey later := by
  rw [batchKey_lt] at less
  rw [opKey_lt]
  simp only [NCCL_MAX_DEV_WORK_P2P_PER_BATCH] at less
  omega

/-- The batches of a channel: small, of distinct rounds in one group of one
epoch, and in the order of these. -/
structure BatchesInOrder (batches : List (List P2pOp)) : Prop where
  size : ∀ batch ∈ batches, batch.length ≤ NCCL_MAX_DEV_WORK_P2P_PER_BATCH
  rounds : ∀ batch ∈ batches, (batch.map P2pOp.p2pRound).Nodup
  alike : ∀ batch ∈ batches, ∀ op ∈ batch, ∀ other ∈ batch, batchKey op = batchKey other
  increasing : batches.Pairwise fun batch later => ∀ op ∈ batch, ∀ other ∈ later, batchKey op < batchKey other

/-- Only so many rounds are in one group. -/
private theorem rounds_length_le {rounds : List Nat} (nodup : rounds.Nodup)
    (group : ∀ round ∈ rounds, ∀ other ∈ rounds,
      round / NCCL_MAX_DEV_WORK_P2P_PER_BATCH = other / NCCL_MAX_DEV_WORK_P2P_PER_BATCH) :
    rounds.length ≤ NCCL_MAX_DEV_WORK_P2P_PER_BATCH := by
  have positions : (rounds.map (· % NCCL_MAX_DEV_WORK_P2P_PER_BATCH)).Nodup := by
    refine nodup.map_on fun round inside other inside' same => ?_
    rw [← Nat.div_add_mod round NCCL_MAX_DEV_WORK_P2P_PER_BATCH, group round inside other inside', same,
      Nat.div_add_mod]
  have within : rounds.map (· % NCCL_MAX_DEV_WORK_P2P_PER_BATCH) ⊆ range NCCL_MAX_DEV_WORK_P2P_PER_BATCH := by
    intro position member
    obtain ⟨round, -, rfl⟩ := mem_map.mp member
    exact mem_range.mpr (Nat.mod_lt _ (by decide))
  have length := (subperm_of_subset positions within).length_le
  rwa [length_map] at length

/-- The works of one batch. -/
structure OneBatch (batch : List P2pOp) : Prop where
  rounds : (batch.map P2pOp.p2pRound).Nodup
  alike : ∀ op ∈ batch, ∀ other ∈ batch, batchKey op = batchKey other

theorem OneBatch.length_le {batch : List P2pOp} (one : OneBatch batch) :
    batch.length ≤ NCCL_MAX_DEV_WORK_P2P_PER_BATCH := by
  rw [← length_map P2pOp.p2pRound]
  refine rounds_length_le one.rounds fun round inside other inside' => ?_
  obtain ⟨op, member, rfl⟩ := mem_map.mp inside
  obtain ⟨op', member', rfl⟩ := mem_map.mp inside'
  exact (batchKey_eq.mp (one.alike op member op' member')).2

theorem oneBatch_concat (one : OneBatch batch) (fresh : ∀ other ∈ batch, op.p2pRound ≠ other.p2pRound)
    (same : ∀ other ∈ batch, batchKey other = batchKey op) : OneBatch (batch ++ [op]) := by
  constructor
  · rw [map_append, nodup_append]
    refine ⟨one.rounds, nodup_singleton _, fun round inside other inside' equal => ?_⟩
    obtain ⟨earlier, member, rfl⟩ := mem_map.mp inside
    rw [mem_singleton.mp inside'] at equal
    exact fresh earlier member equal.symm
  · simp only [mem_append, mem_singleton]
    rintro first (old | rfl) second (old' | rfl)
    · exact one.alike first old second old'
    · exact same first old
    · exact (same second old').symm
    · rfl

theorem greedy_oneBatch (built : Greedy OpJoins batches) : ∀ batch ∈ batches, OneBatch batch := by
  refine built.all (fun op => ?_) fun batch op one joins => ?_
  · refine ⟨nodup_singleton _, fun first inside second inside' => ?_⟩
    rw [mem_singleton.mp inside, mem_singleton.mp inside']
  · refine oneBatch_concat one (fun other inside => (joins.rounds other inside).1) fun other inside => ?_
    exact batchKey_eq.mpr ⟨joins.epoch other inside, (joins.rounds other inside).2.symm⟩

/-- Operations in the order of the schedule are fused to batches in order. -/
theorem greedy_inOrder (built : Greedy OpJoins batches)
    (sorted : batches.flatten.Pairwise fun op later => opKey op < opKey later) : BatchesInOrder batches := by
  have one := greedy_oneBatch built
  refine ⟨fun batch member => (one batch member).length_le, fun batch member => (one batch member).rounds,
    fun batch member => (one batch member).alike, ?_⟩
  refine built.keys_lt sorted (fun _ _ => batchKey_le) (fun batch member => (one batch member).alike) ?_
  intro batch member op before
  have fresh : ∀ other ∈ batch, op.p2pRound ≠ other.p2pRound := by
    intro other inside
    obtain ⟨less, same⟩ := before other inside
    rw [opKey_lt] at less
    rw [batchKey_eq] at same
    omega
  -- with the new operation there are still only eight rounds
  have longer := (oneBatch_concat (one batch member) fresh fun other inside => (before other inside).2).length_le
  rw [length_append, length_singleton] at longer
  refine ⟨fun other inside => (batchKey_eq.mp (before other inside).2).1, fun other inside => ⟨fresh other inside, ?_⟩,
    ?_, ?_⟩
  · exact (batchKey_eq.mp (before other inside).2).2.symm
  · omega
  · simp only [NCCL_MAX_DEV_WORK_P2P_PER_BATCH, NCCL_MAX_DEV_WORK_BATCH_BYTES, size] at longer ⊢
    omega

/-! ### The operations of a rank -/

section
variable (view : RankView) {round : Nat}

theorem mem_event : op ∈ view.event epoch round ↔
    op = view.op epoch round ∧ ¬(op.send = none ∧ op.recv = none) ∧ view.inPlace op = false := by
  rw [RankView.event]
  split
  next nothing =>
    simp only [Bool.or_eq_true, Bool.and_eq_true, Option.isNone_iff_eq_none] at nothing
    grind
  next something =>
    grind

theorem mem_upTo : op ∈ view.upTo epochs 0 ↔ ∃ epoch < epochs, ∃ round < view.nRanks,
    op = view.op epoch round ∧ ¬(op.send = none ∧ op.recv = none) ∧ view.inPlace op = false := by
  simp [RankView.upTo, mem_event]

/-- The operations of a rank follow the order of the schedule. -/
theorem upTo_sorted (epochs : Nat) : (view.upTo epochs 0).Pairwise fun op later => opKey op < opKey later := by
  rw [RankView.upTo, range_zero, flatMap_nil, append_nil, pairwise_flatMap]
  refine ⟨fun epoch _ => pairwise_flatMap.mpr ⟨fun round _ => ?_, ?_⟩, ?_⟩
  · rw [RankView.event]
    split
    · exact .nil
    · exact pairwise_singleton _ _
  · refine pairwise_lt_range.imp fun {round later} less op member other member' => ?_
    obtain ⟨rfl, -⟩ := (mem_event view).mp member
    obtain ⟨rfl, -⟩ := (mem_event view).mp member'
    exact opKey_lt.mpr (.inr ⟨rfl, less⟩)
  · refine pairwise_lt_range.imp fun {epoch later} less op member other member' => ?_
    obtain ⟨round, -, here⟩ := mem_flatMap.mp member
    obtain ⟨round', -, there⟩ := mem_flatMap.mp member'
    obtain ⟨rfl, -⟩ := (mem_event view).mp here
    obtain ⟨rfl, -⟩ := (mem_event view).mp there
    exact opKey_lt.mpr (.inl less)

end

/-- What the plans of a rank hold. Every direction of an operation that has a
task is the task of its epoch for its peer, in the round with this peer, and
every task is there unless it is dropped. -/
structure PlansOf (nRanks : Nat) (calls : Nat → List P2pCall) (round : Nat → Nat → Nat) (rank : Nat)
    (plans : List (List P2pOp)) : Prop where
  sorted : plans.flatten.Pairwise fun op later => opKey op < opKey later
  short : ∀ plan ∈ plans, Short plan
  send : ∀ op ∈ plans.flatten, op.send ≠ none → op.sendRank < nRanks ∧ op.p2pRound = round rank op.sendRank ∧
    droppedInPlace calls rank op.sendRank op.p2pEpoch = false ∧
      op.send = (sendsTo (calls rank) op.sendRank)[op.p2pEpoch]?
  recv : ∀ op ∈ plans.flatten, op.recv ≠ none → op.recvRank < nRanks ∧ op.p2pRound = round op.recvRank rank ∧
    droppedInPlace calls op.recvRank rank op.p2pEpoch = false ∧
    op.recv = (recvsFrom (calls rank) op.recvRank)[op.p2pEpoch]?
  sent : ∀ peer < nRanks, ∀ k, (sendsTo (calls rank) peer)[k]? ≠ none → droppedInPlace calls rank peer k = false →
    ∃ op ∈ plans.flatten, op.sendRank = peer ∧ op.p2pEpoch = k ∧ op.send = (sendsTo (calls rank) peer)[k]?
  received : ∀ peer < nRanks, ∀ k, (recvsFrom (calls rank) peer)[k]? ≠ none →
    droppedInPlace calls peer rank k = false →
    ∃ op ∈ plans.flatten, op.recvRank = peer ∧ op.p2pEpoch = k ∧ op.recv = (recvsFrom (calls rank) peer)[k]?

section
variable (group : P2pGroup nRanks schedule calls) {round : Nat → Nat → Nat}
    (meets : MeetsIn nRanks schedule round) (inside : rank < nRanks)

theorem peersAt_lt (bound : r < nRanks) :
    ((group.view inside).peersAt r).sendRank < nRanks ∧
      ((group.view inside).peersAt r).recvRank < nRanks := by
  have member := (group.view inside).peersAt_mem bound
  exact ⟨mem_range.mp ((group.sendRow rank inside).mem_iff.mp (mem_map_of_mem member)),
    mem_range.mp ((group.recvRow inside).mem_iff.mp (mem_map_of_mem member))⟩

include meets in
/-- The plans `ncclLaunchPrepare` makes are of this kind. -/
theorem plansOf_launched (launched : (group.view inside).Launched budgets (.ofCalls (calls rank)) final plans)
    (short : ∀ plan ∈ plans, Short plan) : PlansOf nRanks calls round rank plans := by
  let view := group.view inside
  obtain ⟨epochs, log, enough⟩ := launched.log
  refine ⟨?_, short, ?_, ?_, ?_, ?_⟩
  · rw [log]
    exact upTo_sorted view epochs
  · intro op member _
    rw [log] at member
    obtain ⟨epoch, -, r, bound, rfl, -, apart⟩ := (mem_upTo view).mp member
    have insidePeer := (peersAt_lt group inside bound).1
    refine ⟨insidePeer, ?_, ?_, rfl⟩
    · exact view.round_unique (meets.inside rank inside _ insidePeer) RankView.sendRow_nodup bound
        (meets.sendRank_eq group inside insidePeer).symm
    · rw [view.inPlace_eq bound] at apart
      exact apart
  · intro op member _
    rw [log] at member
    obtain ⟨epoch, -, r, bound, rfl, -, apart⟩ := (mem_upTo view).mp member
    have insidePeer := (peersAt_lt group inside bound).2
    refine ⟨insidePeer, ?_, ?_, rfl⟩
    · exact view.round_unique (meets.inside _ insidePeer rank inside) RankView.recvRow_nodup bound
        (meets.recvRank_eq group inside insidePeer).symm
    · rw [view.inPlace_eq bound, ← view.selfInPlace_recvRank bound] at apart
      rw [droppedInPlace_comm]
      exact apart
  · intro peer insidePeer k task kept
    have isPeer := meets.sendRank_eq group inside insidePeer
    have bound := meets.inside rank inside peer insidePeer
    have sends := congrArg (fun other => (sendsTo (calls rank) other)[k]?) isPeer
    refine ⟨view.op k (round rank peer), ?_, isPeer, rfl, sends⟩
    rw [log]
    refine (mem_upTo view).mpr ⟨k, ?_, _, bound, rfl, fun idle => task (sends ▸ idle.1), ?_⟩
    · exact lt_of_lt_of_le (Nat.not_le.mp (mt getElem?_eq_none task)) (enough peer).1
    · rw [view.inPlace_eq bound, isPeer]
      exact kept
  · intro peer insidePeer k task kept
    have isPeer := meets.recvRank_eq group inside insidePeer
    have bound := meets.inside peer insidePeer rank inside
    have recvs := congrArg (fun other => (recvsFrom (calls rank) other)[k]?) isPeer
    refine ⟨view.op k (round peer rank), ?_, isPeer, rfl, recvs⟩
    rw [log]
    refine (mem_upTo view).mpr ⟨k, ?_, _, bound, rfl, fun idle => task (recvs ▸ idle.2), ?_⟩
    · exact lt_of_lt_of_le (Nat.not_le.mp (mt getElem?_eq_none task)) (enough peer).2
    · rw [view.inPlace_eq bound, ← view.selfInPlace_recvRank bound, isPeer]
      rw [droppedInPlace_comm] at kept
      exact kept

end

/-! ### All ranks together -/

variable {host : P2pHost} {comm : P2pComm}

theorem mem_workParts :
    meeting ∈ host.workParts comm rank channelId op ↔
      ∃ part, part = ncclP2pChannelToPart comm.p2pnChannels (comm.ncclP2pChannelBaseForRound op.p2pRound) channelId ∧
        ((part < host.nSendChannels comm op ∧ meeting = ⟨rank, op.sendRank, op.p2pEpoch, part⟩) ∨
          part < host.nRecvChannels comm op ∧ meeting = ⟨op.recvRank, rank, op.p2pEpoch, part⟩) := by
  simp [P2pHost.workParts]

/-- A direction with channels has a task. -/
theorem task_ne_none (bound : part < host.dirChannels comm isSend peer epoch task) : task ≠ none := by
  rintro rfl
  rw [dirChannels_none] at bound
  cases bound

section
variable {comm : P2pComm} {hosts : Nat → P2pHost} {nRanks : Nat} {plans : Nat → List (List P2pOp)}

theorem inBatch_iff :
    (p2pSystem comm hosts nRanks plans).InBatch rank stage channelId batch meeting ↔
      rank < nRanks ∧ ∃ plan, (plans rank)[stage]? = some plan ∧ ∃ works,
        ((hosts rank).channelBatches comm plan channelId)[batch]? = some works ∧
        ∃ op ∈ works, meeting ∈ (hosts rank).workParts comm rank channelId op := by
  simp only [Rendezvous.InBatch, Rendezvous.batches, p2pSystem]
  by_cases inside : rank < nRanks
  · cases found : (plans rank)[stage]? with
    | none => simp [inside, found]
    | some => simp [inside, found]
  · simp [inside]

/-- The parts of the transfers of a group. -/
structure IsTransfer (comm : P2pComm) (hosts : Nat → P2pHost) (nRanks : Nat) (calls : Nat → List P2pCall)
    (part : TransferPart) : Prop where
  sendRank_lt : part.sendRank < nRanks
  recvRank_lt : part.recvRank < nRanks
  kept : droppedInPlace calls part.sendRank part.recvRank part.index = false
  part_lt : part.part < (hosts part.sendRank).dirChannels comm true part.recvRank part.index
    (sendsTo (calls part.sendRank) part.recvRank)[part.index]?

/-- Both ends of a transfer derive the same number of parts. -/
def PartsAgree (comm : P2pComm) (hosts : Nat → P2pHost) (nRanks : Nat) (calls : Nat → List P2pCall) : Prop :=
  ∀ i < nRanks, ∀ j < nRanks, ∀ k, (hosts i).dirChannels comm true j k (sendsTo (calls i) j)[k]? =
    (hosts j).dirChannels comm false i k (recvsFrom (calls j) i)[k]?

variable {round : Nat → Nat → Nat} (held : ∀ rank < nRanks, PlansOf nRanks calls round rank (plans rank))
  (enabled : ∀ rank < nRanks, (hosts rank).config.p2pEpochEnable = true) (agree : PartsAgree comm hosts nRanks calls)

/-- Where a part stands in the schedule. -/
def partKey (round : Nat → Nat → Nat) (part : TransferPart) : ℕ ×ₗ ℕ :=
  toLex (part.index, round part.sendRank part.recvRank)

include held

section
variable (inside : rank < nRanks) (member : op ∈ (plans rank).flatten)
  (here : meeting ∈ (hosts rank).workParts comm rank channelId op)
include inside member here

theorem workParts_key : partKey round meeting = opKey op := by
  obtain ⟨part, -, ⟨bound, rfl⟩ | ⟨bound, rfl⟩⟩ := mem_workParts.mp here
  · rw [partKey, opKey, ((held rank inside).send op member (task_ne_none bound)).2.1]
  · rw [partKey, opKey, ((held rank inside).recv op member (task_ne_none bound)).2.1]

include agree in
theorem workParts_transfer : IsTransfer comm hosts nRanks calls meeting := by
  obtain ⟨part, -, ⟨bound, rfl⟩ | ⟨bound, rfl⟩⟩ := mem_workParts.mp here
  · obtain ⟨insidePeer, -, kept, task⟩ := (held rank inside).send op member (task_ne_none bound)
    rw [P2pHost.nSendChannels, task] at bound
    exact ⟨inside, insidePeer, kept, bound⟩
  · obtain ⟨insidePeer, -, kept, task⟩ := (held rank inside).recv op member (task_ne_none bound)
    rw [P2pHost.nRecvChannels, task, ← agree _ insidePeer _ inside] at bound
    exact ⟨insidePeer, inside, kept, bound⟩

end

include enabled
variable (comm) in
theorem batches_inOrder (inside : rank < nRanks) (member : plan ∈ plans rank) (channelId : Nat) :
    BatchesInOrder ((hosts rank).channelBatches comm plan channelId) := by
  obtain ⟨built, listed⟩ :=
    channelBatches_greedy comm ((held rank inside).short plan member) (enabled rank inside) channelId
  refine greedy_inOrder built ?_
  rw [listed]
  exact ((pairwise_flatten.mp (held rank inside).sorted).1 plan member).filter _

/-- The parts of an operation in a plan stand in a batch of their channel. -/
theorem occurs_of_op (inside : rank < nRanks) (member : op ∈ (plans rank).flatten)
    (bound : part < opParts (hosts rank) comm op)
    (here : meeting ∈ (hosts rank).workParts comm rank (partChannel comm op part) op) :
    (p2pSystem comm hosts nRanks plans).Occurs rank (partChannel comm op part) meeting := by
  obtain ⟨plan, inPlans, inPlan⟩ := mem_flatten.mp member
  obtain ⟨stage, atStage⟩ := mem_iff_getElem?.mp inPlans
  have listed := (channelBatches_greedy comm ((held rank inside).short plan inPlans) (enabled rank inside)
    (partChannel comm op part)).2
  have used : op ∈ ((hosts rank).channelBatches comm plan (partChannel comm op part)).flatten := by
    rw [listed]
    exact mem_filter.mpr ⟨inPlan, decide_eq_true ⟨part, bound, rfl⟩⟩
  obtain ⟨works, inBatches, inWorks⟩ := mem_flatten.mp used
  obtain ⟨batch, atBatch⟩ := mem_iff_getElem?.mp inBatches
  exact ⟨stage, batch, inBatch_iff.mpr ⟨inside, plan, atStage, works, atBatch, op, inWorks, here⟩⟩

/-- What stands in a batch is a part of an operation of the plan. -/
theorem inBatch_op (here : (p2pSystem comm hosts nRanks plans).InBatch rank stage channelId batch meeting) :
    rank < nRanks ∧ ∃ plan, (plans rank)[stage]? = some plan ∧ ∃ works,
      ((hosts rank).channelBatches comm plan channelId)[batch]? = some works ∧ ∃ op ∈ works, op ∈ plan ∧
        op ∈ (plans rank).flatten ∧ meeting ∈ (hosts rank).workParts comm rank channelId op := by
  obtain ⟨inside, plan, found, works, atBatch, op, inWorks, inParts⟩ := inBatch_iff.mp here
  have member := mem_of_getElem? found
  have listed := (channelBatches_greedy comm ((held rank inside).short plan member) (enabled rank inside) channelId).2
  have inPlan : op ∈ plan.filter (Uses (hosts rank) comm channelId ·) := by
    rw [← listed]
    exact mem_flatten.mpr ⟨works, mem_of_getElem? atBatch, inWorks⟩
  have inPlan := mem_of_mem_filter inPlan
  exact ⟨inside, plan, found, works, atBatch, op, inWorks, inPlan, mem_flatten.mpr ⟨plan, member, inPlan⟩, inParts⟩

/-- All ranks follow the order of the schedule. -/
theorem system_ordered : (p2pSystem comm hosts nRanks plans).Ordered (partKey round) := by
  constructor
  · intro rank stage stage' channelId channelId' batch batch' meeting meeting' less here there
    obtain ⟨inside, plan, found, -, -, op, -, inPlan, inPlans, inParts⟩ := inBatch_op held enabled here
    obtain ⟨-, plan', found', -, -, op', -, inPlan', inPlans', inParts'⟩ := inBatch_op held enabled there
    rw [workParts_key held inside inPlans inParts, workParts_key held inside inPlans' inParts']
    obtain ⟨bound, rfl⟩ := List.getElem?_eq_some_iff.mp found
    obtain ⟨bound', rfl⟩ := List.getElem?_eq_some_iff.mp found'
    have across := (pairwise_flatten.mp (held rank inside).sorted).2
    exact pairwise_iff_getElem.mp across stage stage' bound bound' less op inPlan op' inPlan'
  · intro rank stage channelId batch batch' meeting meeting' less here there
    obtain ⟨inside, plan, found, works, atBatch, op, inWorks, -, inPlans, inParts⟩ := inBatch_op held enabled here
    obtain ⟨-, plan', found', works', atBatch', op', inWorks', -, inPlans', inParts'⟩ := inBatch_op held enabled there
    obtain rfl : plan = plan' := Option.some.inj (found.symm.trans found')
    rw [workParts_key held inside inPlans inParts, workParts_key held inside inPlans' inParts']
    obtain ⟨bound, rfl⟩ := List.getElem?_eq_some_iff.mp atBatch
    obtain ⟨bound', rfl⟩ := List.getElem?_eq_some_iff.mp atBatch'
    have increasing := (batches_inOrder comm held enabled inside (mem_of_getElem? found) channelId).increasing
    exact opKey_lt_of_batchKey
      (pairwise_iff_getElem.mp increasing batch batch' bound bound' less op inWorks op' inWorks')

include agree

/-- Every part of a transfer is on one channel at both ends. -/
theorem transfer_occurs (transfer : IsTransfer comm hosts nRanks calls meeting) :
    ∃ channelId, (p2pSystem comm hosts nRanks plans).Occurs meeting.sendRank channelId meeting ∧
      (p2pSystem comm hosts nRanks plans).Occurs meeting.recvRank channelId meeting := by
  obtain ⟨sendRank, recvRank, index, part⟩ := meeting
  obtain ⟨insideS, insideR, kept, bound⟩ := transfer
  have parts := agree sendRank insideS recvRank insideR index
  have most := dirChannels_le (hosts sendRank) comm true recvRank index (sendsTo (calls sendRank) recvRank)[index]?
  have task := task_ne_none bound
  have task' := task_ne_none (parts ▸ bound)
  obtain ⟨op, member, toPeer, epoch, isTask⟩ := (held sendRank insideS).sent recvRank insideR index task kept
  obtain ⟨op', member', fromPeer, epoch', isTask'⟩ := (held recvRank insideR).received sendRank insideS index task' kept
  have sendParts : (hosts sendRank).nSendChannels comm op =
      (hosts sendRank).dirChannels comm true recvRank index (sendsTo (calls sendRank) recvRank)[index]? := by
    rw [P2pHost.nSendChannels, toPeer, epoch, isTask]
  have recvParts : (hosts recvRank).nRecvChannels comm op' =
      (hosts sendRank).dirChannels comm true recvRank index (sendsTo (calls sendRank) recvRank)[index]? := by
    rw [P2pHost.nRecvChannels, fromPeer, epoch', isTask', parts]
  have sameRound : op.p2pRound = op'.p2pRound := by
    rw [((held sendRank insideS).send op member (isTask ▸ task)).2.1, toPeer,
      ((held recvRank insideR).recv op' member' (isTask' ▸ task')).2.1, fromPeer]
  have sameChannel : partChannel comm op part = partChannel comm op' part := by rw [partChannel, sameRound, partChannel]
  refine ⟨partChannel comm op part, ?_, ?_⟩
  · refine occurs_of_op held enabled insideS member (lt_of_lt_of_le (sendParts ▸ bound) (le_max_right _ _)) ?_
    refine mem_workParts.mpr ⟨part, (channelToPart_partChannel comm op (bound.trans_le most)).symm, .inl ?_⟩
    exact ⟨sendParts ▸ bound, by rw [toPeer, epoch]⟩
  · rw [sameChannel]
    refine occurs_of_op held enabled insideR member' (lt_of_lt_of_le (recvParts ▸ bound) (le_max_left _ _)) ?_
    refine mem_workParts.mpr ⟨part, (channelToPart_partChannel comm op' (bound.trans_le most)).symm, .inr ?_⟩
    exact ⟨recvParts ▸ bound, by rw [fromPeer, epoch']⟩

theorem system_paired (occurs : (p2pSystem comm hosts nRanks plans).Occurs rank channelId meeting) :
    ∃ channelId', (p2pSystem comm hosts nRanks plans).Occurs meeting.sendRank channelId' meeting ∧
      (p2pSystem comm hosts nRanks plans).Occurs meeting.recvRank channelId' meeting := by
  obtain ⟨stage, batch, here⟩ := occurs
  obtain ⟨inside, plan, -, works, -, op, -, -, inPlans, inParts⟩ := inBatch_op held enabled here
  exact transfer_occurs held enabled agree (workParts_transfer held agree inside inPlans inParts)

end

/-- Matched sends and receives cannot deadlock. Whatever the calls of the ranks
and wherever the budgets cut their plans, the plans take all tasks, the batches
of every channel of a plan are in the order of epochs and groups of rounds, and
in every reachable state in which a part of a transfer has not completed some
rank can take a step. The k-th send to a rank and the k-th receive there are
those of epoch k. -/
theorem p2p_never_stuck (group : P2pGroup nRanks schedule calls) (comm : P2pComm) (hosts : Nat → P2pHost)
    (enabled : ∀ rank < nRanks, (hosts rank).config.p2pEpochEnable = true) (agree : PartsAgree comm hosts nRanks calls)
    (budgets : Nat → Nat → Option (List P2pOp → Bool)) (fair : ∀ rank < nRanks, Fair (budgets rank))
    (keeps : ∀ rank < nRanks, ∀ k testBudget, budgets rank k = some testBudget → Keeps Short testBudget) :
    ∃ round final plans, TasksMeet nRanks schedule calls budgets round final plans ∧
      (∀ rank < nRanks, ∀ plan ∈ plans rank, ∀ channelId,
        BatchesInOrder ((hosts rank).channelBatches comm plan channelId)) ∧
      ∀ state, (p2pSystem comm hosts nRanks plans).Reachable state →
        ∀ part, IsTransfer comm hosts nRanks calls part → ¬ state.held part →
          ∃ next, (p2pSystem comm hosts nRanks plans).Step state next := by
  obtain ⟨round, final, plans, meets, launched⟩ := group.exists_launched fair
  have held : ∀ rank < nRanks, PlansOf nRanks calls round rank (plans rank) := by
    intro rank inside
    obtain ⟨bound, ran⟩ := meets.ran rank inside
    refine plansOf_launched group meets.toMeetsIn inside (launched rank inside) ?_
    have run := ran bound le_rfl
    rw [ncclLaunchPrepare] at run
    split at run
    · rw [← (Prod.mk.inj (Option.some.inj (Except.ok.inj run))).2]
      intro plan member
      cases member
    · exact launchPlans_fits (Nat.zero_le _) (keeps rank inside) (fun plan member => by cases member) run
  refine ⟨round, final, plans, meets,
    fun rank inside plan member channelId => batches_inOrder comm held enabled inside member channelId,
    fun state reached part transfer new => ?_⟩
  obtain ⟨channelId, occurs, -⟩ := transfer_occurs held enabled agree transfer
  exact reached.not_stuck (system_ordered held enabled)
    (fun _ _ _ occurs => system_paired held enabled agree occurs) occurs new

/-- A host without registered buffers, and a budget with room for one operation
of such hosts per plan. -/
def plainHost : P2pHost := ⟨⟨true, 900⟩, 0, 1, 0, 0, fun _ _ _ => false⟩

@[inherit_doc plainHost]
def tightBudget : PlanBudget := ⟨32 * 16 + 48, 0⟩

theorem p2p_never_stuck_pair :
    ∃ plans : Nat → List (List P2pOp),
      (∀ rank < 2, ∃ fuel final, ncclLaunchPrepare rank (pairSchedule rank)
        (fun _ => some (plainHost.testBudget wideComm tightBudget)) fuel (.ofCalls (pairCalls rank)) =
          .ok (some (final, plans rank))) ∧
      ∀ state, (p2pSystem wideComm (fun _ => plainHost) 2 plans).Reachable state → ¬ state.held ⟨0, 1, 1, 0⟩ →
        ∃ next, (p2pSystem wideComm (fun _ => plainHost) 2 plans).Step state next := by
  have same : ∀ i < 2, ∀ j < 2, sendsTo (pairCalls i) j = recvsFrom (pairCalls j) i := by decide
  obtain ⟨round, final, plans, meet, -, progress⟩ :=
    p2p_never_stuck pair_group wideComm (fun _ => plainHost) (fun _ _ => rfl)
    (fun i insideI j insideJ k => by rw [same i insideI j insideJ]; rfl)
    (fun _ _ => some (plainHost.testBudget wideComm tightBudget)) (fun _ _ k => ⟨k, le_refl k, _, rfl, by decide⟩)
    (fun _ _ _ _ isBudget => Option.some.inj isBudget ▸ testBudget_keeps plainHost wideComm (by decide) (by decide))
  refine ⟨plans, fun rank inside => ?_, fun state reached new => progress state reached _ ⟨?_, ?_, ?_, ?_⟩ new⟩
  · obtain ⟨bound, run⟩ := meet.ran rank inside
    exact ⟨bound, final rank, run bound le_rfl⟩
  all_goals decide

end NcclCore.P2pExecProofs
