import Mathlib.Algebra.GroupWithZero.Nat
import NcclCore.CeSync
import NcclCore.Lib.Runs

/-! The barrier of the copy-engine collectives holds in a mixture of eager
launches and replayed graphs exactly when no barrier waits for the value that the
barrier before it on the same array left in the flags. -/
namespace NcclCore
open Lib Function List

/-- A barrier as all ranks perform it. -/
structure SyncPoint where
  capturing : Bool
  currentSeq : UInt32

namespace SyncPoint

/-- What the barrier writes and waits for. -/
def value (point : SyncPoint) : UInt32 := if point.capturing then graphSyncValue else point.currentSeq

/-- What it leaves in the flags. -/
def left (point : SyncPoint) : UInt32 := if point.capturing then 0 else point.currentSeq

end SyncPoint

/-- The barriers of a collective. -/
def syncPoints (capturing : Bool) (seq : UInt32) : Nat → List SyncPoint
  | 0 => []
  | count + 1 => ⟨capturing, seq + 1⟩ :: syncPoints capturing (seq + 1) count

/-- The launches without the ranks: the last sequence number, the captured
collectives and the barriers on the streams. -/
structure SyncHistory where
  seq : UInt32
  graphs : List (List SyncPoint)
  points : List SyncPoint

def SyncHistory.initial : SyncHistory := ⟨0, [], []⟩

def SyncHistory.launch (history : SyncHistory) : CeLaunch → SyncHistory
  | .eager syncs =>
    { history with
      seq := history.seq + UInt32.ofNat syncs
      points := history.points ++ syncPoints false history.seq syncs }
  | .capture syncs =>
    { history with
      seq := history.seq + UInt32.ofNat syncs
      graphs := history.graphs ++ [syncPoints true history.seq syncs] }
  | .replay captured => { history with points := history.points ++ history.graphs[captured]?.getD [] }

/-- The barriers that the launches put on every stream. -/
def launchedPoints (launches : List CeLaunch) : List SyncPoint :=
  (launches.foldl SyncHistory.launch .initial).points

/-- What the flags of the array of barrier `k` hold before it. -/
def leftBefore (points : List SyncPoint) : Nat → UInt32
  | 0 => 0
  | 1 => 0
  | k + 2 => (points[k]?.map SyncPoint.left).getD 0

/-- No barrier waits for a value that is there already. -/
def Fresh (points : List SyncPoint) : Prop :=
  ∀ k point, points[k]? = some point → point.value ≠ leftBefore points k

section
variable {n : Nat} (streams : Fin n → List (List (CeMemOp n))) (state : CeSyncState n) (k : Nat)

/-- The rank got past barrier `k`. -/
def Past (rank : Fin n) : Prop := k < (state rank).cursor.block

/-- The stream of the rank executed something of barrier `k`. -/
def Started (rank : Fin n) : Prop :=
  k < (state rank).cursor.block ∨ (state rank).cursor.block = k ∧ 0 < (state rank).cursor.op

/-- The rank waits in barrier `k`. -/
def Blocked (rank : Fin n) : Prop :=
  (state rank).cursor.block = k ∧ ∃ op, (state rank).cursor.next? (streams rank) = some op ∧ (state rank).exec op = none

/-- A flag write is on its way, or the stream of a rank that started barrier `k`
still has one to execute. -/
def WritesPending : Prop :=
  (∃ rank, (state rank).pending ≠ []) ∨ ∃ rank, (state rank).cursor.block = k ∧
    ∃ dst isComplete capturing, .copyFlag dst isComplete capturing ∈ (state rank).cursor.left (streams rank)

/-- In every run no rank gets past a barrier that another has not started, and no
rank stays blocked in one that all have started. -/
structure IsBarrier : Prop where
  safe : ∀ events state, ceSyncRun streams (fun _ => .initial) events = some state →
    ∀ k rank other, Past state k rank → Started state k other
  live : ∀ events state, ceSyncRun streams (fun _ => .initial) events = some state →
    ∀ k, (∀ rank, Started state k rank) → ¬ WritesPending streams state k → ∀ rank, ¬ Blocked streams state k rank

end

namespace CeSyncProofs
variable {n : Nat} {useMCSync : Bool} {self : Fin n}

/-! ### The streams -/

/-- The blocks of barriers that alternate between the arrays. -/
def blocksFrom (useMCSync : Bool) (self : Fin n) : Bool → List SyncPoint → List (List (CeMemOp n))
  | _, [] => []
  | isComplete, point :: rest =>
    syncOps useMCSync self isComplete point.capturing point.currentSeq :: blocksFrom useMCSync self (!isComplete) rest

theorem length_syncPoints (capturing : Bool) (seq : UInt32) (count : Nat) :
    (syncPoints capturing seq count).length = count := by
  induction count generalizing seq with
  | zero => rfl
  | succ count ih => rw [syncPoints, length_cons, ih]

theorem memOpSyncs_eq (capturing : Bool) (count : Nat) (host : CeSyncHost) :
    memOpSyncs useMCSync self capturing count host =
      (⟨host.ceSeqNum + UInt32.ofNat count, host.useCompletePtr ^^ decide (count % 2 = 1)⟩,
        blocksFrom useMCSync self host.useCompletePtr (syncPoints capturing host.ceSeqNum count)) := by
  induction count generalizing host with
  | zero => simp [memOpSyncs, syncPoints, blocksFrom]
  | succ count ih =>
    have seq : host.ceSeqNum + 1 + UInt32.ofNat count = host.ceSeqNum + UInt32.ofNat (count + 1) := by
      rw [UInt32.ofNat_add, UInt32.add_assoc, UInt32.add_comm (UInt32.ofNat count)]
      rfl
    simp only [memOpSyncs, ncclMemOpSync, ih, syncPoints, blocksFrom, seq]
    congr 2
    rcases Nat.mod_two_eq_zero_or_one count with even | odd
    · simp [even, Nat.add_mod]
    · simp [odd, Nat.add_mod]

theorem blocksFrom_append (isComplete : Bool) (rest : List SyncPoint) (even : Even points.length) :
    blocksFrom useMCSync self isComplete (points ++ rest) =
      blocksFrom useMCSync self isComplete points ++ blocksFrom useMCSync self isComplete rest := by
  match points with
  | [] => rfl
  | [_] => exact absurd even (by simp)
  | first :: second :: points =>
    have fewer : Even points.length := by
      rw [Nat.even_iff] at even ⊢
      simp only [length_cons] at even
      omega
    simp [blocksFrom, blocksFrom_append isComplete rest fewer]

/-- A rank's host and stream follow the launches. -/
structure Follows (useMCSync : Bool) (rank : Fin n) (history : CeHistory n) (points : SyncHistory) : Prop where
  host : history.host = ⟨points.seq, false⟩
  graphs : history.graphs = points.graphs.map (blocksFrom useMCSync rank false)
  stream : history.stream = blocksFrom useMCSync rank false points.points
  evenGraphs : ∀ graph ∈ points.graphs, Even graph.length
  evenPoints : Even points.points.length

theorem Follows.launch (follows : Follows useMCSync self history points) (launch : CeLaunch) :
    Follows useMCSync self (history.launch useMCSync self launch) (points.launch launch) := by
  obtain ⟨host, graphs, stream, evenGraphs, evenPoints⟩ := follows
  have even_mod : ∀ {count : Nat}, Even count → (count % 2 = 1) = False := fun even => by
    simp [Nat.even_iff.mp even]
  cases launch with
  | eager syncs =>
    obtain ⟨count, even⟩ := syncs
    refine ⟨?_, graphs, ?_, evenGraphs, ?_⟩
    · simp [CeHistory.launch, SyncHistory.launch, memOpSyncs_eq, host, even_mod even]
    · simp [CeHistory.launch, SyncHistory.launch, memOpSyncs_eq, host, stream, blocksFrom_append _ _ evenPoints]
    · simpa [SyncHistory.launch, length_syncPoints] using evenPoints.add even
  | capture syncs =>
    obtain ⟨count, even⟩ := syncs
    refine ⟨?_, ?_, stream, ?_, evenPoints⟩
    · simp [CeHistory.launch, SyncHistory.launch, memOpSyncs_eq, host, even_mod even]
    · simp [CeHistory.launch, SyncHistory.launch, memOpSyncs_eq, host, graphs]
    · intro graph member
      rcases mem_append.mp member with old | new
      · exact evenGraphs graph old
      · rw [mem_singleton.mp new, length_syncPoints]
        exact even
  | replay captured =>
    refine ⟨host, graphs, ?_, evenGraphs, ?_⟩
    · simp only [CeHistory.launch, SyncHistory.launch, stream, graphs, blocksFrom_append _ _ evenPoints]
      cases found : points.graphs[captured]? <;> simp [found, blocksFrom]
    · simp only [SyncHistory.launch, length_append]
      refine evenPoints.add ?_
      cases found : points.graphs[captured]? with
      | none => exact Even.zero
      | some graph => exact evenGraphs graph (mem_of_getElem? found)

theorem follows_launches (launches : List CeLaunch) : Follows useMCSync self
    (launches.foldl (CeHistory.launch useMCSync self) .initial) (launches.foldl SyncHistory.launch .initial) := by
  have start : Follows useMCSync self .initial .initial := ⟨rfl, rfl, rfl, by simp [SyncHistory.initial], Even.zero⟩
  exact foldl_rel start fun launch _ _ _ follows => follows.launch launch

/-- The array of barrier `k`. -/
def onComplete (k : Nat) : Bool := decide (k % 2 = 1)

theorem onComplete_succ (k : Nat) : onComplete (k + 1) = !onComplete k := by
  unfold onComplete
  rcases Nat.mod_two_eq_zero_or_one k with even | odd
  · simp [even, Nat.add_mod]
  · simp [odd, Nat.add_mod]

theorem onComplete_succ_ne (k : Nat) : onComplete (k + 1) ≠ onComplete k := by
  rw [onComplete_succ]
  exact Bool.not_ne_self _

theorem getElem?_blocksFrom (isComplete : Bool) (points : List SyncPoint) (k : Nat) :
    (blocksFrom useMCSync self isComplete points)[k]? = points[k]?.map fun point =>
      syncOps useMCSync self (isComplete ^^ onComplete k) point.capturing point.currentSeq := by
  induction points generalizing isComplete k with
  | nil => rfl
  | cons point rest ih =>
    cases k with
    | zero => simp [blocksFrom, onComplete]
    | succ => simp [blocksFrom, ih, onComplete_succ]

/-! ### One block -/

/-- The order of the operations in a block. -/
def opKind : CeMemOp n → Nat
  | .storeSeq _ => 0
  | .copyFlag .. => 1
  | .waitValue .. => 2
  | .writeValue .. => 3

def copiesTo (rank : Fin n) : CeMemOp n → Bool
  | .copyFlag dst .. => dst.hits rank
  | _ => false

def waitsOn (rank : Fin n) : CeMemOp n → Bool
  | .waitValue _ slot _ => slot == rank
  | _ => false

def clears (rank : Fin n) : CeMemOp n → Bool
  | .writeValue _ slot _ => slot == rank
  | _ => false

/-- An operation of the block of a barrier on an array. -/
def Fits (self : Fin n) (isComplete : Bool) (point : SyncPoint) : CeMemOp n → Prop
  | .storeSeq value => point.capturing = false ∧ value = point.currentSeq
  | .copyFlag _ array capturing => array = isComplete ∧ capturing = point.capturing
  | .waitValue array slot value => array = isComplete ∧ slot ≠ self ∧ value = point.value
  | .writeValue array _ value => array = isComplete ∧ value = 0 ∧ point.capturing = true

theorem countP_otherRanks (differ : other ≠ self) : (otherRanks self).countP (· == other) = 1 := by
  have once : (otherRanks self).count other = 1 :=
    count_eq_one_of_mem ((nodup_finRange n).filter _) (by simp [otherRanks, differ])
  exact once

section
variable (useMCSync : Bool) (self : Fin n) (isComplete : Bool) (point : SyncPoint)

/-- The block of a barrier. -/
def block : List (CeMemOp n) := syncOps useMCSync self isComplete point.capturing point.currentSeq

/-- The operations of one kind: the sequence number, the copies of the rank's flag, the waits,
and the writes that clear the flags. -/
def part : Nat → List (CeMemOp n)
  | 0 => storeSeqOps point.capturing point.currentSeq
  | 1 =>
    if useMCSync then [.copyFlag .multicast isComplete point.capturing]
    else (otherRanks self).map fun r => .copyFlag (.peer r) isComplete point.capturing
  | 2 => waitOps self isComplete point.capturing point.currentSeq
  | _ => if point.capturing then (finRange n).map fun i => .writeValue isComplete i 0 else []

theorem block_eq_parts :
    block useMCSync self isComplete point = (range 4).flatMap (part useMCSync self isComplete point) := by
  cases useMCSync <;> simp [block, syncOps, ncclPrepMCSync, ncclPrepUCSync, part, range_succ]

end

section
variable {isComplete : Bool} {point : SyncPoint}

theorem part_fits (few : kind < 4) (member : op ∈ part useMCSync self isComplete point kind) :
    opKind op = kind ∧ Fits self isComplete point op := by
  match kind with
  | 0 =>
    cases capturing : point.capturing <;> simp only [part, storeSeqOps, capturing, Bool.not_true, Bool.not_false,
      Bool.false_eq_true, ↓reduceIte, mem_singleton, not_mem_nil] at member
    subst member
    exact ⟨rfl, capturing, rfl⟩
  | 1 =>
    simp only [part] at member
    split at member
    · obtain rfl := mem_singleton.mp member
      exact ⟨rfl, rfl, rfl⟩
    · obtain ⟨r, -, rfl⟩ := mem_map.mp member
      exact ⟨rfl, rfl, rfl⟩
  | 2 =>
    obtain ⟨r, others, rfl⟩ := mem_map.mp member
    exact ⟨rfl, rfl, by simpa [otherRanks] using others, rfl⟩
  | 3 =>
    simp only [part] at member
    split at member
    next capturing =>
      obtain ⟨r, -, rfl⟩ := mem_map.mp member
      exact ⟨rfl, rfl, rfl, capturing⟩
    · cases member

theorem copiesTo_kind : ∀ op, copiesTo rank op → opKind op = 1 := by
  intro op is
  cases op <;> first | rfl | cases is

theorem waitsOn_kind : ∀ op, waitsOn rank op → opKind op = 2 := by
  intro op is
  cases op <;> first | rfl | cases is

theorem clears_kind : ∀ op, clears rank op → opKind op = 3 := by
  intro op is
  cases op <;> first | rfl | cases is

theorem block_fits (member : op ∈ block useMCSync self isComplete point) : Fits self isComplete point op := by
  rw [block_eq_parts, mem_flatMap] at member
  obtain ⟨kind, few, member⟩ := member
  exact (part_fits (mem_range.mp few) member).2

theorem block_sorted : (block useMCSync self isComplete point).Pairwise fun a b => opKind a ≤ opKind b := by
  have kinds : ∀ kind ∈ range 4, ∀ op ∈ part useMCSync self isComplete point kind, opKind op = kind :=
    fun kind few op member => (part_fits (mem_range.mp few) member).1
  rw [block_eq_parts, pairwise_flatMap]
  constructor
  · intro kind few
    refine pairwise_of_forall_mem_list fun a ha b hb => ?_
    rw [kinds kind few a ha, kinds kind few b hb]
  · refine pairwise_lt_range.imp_of_mem fun first second order a ha b hb => ?_
    rw [kinds _ first a ha, kinds _ second b hb]
    exact order.le

/-- What is of one kind is counted within its part. -/
theorem countP_block (sort : ∀ op, p op → opKind op = kind) (few : kind < 4) :
    (block useMCSync self isComplete point).countP p = (part useMCSync self isComplete point kind).countP p := by
  rw [block_eq_parts, countP_flatMap, sum_map_eq_nsmul_single kind, nodup_range.count, if_pos (mem_range.mpr few)]
  · exact one_nsmul _
  · intro other differ within
    rw [comp_apply, countP_eq_zero]
    intro op member is
    exact differ ((part_fits (mem_range.mp within) member).1.symm.trans (sort op is))

theorem countP_copiesTo (differ : rank ≠ self) :
    (block useMCSync self isComplete point).countP (copiesTo rank) = 1 := by
  rw [countP_block copiesTo_kind (by decide)]
  cases useMCSync
  · simpa [part, comp_def, copiesTo, CeFlagDst.hits] using countP_otherRanks differ
  · rfl

theorem countP_waitsOn (differ : rank ≠ self) :
    (block useMCSync self isComplete point).countP (waitsOn rank) = 1 := by
  rw [countP_block waitsOn_kind (by decide)]
  simpa [part, waitOps, comp_def, waitsOn] using countP_otherRanks differ

theorem any_clears (rank : Fin n) : (block useMCSync self isComplete point).any (clears rank) = point.capturing := by
  cases capturing : point.capturing with
  | true =>
    rw [any_eq_true]
    refine ⟨.writeValue isComplete rank 0, ?_, by simp [clears]⟩
    simp [block_eq_parts, range_succ, part, capturing]
  | false =>
    rw [any_eq_false]
    intro op member is
    have fits := block_fits member
    cases op with
    | writeValue =>
      rw [fits.2.2] at capturing
      cases capturing
    | _ => cases is

theorem storeSeq_mem (eager : point.capturing = false) :
    .storeSeq point.currentSeq ∈ block useMCSync self isComplete point := by
  simp [block_eq_parts, range_succ, part, storeSeqOps, eager]

theorem block_ne_nil : block useMCSync self isComplete point ≠ [] := by
  cases capturing : point.capturing with
  | true =>
    have member : .writeValue isComplete self 0 ∈ block useMCSync self isComplete point := by
      simp [block_eq_parts, range_succ, part, capturing]
    exact ne_nil_of_mem member
  | false => exact ne_nil_of_mem (storeSeq_mem capturing)

end

/-! ### The flags -/

/-- How a team synchronises, and the barriers on every stream. -/
structure TeamSync where
  useMCSync : Bool
  points : List SyncPoint

section
variable (sync : TeamSync)

/-- The stream of a rank. -/
def stream (self : Fin n) : List (List (CeMemOp n)) := blocksFrom sync.useMCSync self false sync.points

/-- What barrier `k` writes and waits for. -/
def valueAt (k : Nat) : UInt32 := (sync.points[k]?.map SyncPoint.value).getD 0

/-- How many writes of `sender` to `receiver` its stream has executed. -/
def issued (sender receiver : Fin n) (rank : CeSyncRank n) : Nat :=
  rank.cursor.upTo (stream sync sender) (copiesTo receiver)

/-- How many waits of `receiver` for `sender` its stream has executed. -/
def waited (sender receiver : Fin n) (rank : CeSyncRank n) : Nat :=
  rank.cursor.upTo (stream sync receiver) (waitsOn sender)

/-- The writes to a rank on their way. -/
def inFlight (receiver : Fin n) (pending : List (CeFlagWrite n)) : List (Bool × UInt32) :=
  (pending.filter (·.dst.hits receiver)).map fun write => (write.isComplete, write.value)

/-- The flag of `sender` in both arrays of a rank that has executed `executed` of
barrier `k`, when `landed` writes have taken effect. -/
structure FlagsAt (sender : Fin n) (k : Nat) (executed : List (CeMemOp n)) (landed : Nat)
    (flags : Bool → Fin n → UInt32) : Prop where
  current : flags (onComplete k) sender =
    if k < landed then (if executed.any (clears sender) then 0 else valueAt sync k) else leftBefore sync.points k
  next : flags (onComplete (k + 1)) sender =
    if k + 1 < landed then valueAt sync (k + 1) else leftBefore sync.points (k + 1)

/-- The writes of `sender` to `receiver` that have been executed have taken effect or
are on their way in order. -/
def Sends (sender receiver : Fin n) (landed : Nat) (source : CeSyncRank n) : Prop :=
  ∃ count, landed + count = issued sync sender receiver source ∧
    inFlight receiver source.pending = (range' landed count).map fun k => (onComplete k, valueAt sync k)

/-- What holds between two ranks. -/
structure Paired (sender receiver : Fin n) (landed : Nat) (source target : CeSyncRank n) : Prop where
  sends : Sends sync sender receiver landed source
  waits : waited sync sender receiver target ≤ landed
  flags : FlagsAt sync sender target.cursor.block (target.cursor.executed (stream sync receiver)) landed
    target.flags

/-- What holds of a rank alone. -/
structure RankOk (owner : Fin n) (rank : CeSyncRank n) : Prop where
  graphValue : rank.ceSeqNumDev true = graphSyncValue
  seqValue : ∀ value, .storeSeq value ∈ rank.cursor.executed (stream sync owner) →
    rank.ceSeqNumDev false = value
  within : rank.cursor.block < sync.points.length →
    rank.cursor.op < (blockAt (stream sync owner) rank.cursor.block).length

variable {sync} {cursor : Cursor}
variable {k : Nat} {point : SyncPoint}

theorem blockAt_stream (found : sync.points[k]? = some point) :
    blockAt (stream sync self) k = block sync.useMCSync self (onComplete k) point := by
  simp [blockAt, stream, getElem?_blocksFrom, found, block]

theorem length_stream : (stream sync self).length = sync.points.length := by
  have lengths : ∀ isComplete points, (blocksFrom sync.useMCSync self isComplete points).length = points.length := by
    intro isComplete points
    induction points generalizing isComplete with
    | nil => rfl
    | cons point rest ih => rw [blocksFrom, length_cons, ih, length_cons]
  exact lengths false sync.points

theorem block_lt_points (next : cursor.next? (stream sync self) = some op) : cursor.block < sync.points.length :=
  length_stream ▸ Cursor.block_lt_of_next next

/-- The next operation belongs to the block of a barrier. -/
theorem next_point (next : cursor.next? (stream sync self) = some op) :
    ∃ point, sync.points[cursor.block]? = some point ∧
      blockAt (stream sync self) cursor.block = block sync.useMCSync self (onComplete cursor.block) point ∧
      Fits self (onComplete cursor.block) point op := by
  have found := getElem?_eq_getElem (block_lt_points next)
  refine ⟨_, found, blockAt_stream found, block_fits (?_ : op ∈ block sync.useMCSync self _ _)⟩
  rw [← blockAt_stream found]
  exact mem_of_getElem? next

theorem sorted_stream (k : Nat) :
    (blockAt (stream sync self) k).Pairwise fun a b => opKind a ≤ opKind b := by
  cases found : sync.points[k]? with
  | none => simp [blockAt, stream, getElem?_blocksFrom, found]
  | some =>
    rw [blockAt_stream found]
    exact block_sorted

theorem once_copiesTo (differ : receiver ≠ self) (within : k < sync.points.length) :
    (blockAt (stream sync self) k).countP (copiesTo receiver) = 1 := by
  rw [blockAt_stream (getElem?_eq_getElem within)]
  exact countP_copiesTo differ

variable {rank next : CeSyncRank n} {sender receiver : Fin n} {landed : Nat}

/-- The rank behind an operation. -/
def moved (sync : TeamSync) (self : Fin n) (rank next : CeSyncRank n) : CeSyncRank n :=
  { next with cursor := rank.cursor.advance (stream sync self) }

/-- Stores change the sequence number, copies the writes on their way and resets the
flags; nothing else does. -/
theorem exec_same (ran : rank.exec op = some next) :
    (opKind op ≠ 0 → next.ceSeqNumDev = rank.ceSeqNumDev) ∧ (opKind op ≠ 1 → next.pending = rank.pending) ∧
      (opKind op ≠ 3 → next.flags = rank.flags) := by
  cases op with
  | waitValue =>
    simp only [CeSyncRank.exec] at ran
    split at ran <;> cases ran
    exact ⟨fun _ => rfl, fun _ => rfl, fun _ => rfl⟩
  | _ =>
    cases ran
    simp [opKind, CeSyncRank.setFlag]

theorem exec_ceSeqNumDev (ran : rank.exec op = some next) :
    next.ceSeqNumDev true = rank.ceSeqNumDev true ∧
      (next.ceSeqNumDev false = rank.ceSeqNumDev false ∧ (∀ value, op ≠ .storeSeq value) ∨
        ∃ value, op = .storeSeq value ∧ next.ceSeqNumDev false = value) := by
  cases op with
  | storeSeq value =>
    cases ran
    exact ⟨rfl, .inr ⟨value, rfl, rfl⟩⟩
  | _ =>
    rw [(exec_same ran).1 (by simp [opKind])]
    exact ⟨rfl, .inl ⟨rfl, by simp⟩⟩

theorem RankOk.exec (ok : RankOk sync self rank)
    (upcoming : rank.cursor.next? (stream sync self) = some op) (ran : rank.exec op = some next) :
    RankOk sync self (moved sync self rank next) := by
  obtain ⟨point, found, here, fits⟩ := next_point upcoming
  obtain ⟨graph, seq⟩ := exec_ceSeqNumDev ran
  refine ⟨graph.trans ok.graphValue, ?_, ?_⟩
  · intro value done
    change next.ceSeqNumDev false = value
    rcases Cursor.advance_cases upcoming with ⟨-, executed, -⟩ | ⟨finished, -⟩
    · rw [moved, executed, mem_append, mem_singleton] at done
      rcases seq with ⟨same, other⟩ | ⟨stored, rfl, new⟩
      · rcases done with before | now
        · exact same.trans (ok.seqValue value before)
        · exact absurd now.symm (other value)
      · rw [new, fits.2]
        rcases done with before | now
        · have member : .storeSeq value ∈ block sync.useMCSync self (onComplete rank.cursor.block) point := by
            rw [← here]
            exact mem_of_mem_take before
          exact (block_fits member).2.symm
        · obtain rfl := CeMemOp.storeSeq.inj now
          exact fits.2.symm
    · rw [moved, finished] at done
      simp [Cursor.executed] at done
  · intro more
    simp only [moved, Cursor.advance] at more ⊢
    split at more
    next inside =>
      rw [if_pos inside]
      exact inside
    next last =>
      rw [if_neg last]
      have later : blockAt (stream sync self) (rank.cursor.block + 1) = _ :=
        blockAt_stream (getElem?_eq_getElem more)
      rw [later]
      exact length_pos_of_ne_nil block_ne_nil

/-- A copy of the flag carries the value of its barrier. -/
theorem RankOk.copied (ok : RankOk sync self rank)
    (upcoming : rank.cursor.next? (stream sync self) = some (.copyFlag dst isComplete capturing)) :
    isComplete = onComplete rank.cursor.block ∧
      rank.ceSeqNumDev capturing = valueAt sync rank.cursor.block := by
  obtain ⟨point, found, here, rfl, rfl⟩ := next_point upcoming
  refine ⟨rfl, ?_⟩
  rw [valueAt, found, Option.map_some, SyncPoint.value]
  cases graph : point.capturing with
  | true => exact ok.graphValue
  | false =>
    refine ok.seqValue _ ?_
    have member : .storeSeq point.currentSeq ∈ blockAt (stream sync self) rank.cursor.block := by
      rw [here]
      exact storeSeq_mem graph
    rw [Cursor.block_eq, mem_append] at member
    refine member.resolve_right fun due => ?_
    exact absurd (Cursor.left_of_earlier upcoming (sorted_stream _) due) (by simp [opKind])

theorem inFlight_append (receiver : Fin n) (pending : List (CeFlagWrite n)) (write : CeFlagWrite n) :
    inFlight receiver (pending ++ [write]) =
      inFlight receiver pending ++ if write.dst.hits receiver then [(write.isComplete, write.value)] else [] := by
  cases hits : write.dst.hits receiver <;> simp [inFlight, hits]

theorem inFlight_cons (receiver : Fin n) (write : CeFlagWrite n) (pending : List (CeFlagWrite n)) :
    inFlight receiver (write :: pending) =
      (if write.dst.hits receiver then [(write.isComplete, write.value)] else []) ++ inFlight receiver pending := by
  cases hits : write.dst.hits receiver <;> simp [inFlight, hits]

theorem Sends.exec (sends : Sends sync self receiver landed rank) (differ : receiver ≠ self)
    (ok : RankOk sync self rank)
    (upcoming : rank.cursor.next? (stream sync self) = some op) (ran : rank.exec op = some next) :
    Sends sync self receiver landed (moved sync self rank next) := by
  obtain ⟨count, total, carried⟩ := sends
  have once : (blockAt (stream sync self) _).countP _ = _ := once_copiesTo differ (block_lt_points upcoming)
  have counts := Cursor.upTo_advance upcoming once
  cases op with
  | storeSeq | waitValue | writeValue =>
    refine ⟨count, total.trans counts.symm, ?_⟩
    rw [moved, (exec_same ran).2.1 (by simp [opKind]), carried]
  | copyFlag dst isComplete capturing =>
    cases ran
    obtain ⟨array, value⟩ := ok.copied upcoming
    cases hits : dst.hits receiver with
    | false =>
      refine ⟨count, ?_, ?_⟩
      · rw [total, issued, issued, moved, counts, copiesTo, hits]
        rfl
      · rw [moved, inFlight_append, carried, hits]
        simp
    | true =>
      have before := Cursor.upTo_of_next upcoming once hits
      rw [issued, before] at total
      refine ⟨count + 1, ?_, ?_⟩
      · rw [issued, moved, counts, before, copiesTo, hits, ← total]
        rfl
      · rw [moved, inFlight_append, carried, hits, range'_concat, map_append, one_mul, total, array, value]
        rfl

/-- What an operation does to the flag of a rank, seen from inside the block. -/
theorem FlagsAt.exec (at_ : FlagsAt sync sender k executed landed rank.flags)
    (fits : Fits receiver (onComplete k) point op) (passed : opKind op = 3 → k < landed)
    (ran : rank.exec op = some next) : FlagsAt sync sender k (executed ++ [op]) landed next.flags := by
  cases op with
  | storeSeq | copyFlag | waitValue =>
    rw [(exec_same ran).2.2 (by simp [opKind])]
    refine ⟨?_, at_.next⟩
    simp [at_.current, clears]
  | writeValue isComplete slot value =>
    cases ran
    obtain ⟨rfl, rfl, -⟩ := fits
    constructor
    · by_cases same : slot = sender
      · simp [CeSyncRank.setFlag, same, clears, passed rfl]
      · have other : (slot == sender) = false := by simpa using same
        simp [CeSyncRank.setFlag, Ne.symm same, clears, other, at_.current]
    · simp [CeSyncRank.setFlag, onComplete_succ_ne, at_.next]

/-- Behind its block a barrier has left the flags to the next ones. -/
theorem FlagsAt.finish (found : sync.points[k]? = some point)
    (at_ : FlagsAt sync sender k (block sync.useMCSync receiver (onComplete k) point) landed flags) (passed : k < landed)
    (ahead : landed ≤ k + 2) : FlagsAt sync sender (k + 1) [] landed flags := by
  refine ⟨?_, ?_⟩
  · simpa using at_.next
  · have notYet := Nat.not_lt.mpr ahead
    rw [onComplete_succ, onComplete_succ, Bool.not_not, at_.current, if_pos passed, any_clears,
      if_neg notYet, leftBefore, valueAt, found]
    cases capturing : point.capturing <;> simp [SyncPoint.left, SyncPoint.value, capturing]

/-- A wait passes only when the flag of its barrier has arrived. -/
theorem FlagsAt.passed
    (fresh : point.value ≠ leftBefore sync.points k) (at_ : FlagsAt sync sender k executed landed rank.flags)
    (equal : rank.flags (onComplete k) sender = point.value) : k < landed := by
  by_contra early
  rw [at_.current, if_neg early] at equal
  exact fresh equal.symm

theorem Paired.target_exec (paired : Paired sync sender self landed source rank) (differ : sender ≠ self)
    (fresh : ∀ point, sync.points[rank.cursor.block]? = some point →
      point.value ≠ leftBefore sync.points rank.cursor.block)
    (ahead : landed ≤ rank.cursor.block + 2)
    (upcoming : rank.cursor.next? (stream sync self) = some op) (ran : rank.exec op = some next) :
    Paired sync sender self landed source (moved sync self rank next) := by
  obtain ⟨sends, waits, flags⟩ := paired
  obtain ⟨point, found, here, fits⟩ := next_point upcoming
  have once := here ▸ countP_waitsOn differ
  have counts := Cursor.upTo_advance upcoming once
  have waits' : waited sync sender self (moved sync self rank next) ≤ landed := by
    rw [waited, moved, counts]
    split
    next waiting =>
      rw [Cursor.upTo_of_next upcoming once waiting]
      cases op with
      | waitValue isComplete slot value =>
        obtain rfl : slot = sender := by simpa [waitsOn] using waiting
        obtain ⟨rfl, -, rfl⟩ := fits
        simp only [CeSyncRank.exec] at ran
        split at ran
        next equal =>
          exact flags.passed (fresh point found) equal
        · cases ran
      | _ => cases waiting
    · exact waits
  have passed : opKind op = 3 → rank.cursor.block < landed := by
    intro reset
    have all := Cursor.upTo_of_earlier upcoming (sorted_stream _) once fun other waiting => by
      rw [waitsOn_kind other waiting, reset]
      decide
    rw [waited, all] at waits
    exact waits
  have inside := flags.exec fits passed ran
  refine ⟨sends, waits', ?_⟩
  rcases Cursor.advance_cases upcoming with ⟨stays, executed, -⟩ | ⟨finished, whole⟩
  · simp only [moved, stays, executed]
    exact inside
  · have later : rank.cursor.block + 1 ≤ landed := by
      refine le_trans ?_ waits'
      rw [moved, finished]
      exact Cursor.block_le_upTo (stream sync self) ⟨rank.cursor.block + 1, 0⟩ (waitsOn sender)
    rw [← whole, here] at inside
    simp only [moved, finished]
    exact inside.finish found later ahead

/-- A rank clears a flag only behind its wait. -/
theorem waited_of_cleared (differ : sender ≠ self)
    (cleared : (rank.cursor.executed (stream sync self)).any (clears sender)) :
    waited sync sender self rank = rank.cursor.block + 1 := by
  obtain ⟨reset, done, clearing⟩ := any_eq_true.mp cleared
  have member := mem_of_mem_take done
  cases found : sync.points[rank.cursor.block]? with
  | none => simp [blockAt, stream, getElem?_blocksFrom, found] at member
  | some =>
    refine Cursor.upTo_of_none_left (blockAt_stream found ▸ countP_waitsOn differ) fun wait due waiting => ?_
    have sorted : (blockAt (stream sync self) rank.cursor.block).Pairwise _ := sorted_stream _
    rw [Cursor.block_eq] at sorted
    have order := (pairwise_append.mp sorted).2.2 reset done wait due
    rw [clears_kind reset clearing, waitsOn_kind wait waiting] at order
    exact absurd order (by decide)

/-- A write takes effect: that of the current barrier or the next. -/
theorem FlagsAt.land (at_ : FlagsAt sync sender k executed landed rank.flags)
    (low : k ≤ landed) (high : landed ≤ k + 1) (early : landed = k → executed.any (clears sender) = false) :
    FlagsAt sync sender k executed (landed + 1)
      (rank.setFlag (onComplete landed) sender (valueAt sync landed)).flags := by
  rcases Nat.eq_or_lt_of_le low with rfl | ahead
  · constructor
    · simp [CeSyncRank.setFlag, early rfl]
    · simp [CeSyncRank.setFlag, onComplete_succ_ne, at_.next]
  · obtain rfl : landed = k + 1 := by omega
    constructor
    · rw [if_pos (Nat.lt_add_right 1 ahead)]
      simp [CeSyncRank.setFlag, update_of_ne (onComplete_succ_ne k).symm, at_.current]
    · simp [CeSyncRank.setFlag]

/-- The oldest write on its way to a rank is the next to take effect. -/
theorem Sends.land (sends : Sends sync sender receiver landed rank)
    (oldest : rank.pending = write :: rest) (hits : write.dst.hits receiver = true) (same : next.cursor = rank.cursor)
    (behind : next.pending = rest) :
    write.isComplete = onComplete landed ∧ write.value = valueAt sync landed ∧
      landed < issued sync sender receiver rank ∧
      Sends sync sender receiver (landed + 1) next := by
  obtain ⟨count, total, carried⟩ := sends
  rw [oldest, inFlight_cons, if_pos hits, singleton_append] at carried
  cases count with
  | zero => cases carried
  | succ count =>
    rw [range'_succ, map_cons, cons.injEq, Prod.mk.injEq] at carried
    obtain ⟨⟨array, value⟩, tail⟩ := carried
    refine ⟨array, value, by omega, count, ?_, ?_⟩
    · rw [issued, same, ← issued]
      omega
    · rw [behind]
      exact tail

/-- What holds of the team: `landed` counts the writes that have taken effect. -/
structure Inv (sync : TeamSync) (landed : Fin n → Fin n → Nat) (state : CeSyncState n) :
    Prop where
  ranks : ∀ rank, RankOk sync rank (state rank)
  pairs : ∀ sender receiver, sender ≠ receiver →
    Paired sync sender receiver (landed sender receiver) (state sender) (state receiver)

variable {landed : Fin n → Fin n → Nat} {state state' : CeSyncState n}

theorem issued_le (differ : sender ≠ receiver) :
    issued sync sender receiver rank ≤ rank.cursor.block + 1 := by
  refine Cursor.upTo_le ?_
  cases found : sync.points[rank.cursor.block]? with
  | none => simp [blockAt, stream, getElem?_blocksFrom, found]
  | some =>
    rw [blockAt_stream found, countP_copiesTo differ.symm]

section
variable (inv : Inv sync landed state) (differ : sender ≠ receiver)
include inv differ

theorem Inv.landed_le : landed sender receiver ≤ issued sync sender receiver (state sender) := by
  obtain ⟨count, total, -⟩ := (inv.pairs sender receiver differ).sends
  omega

theorem Inv.block_le : (state receiver).cursor.block ≤ landed sender receiver :=
  le_trans (Cursor.block_le_upTo _ _ _) (inv.pairs sender receiver differ).waits

/-- No rank is more than one barrier ahead of another. -/
theorem Inv.issued_ahead :
    issued sync sender receiver (state sender) ≤ (state receiver).cursor.block + 2 := by
  have heard := inv.block_le differ.symm
  have told := inv.landed_le differ.symm
  have most : issued sync receiver sender (state receiver) ≤ _ := issued_le differ.symm
  have own : issued sync sender receiver (state sender) ≤ _ := issued_le differ
  omega

end

theorem Inv.exec (inv : Inv sync landed state)
    (fresh : ∀ sender, sender ≠ self → ∀ point, sync.points[(state self).cursor.block]? = some point →
      point.value ≠ leftBefore sync.points (state self).cursor.block)
    (upcoming : (state self).cursor.next? (stream sync self) = some op)
    (ran : (state self).exec op = some next) :
    Inv sync landed (update state self (moved sync self (state self) next)) := by
  constructor
  · exact (forall_update_iff state fun rank => RankOk sync rank).mpr
      ⟨(inv.ranks self).exec upcoming ran, fun rank _ => inv.ranks rank⟩
  · intro sender receiver differ
    have paired := inv.pairs sender receiver differ
    by_cases sends : sender = self
    · subst sends
      rw [update_self, update_of_ne differ.symm]
      exact { paired with sends := paired.sends.exec differ.symm (inv.ranks sender) upcoming ran }
    · rw [update_of_ne sends]
      by_cases receives : receiver = self
      · subst receives
        rw [update_self]
        have ahead := le_trans (inv.landed_le differ) (inv.issued_ahead differ)
        exact paired.target_exec differ (fresh sender differ) ahead upcoming ran
      · rw [update_of_ne receives]
        exact paired

theorem landNext_spec (lands : landNext state writer = some state') :
    ∃ write rest, (state writer).pending = write :: rest ∧ ∀ rank,
      (state' rank).cursor = (state rank).cursor ∧ (state' rank).ceSeqNumDev = (state rank).ceSeqNumDev ∧
      (state' rank).pending = (if rank = writer then rest else (state rank).pending) ∧
      (state' rank).flags =
        if write.dst.hits rank then ((state rank).setFlag write.isComplete writer write.value).flags
        else (state rank).flags := by
  unfold landNext at lands
  cases oldest : (state writer).pending with
  | nil =>
    rw [oldest] at lands
    cases lands
  | cons write rest =>
    rw [oldest] at lands
    cases lands
    refine ⟨write, rest, rfl, fun rank => ?_⟩
    by_cases same : rank = writer
    · subst same
      cases hits : write.dst.hits rank <;> simp [hits, CeSyncRank.setFlag]
    · cases hits : write.dst.hits rank <;> simp [hits, same, CeSyncRank.setFlag]

variable {k : Nat}

theorem FlagsAt.congr {landed : Nat} (at_ : FlagsAt sync sender k executed landed flags)
    (same : ∀ array, flags' array sender = flags array sender) : FlagsAt sync sender k executed landed flags' :=
  ⟨(same _).trans at_.current, (same _).trans at_.next⟩

theorem Inv.land (inv : Inv sync landed state) (lands : landNext state writer = some state') :
    ∃ landed', Inv sync landed' state' := by
  obtain ⟨write, rest, oldest, spec⟩ := landNext_spec lands
  refine ⟨fun sender receiver => landed sender receiver + if sender = writer ∧ write.dst.hits receiver then 1 else 0,
    fun rank => ?_, fun sender receiver differ => ?_⟩
  · obtain ⟨cursor, seq, -, -⟩ := spec rank
    obtain ⟨graphValue, seqValue, within⟩ := inv.ranks rank
    exact ⟨by rw [seq, graphValue], by rwa [cursor, seq], by rwa [cursor]⟩
  · have paired := inv.pairs sender receiver differ
    obtain ⟨cursor, -, -, flags⟩ := spec receiver
    obtain ⟨cursorS, -, pending, -⟩ := spec sender
    have waits : waited sync sender receiver (state' receiver) ≤ landed sender receiver := by
      rw [waited, cursor]
      exact paired.waits
    by_cases lands : sender = writer ∧ write.dst.hits receiver
    · obtain ⟨rfl, hits⟩ := lands
      rw [if_pos rfl] at pending
      rw [if_pos hits] at flags
      obtain ⟨array, value, more, sends⟩ := paired.sends.land oldest hits cursorS pending
      have ahead := inv.issued_ahead differ
      rw [if_pos ⟨rfl, hits⟩]
      refine ⟨sends, Nat.le_succ_of_le waits, ?_⟩
      rw [cursor, flags, array, value]
      refine paired.flags.land (inv.block_le differ) (by omega) fun same => ?_
      by_contra cleared
      have passed := waited_of_cleared differ (by simpa using cleared)
      have waits := paired.waits
      omega
    · rw [if_neg lands, add_zero]
      refine ⟨?_, waits, ?_⟩
      · obtain ⟨count, total, carried⟩ := paired.sends
        refine ⟨count, by rw [total, issued, issued, cursorS], ?_⟩
        rw [← carried, pending]
        split
        next same =>
          subst same
          have misses : write.dst.hits receiver = false := by simpa using lands
          rw [oldest, inFlight_cons, misses]
          rfl
        · rfl
      · rw [cursor]
        refine paired.flags.congr fun other => ?_
        rw [flags]
        split
        next hits =>
          have differs : sender ≠ writer := fun same => lands ⟨same, hits⟩
          by_cases here : other = write.isComplete
          · subst here
            simp [CeSyncRank.setFlag, differs]
          · simp [CeSyncRank.setFlag, here]
        · rfl

theorem inv_initial : Inv sync (fun _ _ => 0) (fun _ : Fin n => .initial) := by
  have start : ∀ self : Fin n, Cursor.executed (stream sync self) ⟨0, 0⟩ = [] := fun _ => take_zero
  refine ⟨fun rank => ⟨rfl, ?_, ?_⟩, fun sender receiver _ => ⟨⟨0, ?_, rfl⟩, ?_, ⟨?_, ?_⟩⟩⟩
  · intro value done
    exact absurd done (by simp [CeSyncRank.initial, start])
  · intro nonempty
    change 0 < (blockAt (stream sync rank) 0).length
    rw [blockAt_stream (getElem?_eq_getElem (show 0 < sync.points.length from nonempty))]
    exact length_pos_of_ne_nil block_ne_nil
  · simp [issued, CeSyncRank.initial, Cursor.upTo, start]
  · simp [waited, CeSyncRank.initial, Cursor.upTo, start]
  · simp [CeSyncRank.initial, leftBefore]
  · simp [CeSyncRank.initial, leftBefore]

/-! ### Runs -/

theorem execNext_spec : execNext (stream sync) state self = some state' ↔
    ∃ op next, (state self).cursor.next? (stream sync self) = some op ∧ (state self).exec op = some next ∧
      state' = update state self (moved sync self (state self) next) := by
  simp only [execNext, Option.bind_eq_bind, Option.bind_eq_some_iff, Option.pure_def, Option.some.injEq, moved]
  constructor
  · rintro ⟨op, upcoming, next, ran, rfl⟩
    exact ⟨op, next, upcoming, ran, rfl⟩
  · rintro ⟨op, next, upcoming, ran, rfl⟩
    exact ⟨op, upcoming, next, ran, rfl⟩

/-- A step of the team in which no stream goes on to barrier `limit`. -/
inductive Step (sync : TeamSync) (limit : Nat) : CeSyncState n → CeSyncState n → Prop where
  | exec {state state' : CeSyncState n} (rank : Fin n) (within : (state rank).cursor.block < limit)
      (taken : execNext (stream sync) state rank = some state') : Step sync limit state state'
  | land {state state' : CeSyncState n} (rank : Fin n) (taken : landNext state rank = some state') :
      Step sync limit state state'

def Reach (sync : TeamSync) (limit : Nat) (state : CeSyncState n) : Prop :=
  Relation.ReflTransGen (Step sync limit) (fun _ => .initial) state

/-- No barrier up to `limit` waits for a value that is there already. -/
def FreshUpTo (sync : TeamSync) (limit : Nat) : Prop :=
  ∀ k < limit, ∀ point, sync.points[k]? = some point → point.value ≠ leftBefore sync.points k

/-- A stream stops in front of barrier `limit`. -/
def Stops (limit : Nat) (cursor : Cursor) : Prop := cursor.block < limit ∨ cursor = ⟨limit, 0⟩

variable {limit : Nat}

theorem stops_advance (within : cursor.block < limit) : Stops limit (cursor.advance blocks) := by
  unfold Cursor.advance
  split
  · exact .inl within
  · rcases Nat.eq_or_lt_of_le within with last | before
    · exact .inr (by rw [← last])
    · exact .inl before

theorem reach_inv (fresh : ∀ sender receiver : Fin n, sender ≠ receiver → FreshUpTo sync limit)
    (reached : Reach sync limit state) :
    (∃ landed, Inv sync landed state) ∧ ∀ rank, Stops limit (state rank).cursor := by
  induction reached with
  | refl =>
    refine ⟨⟨_, inv_initial⟩, fun _ => ?_⟩
    rcases eq_zero_or_pos limit with rfl | positive
    · exact .inr rfl
    · exact .inl positive
  | tail _ step ih =>
    obtain ⟨⟨landed, inv⟩, bounds⟩ := ih
    cases step with
    | exec rank within taken =>
      obtain ⟨op, next, upcoming, ran, rfl⟩ := execNext_spec.mp taken
      exact ⟨⟨landed, inv.exec (fun sender differ => fresh sender rank differ _ within) upcoming ran⟩,
        (forall_update_iff _ fun _ (next : CeSyncRank n) => Stops limit next.cursor).mpr
          ⟨stops_advance within, fun other _ => bounds other⟩⟩
    | land rank taken =>
      obtain ⟨write, rest, -, spec⟩ := landNext_spec taken
      refine ⟨inv.land taken, fun other => ?_⟩
      rw [(spec other).1]
      exact bounds other

section
variable (inv : Inv sync landed state)
include inv

theorem Inv.safe {rank other : Fin n} (past : Past state k rank) : Started state k other := by
  by_cases same : other = rank
  · subst same
    exact .inl past
  · have heard := le_trans (inv.block_le same) (inv.landed_le same)
    have most : issued sync other rank (state other) ≤ _ := issued_le same
    unfold Past at past
    rcases lt_or_ge k (state other).cursor.block with ahead | behind
    · exact .inl ahead
    · refine .inr ⟨by omega, Nat.pos_of_ne_zero fun zero => ?_⟩
      rw [issued, Cursor.upTo, Cursor.executed, zero, take_zero, countP_nil] at heard
      omega

/-- Where all flags have arrived, a wait goes on. -/
theorem Inv.goes_on {rank : Fin n} (arrived : ∀ other, other ≠ rank → (state rank).cursor.block < landed other rank)
    (upcoming : (state rank).cursor.next? (stream sync rank) = some op) : (state rank).exec op ≠ none := by
  cases op with
  | waitValue isComplete slot value =>
    obtain ⟨point, found, here, rfl, differ, rfl⟩ := next_point upcoming
    have flags := (inv.pairs slot rank differ).flags
    have notYet : ((state rank).cursor.executed (stream sync rank)).any (clears slot) = false := by
      rw [any_eq_false]
      intro reset done clearing
      have order := Cursor.executed_of_later upcoming (sorted_stream _) done
      rw [clears_kind reset clearing] at order
      exact absurd order (by simp [opKind])
    have equal : (state rank).flags (onComplete (state rank).cursor.block) slot = point.value := by
      rw [flags.current, if_pos (arrived slot differ), notYet, valueAt, found]
      rfl
    simp [CeSyncRank.exec, equal]
  | _ => simp [CeSyncRank.exec]

/-- Without writes on their way all that was executed has arrived. -/
theorem Inv.arrived (quiet : (state sender).pending = [])
    (differ : sender ≠ receiver) : landed sender receiver = issued sync sender receiver (state sender) := by
  obtain ⟨count, total, carried⟩ := (inv.pairs sender receiver differ).sends
  rw [quiet] at carried
  cases count with
  | zero => exact total
  | succ => cases carried

theorem Inv.live (started : ∀ rank, Started state k rank)
    (quiet : ¬ WritesPending (stream sync) state k) (rank : Fin n) :
    ¬ Blocked (stream sync) state k rank := by
  rintro ⟨here, op, upcoming, blocked⟩
  simp only [WritesPending, not_or, not_exists, not_and, Decidable.not_not] at quiet
  refine inv.goes_on (fun other differ => ?_) upcoming blocked
  rw [here, inv.arrived (quiet.1 other) differ]
  rcases started other with ahead | ⟨same, some⟩
  · exact ahead.trans_le (Cursor.block_le_upTo _ _ _)
  · -- the rank is in the same barrier and has no copy left
    have within : (state other).cursor.block < sync.points.length := by
      rw [same, ← here]
      exact block_lt_points upcoming
    have all := Cursor.upTo_of_none_left (once_copiesTo differ.symm within) fun copy due copying => by
      cases copy with
      | copyFlag dst isComplete capturing => exact quiet.2 other same dst isComplete capturing due
      | _ => cases copying
    rw [issued, all, same]
    exact Nat.lt_succ_self k

end

/-! ### Complete runs -/

theorem blocked_is_wait (blocked : rank.exec op = none) : opKind op = 2 := by
  cases op with
  | waitValue => rfl
  | _ => cases blocked

/-- A team that can do nothing has arrived at the limit. -/
theorem Inv.finished (inv : Inv sync landed state) (inside : limit ≤ sync.points.length)
    (stops : ∀ rank, Stops limit (state rank).cursor) (stuck : ∀ next, ¬ Step sync limit state next)
    (rank : Fin n) : (state rank).pending = [] ∧ (state rank).cursor = ⟨limit, 0⟩ := by
  have quiet : ∀ rank, (state rank).pending = [] := by
    intro rank
    cases pending : (state rank).pending with
    | nil => rfl
    | cons => exact absurd (Step.land rank (by rw [landNext, pending])) (stuck _)
  have waiting : ∀ rank, (state rank).cursor.block < limit → ∃ op,
      (state rank).cursor.next? (stream sync rank) = some op ∧ (state rank).exec op = none := by
    intro rank within
    have bound := (inv.ranks rank).within (by omega)
    refine ⟨_, getElem?_eq_getElem bound, ?_⟩
    cases ran : (state rank).exec _ with
    | none => rfl
    | some next =>
      exact absurd (Step.exec rank within (execNext_spec.mpr ⟨_, next, getElem?_eq_getElem bound, ran, rfl⟩)) (stuck _)
  -- nobody is in the first barrier that has not been left, and so on
  have nobody : ∀ k < limit, ∀ rank, (state rank).cursor.block ≠ k := by
    intro k
    induction k using Nat.strongRecOn with
    | _ k ih =>
      intro within rank here
      obtain ⟨op, upcoming, blocked⟩ := waiting rank (by omega)
      refine inv.goes_on (fun other differ => ?_) upcoming blocked
      rw [here, inv.arrived (quiet other) differ]
      have reached : k ≤ (state other).cursor.block := by
        by_contra behind
        exact ih _ (Nat.not_le.mp behind) (by omega) other rfl
      rcases Nat.eq_or_lt_of_le reached with same | ahead
      · obtain ⟨wait, upcoming', blocked'⟩ := waiting other (by omega)
        have all := Cursor.upTo_of_earlier upcoming' (sorted_stream _)
          (once_copiesTo differ.symm (block_lt_points upcoming'))
          fun copy copying => by
            rw [copiesTo_kind copy copying, blocked_is_wait blocked']
            decide
        rw [issued]
        omega
      · exact ahead.trans_le (Cursor.block_le_upTo _ _ _)
  exact ⟨quiet rank, (stops rank).resolve_left fun within => nobody _ within rank rfl⟩

/-- What the streams have to execute and the writes have to do. -/
def workLeft (sync : TeamSync) (limit : Nat) (state : CeSyncState n) : Nat :=
  ∑ rank, (2 * (state rank).cursor.remaining (stream sync rank) limit + (state rank).pending.length)

theorem exec_pending (ran : rank.exec op = some next) : next.pending.length ≤ rank.pending.length + 1 := by
  cases op with
  | copyFlag =>
    cases ran
    simp
  | _ =>
    rw [(exec_same ran).2.1 (by simp [opKind])]
    exact Nat.le_succ _

theorem Step.lowers (step : Step sync limit state state') :
    workLeft sync limit state' < workLeft sync limit state := by
  cases step with
  | exec rank within taken =>
    obtain ⟨op, next, upcoming, ran, rfl⟩ := execNext_spec.mp taken
    refine sum_lt_of_one rank ?_ fun other differ => by rw [update_of_ne differ]
    have fewer := Cursor.remaining_advance upcoming within
    have more := exec_pending ran
    rw [update_self]
    simp only [moved]
    omega
  | land rank taken =>
    obtain ⟨write, rest, oldest, spec⟩ := landNext_spec taken
    refine sum_lt_of_one rank ?_ fun other differ => ?_
    · obtain ⟨cursor, -, pending, -⟩ := spec rank
      rw [cursor, pending, if_pos rfl, oldest, length_cons]
      omega
    · obtain ⟨cursor, -, pending, -⟩ := spec other
      rw [cursor, pending, if_neg differ]

/-- Fresh barriers are all left: some run brings every rank in front of barrier
`limit`, with no write on its way. -/
theorem exists_finished (inside : limit ≤ sync.points.length) (fresh : FreshUpTo sync limit) :
    ∃ (state : CeSyncState n) (landed : Fin n → Fin n → Nat), Reach sync limit state ∧
      Inv sync landed state ∧ ∀ rank, (state rank).pending = [] ∧ (state rank).cursor = ⟨limit, 0⟩ := by
  obtain ⟨state, path, stuck⟩ := exists_stuck (Step sync limit) (workLeft sync limit)
    (fun step => step.lowers) (fun _ : Fin n => CeSyncRank.initial)
  obtain ⟨⟨landed, inv⟩, stops⟩ := reach_inv (fun _ _ _ => fresh) path
  exact ⟨state, landed, path, inv, fun rank => inv.finished inside stops stuck rank⟩

/-- A rank whose waits are all satisfied goes through a barrier on its own. -/
theorem alone (within : k < sync.points.length) (here : (state self).cursor.block = k)
    (due : (state self).cursor.left (stream sync self) ≠ [])
    (satisfied : ∀ isComplete slot value, .waitValue isComplete slot value ∈
      (state self).cursor.left (stream sync self) → (state self).flags isComplete slot = value) :
    ∃ state', Relation.ReflTransGen (Step sync sync.points.length) state state' ∧
      (state' self).cursor.block = k + 1 ∧ ∀ other, other ≠ self → state' other = state other := by
  induction rest_eq : (state self).cursor.left (stream sync self) generalizing state with
  | nil => exact absurd rest_eq due
  | cons op rest ih =>
    have upcoming : (state self).cursor.next? (stream sync self) = some op := by
      rw [Cursor.next?, ← head?_drop]
      exact congrArg head? rest_eq
    have runs : ∃ next, (state self).exec op = some next := by
      cases op with
      | waitValue isComplete slot value =>
        rw [rest_eq] at satisfied
        exact ⟨_, if_pos (satisfied isComplete slot value (.head _))⟩
      | _ => exact ⟨_, rfl⟩
    obtain ⟨next, ran⟩ := runs
    have step : Step sync sync.points.length state _ :=
      .exec self (here ▸ within) (execNext_spec.mpr ⟨op, next, upcoming, ran, rfl⟩)
    rcases Cursor.advance_cases upcoming with ⟨stays, -, left, more⟩ | ⟨finished, -⟩
    · obtain rfl : _ = rest := (cons.inj (left.symm.trans rest_eq)).2
      have still : ∀ isComplete slot value, .waitValue isComplete slot value ∈
          ((state self).cursor.advance (stream sync self)).left (stream sync self) →
          next.flags isComplete slot = value := by
        intro isComplete slot value later
        have member : .waitValue isComplete slot value ∈ (state self).cursor.left (stream sync self) := by
          rw [left]
          exact .tail _ later
        have order := Cursor.left_of_earlier upcoming (sorted_stream _) member
        have before : opKind op < 3 := order.trans_lt (show 2 < 3 by decide)
        rw [(exec_same ran).2.2 before.ne]
        exact satisfied isComplete slot value member
      obtain ⟨final, path, done, others⟩ := @ih
        (update state self (moved sync self (state self) next))
        (by rw [update_self]; exact stays.trans here) (by rwa [update_self])
        (by rwa [update_self]) (by rw [update_self]; rfl)
      refine ⟨final, .head step path, done, fun other differ => ?_⟩
      rw [others other differ, update_of_ne differ]
    · refine ⟨_, .single step, ?_, fun other differ => update_of_ne differ _ _⟩
      rw [update_self, moved, finished, here]

theorem Reach.mono (le : limit ≤ limit') (reached : Reach sync limit state) :
    Reach sync limit' state := by
  refine Relation.ReflTransGen.mono (fun before after step => ?_) _ _ reached
  cases step with
  | exec rank within taken => exact .exec rank (within.trans_le le) taken
  | land rank taken => exact .land rank taken

theorem run_iff_reach :
    (∃ events, ceSyncRun (stream sync) (fun _ : Fin n => .initial) events = some state) ↔
      Reach sync sync.points.length state := by
  refine foldlM_eq_some_iff.trans ⟨fun path => ?_, fun path => ?_⟩
  · refine Relation.ReflTransGen.mono (fun before after step => ?_) _ _ path
    obtain ⟨event, taken⟩ := step
    cases event with
    | exec rank =>
      obtain ⟨op, next, upcoming, -⟩ := execNext_spec.mp taken
      exact .exec rank (block_lt_points upcoming) taken
    | land rank => exact .land rank taken
  · refine Relation.ReflTransGen.mono (fun before after step => ?_) _ _ path
    cases step with
    | exec rank within taken => exact ⟨.exec rank, taken⟩
    | land rank taken => exact ⟨.land rank, taken⟩

/-- The first barrier that waits for a value already there lets a rank pass on its
own. -/
theorem not_safe_of_stale (found : sync.points[k]? = some point)
    (stale : point.value = leftBefore sync.points k) (fresh : FreshUpTo sync k) {rank other : Fin n}
    (differ : other ≠ rank) :
    ∃ state, Reach sync sync.points.length state ∧ Past state k rank ∧ ¬ Started state k other := by
  have inside := (List.getElem?_eq_some_iff.mp found).1
  obtain ⟨state, landed, reached, inv, ready⟩ := exists_finished (n := n) inside.le fresh
  have here := (ready rank).2
  have whole : (state rank).cursor.left (stream sync rank) =
      block sync.useMCSync rank (onComplete k) point := by
    rw [here, Cursor.left, blockAt_stream found, drop_zero]
  have satisfied : ∀ isComplete slot value, .waitValue isComplete slot value ∈
      (state rank).cursor.left (stream sync rank) → (state rank).flags isComplete slot = value := by
    intro isComplete slot value member
    rw [whole] at member
    obtain ⟨rfl, apart, rfl⟩ := block_fits member
    have arrived := inv.arrived (ready slot).1 apart
    rw [issued, (ready slot).2, Cursor.upTo, Cursor.executed, take_zero, countP_nil, add_zero] at arrived
    have flags := (inv.pairs slot rank apart).flags.current
    rw [here, arrived, if_neg (lt_irrefl k)] at flags
    exact flags.trans stale.symm
  obtain ⟨final, path, past, others⟩ := alone inside (by rw [here]) (by rw [whole]; exact block_ne_nil) satisfied
  refine ⟨final, (reached.mono inside.le).trans path, by rw [Past, past]; exact Nat.lt_succ_self k, ?_⟩
  rw [Started, others other differ, (ready other).2]
  simp

end

/-- The barrier is one in every run exactly when the team has a single rank or no
barrier waits for the value that the barrier before it on the same array left in
the flags. -/
theorem ce_barrier_iff (n : Nat) (useMCSync : Bool) (launches : List CeLaunch) :
    IsBarrier (ceStream useMCSync launches : Fin n → _) ↔ n ≤ 1 ∨ Fresh (launchedPoints launches) := by
  have streams : (ceStream useMCSync launches : Fin n → _) = stream ⟨useMCSync, launchedPoints launches⟩ :=
    funext fun _ => (follows_launches launches).stream
  rw [streams]
  generalize launchedPoints launches = points
  constructor
  · intro barrier
    by_contra fails
    obtain ⟨several, stale⟩ := not_or.mp fails
    have least : ∃ k point, points[k]? = some point ∧ point.value = leftBefore points k := by
      simpa [Fresh] using stale
    classical
    obtain ⟨point, found, equal⟩ := Nat.find_spec least
    have fresh : FreshUpTo ⟨useMCSync, points⟩ (Nat.find least) := fun k before point found equal =>
      Nat.find_min least before ⟨point, found, equal⟩
    have differ : (⟨1, by omega⟩ : Fin n) ≠ ⟨0, by omega⟩ := by simp
    obtain ⟨state, reached, past, late⟩ := not_safe_of_stale found equal fresh differ
    obtain ⟨events, run⟩ := run_iff_reach.mpr reached
    exact late (barrier.safe events state run _ _ _ past)
  · intro fresh
    have inv : ∀ {events state}, ceSyncRun (stream ⟨useMCSync, points⟩) (fun _ : Fin n => .initial) events = some state →
        ∃ landed, Inv ⟨useMCSync, points⟩ landed state := by
      intro events state run
      refine (reach_inv (fun sender receiver differ => ?_) (run_iff_reach.mp ⟨events, run⟩)).1
      rcases fresh with single | fresh
      · have left := sender.isLt
        exact absurd (Fin.ext (by omega)) differ
      · exact fun k _ point found => fresh k point found
    constructor
    · intro events state run k rank other past
      obtain ⟨landed, inv⟩ := inv run
      exact inv.safe past
    · intro events state run k started quiet rank
      obtain ⟨landed, inv⟩ := inv run
      exact inv.live started quiet rank

/-- A collective of two barriers, and a captured one that is replayed behind it. -/
def eagerThenGraph : List CeLaunch := [.eager ⟨2, by decide⟩, .capture ⟨2, by decide⟩, .replay 0]

local instance two_ranks : NeZero 2 := ⟨by decide⟩

/-- Both ranks go through the eager collective, then rank 0 through the first
barrier of the graph. -/
def eagerThenGraphRun : List (CeSyncEvent 2) :=
  [.exec 0, .exec 0, .exec 1, .exec 1, .land 0, .land 1, .exec 0, .exec 1] ++
  [.exec 0, .exec 0, .exec 1, .exec 1, .land 0, .land 1, .exec 0, .exec 1] ++
  [.exec 0, .exec 0, .exec 0, .exec 0]

/-- The ready flags still hold 1, the number of the first barrier, which is the
value that a graph waits for: rank 0 is past the third barrier and rank 1 has not
started it. -/
theorem graph_passes_on_stale_flags :
    ((ceSyncRun (ceStream false eagerThenGraph) (fun _ => .initial) eagerThenGraphRun).map fun state =>
      ((state 0).cursor, (state 1).cursor)) = some (⟨3, 0⟩, ⟨2, 0⟩) ∧
    ¬ IsBarrier (ceStream false eagerThenGraph : Fin 2 → _) := by
  have ends : ((ceSyncRun (ceStream false eagerThenGraph) (fun _ => .initial) eagerThenGraphRun).map fun state =>
      ((state 0).cursor, (state 1).cursor)) = some (⟨3, 0⟩, ⟨2, 0⟩) := by
    decide +kernel
  refine ⟨ends, fun barrier => ?_⟩
  obtain ⟨state, run, cursors⟩ := Option.map_eq_some_iff.mp ends
  obtain ⟨first, second⟩ := Prod.mk.inj cursors
  have started := barrier.safe _ state run 2 0 1 (by rw [Past, first]; decide)
  rw [Started, second] at started
  simp at started

end NcclCore.CeSyncProofs
