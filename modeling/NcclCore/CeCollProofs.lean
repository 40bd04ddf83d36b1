import NcclCore.CeSyncCountProofs
import NcclCore.Lib.Moves
import NcclCore.Lib.Residues
import NcclCore.Lib.Digits

/-! The copy-engine collectives deliver every block, whatever order the copies of
all ranks take between the barriers. The exception is the scatter in place, whose
root adds its own position to the place of every peer. -/
namespace NcclCore
open Lib Lib.Moves List

/-- A byte in the memory of a rank. -/
abbrev CeCell (n : Nat) : Type := Fin n × Nat

/-- The first bytes a destination names. -/
def CePtr.cells (ptr : CePtr n) : List (CeCell n) :=
  match ptr with
  | .lsa rank addr => [(rank, addr)]
  | .multicast addr => (finRange n).map fun rank => (rank, addr rank)

/-- What a copy on the stream of `rank` does with its byte `k`. -/
def CeBatchOp.byte (rank : Fin n) (op : CeBatchOp n) (k : Nat) : List (Move (CeCell n)) :=
  op.dst.cells.map fun cell => ⟨(rank, op.src + k), (cell.1, cell.2 + k)⟩

def CeBatchOp.bytes (rank : Fin n) (op : CeBatchOp n) : List (Move (CeCell n)) :=
  (range op.size).flatMap (op.byte rank)

def CeAction.bytes (rank : Fin n) : CeAction n → List (Move (CeCell n))
  | .sync => []
  | .memcpy batch => batch.flatMap (·.bytes rank)

/-- What the copies on the stream of a rank do. -/
def streamBytes (rank : Fin n) (actions : List (CeAction n)) : List (Move (CeCell n)) :=
  actions.flatMap (·.bytes rank)

namespace CeCollProofs
open CeSyncCountProofs
variable {n : Nat} {rank : Fin n} {op : CeBatchOp n} {ops : List (CeBatchOp n)}

/-! ### Chunks -/

theorem chunk_bytes (offset bytes : Nat) :
    (op.chunk offset bytes).bytes rank = (range' offset bytes).flatMap (op.byte rank) := by
  rw [range'_eq_map_range, flatMap_map]
  refine flatMap_congr fun k _ => ?_
  unfold CeBatchOp.byte CeBatchOp.chunk CePtr.add
  cases op.dst <;> simp [CePtr.cells, add_assoc]

/-- The chunks of a copy are cut at the multiples of the chunk size. -/
theorem range_chunks (size chunkSize rounds : Nat) :
    ((range rounds).flatMap fun round =>
      if size ≤ round * chunkSize then []
      else range' (round * chunkSize) (min (size - round * chunkSize) chunkSize)) =
      range (min size (rounds * chunkSize)) := by
  induction rounds with
  | zero => simp
  | succ rounds ih =>
    rw [range_succ, flatMap_append, ih, flatMap_singleton, Nat.succ_mul]
    split
    next done =>
      rw [append_nil, min_eq_left done, min_eq_left (by omega)]
    next more =>
      rw [min_eq_right (by omega), range_eq_range', range_eq_range',
        show range' (rounds * chunkSize) (min (size - rounds * chunkSize) chunkSize) =
          range' (0 + rounds * chunkSize) (min (size - rounds * chunkSize) chunkSize) by rw [zero_add],
        range'_append_1]
      congr 1
      omega

/-- What one round moves of a copy. -/
def roundBytes (rank : Fin n) (op : CeBatchOp n) (chunkSize round : Nat) : List (Move (CeCell n)) :=
  (op.chunkAt chunkSize (round * chunkSize)).elim [] (·.bytes rank)

theorem rounds_bytes (enough : op.size ≤ rounds * chunkSize) :
    (range rounds).flatMap (roundBytes rank op chunkSize) = op.bytes rank := by
  have cuts := congrArg (flatMap (op.byte rank)) (range_chunks op.size chunkSize rounds)
  rw [min_eq_left enough, flatMap_assoc] at cuts
  refine Eq.trans (flatMap_congr fun round _ => ?_) cuts
  unfold roundBytes CeBatchOp.chunkAt
  split
  · rfl
  · exact chunk_bytes _ _

theorem flatMap_filterMap (f : α → Option β) (g : β → List γ) (l : List α) :
    (l.filterMap f).flatMap g = l.flatMap fun a => (f a).elim [] g := by
  induction l with
  | nil => rfl
  | cons a l ih => cases found : f a <;> simp [found, ih]

theorem le_maxSize (member : op ∈ ops) : op.size ≤ maxSize ops := by
  have isMax : maxSize ops = (ops.map (·.size)).foldl max 0 := foldl_map.symm
  rw [isMax, foldl_max]
  exact le_trans (le_max?_getD_of_mem (mem_map_of_mem member)) (le_max_right _ _)

theorem streamBytes_append (left right : List (CeAction n)) :
    streamBytes rank (left ++ right) = streamBytes rank left ++ streamBytes rank right := flatMap_append

theorem streamBytes_launchWave (wave : List (CeBatchOp n)) :
    streamBytes rank (launchWave wave) = wave.flatMap (·.bytes rank) := by
  unfold launchWave
  split
  next empty =>
    rw [isEmpty_iff.mp empty]
    rfl
  · simp [streamBytes, CeAction.bytes]

/-- Rounds that reach far enough move every byte of every copy. -/
theorem all_rounds_bytes (enough : ∀ op ∈ ops, op.size ≤ rounds * chunkSize) :
    ((range rounds).flatMap fun round => ops.flatMap fun op => roundBytes rank op chunkSize round).Perm
      (ops.flatMap (·.bytes rank)) := by
  refine (flatMap_comm_perm (range rounds) ops fun round op => roundBytes rank op chunkSize round).trans
    (List.Perm.of_eq ?_)
  exact flatMap_congr fun op member => rounds_bytes (enough op member)

theorem chunked_bytes (positive : 0 < chunkSize) :
    (streamBytes rank (ncclCeLaunchChunkedMemcpyBatchAsync ops chunkSize)).Perm (ops.flatMap (·.bytes rank)) := by
  have enough : ∀ op ∈ ops,
      op.size ≤ (if maxSize ops = 0 then 0 else 1 + (maxSize ops - 1) / chunkSize) * chunkSize := by
    intro op member
    have below := le_maxSize member
    split
    · omega
    · have split := Nat.div_add_mod (maxSize ops - 1) chunkSize
      have small := Nat.mod_lt (maxSize ops - 1) positive
      rw [add_mul, mul_comm (_ / _)]
      omega
  refine (List.Perm.of_eq ?_).trans (all_rounds_bytes enough)
  unfold ncclCeLaunchChunkedMemcpyBatchAsync
  rw [streamBytes, flatMap_assoc]
  refine flatMap_congr fun round _ => ?_
  exact (streamBytes_launchWave _).trans (flatMap_filterMap _ _ _)

theorem flatMap_getElem (l : List α) (g : α → List β) :
    ((range l.length).flatMap fun i => l[i]?.elim [] g) = l.flatMap g := by
  induction l with
  | nil => rfl
  | cons a l ih => rw [length_cons, range_succ_eq_map, flatMap_cons, flatMap_map]; simpa using ih

/-- The rotation of a round visits every copy once. -/
theorem rotated_wave (chunkSize round : Nat) :
    (((range ops.length).filterMap fun i =>
      ops[(i + round) % ops.length]?.bind (·.chunkAt chunkSize (round * chunkSize))).flatMap (·.bytes rank)).Perm
      (ops.flatMap fun op => roundBytes rank op chunkSize round) := by
  have visits : ((range ops.length).map fun i => (i + round) % ops.length).Perm (range ops.length) := by
    refine map_range_perm _ (fun i bound => Nat.mod_lt _ (by omega)) fun i hi j hj same => ?_
    rw [add_comm i, add_comm j] at same
    exact add_mod_right_injective hi hj same
  have moved := visits.flatMap_right fun i => (ops[i]?.bind (·.chunkAt chunkSize (round * chunkSize))).elim []
    (·.bytes rank)
  rw [flatMap_map] at moved
  rw [flatMap_filterMap]
  refine moved.trans (List.Perm.of_eq ?_)
  rw [← flatMap_getElem ops fun op => roundBytes rank op chunkSize round]
  refine flatMap_congr fun i _ => ?_
  cases ops[i]? <;> rfl

theorem rotated_bytes (rounds : rotatedRounds ops = some actions) :
    (streamBytes rank actions).Perm (ops.flatMap (·.bytes rank)) := by
  simp only [rotatedRounds] at rounds
  split at rounds
  · cases rounds
  rename_i nonzero
  cases rounds
  have enough : ∀ op ∈ ops, op.size ≤ divUp (maxSize ops) (intraBatchSyncMsgThreshold / ops.length) *
      (intraBatchSyncMsgThreshold / ops.length) := fun op member =>
    le_trans (le_maxSize member) (le_divUp_mul (Nat.pos_of_ne_zero nonzero))
  rw [streamBytes_launchWave, flatMap_assoc]
  exact (List.Perm.flatMap_left _ fun round _ => rotated_wave _ round).trans (all_rounds_bytes enough)

theorem copyOneByOne_bytes (params : CeBatchOpsParams n) :
    streamBytes rank (copyOneByOne params) = params.ops.flatMap (·.bytes rank) := by
  have loop : ∀ (ops : List (CeBatchOp n)) (start : Nat), streamBytes rank ((ops.zipIdx start).flatMap fun op =>
      .memcpy [op.1] :: (if marked params op.2 then [.sync] else [])) = ops.flatMap (·.bytes rank) := by
    intro ops
    induction ops with
    | nil => exact fun _ => rfl
    | cons op ops ih =>
      intro start
      rw [zipIdx_cons, flatMap_cons, streamBytes_append, ih]
      cases marks : marked params start <;> simp [streamBytes, CeAction.bytes]
  exact loop params.ops 0

theorem streamBytes_evenSync (params : CeBatchOpsParams n) : streamBytes rank (evenSync params) = [] := by
  unfold evenSync
  split <;> rfl

/-- However a batch is launched, every byte of every copy is moved exactly once. -/
theorem launch_bytes (launch : ncclCeLaunchBatchOps env params = some actions) (rank : Fin n) :
    (streamBytes rank actions).Perm (params.ops.flatMap (·.bytes rank)) := by
  unfold ncclCeLaunchBatchOps at launch
  split at launch
  next empty =>
    cases launch
    rw [isEmpty_iff.mp empty]
    exact .refl _
  split at launch
  · cases launch
    rw [streamBytes_append, copyOneByOne_bytes, streamBytes_evenSync, append_nil]
  split at launch
  · split at launch
    next chunks =>
      cases launch
      simp only [Bool.and_eq_true, decide_eq_true_eq] at chunks
      exact chunked_bytes chunks.2
    split at launch
    · exact rotated_bytes launch
    · cases launch
      simp [streamBytes, CeAction.bytes]
  · cases launch
    rw [copyOneByOne_bytes]

/-! ### What a collective is for -/

inductive Placement where
  | outOfPlace
  | inPlace
  deriving DecidableEq

section
variable (call : CeCall n)

/-- `dst` is to hold what `src` held: the purpose of each collective, byte by
byte. -/
def Wanted (dst src : CeCell n) : Prop :=
  match call.func with
  | .allGather => ∃ r i : Fin n, ∃ k < call.chunkBytes,
    dst = (r, call.recvBuff r + i * call.chunkBytes + k) ∧ src = (i, call.sendBuff i + k)
  | .alltoAll => ∃ r i : Fin n, ∃ k < call.chunkBytes,
    dst = (r, call.recvBuff r + i * call.chunkBytes + k) ∧ src = (i, call.sendBuff i + r * call.chunkBytes + k)
  | .scatter => ∃ r : Fin n, ∃ k < call.chunkBytes, dst = (r, call.recvBuff r + k) ∧
    src = (call.rootLsaRank, call.sendBuff call.rootLsaRank + r * call.chunkBytes + k)
  | .gather => ∃ i : Fin n, ∃ k < call.chunkBytes,
    dst = (call.rootLsaRank, call.recvBuff call.rootLsaRank + i * call.chunkBytes + k) ∧ src = (i, call.sendBuff i + k)

/-- The send and the receive buffer of a rank do not overlap. -/
def Apart (rank : Fin n) (sendBlocks recvBlocks : Nat) : Prop :=
  ∀ k < sendBlocks * call.chunkBytes, ∀ j < recvBlocks * call.chunkBytes, call.sendBuff rank + k ≠ call.recvBuff rank + j

/-- Out of place the receive buffers lie at one offset of the window and apart from
the send buffers that are read. In place each rank's block of the larger buffer is
its smaller one, and the larger ones lie at one offset of the window. -/
def Placed : Placement → Prop
  | .outOfPlace => (∃ offset, ∀ rank, call.recvBuff rank = call.recvWin rank + offset) ∧
    match call.func with
    | .allGather => ∀ rank, Apart call rank 1 n
    | .alltoAll => ∀ rank, Apart call rank n n
    | .scatter => Apart call call.rootLsaRank n 1
    | .gather => Apart call call.rootLsaRank 1 n
  | .inPlace =>
    match call.func with
    | .allGather | .gather => (∃ offset, ∀ rank, call.recvBuff rank = call.recvWin rank + offset) ∧
      ∀ rank, call.sendBuff rank = call.recvBuff rank + rank * call.chunkBytes
    | .scatter => (∃ offset, ∀ rank, call.sendBuff rank = call.recvWin rank + offset) ∧
      ∀ rank, call.recvBuff rank = call.sendBuff rank + rank * call.chunkBytes
    | .alltoAll => False

/-- Every rank gets through the launch, and in whatever order the copies of all
ranks run, the memory behind the last barrier is as wanted. -/
def Delivers : Prop :=
  ∃ actions : Fin n → List (CeAction n), (∀ rank, call.actions rank = some (actions rank)) ∧
    ∀ (memory : CeCell n → UInt8) (order : List (Move (CeCell n))),
      order.Perm ((finRange n).flatMap fun rank => streamBytes rank (actions rank)) →
      ∀ dst src, Wanted call dst src → run memory order dst = memory src

end

/-- A byte of a buffer of blocks names its block. -/
theorem block_inj {count base size k l : Nat} {i j : Fin count} (hk : k < size) (hl : l < size)
    (same : base + i * size + k = base + j * size + l) : i = j ∧ k = l := by
  rw [add_assoc, add_assoc] at same
  obtain ⟨blocks, bytes⟩ := (digits_inj hk hl).mp (Nat.add_left_cancel same)
  exact ⟨Fin.ext blocks, bytes⟩

variable {call : CeCall n} {placement : Placement}

/-- No collective overwrites a byte that it reads, but with itself. -/
theorem wanted_consistent (placed : Placed call placement) : Consistent (Wanted call) := by
  unfold Placed at placed
  unfold Wanted
  constructor <;> cases func : call.func <;> simp only [func] at placed ⊢
  case functional.allGather | functional.alltoAll =>
    rintro dst src src' ⟨r, i, k, hk, rfl, rfl⟩ ⟨r', i', k', hk', same, rfl⟩
    obtain ⟨rfl, address⟩ := Prod.mk.inj same
    obtain ⟨rfl, rfl⟩ := block_inj hk hk' address
    rfl
  case functional.scatter =>
    rintro dst src src' ⟨r, k, hk, rfl, rfl⟩ ⟨r', k', hk', same, rfl⟩
    obtain ⟨rfl, address⟩ := Prod.mk.inj same
    rw [show k = k' by omega]
  case functional.gather =>
    rintro dst src src' ⟨i, k, hk, rfl, rfl⟩ ⟨i', k', hk', same, rfl⟩
    obtain ⟨-, address⟩ := Prod.mk.inj same
    obtain ⟨rfl, rfl⟩ := block_inj hk hk' address
    rfl
  all_goals intro dst src dst'
  case stable.allGather =>
    rintro ⟨r, i, k, hk, rfl, rfl⟩ ⟨-, j, l, hl, -, same⟩
    obtain ⟨rfl, address⟩ := Prod.mk.inj same
    have inside := digits_lt i.isLt hk
    cases placement with
    | outOfPlace => exact absurd address.symm (by simpa [add_assoc] using placed.2 r l (by omega) _ inside)
    | inPlace =>
      rw [placed.2] at address
      obtain ⟨rfl, rfl⟩ := block_inj hk hl address
      rw [placed.2]
  case stable.alltoAll =>
    rintro ⟨r, i, k, hk, rfl, rfl⟩ ⟨r', j, l, hl, -, same⟩
    obtain ⟨rfl, address⟩ := Prod.mk.inj same
    cases placement with
    | outOfPlace =>
      exact absurd address.symm (by simpa [add_assoc] using placed.2 r _ (digits_lt r'.isLt hl) _ (digits_lt i.isLt hk))
    | inPlace => exact absurd placed id
  case stable.scatter =>
    rintro ⟨r, k, hk, rfl, rfl⟩ ⟨r', l, hl, -, same⟩
    obtain ⟨rfl, address⟩ := Prod.mk.inj same
    cases placement with
    | outOfPlace => exact absurd address.symm (by simpa [add_assoc] using placed.2 _ (digits_lt r'.isLt hl) k (by omega))
    | inPlace => rw [placed.2]
  case stable.gather =>
    rintro ⟨i, k, hk, rfl, rfl⟩ ⟨j, l, hl, -, same⟩
    obtain ⟨rfl, address⟩ := Prod.mk.inj same
    have inside := digits_lt i.isLt hk
    cases placement with
    | outOfPlace => exact absurd address.symm (by simpa [add_assoc] using placed.2 l (by omega) _ inside)
    | inPlace =>
      rw [placed.2] at address
      obtain ⟨rfl, rfl⟩ := block_inj hk hl address
      rw [placed.2]

/-! ### What a batch does -/

/-- The blocks that a rank has to bring from `src` of its own memory to `place` of
a peer's. -/
def Serves (call : CeCall n) (rank : Fin n) (src : Nat) (peer : Fin n) (place : Nat) : Prop :=
  match call.func with
  | .allGather => src = call.sendBuff rank ∧ place = call.recvBuff peer + rank * call.chunkBytes
  | .alltoAll => src = call.sendBuff rank + peer * call.chunkBytes ∧
    place = call.recvBuff peer + rank * call.chunkBytes
  | .scatter => rank = call.rootLsaRank ∧ src = call.sendBuff rank + peer * call.chunkBytes ∧
    place = call.recvBuff peer
  | .gather => peer = call.rootLsaRank ∧ src = call.sendBuff rank ∧
    place = call.recvBuff peer + rank * call.chunkBytes

theorem wanted_iff : Wanted call dst src ↔
    ∃ rank addr peer place, Serves call rank addr peer place ∧ ∃ k < call.chunkBytes,
      dst = (peer, place + k) ∧ src = (rank, addr + k) := by
  unfold Wanted Serves
  cases call.func with
  | allGather | alltoAll =>
    constructor
    · rintro ⟨r, i, k, hk, rfl, rfl⟩
      exact ⟨i, _, r, _, ⟨rfl, rfl⟩, k, hk, rfl, rfl⟩
    · rintro ⟨i, addr, r, place, ⟨rfl, rfl⟩, k, hk, rfl, rfl⟩
      exact ⟨r, i, k, hk, rfl, rfl⟩
  | scatter =>
    constructor
    · rintro ⟨r, k, hk, rfl, rfl⟩
      exact ⟨_, _, r, _, ⟨rfl, rfl, rfl⟩, k, hk, rfl, rfl⟩
    · rintro ⟨i, addr, r, place, ⟨rfl, rfl, rfl⟩, k, hk, rfl, rfl⟩
      exact ⟨r, k, hk, rfl, rfl⟩
  | gather =>
    constructor
    · rintro ⟨i, k, hk, rfl, rfl⟩
      exact ⟨i, _, _, _, ⟨rfl, rfl, rfl⟩, k, hk, rfl, rfl⟩
    · rintro ⟨i, addr, r, place, ⟨rfl, rfl, rfl⟩, k, hk, rfl, rfl⟩
      exact ⟨i, k, hk, rfl, rfl⟩

/-- A batch that does what its rank has to do, and all of it but what is in place
already. -/
structure Served (call : CeCall n) (rank : Fin n) : Prop where
  size : ∀ op ∈ (call.batch rank).ops, op.size = call.chunkBytes
  only : ∀ op ∈ (call.batch rank).ops, ∀ cell ∈ op.dst.cells, Serves call rank op.src cell.1 cell.2
  all : ∀ src peer place, Serves call rank src peer place →
    (∃ op ∈ (call.batch rank).ops, op.src = src ∧ (peer, place) ∈ op.dst.cells) ∨ (rank, src) = (peer, place)

theorem mem_bytes : move ∈ op.bytes rank ↔
    ∃ k < op.size, ∃ cell ∈ op.dst.cells, move = ⟨(rank, op.src + k), (cell.1, cell.2 + k)⟩ := by
  simp [CeBatchOp.bytes, CeBatchOp.byte, eq_comm]

/-- All bytes that the ranks move. -/
def allBytes (call : CeCall n) : List (Move (CeCell n)) :=
  (finRange n).flatMap fun rank => (call.batch rank).ops.flatMap (·.bytes rank)

theorem mem_allBytes : move ∈ allBytes call ↔ ∃ rank, ∃ op ∈ (call.batch rank).ops, move ∈ op.bytes rank := by
  simp [allBytes]

theorem allBytes_fit (served : ∀ rank, Served call rank) : ∀ move ∈ allBytes call, Wanted call move.dst move.src := by
  intro move member
  obtain ⟨rank, op, inBatch, byte⟩ := mem_allBytes.mp member
  obtain ⟨k, hk, cell, named, rfl⟩ := mem_bytes.mp byte
  rw [(served rank).size op inBatch] at hk
  exact wanted_iff.mpr ⟨rank, op.src, cell.1, cell.2, (served rank).only op inBatch cell named, k, hk, rfl, rfl⟩

theorem allBytes_complete (served : ∀ rank, Served call rank) (wants : Wanted call dst src) :
    ⟨src, dst⟩ ∈ allBytes call ∨ src = dst := by
  obtain ⟨rank, addr, peer, place, serves, k, hk, rfl, rfl⟩ := wanted_iff.mp wants
  rcases (served rank).all addr peer place serves with ⟨op, inBatch, rfl, named⟩ | inPlace
  · rw [← (served rank).size op inBatch] at hk
    exact .inl (mem_allBytes.mpr ⟨rank, op, inBatch, mem_bytes.mpr ⟨k, hk, _, named, rfl⟩⟩)
  · obtain ⟨rfl, rfl⟩ := Prod.mk.inj inPlace
    exact .inr rfl

/-! ### The four batches -/

theorem lsaPeer_ne {self : Fin n} {r : Nat} (bound : r < n - 1) : lsaPeer self (r + 1) ≠ self := by
  intro same
  have equal := congrArg Fin.val same
  simp only [lsaPeer] at equal
  rcases lt_or_ge (self.val + (r + 1)) n with small | large
  · rw [Nat.mod_eq_of_lt small] at equal
    omega
  · rw [Nat.mod_eq_sub_mod large, Nat.mod_eq_of_lt (by omega)] at equal
    omega

theorem exists_lsaPeer (self other : Fin n) : ∃ r < n, lsaPeer self r = other := by
  have ho := other.isLt
  rcases lt_or_ge other.val self.val with before | behind
  · refine ⟨other + n - self, by omega, Fin.ext ?_⟩
    simp only [lsaPeer]
    rw [show self.val + (other + n - self) = other + n by omega, Nat.add_mod_right, Nat.mod_eq_of_lt ho]
  · refine ⟨other - self, by omega, Fin.ext ?_⟩
    simp only [lsaPeer]
    rw [show self.val + (other - self) = other by omega, Nat.mod_eq_of_lt ho]

/-- A peer's window holds at the same offset the same place of its buffer. -/
theorem window_place {win buff : Fin n → Nat} (common : ∀ rank, buff rank = win rank + offset)
    (self peer : Fin n) (place : Nat) : win peer + (buff self + place - win self) = buff peer + place := by
  have own := common self
  have other := common peer
  omega

/-- The copies of a loop over the peers behind a rank. -/
def peerOps (call : CeCall n) (rank : Fin n) (src place : Fin n → Nat) : List (CeBatchOp n) :=
  (range (n - 1)).map fun r =>
    ⟨src (lsaPeer rank (r + 1)), .lsa (lsaPeer rank (r + 1)) (place (lsaPeer rank (r + 1))), call.chunkBytes⟩

theorem mem_peerOps :
    op ∈ peerOps call rank src place ↔ ∃ peer ≠ rank, op = ⟨src peer, .lsa peer (place peer), call.chunkBytes⟩ := by
  simp only [peerOps, mem_map, mem_range]
  constructor
  · rintro ⟨r, bound, rfl⟩
    exact ⟨_, lsaPeer_ne bound, rfl⟩
  · rintro ⟨peer, differ, rfl⟩
    obtain ⟨r, bound, rfl⟩ := exists_lsaPeer rank peer
    cases r with
    | zero => exact absurd (Fin.ext (Nat.mod_eq_of_lt rank.isLt)) differ
    | succ r => exact ⟨r, by omega, rfl⟩

/-- A batch of unicast copies: one to every peer, and one to the rank itself if
its own block is not in place. -/
theorem served_of_peerOps
    (serves : ∀ addr peer cell, Serves call rank addr peer cell ↔ addr = src peer ∧ cell = place peer)
    (ops : (call.batch rank).ops = own ++ peerOps call rank src place)
    (self : (own = [] ∧ src rank = place rank) ∨ own = [⟨src rank, .lsa rank (place rank), call.chunkBytes⟩]) :
    Served call rank := by
  have isOwn : ∀ op ∈ own, op = ⟨src rank, .lsa rank (place rank), call.chunkBytes⟩ := by
    rcases self with ⟨rfl, -⟩ | rfl <;> simp
  have shape : ∀ op ∈ (call.batch rank).ops, ∃ peer, op = ⟨src peer, .lsa peer (place peer), call.chunkBytes⟩ := by
    intro op member
    rw [ops] at member
    rcases mem_append.mp member with inOwn | inPeers
    · exact ⟨rank, isOwn op inOwn⟩
    · obtain ⟨peer, -, same⟩ := mem_peerOps.mp inPeers
      exact ⟨peer, same⟩
  constructor
  · intro op member
    obtain ⟨peer, rfl⟩ := shape op member
    rfl
  · intro op member cell named
    obtain ⟨peer, rfl⟩ := shape op member
    obtain rfl := mem_singleton.mp named
    exact (serves _ _ _).mpr ⟨rfl, rfl⟩
  · intro addr peer cell wants
    obtain ⟨rfl, rfl⟩ := (serves _ _ _).mp wants
    rw [ops]
    by_cases mine : peer = rank
    · subst mine
      rcases self with ⟨-, inPlace⟩ | rfl
      · exact .inr (by rw [inPlace])
      · exact .inl ⟨_, mem_append_left _ (.head _), rfl, .head _⟩
    · exact .inl ⟨_, mem_append_right _ (mem_peerOps.mpr ⟨peer, mine, rfl⟩), rfl, .head _⟩

section
variable (common : ∀ rank, call.recvBuff rank = call.recvWin rank + offset)
include common

theorem allGather_served (func : call.func = .allGather) (rank : Fin n) : Served call rank := by
  have place := fun peer => window_place common rank peer (rank * call.chunkBytes)
  have batch : call.batch rank = allGatherBatch (call.comm rank) call.capturing rank (call.args rank) := by
    simp [CeCall.batch, ceBatch, func]
  by_cases multicast : ncclCeAllGatherUseMulticast (call.comm rank) call.chunkBytes call.capturing
      (ncclAllGatherIsInPlace (call.sendBuff rank) (call.recvBuff rank) rank call.chunkBytes)
  · have ops : (call.batch rank).ops = [⟨call.sendBuff rank, ncclDevrGetLsaTeamPtrMC call.recvWin
        (call.recvBuff rank + rank * call.chunkBytes - call.recvWin rank), call.chunkBytes⟩] := by
      simp [batch, allGatherBatch, multicast]
    constructor
    · simp [ops]
    · simp [ops, Serves, func, ncclDevrGetLsaTeamPtrMC, CePtr.cells, place]
    · intro src peer cell serves
      simp only [Serves, func] at serves
      obtain ⟨rfl, rfl⟩ := serves
      exact .inl ⟨_, by rw [ops]; exact .head _, rfl, by simp [ncclDevrGetLsaTeamPtrMC, CePtr.cells, place]⟩
  · have serves : ∀ addr peer cell, Serves call rank addr peer cell ↔
        addr = call.sendBuff rank ∧ cell = call.recvBuff peer + rank * call.chunkBytes := by
      simp [Serves, func]
    by_cases inPlace : call.recvBuff rank + rank * call.chunkBytes = call.sendBuff rank
    · refine served_of_peerOps serves ?_ (.inl ⟨rfl, inPlace.symm⟩)
      rw [inPlace] at place
      simp [batch, allGatherBatch, multicast, peerOps, ncclDevrGetLsaRankPtr, place, inPlace]
    · refine served_of_peerOps serves ?_ (.inr rfl)
      simp [batch, allGatherBatch, multicast, peerOps, ncclDevrGetLsaRankPtr, place, inPlace]

theorem alltoAll_served (func : call.func = .alltoAll) (rank : Fin n) : Served call rank := by
  have place := fun peer => window_place common rank peer (rank * call.chunkBytes)
  have first : lsaPeer rank 0 = rank := Fin.ext (Nat.mod_eq_of_lt rank.isLt)
  have serves : ∀ addr peer cell, Serves call rank addr peer cell ↔
      addr = call.sendBuff rank + peer * call.chunkBytes ∧ cell = call.recvBuff peer + rank * call.chunkBytes := by
    simp [Serves, func]
  refine served_of_peerOps serves ?_ (.inr rfl)
  have ops : (call.batch rank).ops = (range (n - 1 + 1)).map fun r =>
      ⟨call.sendBuff rank + lsaPeer rank r * call.chunkBytes,
        .lsa (lsaPeer rank r) (call.recvBuff (lsaPeer rank r) + rank * call.chunkBytes), call.chunkBytes⟩ := by
    rw [Nat.sub_add_cancel rank.pos]
    simp only [CeCall.batch, ceBatch, func, alltoAllBatch, CeCall.args_chunkBytes, CeCall.args_recvBuff,
      CeCall.args_sendBuff, CeCall.args_recvWin, ncclDevrGetLsaRankPtr, place]
    refine map_congr_left fun r _ => ?_
    split
    next mine =>
      rw [mine]
    · rfl
  rw [ops, range_succ_eq_map, map_cons, map_map, first]
  rfl

theorem gather_served (func : call.func = .gather) (rank : Fin n) : Served call rank := by
  have place := window_place common rank call.rootLsaRank (rank * call.chunkBytes)
  have serves : ∀ addr peer cell, Serves call rank addr peer cell ↔ peer = call.rootLsaRank ∧
      addr = call.sendBuff rank ∧ cell = call.recvBuff peer + rank * call.chunkBytes := by
    simp [Serves, func]
  by_cases inPlace : rank = call.rootLsaRank ∧ call.sendBuff rank = call.recvBuff rank + rank * call.chunkBytes
  · have ops : (call.batch rank).ops = [] := by
      simp [CeCall.batch, ceBatch, func, gatherBatch, ← inPlace.1, ← inPlace.2]
    refine ⟨by simp [ops], by simp [ops], ?_⟩
    intro addr peer cell wants
    obtain ⟨rfl, rfl, rfl⟩ := (serves _ _ _).mp wants
    exact .inr (by rw [← inPlace.1, ← inPlace.2])
  · have ops : (call.batch rank).ops = [⟨call.sendBuff rank, .lsa call.rootLsaRank
        (call.recvBuff call.rootLsaRank + rank * call.chunkBytes), call.chunkBytes⟩] := by
      by_cases root : rank = call.rootLsaRank
      · have differ : call.sendBuff rank ≠ call.recvBuff rank + rank * call.chunkBytes :=
          fun same => inPlace ⟨root, same⟩
        simp [CeCall.batch, ceBatch, func, gatherBatch, ← root, differ]
      · simp [CeCall.batch, ceBatch, func, gatherBatch, root, ncclDevrGetLsaRankPtr, place]
    refine ⟨by simp [ops], ?_, ?_⟩
    · simp [ops, CePtr.cells, serves]
    · intro addr peer cell wants
      obtain ⟨rfl, rfl, rfl⟩ := (serves _ _ _).mp wants
      exact .inl ⟨_, by rw [ops]; exact .head _, rfl, .head _⟩

end

/-- Where the root of a scatter puts the block of a peer, in the peer's memory. -/
def scatterPlace (call : CeCall n) (peer : Fin n) : Nat :=
  let root := call.rootLsaRank
  let isInPlace := call.recvBuff root == call.sendBuff root + root * call.chunkBytes
  call.recvWin peer +
    ((if isInPlace then call.recvBuff root + peer * call.chunkBytes else call.recvBuff root) - call.recvWin root)

section
variable (func : call.func = .scatter)
include func

theorem scatter_ops : (call.batch call.rootLsaRank).ops =
    (if call.recvBuff call.rootLsaRank = call.sendBuff call.rootLsaRank + call.rootLsaRank * call.chunkBytes then []
      else [⟨call.sendBuff call.rootLsaRank + call.rootLsaRank * call.chunkBytes,
        .lsa call.rootLsaRank (call.recvBuff call.rootLsaRank), call.chunkBytes⟩]) ++
    peerOps call call.rootLsaRank (fun peer => call.sendBuff call.rootLsaRank + peer * call.chunkBytes)
      (scatterPlace call) := by
  by_cases inPlace : call.recvBuff call.rootLsaRank = call.sendBuff call.rootLsaRank + call.rootLsaRank * call.chunkBytes
  all_goals simp [CeCall.batch, ceBatch, func, scatterBatch, peerOps, scatterPlace, ncclDevrGetLsaRankPtr]

theorem scatter_ops_of_ne (other : rank ≠ call.rootLsaRank) : (call.batch rank).ops = [] := by
  simp [CeCall.batch, ceBatch, func, scatterBatch, other]

theorem scatter_served
    (place : ∀ peer ≠ call.rootLsaRank, scatterPlace call peer = call.recvBuff peer) (rank : Fin n) :
    Served call rank := by
  by_cases root : rank = call.rootLsaRank
  · have serves : ∀ addr peer cell, Serves call rank addr peer cell ↔
        addr = call.sendBuff rank + peer * call.chunkBytes ∧ cell = call.recvBuff peer := by
      simp [Serves, func, root]
    have ops := scatter_ops func
    have placed : ∀ src, peerOps call call.rootLsaRank src (scatterPlace call) =
        peerOps call call.rootLsaRank src call.recvBuff := by
      intro src
      refine map_congr_left fun r bound => ?_
      rw [place _ (lsaPeer_ne (mem_range.mp bound))]
    rw [placed, ← root] at ops
    refine served_of_peerOps serves ops ?_
    split
    next inPlace =>
      exact .inl ⟨rfl, inPlace.symm⟩
    · exact .inr rfl
  · have ops := scatter_ops_of_ne func root
    refine ⟨by simp [ops], by simp [ops], ?_⟩
    intro addr peer cell wants
    simp [Serves, func, root] at wants

/-- The scatter in place, whose places are right only if the root is rank 0. -/
def ScatterInPlace (call : CeCall n) (placement : Placement) : Prop :=
  placement = .inPlace → call.func = .scatter → call.rootLsaRank.val = 0 ∨ call.chunkBytes = 0 ∨ n = 1

theorem scatterPlace_inPlace (placed : Placed call .inPlace) (peer : Fin n) :
    scatterPlace call peer = call.recvBuff peer + call.rootLsaRank * call.chunkBytes := by
  simp only [Placed, func] at placed
  obtain ⟨⟨offset, common⟩, own⟩ := placed
  simp only [scatterPlace, own, common, beq_self_eq_true, ↓reduceIte]
  omega

theorem scatterPlace_outOfPlace (placed : Placed call .outOfPlace) (peer : Fin n) :
    scatterPlace call peer = call.recvBuff peer := by
  simp only [Placed, func] at placed
  obtain ⟨⟨offset, common⟩, apart⟩ := placed
  have plain := window_place common call.rootLsaRank peer 0
  unfold scatterPlace
  by_cases empty : call.chunkBytes = 0
  · simpa [empty] using plain
  · have differ : call.recvBuff call.rootLsaRank ≠
        call.sendBuff call.rootLsaRank + call.rootLsaRank * call.chunkBytes := by
      intro same
      exact apart _ (digits_lt call.rootLsaRank.isLt (Nat.pos_of_ne_zero empty)) 0 (by omega) (by omega)
    simpa [differ] using plain

end

/-- Every rank does what it has to. -/
theorem served (placed : Placed call placement) (scatter : ScatterInPlace call placement) (rank : Fin n) :
    Served call rank := by
  by_cases scatters : call.func = .scatter
  · refine scatter_served scatters (fun peer differ => ?_) rank
    cases placement with
    | outOfPlace => exact scatterPlace_outOfPlace scatters placed peer
    | inPlace =>
      rw [scatterPlace_inPlace scatters placed]
      rcases scatter rfl scatters with root | empty | alone
      · rw [root, zero_mul, add_zero]
      · rw [empty, mul_zero, add_zero]
      · subst alone
        exact absurd (Subsingleton.elim _ _) differ
  obtain ⟨offset, common⟩ : ∃ offset, ∀ rank, call.recvBuff rank = call.recvWin rank + offset := by
    unfold Placed at placed
    cases placement with
    | outOfPlace => exact placed.1
    | inPlace => cases func : call.func <;> simp_all
  cases func : call.func with
  | allGather => exact allGather_served common func rank
  | alltoAll => exact alltoAll_served common func rank
  | gather => exact gather_served common func rank
  | scatter => exact absurd func scatters

/-! ### Whole collectives -/

variable {actions : Fin n → List (CeAction n)}

/-- The streams of all ranks move the bytes of their batches. -/
theorem actions_bytes (runs : ∀ rank, call.actions rank = some (actions rank)) :
    ((finRange n).flatMap fun rank => streamBytes rank (actions rank)).Perm (allBytes call) := by
  refine List.Perm.flatMap_left _ fun rank _ => ?_
  have launched := runs rank
  rw [actions_eq, Option.map_eq_some_iff] at launched
  obtain ⟨batch, launch, framed⟩ := launched
  simpa [← framed, streamBytes, CeAction.bytes] using launch_bytes launch rank

/-- The root of a scatter in place writes behind the receive buffer of a peer. -/
theorem scatter_misses (func : call.func = .scatter) (placed : Placed call .inPlace)
    (root : call.rootLsaRank.val ≠ 0) (nonempty : call.chunkBytes ≠ 0) (peer : Fin n) :
    ∀ move ∈ allBytes call, move.dst ≠ (peer, call.recvBuff peer) := by
  intro move member hits
  obtain ⟨rank, op, inBatch, byte⟩ := mem_allBytes.mp member
  obtain ⟨k, -, cell, named, rfl⟩ := mem_bytes.mp byte
  by_cases isRoot : rank = call.rootLsaRank
  · subst isRoot
    have inPlace : call.recvBuff call.rootLsaRank =
        call.sendBuff call.rootLsaRank + call.rootLsaRank * call.chunkBytes := by
      simp only [Placed, func] at placed
      exact placed.2 _
    rw [scatter_ops func, if_pos inPlace, nil_append] at inBatch
    obtain ⟨other, -, rfl⟩ := mem_peerOps.mp inBatch
    obtain rfl := mem_singleton.mp named
    obtain ⟨rfl, address⟩ : other = peer ∧ scatterPlace call other + k = call.recvBuff peer := Prod.mk.inj hits
    rw [scatterPlace_inPlace func placed] at address
    have beyond := mul_pos (Nat.pos_of_ne_zero root) (Nat.pos_of_ne_zero nonempty)
    omega
  · rw [scatter_ops_of_ne func isRoot] at inBatch
    cases inBatch

theorem not_delivers_of_scatter (placed : Placed call placement) (fails : ¬ ScatterInPlace call placement) :
    ¬ Delivers call := by
  simp only [ScatterInPlace, Classical.not_imp, not_or] at fails
  obtain ⟨rfl, func, root, nonempty, several⟩ := fails
  rintro ⟨actions, runs, delivers⟩
  have differ : lsaPeer call.rootLsaRank (0 + 1) ≠ call.rootLsaRank := lsaPeer_ne (by omega)
  generalize lsaPeer call.rootLsaRank (0 + 1) = peer at differ
  have wants : Wanted call (peer, call.recvBuff peer + 0)
      (call.rootLsaRank, call.sendBuff call.rootLsaRank + peer * call.chunkBytes + 0) := by
    simp only [Wanted, func]
    exact ⟨peer, 0, Nat.pos_of_ne_zero nonempty, rfl, rfl⟩
  -- a memory that tells the byte of the peer from the root's
  have moved := delivers (fun cell => if cell.1 = peer then 1 else 0) _ (.refl _) _ _ wants
  rw [run_of_not_written] at moved
  · simp [differ.symm] at moved
  · intro move member
    exact scatter_misses func placed root nonempty peer move ((actions_bytes runs).subset member)

theorem delivers_of_served (placed : Placed call placement) (served : ∀ rank, Served call rank)
    (runs : ∀ rank, call.actions rank = some (actions rank)) : Delivers call := by
  refine ⟨actions, runs, fun memory order mixed dst src wants => ?_⟩
  have all := mixed.trans (actions_bytes runs)
  refine (wanted_consistent placed).run_delivers ?_ ?_ memory wants
  · exact fun move member => allBytes_fit served move (all.subset member)
  · exact fun wants => (allBytes_complete served wants).imp_left fun member => all.symm.subset member

/-- A collective delivers every block to its place exactly when its launch does
not trap and it is not a scatter in place from a root other than 0. However a batch
is cut, the chunks of its copies are their bytes, each once. -/
theorem ce_collectives_deliver_iff (call : CeCall n) (placement : Placement) (placed : Placed call placement) :
    (Delivers call ↔
      (∀ rank, asks call rank → Batched call rank → unicastCopies call rank ≤ intraBatchSyncMsgThreshold) ∧
      (placement = .inPlace → call.func = .scatter → call.rootLsaRank.val = 0 ∨ call.chunkBytes = 0 ∨ n = 1)) ∧
    ∀ (env : CeLaunchEnv) (params : CeBatchOpsParams n) (actions : List (CeAction n)),
      ncclCeLaunchBatchOps env params = some actions →
      ∀ rank, (streamBytes rank actions).Perm (params.ops.flatMap (·.bytes rank)) := by
  refine ⟨⟨fun delivers => ⟨?_, ?_⟩, ?_⟩, fun env params actions launch => launch_bytes launch⟩
  · obtain ⟨actions, runs, -⟩ := delivers
    intro rank
    have launched := runs rank
    rw [actions_eq, Option.map_eq_some_iff] at launched
    obtain ⟨batch, launch, -⟩ := launched
    exact (launch_spec call rank).1.mp ⟨batch, launch⟩
  · by_contra fails
    exact not_delivers_of_scatter placed fails delivers
  · rintro ⟨bound, scatter⟩
    have launched := fun rank => (launch_spec call rank).1.mpr (bound rank)
    choose batch launch using launched
    have runs : ∀ rank, call.actions rank = some (.sync :: batch rank ++ [.sync]) := by
      intro rank
      rw [actions_eq, launch, Option.map_some]
    exact delivers_of_served placed (served placed scatter) runs

/-- Three ranks scatter two bytes in place from `root`. -/
def scatterInPlace (root : Fin 3) : CeCall 3 where
  func := .scatter
  rootLsaRank := root
  nElts := 2
  eltSize := 1
  cudartVersion := 13000
  driverVersion := 13000
  capturing := false
  chunkSizeParam := 8 * 1024 * 1024
  comm := fun _ => ⟨false, -1, fun _ _ _ => none⟩
  isLegacyStream := fun _ => false
  sendBuff := fun _ => 100
  recvBuff := fun rank => 100 + rank * 2
  recvWin := fun _ => 100

theorem scatterInPlace_placed (root : Fin 3) : Placed (scatterInPlace root) .inPlace :=
  ⟨⟨0, fun _ => rfl⟩, fun _ => rfl⟩

theorem ce_collectives_deliver_from_zero : Placed (scatterInPlace 0) .inPlace ∧ Delivers (scatterInPlace 0) := by
  refine ⟨scatterInPlace_placed 0, ?_⟩
  refine (ce_collectives_deliver_iff _ _ (scatterInPlace_placed 0)).1.mpr ⟨?_, fun _ _ => .inl rfl⟩
  intro rank asking
  exact absurd asking (by simp [asks, unicastCopies, scatterInPlace, asksIntraBatchSync_zero])

/-- From root 1 the block of rank 0 goes to the place of rank 1's block. -/
theorem scatter_in_place_misplaced : Placed (scatterInPlace 1) .inPlace ∧ ¬ Delivers (scatterInPlace 1) ∧
    ((scatterInPlace 1).batch 1).ops.map (fun op => (op.src, op.dst.cells)) =
      [(104, [((2 : Fin 3), 106)]), (100, [((0 : Fin 3), 102)])] := by
  refine ⟨scatterInPlace_placed 1, not_delivers_of_scatter (scatterInPlace_placed 1) ?_, by decide +kernel⟩
  exact fun right => by simpa [scatterInPlace, CeCall.chunkBytes] using right rfl rfl

end NcclCore.CeCollProofs
