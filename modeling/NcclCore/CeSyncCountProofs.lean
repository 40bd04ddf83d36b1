import NcclCore.CeColl

/-! How many barriers the ranks of a copy-engine collective put on their streams.
Two frame the batch; the others come from the loop of single copies, which runs
when the launch is captured, on the legacy null stream and with an old CUDA. -/
namespace NcclCore
open List

namespace CeSyncCountProofs
variable {n : Nat}

def isSync : CeAction n → Bool
  | .sync => true
  | .memcpy _ => false

/-- The calls of `ncclMemOpSync`. -/
def syncCount (actions : List (CeAction n)) : Nat := actions.countP isSync

/-- `useCompletePtr` after the barriers on the stream: each of them toggles it. -/
def toggled (useCompletePtr : Bool) : List (CeAction n) → Bool
  | [] => useCompletePtr
  | .sync :: rest => toggled (!useCompletePtr) rest
  | .memcpy _ :: rest => toggled useCompletePtr rest

/-- The property of a collective: every rank issues the same, even number of
barriers, which leaves `useCompletePtr` as it was. -/
def SyncsAgree (call : CeCall n) : Prop :=
  ∃ actions : Fin n → List (CeAction n), (∀ rank, call.actions rank = some (actions rank)) ∧
    (∀ rank other, syncCount (actions rank) = syncCount (actions other)) ∧
    (∀ rank, Even (syncCount (actions rank))) ∧
    ∀ rank useCompletePtr, toggled useCompletePtr (actions rank) = useCompletePtr

theorem toggled_eq (useCompletePtr : Bool) (actions : List (CeAction n)) :
    toggled useCompletePtr actions = (useCompletePtr ^^ decide (syncCount actions % 2 = 1)) := by
  induction actions generalizing useCompletePtr with
  | nil => simp [toggled, syncCount]
  | cons action rest ih =>
    cases action with
    | sync =>
      have next : syncCount (.sync :: rest) = syncCount rest + 1 := countP_cons_of_pos rfl
      rw [toggled, ih, next]
      rcases Nat.mod_two_eq_zero_or_one (syncCount rest) with even | odd
      · cases useCompletePtr <;> simp [even, Nat.add_mod]
      · cases useCompletePtr <;> simp [odd, Nat.add_mod]
    | memcpy batch =>
      have same : syncCount (.memcpy batch :: rest) = syncCount rest := countP_cons_of_neg (by simp [isSync])
      rw [toggled, ih, same]

/-! ### The loop of single copies -/

/-- Whether a barrier follows copy `i`. -/
def marked (params : CeBatchOpsParams n) (i : Nat) : Bool :=
  params.intraBatchSync && (i + 1) % intraBatchSyncFreq == 0 && i + 1 < params.ops.length

theorem syncCount_append (left right : List (CeAction n)) :
    syncCount (left ++ right) = syncCount left + syncCount right :=
  countP_append

theorem syncCount_loop (params : CeBatchOpsParams n) (ops : List (CeBatchOp n)) (start : Nat) :
    syncCount ((ops.zipIdx start).flatMap fun (op, i) => .memcpy [op] :: (if marked params i then [.sync] else [])) =
      (range' start ops.length).countP (marked params) := by
  induction ops generalizing start with
  | nil => rfl
  | cons op ops ih =>
    rw [zipIdx_cons, flatMap_cons, syncCount_append, ih, length_cons, range'_succ]
    cases asks : marked params start <;> simp [syncCount, isSync, asks, add_comm]

/-- The marks among the first `count` copies. -/
theorem countP_marked (asks : params.intraBatchSync) {count : Nat} (bound : count ≤ params.ops.length) :
    (range count).countP (marked params) = min count (params.ops.length - 1) / intraBatchSyncFreq := by
  induction count with
  | zero => simp
  | succ count ih =>
    rw [range_succ, countP_append, ih (by omega), countP_singleton]
    simp only [marked, asks, intraBatchSyncFreq, Bool.true_and, Bool.and_eq_true, beq_iff_eq, decide_eq_true_eq]
    split <;> omega

theorem syncCount_copyOneByOne (params : CeBatchOpsParams n) :
    syncCount (copyOneByOne params) =
      if params.intraBatchSync then (params.ops.length - 1) / intraBatchSyncFreq else 0 := by
  have loop := syncCount_loop params params.ops 0
  rw [← range_eq_range'] at loop
  refine loop.trans ?_
  split
  next asks =>
    rw [countP_marked asks le_rfl, min_eq_right (Nat.sub_le _ _)]
  next silent =>
    exact countP_eq_zero.mpr (by simp [marked, silent])

/-- With the barrier behind the loop their number is even. -/
theorem syncCount_evenSync (nonempty : params.ops ≠ []) :
    syncCount (copyOneByOne params ++ evenSync params) =
      if params.intraBatchSync then 2 * (divUp params.ops.length intraBatchSyncFreq / 2) else 0 := by
  have positive := length_pos_iff.mpr nonempty
  rw [syncCount_append, syncCount_copyOneByOne]
  simp only [evenSync, divUp, intraBatchSyncFreq]
  cases params.intraBatchSync with
  | false => rfl
  | true =>
    simp only [↓reduceIte, Bool.true_and, beq_iff_eq]
    split
    · change (params.ops.length - 1) / 8 + 1 = _
      omega
    · change (params.ops.length - 1) / 8 + 0 = _
      omega

/-! ### One launch -/

section
variable (call : CeCall n)
variable (rank : Fin n)

/-- Whether the copies go out through `cudaMemcpyBatchAsync`. -/
def Batched : Prop :=
  call.capturing = false ∧ call.isLegacyStream rank = false ∧ 12080 ≤ call.cudartVersion ∧ 12080 ≤ call.driverVersion

instance : Decidable (Batched call rank) := instDecidableAnd

/-- Whether they go out one by one because of an old CUDA. -/
def OldCuda : Prop :=
  call.capturing = false ∧ call.isLegacyStream rank = false ∧
    ¬ (12080 ≤ call.cudartVersion ∧ 12080 ≤ call.driverVersion)

/-- The number of copies that the request for intra-batch barriers looks at; a
multicast and the collectives with a root never ask for them. -/
def unicastCopies : Nat :=
  match call.func with
  | .allGather =>
    if ncclCeAllGatherUseMulticast (call.comm rank) call.chunkBytes call.capturing
        (ncclAllGatherIsInPlace (call.sendBuff rank) (call.recvBuff rank) rank call.chunkBytes) then 0
    else if call.recvBuff rank + rank * call.chunkBytes = call.sendBuff rank then n - 1
    else n
  | .alltoAll => n
  | .scatter => 0
  | .gather => 0

/-- Whether the batch of the rank asks for intra-batch barriers. -/
def asks : Bool := asksIntraBatchSync call.chunkBytes (unicastCopies call rank)

/-- The groups of `intraBatchSyncFreq` copies. -/
def groups : Nat := divUp (unicastCopies call rank) intraBatchSyncFreq

/-- The barriers inside the batch of a rank. -/
def intraSyncs : Nat :=
  if !asks call rank then 0
  else if call.capturing || call.isLegacyStream rank then 2 * (groups call rank / 2)
  else if 12080 ≤ call.cudartVersion ∧ 12080 ≤ call.driverVersion then 0
  else groups call rank - 1

end

theorem asksIntraBatchSync_zero (chunkBytes : Nat) : asksIntraBatchSync chunkBytes 0 = false := rfl

theorem batch_chunking (call : CeCall n) (rank : Fin n) : (call.batch rank).chunking = false := by
  unfold CeCall.batch ceBatch
  cases call.func with
  | allGather => exact apply_ite CeBatchOpsParams.chunking .. |>.trans (ite_self _)
  | alltoAll | scatter | gather => rfl

theorem batch_intraBatchSync (call : CeCall n) (rank : Fin n) :
    (call.batch rank).intraBatchSync = asks call rank ∧
      (asks call rank → (call.batch rank).ops.length = unicastCopies call rank) := by
  unfold CeCall.batch ceBatch asks unicastCopies
  cases call.func with
  | allGather =>
    have whole := Nat.sub_add_cancel rank.pos
    by_cases multicast : ncclCeAllGatherUseMulticast (call.comm rank) call.chunkBytes call.capturing
        (ncclAllGatherIsInPlace (call.sendBuff rank) (call.recvBuff rank) rank call.chunkBytes)
    · simp [allGatherBatch, multicast, asksIntraBatchSync_zero]
    · by_cases inPlace : call.recvBuff rank + rank * call.chunkBytes = call.sendBuff rank
      · simp [allGatherBatch, multicast, inPlace]
      · simp [allGatherBatch, multicast, inPlace, whole]
  | alltoAll => simp [alltoAllBatch]
  | scatter => simp [scatterBatch, asksIntraBatchSync_zero]
  | gather => simp [gatherBatch, asksIntraBatchSync_zero]

theorem lt_of_asks (asking : asksIntraBatchSync chunkBytes numOps) : intraBatchSyncFreq < numOps := by
  simp only [asksIntraBatchSync, Bool.and_eq_true, decide_eq_true_eq] at asking
  exact asking.1

theorem rotatedRounds_isSome (nonempty : ops ≠ []) :
    (∃ actions, rotatedRounds ops = some actions) ↔ ops.length ≤ intraBatchSyncMsgThreshold := by
  have positive := length_pos_iff.mpr nonempty
  have divides : intraBatchSyncMsgThreshold / ops.length = 0 ↔ ¬ ops.length ≤ intraBatchSyncMsgThreshold := by
    rw [Nat.div_eq_zero_iff]
    omega
  simp only [rotatedRounds]
  split
  next zero =>
    simpa using divides.mp zero
  next nonzero =>
    simpa using Decidable.not_not.mp (nonzero ∘ divides.mpr)

theorem syncCount_rotatedRounds (rounds : rotatedRounds ops = some actions) : syncCount actions = 0 := by
  simp only [rotatedRounds] at rounds
  split at rounds
  · cases rounds
  · cases rounds
    unfold launchWave
    split <;> rfl

/-- The launch traps only in rounds of no bytes; otherwise the number of barriers
in it is `intraSyncs`. -/
theorem launch_spec (call : CeCall n) (rank : Fin n) :
    ((∃ actions, ncclCeLaunchBatchOps (call.env rank) (call.batch rank) = some actions) ↔
      (asks call rank → Batched call rank → unicastCopies call rank ≤ intraBatchSyncMsgThreshold)) ∧
    ∀ actions, ncclCeLaunchBatchOps (call.env rank) (call.batch rank) = some actions →
      syncCount actions = intraSyncs call rank := by
  obtain ⟨intra, length⟩ := batch_intraBatchSync call rank
  have nonempty : asks call rank → (call.batch rank).ops ≠ [] := by
    intro asking
    have many := lt_of_asks asking
    rw [← length asking] at many
    exact ne_nil_of_length_pos (by omega)
  have trivially : ∀ {actions : List (CeAction n)} {condition : Prop}, condition →
      syncCount actions = intraSyncs call rank →
      ((∃ others, some actions = some others) ↔ condition) ∧
        ∀ others, some actions = some others → syncCount others = intraSyncs call rank :=
    fun condition count => ⟨iff_of_true ⟨_, rfl⟩ condition, fun _ same => Option.some.inj same ▸ count⟩
  simp only [ncclCeLaunchBatchOps, batch_chunking, intra, CeCall.env, Bool.false_and, Bool.false_eq_true, ↓reduceIte]
  by_cases empty : (call.batch rank).ops = []
  · have silent : asks call rank = false := by simpa using fun asking => nonempty asking empty
    rw [if_pos (by simpa using empty)]
    exact trivially (by simp [silent]) (by simp [intraSyncs, silent, syncCount])
  rw [if_neg (by simpa using empty)]
  split
  next single =>
    refine trivially ?_ ?_
    · rintro - ⟨notCapturing, other, -⟩
      simp [notCapturing, other] at single
    · rw [syncCount_evenSync empty, intra]
      by_cases asking : asks call rank
      · simp [intraSyncs, asking, single, groups, length asking]
      · simp [intraSyncs, asking]
  rename_i notSingle
  obtain ⟨notCapturing, other⟩ : call.capturing = false ∧ call.isLegacyStream rank = false := by simpa using notSingle
  split
  next batchMemcpy =>
    by_cases asking : asks call rank
    · rw [if_pos asking, rotatedRounds_isSome empty, length asking]
      refine ⟨⟨fun bound _ _ => bound, fun bound => bound asking ⟨notCapturing, other, batchMemcpy⟩⟩, ?_⟩
      intro actions rounds
      rw [syncCount_rotatedRounds rounds]
      simp [intraSyncs, notCapturing, other, batchMemcpy]
    · rw [if_neg asking]
      exact trivially (absurd · asking) (by simp [intraSyncs, asking, syncCount, isSync])
  next old =>
    refine trivially (fun _ batched => absurd batched.2.2 old) ?_
    rw [syncCount_copyOneByOne, intra]
    by_cases asking : asks call rank
    · have many := lt_of_asks asking
      simp only [intraSyncs, asking, notCapturing, other, old, groups, length asking, divUp, intraBatchSyncFreq,
        Bool.not_true, Bool.false_eq_true, Bool.or_self, ↓reduceIte] at many ⊢
      omega
    · simp [intraSyncs, asking]

/-! ### All ranks -/

variable {call : CeCall n} {rank : Fin n}

theorem actions_eq (call : CeCall n) (rank : Fin n) : call.actions rank =
    (ncclCeLaunchBatchOps (call.env rank) (call.batch rank)).map fun batch => .sync :: batch ++ [.sync] := rfl

theorem syncCount_frame (batch : List (CeAction n)) : syncCount (.sync :: batch ++ [.sync]) = syncCount batch + 2 := by
  simp [syncCount, countP_cons, isSync]

theorem two_le_groups (asking : asks call rank) : 2 ≤ groups call rank := by
  have many := lt_of_asks asking
  simp only [groups, divUp, intraBatchSyncFreq] at many ⊢
  omega

/-- The barriers in a batch are odd after an old CUDA's loop over an even number of
groups. -/
theorem odd_groups_of_even (even : Even (intraSyncs call rank)) (asking : asks call rank) (old : OldCuda call rank) :
    Odd (groups call rank) := by
  have some_groups := two_le_groups asking
  obtain ⟨notCapturing, other, old⟩ := old
  simp only [intraSyncs, asking, notCapturing, other, old, Bool.not_true, Bool.false_eq_true, Bool.or_self, ↓reduceIte,
    Nat.even_iff] at even
  rw [Nat.odd_iff]
  omega

/-- A rank has a copy to every rank, but for itself if it is in place, or none of its own. -/
theorem unicastCopies_cases (call : CeCall n) (rank : Fin n) :
    unicastCopies call rank = 0 ∨ unicastCopies call rank = n - 1 ∨ unicastCopies call rank = n := by
  unfold unicastCopies
  cases call.func with
  | allGather =>
    simp only
    split_ifs
    · exact .inl rfl
    · exact .inr (.inl rfl)
    · exact .inr (.inr rfl)
  | alltoAll => exact .inr (.inr rfl)
  | scatter | gather => exact .inl rfl

theorem intraSyncs_eq (odd : asks call rank → OldCuda call rank → Odd (groups call rank)) :
    intraSyncs call rank = if asks call rank ∧ ¬ Batched call rank then 2 * (groups call rank / 2) else 0 := by
  by_cases asking : asks call rank
  · by_cases batched : Batched call rank
    · have ⟨notCapturing, other, batchMemcpy⟩ := batched
      simp [intraSyncs, notCapturing, other, batchMemcpy, batched]
    · rw [if_pos ⟨asking, batched⟩]
      simp only [intraSyncs, asking, Bool.not_true, Bool.false_eq_true, ↓reduceIte]
      split
      · rfl
      next notSingle =>
        obtain ⟨notCapturing, other⟩ : call.capturing = false ∧ call.isLegacyStream rank = false := by
          simpa using notSingle
        have old : ¬ (12080 ≤ call.cudartVersion ∧ 12080 ≤ call.driverVersion) :=
          fun batchMemcpy => batched ⟨notCapturing, other, batchMemcpy⟩
        have groups_odd := Nat.odd_iff.mp (odd asking ⟨notCapturing, other, old⟩)
        rw [if_neg old]
        omega
  · simp [intraSyncs, asking]

/-- The barriers in the batches are as many on every rank exactly if, where one rank puts
barriers between its copies, all do, and a missing copy in place makes no pair of groups less. -/
theorem intraSyncs_same_iff (odd : ∀ rank, asks call rank → OldCuda call rank → Odd (groups call rank)) :
    (∀ rank other, intraSyncs call rank = intraSyncs call other) ↔
      ∀ rank other, asks call rank → ¬ Batched call rank →
        asks call other ∧ ¬ Batched call other ∧ (unicastCopies call rank = unicastCopies call other ∨ n % 16 ≠ 9) := by
  have pairs : ∀ rank other, asks call rank → asks call other →
      (2 * (groups call rank / 2) = 2 * (groups call other / 2) ↔
        unicastCopies call rank = unicastCopies call other ∨ n % 16 ≠ 9) := by
    intro rank other asking asking'
    have many := lt_of_asks asking
    have many' := lt_of_asks asking'
    have copies := unicastCopies_cases call rank
    have copies' := unicastCopies_cases call other
    simp only [groups, divUp, intraBatchSyncFreq] at many many' ⊢
    omega
  simp only [fun rank => intraSyncs_eq (odd rank)]
  constructor
  · intro same rank other asking single
    have equal := same rank other
    rw [if_pos ⟨asking, single⟩] at equal
    split at equal
    next others => exact ⟨others.1, others.2, (pairs rank other asking others.1).mp equal⟩
    next =>
      have := two_le_groups asking
      omega
  · intro same rank other
    by_cases loops : asks call rank ∧ ¬ Batched call rank
    · obtain ⟨asking, single, copies⟩ := same rank other loops.1 loops.2
      rw [if_pos loops, if_pos ⟨asking, single⟩]
      exact (pairs rank other loops.1 asking).mpr copies
    · rw [if_neg loops, if_neg fun others => loops ?_]
      obtain ⟨asking, single, -⟩ := same other rank others.1 others.2
      exact ⟨asking, single⟩

/-- All ranks issue the same, even number of barriers exactly when no rank has
more copies in rounds than the threshold has bytes, no rank with an old CUDA has
an even number of groups, and where one rank puts barriers between its copies all do:
none has a batch too small to ask for them or a multicast, none is on a stream that takes the
whole batch, and not some of them are in place where that makes a pair of groups less. -/
theorem ce_syncs_agree_iff (call : CeCall n) : SyncsAgree call ↔
    (∀ rank, asks call rank → Batched call rank → unicastCopies call rank ≤ intraBatchSyncMsgThreshold) ∧
    (∀ rank, asks call rank → OldCuda call rank → Odd (groups call rank)) ∧
    ∀ rank other, asks call rank → ¬ Batched call rank →
      asks call other ∧ ¬ Batched call other ∧ (unicastCopies call rank = unicastCopies call other ∨ n % 16 ≠ 9) := by
  constructor
  · rintro ⟨actions, runs, same, even, -⟩
    have launched : ∀ rank, ∃ batch, ncclCeLaunchBatchOps (call.env rank) (call.batch rank) = some batch ∧
        syncCount (actions rank) = intraSyncs call rank + 2 := by
      intro rank
      have run := runs rank
      obtain ⟨batch, launch, framed⟩ := Option.map_eq_some_iff.mp run
      refine ⟨batch, launch, ?_⟩
      rw [← framed, syncCount_frame, (launch_spec call rank).2 batch launch]
    have odd : ∀ rank, asks call rank → OldCuda call rank → Odd (groups call rank) := by
      intro rank
      obtain ⟨-, -, count⟩ := launched rank
      have whole := even rank
      rw [count, Nat.even_add] at whole
      exact odd_groups_of_even (whole.mpr even_two)
    refine ⟨fun rank => ?_, odd, (intraSyncs_same_iff odd).mp fun rank other => ?_⟩
    · obtain ⟨batch, launch, -⟩ := launched rank
      exact (launch_spec call rank).1.mp ⟨batch, launch⟩
    · obtain ⟨-, -, count⟩ := launched rank
      obtain ⟨-, -, count'⟩ := launched other
      have equal := same rank other
      omega
  · rintro ⟨bounded, odd, same⟩
    choose batch launch using fun rank => (launch_spec call rank).1.mpr (bounded rank)
    have count : ∀ rank, syncCount (.sync :: batch rank ++ [.sync]) = intraSyncs call rank + 2 := by
      intro rank
      rw [syncCount_frame, (launch_spec call rank).2 _ (launch rank)]
    have even : ∀ rank, Even (syncCount (.sync :: batch rank ++ [.sync])) := by
      intro rank
      rw [count rank, intraSyncs_eq (odd rank)]
      split
      · exact (even_two_mul _).add even_two
      · exact even_two
    refine ⟨fun rank => .sync :: batch rank ++ [.sync], fun rank => ?_, fun rank other => ?_, even,
      fun rank useCompletePtr => by rw [toggled_eq, Nat.even_iff.mp (even rank)]; simp⟩
    · rw [actions_eq, launch rank]
      rfl
    · rw [count, count, (intraSyncs_same_iff odd).mpr same rank other]

/-- Nine ranks, an AlltoAll of 64 MiB blocks with CUDA 13. Rank 0 passes the legacy
null stream. -/
def oneLegacyStream : CeCall 9 where
  func := .alltoAll
  rootLsaRank := 0
  nElts := 64 * 1024 * 1024
  eltSize := 1
  cudartVersion := 13000
  driverVersion := 13000
  capturing := false
  chunkSizeParam := 8 * 1024 * 1024
  comm := fun _ => ⟨false, -1, fun _ _ _ => none⟩
  isLegacyStream := fun rank => rank == 0
  sendBuff := fun _ => 0
  recvBuff := fun _ => 2 ^ 30
  recvWin := fun _ => 2 ^ 30

/-- Rank 0 puts four barriers on its stream, the others two. -/
theorem legacy_stream_adds_syncs : ¬ SyncsAgree oneLegacyStream ∧
    (oneLegacyStream.actions 0).map syncCount = some 4 ∧ (oneLegacyStream.actions 1).map syncCount = some 2 := by
  have counts : (oneLegacyStream.actions 0).map syncCount = some 4 ∧
      (oneLegacyStream.actions 1).map syncCount = some 2 := by decide +kernel
  refine ⟨?_, counts⟩
  rintro ⟨actions, runs, same, -⟩
  rw [runs 0, runs 1] at counts
  simp only [Option.map_some, Option.some.injEq] at counts
  have equal := same 0 1
  omega

end NcclCore.CeSyncCountProofs
