import NcclCore.WorkBatchLayout
import NcclCore.Lib.Digits

/-! The device side: a load decodes a fused batch, and the blocks of the kernel
run the works of their channels as the host added them. -/
namespace NcclCore
open Lib List

/-- The bits of the batch, seen in two halves. -/
theorem setBits_halves (batch : DevWorkBatch) :
    setBits 64 batch.offsetBitset = setBits 32 batch.low32 ++ (setBits 32 batch.high32).map (32 + ·) := by
  rw [DevWorkBatch.low32, DevWorkBatch.high32, ← Nat.and_two_pow_sub_one_eq_mod, ← Nat.and_two_pow_sub_one_eq_mod,
    setBits_mask le_rfl, setBits_mask le_rfl]
  exact setBits_add 32 32 batch.offsetBitset

theorem nWorks_eq (batch : DevWorkBatch) : batch.nWorks = batch.offsets.length := by
  simp [DevWorkBatch.nWorks, DevWorkBatch.offsets, popcount, setBits_halves]

theorem scatterLanes_eq (word start shift : Nat) (table : Nat → Nat) :
    scatterLanes word start shift table =
      scatter (fun lane => word.testBit lane = true) (fun lane => start + popcount lane word) (shift + ·)
        (range 32) table := by
  refine foldl_ext _ _ _ fun table lane member => ?_
  have below := le_of_lt (mem_range.mp member)
  simp only [popcount, setBits_mask below]

/-- The lanes find the n-th set bit. -/
theorem fnsOfBitset_eq (batch : DevWorkBatch) (scratch : Nat → Nat)
    (listed : (setBits 64 batch.offsetBitset)[n]? = some bit) : batch.fnsOfBitset scratch n = bit := by
  rw [setBits_halves] at listed
  rw [DevWorkBatch.fnsOfBitset, scatterLanes_eq, scatterLanes_eq]
  rcases lt_or_ge n (setBits 32 batch.low32).length with low | high
  · rw [getElem?_append_left low] at listed
    rw [scatter_of_notMem fun lane _ _ same => by rw [popcount] at same; omega]
    simpa using scatter_setBits 0 0 scratch listed
  · rw [getElem?_append_right high, getElem?_map, Option.map_eq_some_iff] at listed
    obtain ⟨lane, found, rfl⟩ := listed
    have written := scatter_setBits (popcount 32 batch.low32) 32
      (scatter (fun lane => batch.low32.testBit lane = true) (fun lane => 0 + popcount lane batch.low32) (0 + ·)
        (range 32) scratch) found
    rwa [popcount, Nat.add_sub_cancel' high] at written

/-- The slots hold the works at these offsets, pack by pack. -/
def Stored (packs : Nat) (storage : Nat → Option Nat) (offsets : List Nat) : Prop :=
  ∀ slot offset, offsets[slot]? = some offset → ∀ pack < packs,
    storage (slot * packs + pack) = some ((offset + pack * 16) % 2 ^ 32)

theorem DevWorkType.packs_pos (type : DevWorkType) : 0 < type.size / 16 := by cases type <;> decide

/-- The threads copy the works a batch names behind those already there. -/
theorem Stored.copyPacks (batch : DevWorkBatch) (stored : Stored (batch.workType.size / 16) storage offsets)
    (scratch : Nat → Nat) (covered : ∀ tid < batch.nWorks * (batch.workType.size / 16), tid ∈ tids) :
    Stored (batch.workType.size / 16)
      (copyPacks batch (batch.fnsOfBitset scratch) tids offsets.length storage) (offsets ++ batch.offsets) := by
  rw [NcclCore.copyPacks]
  generalize batch.workType.size / 16 = packs at *
  intro slot offset found pack small
  have keyEq : ∀ tid, (offsets.length + tid / packs) * packs + tid % packs = offsets.length * packs + tid := by
    intro tid
    rw [add_mul, add_assoc, mul_comm (tid / packs), Nat.div_add_mod]
  rcases lt_or_ge slot offsets.length with old | new
  · rw [getElem?_append_left old] at found
    rw [scatter_of_notMem fun tid _ _ same => ?_]
    · exact stored slot offset found pack small
    · rw [keyEq] at same
      have := Nat.mul_le_mul_right packs (Nat.succ_le_of_lt old)
      rw [Nat.succ_mul] at this
      omega
  · obtain ⟨n, rfl⟩ := Nat.exists_eq_add_of_le new
    rw [getElem?_append_right new, Nat.add_sub_cancel_left, DevWorkBatch.offsets, getElem?_map,
      Option.map_eq_some_iff] at found
    obtain ⟨bit, listed, rfl⟩ := found
    have inside : n < batch.nWorks := by
      rw [nWorks_eq, DevWorkBatch.offsets, length_map]
      exact (List.getElem?_eq_some_iff.mp listed).1
    have writer := digits_lt inside small
    refine scatter_of_mem (fun tid _ _ same => ?_) ⟨n * packs + pack, covered _ writer, writer, ?_⟩
    · rw [keyEq, add_mul, add_assoc] at same
      obtain rfl : tid = n * packs + pack := Nat.add_left_cancel same
      rw [digits_div small, Nat.mul_add_mod_of_lt small, fnsOfBitset_eq batch scratch listed]
    · rw [digits_div small, Nat.mul_add_mod_of_lt small]

/-- Rotated threads are the same threads. -/
theorem rotateThread_covers {tn : Nat} (many : 64 ≤ tn) {tids : List Nat} (covered : ∀ tid < tn, tid ∈ tids) :
    ∀ tid < tn, tid ∈ tids.map (rotateThread tn) := by
  intro tid inside
  by_cases wraps : tid + 64 < tn
  · refine mem_map.mpr ⟨tid + 64, covered _ wraps, ?_⟩
    simp [rotateThread]
  · refine mem_map.mpr ⟨tid + 64 - tn, covered _ (by omega), ?_⟩
    rw [rotateThread, if_pos (by omega)]
    omega

/-- What the threads did to the shared memory before the next batch or the end
of the load. -/
def DevShmem.copied (shmem : DevShmem) (batch : DevWorkBatch) (tids : List Nat) (workCursor : Nat) : DevShmem :=
  { shmem with
    scratch := batch.fnsOfBitset shmem.scratch
    workSize := batch.workType.size
    workStorage := copyPacks batch (batch.fnsOfBitset shmem.scratch) tids workCursor shmem.workStorage }

theorem loadWorkBatchToShmem_succ (found : table[i]? = some batch) (leader : 0 ∈ tids) (fuel tn workCursor : Nat)
    (shmem : DevShmem) :
    loadWorkBatchToShmem (fuel + 1) tids tn table i workCursor shmem =
      if batch.nextExtends then
        loadWorkBatchToShmem fuel (tids.map (rotateThread tn)) tn table (i + batch.nextJump)
          (workCursor + batch.nWorks) (shmem.copied batch tids workCursor)
      else some ((shmem.copied batch tids workCursor).publish batch i (workCursor + batch.nWorks)) := by
  simp only [loadWorkBatchToShmem, found, leader, ↓reduceIte, DevShmem.copied]
  rfl

/-- The published state tells of a fused batch: its kind, the offsets of its
works, and where the channel goes on. -/
structure Loaded (shmem : DevShmem) (last : DevWorkBatch) (offsets : List Nat) (stop : Option Nat) : Prop where
  workType : shmem.workType = last.workType
  funcId : shmem.funcId = last.funcId
  workSize : shmem.workSize = last.workType.size
  nWorks : shmem.nWorks = offsets.length
  nextBatchIx : shmem.nextBatchIx = stop
  stored : Stored (last.workType.size / 16) shmem.workStorage offsets

theorem loaded_publish {shmem : DevShmem} {batch : DevWorkBatch} {tids : List Nat} {offsets : List Nat} {i : Nat}
    (stored : Stored (batch.workType.size / 16) shmem.workStorage offsets)
    (covered : ∀ tid < batch.nWorks * (batch.workType.size / 16), tid ∈ tids) :
    Loaded ((shmem.copied batch tids offsets.length).publish batch i (offsets.length + batch.nWorks)) batch
      (offsets ++ batch.offsets) (if batch.nextJump = 0 then none else some (i + batch.nextJump)) := by
  refine ⟨rfl, rfl, rfl, ?_, rfl, stored.copyPacks batch shmem.scratch covered⟩
  rw [length_append, ← nWorks_eq]
  rfl

/-- Loading a batch and its extensions. The induction is on the extensions; the
works loaded before are kept in `offsets`. -/
theorem load_extensions {table : List DevWorkBatch} {tn : Nat} (many : 64 ≤ tn) {init : List DevWorkBatch}
    {last : DevWorkBatch} {stop : Option Nat} {i : Nat} (walk : Walk table (some i) (init ++ [last]) stop)
    (extended : ∀ batch ∈ init, batch.nextExtends = true) (ends : last.nextExtends = false)
    (sameType : ∀ batch ∈ init, batch.workType = last.workType)
    (fits : ∀ batch ∈ init ++ [last], batch.nWorks * (last.workType.size / 16) ≤ tn) {tids : List Nat}
    (covered : ∀ tid < tn, tid ∈ tids) (shmem : DevShmem) (offsets : List Nat)
    (stored : Stored (last.workType.size / 16) shmem.workStorage offsets) :
    ∃ shmem', (∀ fuel, init.length < fuel →
        loadWorkBatchToShmem fuel tids tn table i offsets.length shmem = some shmem') ∧
      Loaded shmem' last (offsets ++ (init ++ [last]).flatMap DevWorkBatch.offsets) stop := by
  have leader : 0 ∈ tids := covered 0 (by omega)
  induction init generalizing i tids shmem offsets with
  | nil =>
    obtain ⟨_, jump, here, found, later⟩ := walk
    cases here
    cases later
    have loaded := @loaded_publish shmem (last.withJump jump) tids offsets i stored fun tid inside =>
      covered tid (inside.trans_le (fits last (by simp)))
    refine ⟨(shmem.copied (last.withJump jump) tids offsets.length).publish (last.withJump jump) i
      (offsets.length + last.nWorks), fun fuel enough => ?_, ?_⟩
    · cases fuel with
      | zero => cases enough
      | succ =>
        rw [loadWorkBatchToShmem_succ found leader, if_neg (by simp [DevWorkBatch.withJump, ends])]
        rfl
    · rw [nil_append, flatMap_singleton]
      exact { loaded with }
  | cons batch rest ih =>
    obtain ⟨_, jump, here, found, later⟩ := walk
    cases here
    have type := sameType batch mem_cons_self
    have linked : (if jump = 0 then none else some (i + jump)) = some (i + jump) := by
      split
      · cases rest <;> obtain ⟨_, _, ended, -⟩ := later <;> simp_all
      · rfl
    rw [linked] at later
    have copied : Stored (last.workType.size / 16) (shmem.copied (batch.withJump jump) tids offsets.length).workStorage
        (offsets ++ batch.offsets) := by
      rw [← type] at stored ⊢
      refine stored.copyPacks (batch.withJump jump) shmem.scratch fun tid inside => covered tid ?_
      exact inside.trans_le (type ▸ fits batch (by simp))
    obtain ⟨shmem', run, loaded⟩ := ih later (fun other member => extended other (mem_cons_of_mem _ member))
      (fun other member => sameType other (mem_cons_of_mem _ member))
      (fun other member => fits other (mem_cons_of_mem _ member)) (rotateThread_covers many covered) _ _ copied
      (rotateThread_covers many covered 0 (by omega))
    refine ⟨shmem', fun fuel enough => ?_, by simpa using loaded⟩
    cases fuel with
    | zero => cases enough
    | succ fuel =>
      have moved := run fuel (Nat.lt_of_succ_lt_succ enough)
      rw [length_append, ← nWorks_eq] at moved
      have extending : (batch.withJump jump).nextExtends = true := extended batch mem_cons_self
      rw [loadWorkBatchToShmem_succ found leader, if_pos extending]
      exact moved

/-- A slot that is stored whole is read as the work it came from. -/
theorem workAt_eq {shmem : DevShmem} {offsets : List Nat}
    (stored : Stored (shmem.workSize / 16) shmem.workStorage offsets)
    (positive : 0 < shmem.workSize / 16) {slot offset : Nat} (listed : offsets[slot]? = some offset)
    (small : offset < 2 ^ 32) : shmem.workAt slot = some offset := by
  have first := stored slot offset listed 0 positive
  rw [add_zero, zero_mul, add_zero, Nat.mod_eq_of_lt small] at first
  rw [DevShmem.workAt, first, Option.filter_some, if_pos]
  rw [all_eq_true]
  intro pack member
  rw [stored slot offset listed pack (mem_range.mp member), beq_self_eq_true]

/-- What a block does with a fused batch. -/
def FusedBatch.run (fused : FusedBatch) : BatchRun :=
  ⟨fused.last.workType, fused.last.funcId, fused.works.map fun work => some work.workOffset⟩

theorem Loaded.runWorkBatch {fused : FusedBatch} {stop : Option Nat}
    (loaded : Loaded shmem fused.last (fused.works.map WorkCall.workOffset) stop) :
    shmem.runWorkBatch = fused.run := by
  rw [DevShmem.runWorkBatch, loaded.workType, loaded.funcId, loaded.nWorks]
  congr 1
  refine ext_getElem (by simp) fun slot inside inside' => ?_
  rw [length_map] at inside'
  rw [getElem_map, getElem_map, getElem_range]
  have stored := loaded.stored
  rw [← loaded.workSize] at stored
  refine workAt_eq stored (by rw [loaded.workSize]; exact fused.last.workType.packs_pos) ?_ (WorkCall.workOffset_lt _)
  rw [getElem?_map, getElem?_eq_getElem inside', Option.map_some]

/-- A batch names no more works than its group has, and no more than 64. -/
theorem FusedBatch.nWorks_le (fused : FusedBatch) (member : batch ∈ fused.batches) :
    batch.nWorks ≤ fused.works.length ∧ batch.nWorks ≤ 64 := by
  constructor
  · obtain ⟨before, behind, split⟩ := append_of_mem member
    have named := congrArg length fused.named
    rw [← FusedBatch.batches, split, flatMap_append, flatMap_cons, length_map] at named
    rw [nWorks_eq, ← named]
    simp only [length_append]
    omega
  · rw [nWorks_eq, DevWorkBatch.offsets, length_map]
    exact length_setBits_le _ _

/-- The threads that load a batch are enough for all its packs. -/
structure EnoughThreads (fused : FusedBatch) (tn : Nat) : Prop where
  warps : 64 ≤ tn
  bcast : fused.last.workType = .bcast → 192 ≤ tn

theorem EnoughThreads.packs (enough : EnoughThreads fused tn) :
    ∀ batch ∈ fused.batches, batch.nWorks * (fused.last.workType.size / 16) ≤ tn := by
  intro batch member
  obtain ⟨few, narrow⟩ := fused.nWorks_le member
  have warps := enough.warps
  have fits := fused.fits
  cases type : fused.last.workType with
  | bcast =>
    have := enough.bcast type
    simp only [DevWorkType.size]
    omega
  | _ =>
    simp only [type, ne_eq, reduceCtorEq, not_false_eq_true, DevWorkType.size, NCCL_MAX_DEV_WORK_BATCH_BYTES,
      forall_const] at fits ⊢
    omega

theorem load_fused (enough : EnoughThreads fused tn) (walk : Walk table (some i) fused.batches stop)
    (shmem : DevShmem) :
    ∃ shmem', (∀ fuel, fused.init.length < fuel →
        loadWorkBatchToShmem fuel (range tn) tn table i 0 shmem = some shmem') ∧
      shmem'.runWorkBatch = fused.run ∧ shmem'.nextBatchIx = stop := by
  obtain ⟨shmem', run, loaded⟩ := load_extensions enough.warps walk fused.extended fused.ends
    (fun batch member => (fused.sameKind batch (mem_append_left _ member)).1) enough.packs
    (fun tid inside => mem_range.mpr inside) shmem [] (fun slot offset found => by cases found)
  rw [fused.named] at loaded
  exact ⟨shmem', run, loaded.runWorkBatch, loaded.nextBatchIx⟩

/-- The loop of the kernel runs the batches that are left one by one. -/
theorem runBatches_eq {tn : Nat} {left : List FusedBatch} (enough : ∀ fused ∈ left, EnoughThreads fused tn)
    {shmem : DevShmem} (walk : Walk table shmem.nextBatchIx (left.flatMap FusedBatch.batches) none) :
    ∃ bound, ∀ fuel, bound ≤ fuel →
      runBatches fuel tn table shmem = some (shmem.runWorkBatch :: left.map FusedBatch.run) := by
  induction left generalizing shmem with
  | nil =>
    refine ⟨1, fun fuel positive => ?_⟩
    cases fuel with
    | zero => cases positive
    | succ => rw [runBatches, show shmem.nextBatchIx = none from walk]; rfl
  | cons fused left ih =>
    obtain ⟨between, first, later⟩ := walk.of_append
    obtain ⟨i, start⟩ : ∃ i, shmem.nextBatchIx = some i := by
      obtain ⟨batch, rest, shape⟩ := exists_cons_of_ne_nil fused.batches_ne_nil
      rw [shape] at first
      obtain ⟨i, _, start, -⟩ := first
      exact ⟨i, start⟩
    rw [start] at first
    obtain ⟨next, load, run, stop⟩ := load_fused (enough fused mem_cons_self) first shmem
    rw [← stop] at later
    obtain ⟨bound, ran⟩ := ih (fun other member => enough other (mem_cons_of_mem _ member)) later
    refine ⟨max bound (fused.init.length + 1) + 1, fun fuel positive => ?_⟩
    cases fuel with
    | zero => cases positive
    | succ fuel =>
      have fuelLeft := Nat.le_of_succ_le_succ positive
      rw [runBatches, start]
      dsimp only
      rw [load fuel (Nat.lt_of_succ_le ((le_max_right _ _).trans fuelLeft)), Option.bind_eq_bind, Option.bind_some,
        ran fuel ((le_max_left _ _).trans fuelLeft), run]
      rfl

theorem blockChannelId_eq (isNth : (setBits 64 channelMask)[n]? = some c) :
    blockChannelId channelMask n = some c := by
  obtain ⟨below, one⟩ := mem_setBits.mp (mem_of_getElem? isNth)
  have place : ∀ tid < 64, channelMask.testBit tid = true →
      (popcount 64 (channelMask &&& (2 ^ tid - 1)) = n ↔ tid = c) := by
    intro tid inside isOne
    rw [popcount, setBits_mask inside.le]
    have found := setBits_getElem? inside isOne
    constructor
    · rintro rfl
      exact Option.some.inj (found.symm.trans isNth)
    · rintro rfl
      obtain ⟨small, -⟩ := List.getElem?_eq_some_iff.mp found
      exact (getElem?_inj small (setBits_nodup 64 channelMask)).mp (found.trans isNth.symm)
  rw [blockChannelId, find?_eq_some_iff_getElem]
  refine ⟨?_, c, by rwa [length_range], getElem_range _, fun tid earlier => ?_⟩
  · rw [one, (place c below one).mpr rfl, beq_self_eq_true, Bool.and_true]
  · have inside : tid < 64 := earlier.trans below
    rw [getElem_range]
    by_cases isOne : channelMask.testBit tid = true
    · rw [isOne, beq_eq_false_iff_ne.mpr (mt (place tid inside isOne).mp earlier.ne)]
      rfl
    · rw [Bool.eq_false_iff.mpr isOne]
      rfl

theorem testBit_channelMaskOf (calls : List WorkCall) (c : Nat) :
    (channelMaskOf calls).testBit c = true ↔ ∃ call ∈ calls, call.channelId = c := by
  induction calls using reverseRecOn with
  | nil => simp [channelMaskOf]
  | append_singleton calls call ih =>
    rw [channelMaskOf, foldl_append, ← channelMaskOf, foldl_cons, foldl_nil, Nat.testBit_or,
      Bool.or_eq_true, ih, Nat.testBit_two_pow, decide_eq_true_eq]
    constructor
    · rintro (⟨old, member, here⟩ | here)
      · exact ⟨old, mem_append_left _ member, here⟩
      · exact ⟨call, by simp, here⟩
    · rintro ⟨old, member, here⟩
      rcases mem_append.mp member with early | new
      · exact .inl ⟨old, early, here⟩
      · exact .inr (mem_singleton.mp new ▸ here)

theorem channelMaskOf_lt (calls : List WorkCall) : channelMaskOf calls < 2 ^ 64 := by
  refine Nat.lt_pow_two_of_testBit _ fun c large => ?_
  rw [Bool.eq_false_iff]
  intro one
  obtain ⟨call, -, rfl⟩ := (testBit_channelMaskOf calls c).mp one
  have := call.channel_lt
  rw [MAXCHANNELS] at this
  omega

theorem ChannelOf.unlinked (channel : ChannelOf config chan fused) :
    ∀ batch ∈ chan.workBatchQueue, batch.nextJump = 0 := by
  intro batch member
  rw [channel.queue] at member
  obtain ⟨group, -, inGroup⟩ := mem_flatMap.mp member
  exact group.unlinked batch inGroup

theorem ChannelOf.queue_ne_nil (channel : ChannelOf config chan fused) :
    chan.workBatchQueue ≠ [] ↔ fused.flatMap FusedBatch.works ≠ [] := by
  rw [channel.queue]
  cases fused with
  | nil => simp
  | cons first rest => simp [first.batches_ne_nil, first.works_ne_nil]

/-- The block of the n-th channel runs that channel's fused batches in order. -/
theorem ncclKernelMain_eq (args : KernelArgs) {n c : Nat} (isNth : (setBits 64 args.channelMask)[n]? = some c)
    {fused : List FusedBatch} (some_work : fused ≠ [])
    (walk : Walk args.batchZero (some n) (fused.flatMap FusedBatch.batches) none)
    (threads : ∀ batch ∈ fused, EnoughThreads batch (args.threadPerBlock - 64)) (shmem : DevShmem) :
    ∃ bound, ∀ fuel, bound ≤ fuel → ncclKernelMain fuel args n shmem = some (c, fused.map FusedBatch.run) := by
  obtain ⟨first, left, rfl⟩ := exists_cons_of_ne_nil some_work
  obtain ⟨between, start, later⟩ := walk.of_append
  obtain ⟨loaded, load, run, stop⟩ := load_fused (threads first mem_cons_self) start shmem
  rw [← stop] at later
  have allThreads : ∀ batch ∈ left, EnoughThreads batch args.threadPerBlock := by
    intro batch member
    obtain ⟨warps, bcast⟩ := threads batch (mem_cons_of_mem _ member)
    exact ⟨by omega, fun isBcast => (bcast isBcast).trans (Nat.sub_le _ _)⟩
  obtain ⟨bound, ran⟩ := runBatches_eq allThreads later
  refine ⟨max bound (first.init.length + 1), fun fuel enough => ?_⟩
  rw [ncclKernelMain, blockChannelId_eq isNth, Option.bind_eq_bind, Option.bind_some]
  dsimp only
  rw [load fuel (Nat.lt_of_succ_le ((le_max_right _ _).trans enough)), Option.bind_eq_bind, Option.bind_some,
    ran fuel ((le_max_left _ _).trans enough), run]
  rfl

theorem fused_runs (fused : List FusedBatch) :
    (fused.map FusedBatch.run).flatMap (fun run => run.works.map fun work => (work, run.workType, run.funcId)) =
      (fused.flatMap FusedBatch.works).map fun call => (some call.workOffset, call.workType, call.devFuncId) := by
  induction fused with
  | nil => rfl
  | cons first rest ih =>
    rw [map_cons, flatMap_cons, flatMap_cons, map_append, ih, FusedBatch.run, map_map]
    refine congrArg (· ++ _) (map_congr_left fun work member => ?_)
    obtain ⟨type, func⟩ := first.worksKind work member
    rw [Function.comp_apply, type, func]

/-- A plan with broadcasts has the threads that load the works of a batch at
once. -/
theorem le_threads {tasks : List PlanTask} (enough : 288 ≤ threads ∨ ∃ nWarps, .bcast nWarps ∈ tasks) :
    288 ≤ tasks.foldl PlanTask.threads threads := by
  induction tasks generalizing threads with
  | nil => simpa using enough
  | cons task rest ih =>
    refine ih ?_
    cases task with
    | bcast => exact .inl (le_max_right _ _)
    | coll | p2p =>
      refine enough.imp (fun enough => enough.trans (le_max_left _ _)) ?_
      rintro ⟨nWarps, member⟩
      exact ⟨nWarps, by simpa using member⟩

/-- The table the host hands to the kernel names the works of every channel
exactly: the block of the n-th channel of the mask runs the works that were
added for this channel, each once and in the order of adding, under their type
and function, and then its walk ends. The threads are those the tasks of the
plan ask for, with `ncclScheduleBcastTasksToPlan` among them where there are
broadcasts. -/
theorem work_batches_round_trip (config : BatchConfig) (calls : List WorkCall) (tasks : List PlanTask)
    (increasing : OffsetsIncrease calls)
    (scheduled : ∀ call ∈ calls, call.workType = .bcast → ∃ nWarps, .bcast nWarps ∈ tasks) :
    ∃ args bound,
      (∀ rounds, bound ≤ rounds →
        finishPlan rounds (tasks.foldl PlanTask.threads 0) (channelMaskOf calls) (addWorks config calls) = some args) ∧
      ∀ n c, (setBits 64 (channelMaskOf calls))[n]? = some c → ∀ shmem, ∃ runs steps,
        (∀ fuel, steps ≤ fuel → ncclKernelMain fuel args n shmem = some (c, runs)) ∧
        runs.flatMap (fun run => run.works.map fun work => (work, run.workType, run.funcId)) =
          (calls.filter (·.channelId = c)).map fun call => (some call.workOffset, call.workType, call.devFuncId) := by
  have bcastThreads : ∀ call ∈ calls, call.workType = .bcast → 288 ≤ tasks.foldl PlanTask.threads 0 :=
    fun call member isBcast => le_threads (.inr (scheduled call member isBcast))
  generalize tasks.foldl PlanTask.threads 0 = threadPerBlock at *
  have channels := addWorks_fused config increasing
  have masked : ∀ c, (channelMaskOf calls).testBit c = true ↔
      ((addWorks config calls).channels c).workBatchQueue ≠ [] := by
    intro c
    obtain ⟨fused, channel, works⟩ := channels c
    rw [testBit_channelMaskOf, channel.queue_ne_nil, works]
    simp
  obtain ⟨table, bound, finished, walks⟩ := finishPlan_walk (addWorks config calls) threadPerBlock
    (channelMaskOf_lt calls) (fun c => (channels c).choose_spec.1.unlinked) masked
  refine ⟨⟨max threadPerBlock NCCL_MIN_NTHREADS, channelMaskOf calls, table⟩, bound, finished, fun n c isNth shmem => ?_⟩
  obtain ⟨fused, channel, works⟩ := channels c
  have walk := walks n c isNth
  rw [channel.queue] at walk
  have threads : ∀ batch ∈ fused, EnoughThreads batch (max threadPerBlock NCCL_MIN_NTHREADS - 64) := by
    intro batch member
    rw [NCCL_MIN_NTHREADS]
    refine ⟨by omega, fun isBcast => ?_⟩
    obtain ⟨work, workMember⟩ := exists_mem_of_ne_nil _ batch.works_ne_nil
    have inCalls : work ∈ calls.filter (·.channelId = c) := by
      rw [← works]
      exact mem_flatMap.mpr ⟨batch, member, workMember⟩
    have := bcastThreads work (mem_filter.mp inCalls).1 ((batch.worksKind work workMember).1.trans isBcast)
    omega
  have some_work : fused ≠ [] := by
    rintro rfl
    have waiting := (masked c).mp (mem_setBits.mp (mem_of_getElem? isNth)).2
    exact waiting (channel.queue.trans rfl)
  obtain ⟨steps, ran⟩ := ncclKernelMain_eq ⟨max threadPerBlock NCCL_MIN_NTHREADS, channelMaskOf calls, table⟩
    isNth some_work walk threads shmem
  exact ⟨fused.map FusedBatch.run, steps, ran, by rw [fused_runs, works]⟩

/-- Sends on channel 3, the second out of the first one's reach, around a
broadcast on channel 1. -/
def sampleCalls : List WorkCall :=
  [⟨3, .p2p, 7, 0, 16, 0, 0, by decide, by decide, by decide, by decide, by decide⟩,
   ⟨1, .bcast, 2, 1, 64, -1, -1, by decide, by decide, by decide, by decide, by decide⟩,
   ⟨3, .p2p, 7, 0, 4096, 0, 1, by decide, by decide, by decide, by decide, by decide⟩]

theorem work_batches_round_trip_sample :
    ∃ args bound, finishPlan bound 640 (channelMaskOf sampleCalls) (addWorks ⟨true, 900⟩ sampleCalls) = some args ∧
      ∀ shmem, ∃ runs steps, ncclKernelMain steps args 1 shmem = some (3, runs) ∧
        runs.flatMap (fun run => run.works.map fun work => (work, run.workType, run.funcId)) =
          [(some 16, .p2p, 7), (some 4096, .p2p, 7)] := by
  obtain ⟨args, bound, finished, run⟩ := work_batches_round_trip ⟨true, 900⟩ sampleCalls
    [.bcast 4, .p2p] (by simp [OffsetsIncrease, sampleCalls]) fun _ _ _ => ⟨4, by simp⟩
  refine ⟨args, bound, finished bound le_rfl, fun shmem => ?_⟩
  obtain ⟨runs, steps, ran, works⟩ := run 1 3 (by decide) shmem
  exact ⟨runs, steps, ran steps le_rfl, works⟩

end NcclCore
