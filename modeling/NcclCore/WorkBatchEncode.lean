import NcclCore.WorkBatch
import NcclCore.Lib.Greedy

/-! The queue of a channel as fused batches. A fused batch is what the device
loads at once: a batch with its extensions. Adding works groups them greedily,
by conditions on the works alone, and every fused batch names exactly the works
of its group, in their order. -/
namespace NcclCore
open Lib List DevWorkBatch

/-- The offsets a batch names. -/
def DevWorkBatch.offsets (batch : DevWorkBatch) : List Nat :=
  (setBits 64 batch.offsetBitset).map fun bit => batch.offsetBase + bit * batch.workType.size

/-- A batch with its extensions and the works they name. -/
structure FusedBatch where
  init : List DevWorkBatch
  last : DevWorkBatch
  works : List WorkCall
  extended : ∀ batch ∈ init, batch.nextExtends = true
  ends : last.nextExtends = false
  based : last.offsetBitset.testBit 0 = true
  narrow : ∀ batch ∈ init ++ [last], batch.offsetBitset < 2 ^ 64
  unlinked : ∀ batch ∈ init ++ [last], batch.nextJump = 0
  sameKind : ∀ batch ∈ init ++ [last], batch.workType = last.workType ∧ batch.funcId = last.funcId
  worksKind : ∀ work ∈ works, work.workType = last.workType ∧ work.devFuncId = last.funcId
  named : (init ++ [last]).flatMap offsets = works.map WorkCall.workOffset
  fits : last.workType ≠ .bcast → works.length * last.workType.size ≤ NCCL_MAX_DEV_WORK_BATCH_BYTES

def FusedBatch.batches (fused : FusedBatch) : List DevWorkBatch := fused.init ++ [fused.last]

/-- What must hold of the works of a group for one more to be fused with them. -/
structure Joins (config : BatchConfig) (group : List WorkCall) (call : WorkCall) : Prop where
  sameKind : ∀ work ∈ group, work.workType = call.workType ∧ work.devFuncId = call.devFuncId
  epoch : call.workType = .p2p → config.p2pEpochEnable = true → ∀ work ∈ group, work.p2pEpoch = call.p2pEpoch
  room : call.workType = .p2p → group.length ≠ NCCL_MAX_DEV_WORK_P2P_PER_BATCH
  rounds : call.workType = .p2p → ∀ work ∈ group, call.p2pRound ≠ work.p2pRound ∧
    call.p2pRound.tdiv NCCL_MAX_DEV_WORK_P2P_PER_BATCH = work.p2pRound.tdiv NCCL_MAX_DEV_WORK_P2P_PER_BATCH
  bcasts : call.workType = .bcast →
    group.length ≠ ncclMaxDevWorkBatchBytes config.cudaArch / DevWorkType.bcast.size
  bytes : call.workType ≠ .bcast →
    group.length * call.workType.size + call.workType.size ≤ NCCL_MAX_DEV_WORK_BATCH_BYTES

/-- Works of one type and function and, if they are p2p works, of one epoch. -/
structure Uniform (config : BatchConfig) (group : List WorkCall) : Prop where
  kind : ∀ work ∈ group, ∀ other ∈ group, work.workType = other.workType ∧ work.devFuncId = other.devFuncId
  epoch : config.p2pEpochEnable = true → ∀ work ∈ group, work.workType = .p2p →
    ∀ other ∈ group, work.p2pEpoch = other.p2pEpoch

variable {config : BatchConfig} {call : WorkCall}

theorem Uniform.concat (uniform : Uniform config group) (joins : Joins config group call) :
    Uniform config (group ++ [call]) := by
  constructor
  · simp only [mem_append, mem_singleton]
    rintro work (old | rfl) other (old' | rfl)
    · exact uniform.kind work old other old'
    · exact joins.sameKind work old
    · exact ⟨(joins.sameKind other old').1.symm, (joins.sameKind other old').2.symm⟩
    · exact ⟨rfl, rfl⟩
  · simp only [mem_append, mem_singleton]
    rintro enabled work (old | rfl) isP2p other (old' | rfl)
    · exact uniform.epoch enabled work old isP2p other old'
    · exact joins.epoch ((joins.sameKind work old).1.symm.trans isP2p) enabled work old
    · exact (joins.epoch isP2p enabled other old').symm
    · rfl

/-- The counters of the batch being filled, told by its works. -/
structure WipOf (wipBatch : WipBatch) (group : List WorkCall) : Prop where
  workBytes : wipBatch.workBytes = (group.map (·.workType.size)).sum
  nBcasts : wipBatch.nBcasts = (group.filter (·.workType == .bcast)).length
  p2pRounds : wipBatch.p2pRounds = (group.filter (·.workType == .p2p)).map (·.p2pRound)
  p2pEpoch : ∀ call, group.getLast? = some call → call.workType = .p2p → wipBatch.p2pEpoch = call.p2pEpoch

theorem WipOf.count (wip : WipOf wipBatch group) (call : WorkCall) :
    WipOf (wipBatch.count call) (group ++ [call]) := by
  constructor
  · simp [WipBatch.count, wip.workBytes]
  · by_cases isBcast : call.workType = .bcast <;> simp [WipBatch.count, wip.nBcasts, isBcast]
  · by_cases isP2p : call.workType = .p2p <;> simp [WipBatch.count, wip.p2pRounds, isP2p]
  · intro last isLast isP2p
    obtain rfl : call = last := by simpa using isLast
    simp [WipBatch.count, isP2p]

/-- The conditions of `needsNewBatch`, one by one. -/
theorem needsNewBatch_eq_false : needsNewBatch config wipBatch batch call = false ↔
    (batch.workType = call.workType ∧ batch.funcId = call.devFuncId) ∧
    (call.workType = .p2p → (config.p2pEpochEnable = true → wipBatch.p2pEpoch = call.p2pEpoch) ∧
      wipBatch.p2pRounds.length ≠ NCCL_MAX_DEV_WORK_P2P_PER_BATCH ∧
      ∀ round ∈ wipBatch.p2pRounds, call.p2pRound ≠ round ∧
        call.p2pRound.tdiv NCCL_MAX_DEV_WORK_P2P_PER_BATCH = round.tdiv NCCL_MAX_DEV_WORK_P2P_PER_BATCH) ∧
    (call.workType = .bcast →
      wipBatch.nBcasts ≠ ncclMaxDevWorkBatchBytes config.cudaArch / DevWorkType.bcast.size) ∧
    (call.workType ≠ .bcast → wipBatch.workBytes + call.workType.size ≤ NCCL_MAX_DEV_WORK_BATCH_BYTES) := by
  cases type : call.workType <;> simp [needsNewBatch, type, WipBatch.nP2ps, and_assoc]

/-- The counters decide exactly whether a work joins a uniform group. -/
theorem needsNewBatch_iff {fused : FusedBatch} (call : WorkCall)
    (wip : WipOf wipBatch fused.works) (uniform : Uniform config fused.works) (nonempty : fused.works ≠ []) :
    needsNewBatch config wipBatch fused.last call = false ↔ Joins config fused.works call := by
  obtain ⟨lastWork, isLast⟩ : ∃ lastWork, fused.works.getLast? = some lastWork :=
    ⟨_, getLast?_eq_some_getLast nonempty⟩
  have lastMember := mem_of_getLast? isLast
  have kindIff : (∀ work ∈ fused.works, work.workType = call.workType ∧ work.devFuncId = call.devFuncId) ↔
      fused.last.workType = call.workType ∧ fused.last.funcId = call.devFuncId := by
    refine ⟨fun same => ?_, fun same work member => ?_⟩
    · rw [← (fused.worksKind lastWork lastMember).1, ← (fused.worksKind lastWork lastMember).2]
      exact same lastWork lastMember
    · rw [(fused.worksKind work member).1, (fused.worksKind work member).2]
      exact same
  rw [needsNewBatch_eq_false]
  -- the counters tell about the works as soon as these are of the call's type
  have told : (∀ work ∈ fused.works, work.workType = call.workType) →
      wipBatch.workBytes = fused.works.length * call.workType.size ∧
      (call.workType = .bcast → wipBatch.nBcasts = fused.works.length) ∧
      (call.workType = .p2p → wipBatch.p2pRounds = fused.works.map (·.p2pRound) ∧
        (config.p2pEpochEnable = true →
          (wipBatch.p2pEpoch = call.p2pEpoch ↔ ∀ work ∈ fused.works, work.p2pEpoch = call.p2pEpoch))) := by
    intro type
    refine ⟨?_, fun isBcast => ?_, fun isP2p => ⟨?_, fun enabled => ?_⟩⟩
    · rw [wip.workBytes, map_congr_left fun work member => congrArg DevWorkType.size (type work member)]
      simp
    · rw [wip.nBcasts, filter_eq_self.mpr fun work member => by simp [type work member, isBcast]]
    · rw [wip.p2pRounds, filter_eq_self.mpr fun work member => by simp [type work member, isP2p]]
    · rw [wip.p2pEpoch lastWork isLast ((type lastWork lastMember).trans isP2p)]
      refine ⟨fun same work member => ?_, fun all => all lastWork lastMember⟩
      rw [uniform.epoch enabled work member ((type work member).trans isP2p) lastWork lastMember, same]
  constructor
  · rintro ⟨kind, p2p, bcasts, bytes⟩
    have same := kindIff.mpr kind
    obtain ⟨workBytes, nBcasts, p2pWip⟩ := told fun work member => (same work member).1
    refine ⟨same, fun isP2p enabled => ?_, fun isP2p => ?_, fun isP2p work member => ?_, fun isBcast => ?_,
      fun other => ?_⟩
    · exact ((p2pWip isP2p).2 enabled).mp ((p2p isP2p).1 enabled)
    · simpa [(p2pWip isP2p).1] using (p2p isP2p).2.1
    · exact (p2p isP2p).2.2 _ (by rw [(p2pWip isP2p).1]; exact mem_map_of_mem member)
    · exact nBcasts isBcast ▸ bcasts isBcast
    · exact workBytes ▸ bytes other
  · intro joins
    obtain ⟨workBytes, nBcasts, p2pWip⟩ := told fun work member => (joins.sameKind work member).1
    refine ⟨kindIff.mp joins.sameKind, fun isP2p => ⟨fun enabled => ?_, ?_, ?_⟩, fun isBcast => ?_, fun other => ?_⟩
    · exact ((p2pWip isP2p).2 enabled).mpr (joins.epoch isP2p enabled)
    · simpa [(p2pWip isP2p).1] using joins.room isP2p
    · rw [(p2pWip isP2p).1]
      simpa using joins.rounds isP2p
    · rw [nBcasts isBcast]
      exact joins.bcasts isBcast
    · rw [workBytes]
      exact joins.bytes other

section
variable (call : WorkCall)

/-- The batch a work gets that cannot be named by the tail of the queue. -/
def freshBatch : DevWorkBatch := (blankBatch call).addOffset 0 call.workType.size

theorem freshBatch_bitset : (freshBatch call).offsetBitset = 1 := by
  simp [freshBatch, blankBatch, addOffset]

theorem freshBatch_offsets : (freshBatch call).offsets = [call.workOffset] := by
  have bits : setBits 64 1 = [0] := by decide
  rw [offsets, freshBatch_bitset, bits]
  simp [freshBatch, blankBatch, addOffset]

theorem freshBatch_funcId : (freshBatch call).funcId = call.devFuncId :=
  Nat.mod_eq_of_lt call.devFuncId_lt

end

theorem DevWorkType.size_pos (type : DevWorkType) : 0 < type.size := by cases type <;> decide

theorem DevWorkType.size_le (type : DevWorkType) : type.size ≤ NCCL_MAX_DEV_WORK_BATCH_BYTES := by
  cases type <;> decide

namespace FusedBatch

theorem batches_ne_nil (fused : FusedBatch) : fused.batches ≠ [] := concat_ne_nil _ _

/-- A work that starts a batch. -/
def single (call : WorkCall) : FusedBatch where
  init := []
  last := freshBatch call
  works := [call]
  extended := by simp
  ends := rfl
  based := by simp [freshBatch_bitset]
  narrow := by simp [freshBatch_bitset]
  unlinked := by simp [freshBatch, blankBatch, addOffset]
  sameKind := by simp
  worksKind := by
    intro work member
    rw [mem_singleton.mp member, freshBatch_funcId]
    exact ⟨rfl, rfl⟩
  named := by simp [freshBatch_offsets]
  fits := by
    intro _
    simpa using DevWorkType.size_le _

variable {config : BatchConfig} (fused : FusedBatch) (call : WorkCall)

section
variable (joins : Joins config fused.works call)
include joins

private theorem joined_kind (nonempty : fused.works ≠ []) :
    fused.last.workType = call.workType ∧ fused.last.funcId = call.devFuncId := by
  obtain ⟨work, member⟩ := exists_mem_of_ne_nil _ nonempty
  rw [← (fused.worksKind work member).1, ← (fused.worksKind work member).2]
  exact joins.sameKind work member

private theorem joined_fits (other : call.workType ≠ .bcast) :
    (fused.works ++ [call]).length * call.workType.size ≤ NCCL_MAX_DEV_WORK_BATCH_BYTES := by
  rw [length_append, length_singleton, Nat.succ_mul]
  exact joins.bytes other

private theorem joined_worksKind :
    ∀ work ∈ fused.works ++ [call], work.workType = call.workType ∧ work.devFuncId = call.devFuncId := by
  intro work member
  rcases mem_append.mp member with old | new
  · exact joins.sameKind work old
  · rw [mem_singleton.mp new]
    exact ⟨rfl, rfl⟩

end

theorem works_ne_nil : fused.works ≠ [] := by
  intro empty
  have named := fused.named
  have zero : 0 ∈ setBits 64 fused.last.offsetBitset := mem_setBits.mpr ⟨by decide, fused.based⟩
  simp only [empty, map_nil, flatMap_append, flatMap_singleton, append_eq_nil_iff, offsets, map_eq_nil_iff] at named
  rw [named.2] at zero
  cases zero

/-- A work whose offset is out of the tail's reach is named by an extension. -/
def extendBy (joins : Joins config fused.works call) : FusedBatch where
  init := fused.init ++ [{ fused.last with nextExtends := true }]
  last := freshBatch call
  works := fused.works ++ [call]
  extended := by
    intro batch member
    rcases mem_append.mp member with old | new
    · exact fused.extended batch old
    · rw [mem_singleton.mp new]
  ends := rfl
  based := by simp [freshBatch_bitset]
  narrow := by
    have narrow := fused.narrow
    simp only [mem_append, mem_singleton, or_imp, forall_and, forall_eq] at narrow ⊢
    exact ⟨narrow, by simp [freshBatch_bitset]⟩
  unlinked := by
    have unlinked := fused.unlinked
    simp only [mem_append, mem_singleton, or_imp, forall_and, forall_eq] at unlinked ⊢
    exact ⟨unlinked, rfl⟩
  sameKind := by
    obtain ⟨type, func⟩ := fused.joined_kind call joins fused.works_ne_nil
    have sameKind := fused.sameKind
    rw [freshBatch_funcId]
    simp only [mem_append, mem_singleton, or_imp, forall_and, forall_eq, type, func] at sameKind ⊢
    exact ⟨⟨⟨sameKind.1.1, rfl⟩, trivial⟩, ⟨sameKind.2.1, trivial⟩, freshBatch_funcId call⟩
  worksKind := by
    rw [freshBatch_funcId]
    exact fused.joined_worksKind call joins
  named := by
    have named := fused.named
    simp only [flatMap_append, flatMap_singleton, map_append, map_singleton] at named ⊢
    rw [freshBatch_offsets, ← named]
    rfl
  fits := fun other => fused.joined_fits call joins other

variable {fused call}

section
variable (above : ∀ work ∈ fused.works, work.workOffset < call.workOffset)
include above

/-- The works of the tail lie below a later work, its base included. -/
private theorem last_offsets_lt : ∀ offset ∈ fused.last.offsets, offset < call.workOffset := by
  intro offset member
  have named : offset ∈ fused.works.map WorkCall.workOffset := by
    rw [← fused.named, flatMap_append, flatMap_singleton]
    exact mem_append_right _ member
  obtain ⟨work, workMember, rfl⟩ := mem_map.mp named
  exact above work workMember

theorem offsetBase_lt : fused.last.offsetBase < call.workOffset := by
  refine last_offsets_lt above _ (mem_map.mpr ⟨0, mem_setBits.mpr ⟨by decide, fused.based⟩, ?_⟩)
  rw [zero_mul, add_zero]

/-- The offset `ncclAddWorkBatchToPlan` computes does not wrap. -/
theorem relative_offset :
    (call.workOffset + (2 ^ 32 - fused.last.offsetBase)) % 2 ^ 32 = call.workOffset - fused.last.offsetBase := by
  have base := offsetBase_lt above
  have bound := call.workOffset_lt
  rw [show call.workOffset + (2 ^ 32 - fused.last.offsetBase) =
    call.workOffset - fused.last.offsetBase + 2 ^ 32 by omega, Nat.add_mod_right]
  exact Nat.mod_eq_of_lt (by omega)

/-- In reach of the tail, the work is named by the next higher bit. -/
private theorem addOffset_offsets (type : fused.last.workType = call.workType)
    (near : needsExtension (call.workOffset - fused.last.offsetBase) call.workType.size = false) :
    (call.workOffset - fused.last.offsetBase) / call.workType.size < 64 ∧
      (fused.last.addOffset (call.workOffset - fused.last.offsetBase) call.workType.size).offsets =
        fused.last.offsets ++ [call.workOffset] := by
  have base := offsetBase_lt above
  simp only [needsExtension, Bool.or_eq_false_iff, decide_eq_false_iff_not, not_lt, bne_eq_false_iff_eq] at near
  obtain ⟨reach, whole⟩ := near
  have exact_offset := Nat.div_mul_cancel (Nat.dvd_of_mod_eq_zero whole)
  have small : (call.workOffset - fused.last.offsetBase) / call.workType.size < 64 :=
    Nat.lt_succ_of_le (Nat.div_le_of_le_mul (by rwa [mul_comm]))
  refine ⟨small, ?_⟩
  have top : ∀ bit ∈ setBits 64 fused.last.offsetBitset,
      bit < (call.workOffset - fused.last.offsetBase) / call.workType.size := by
    intro bit member
    have lower := last_offsets_lt above _ (mem_map_of_mem member)
    rw [type] at lower
    refine Nat.lt_of_mul_lt_mul_right (a := call.workType.size) ?_
    omega
  rw [offsets, addOffset, setBits_or_top small top, map_append, map_singleton]
  simp only [type, exact_offset]
  rw [Nat.add_sub_cancel' base.le, offsets, type]

end

/-- A work in reach of the tail is named by it. -/
def nameBy (joins : Joins config fused.works call)
    (above : ∀ work ∈ fused.works, work.workOffset < call.workOffset)
    (near : needsExtension (call.workOffset - fused.last.offsetBase) call.workType.size = false) : FusedBatch where
  init := fused.init
  last := fused.last.addOffset (call.workOffset - fused.last.offsetBase) call.workType.size
  works := fused.works ++ [call]
  extended := fused.extended
  ends := fused.ends
  based := by
    rw [addOffset, Nat.testBit_or, fused.based, Bool.true_or]
  narrow := by
    have narrow := fused.narrow
    have small := (addOffset_offsets above (fused.joined_kind call joins fused.works_ne_nil).1 near).1
    simp only [mem_append, mem_singleton, or_imp, forall_and, forall_eq] at narrow ⊢
    exact ⟨narrow.1, Nat.or_lt_two_pow narrow.2 (Nat.pow_lt_pow_right (by decide) small)⟩
  unlinked := by
    simpa [addOffset, or_imp, forall_and] using fused.unlinked
  sameKind := by
    simpa [addOffset, or_imp, forall_and] using fused.sameKind
  worksKind := by
    obtain ⟨type, func⟩ := fused.joined_kind call joins fused.works_ne_nil
    rw [addOffset, type, func]
    exact fused.joined_worksKind call joins
  named := by
    have named := fused.named
    have offsets := (addOffset_offsets above (fused.joined_kind call joins fused.works_ne_nil).1 near).2
    simp only [flatMap_append, flatMap_singleton, map_append, map_singleton] at named ⊢
    rw [offsets, ← named, append_assoc]
  fits := by
    rw [addOffset, (fused.joined_kind call joins fused.works_ne_nil).1]
    exact fused.joined_fits call joins

end FusedBatch

/-- The queue of a channel holds these fused batches, the last of which is being
filled. -/
structure ChannelOf (config : BatchConfig) (chan : WipChannel) (fused : List FusedBatch) : Prop where
  queue : chan.workBatchQueue = fused.flatMap FusedBatch.batches
  wip : ∀ last, fused.getLast? = some last → WipOf chan.wipBatch last.works
  greedy : Greedy (Joins config) (fused.map FusedBatch.works)

theorem ChannelOf.uniform (channel : ChannelOf config chan fused) : ∀ batch ∈ fused, Uniform config batch.works := by
  intro batch member
  exact channel.greedy.all (fun _ => by constructor <;> simp) (fun _ _ uniform joins => uniform.concat joins) _
    (mem_map_of_mem member)

theorem ChannelOf.tail (channel : ChannelOf config chan (before ++ [last])) :
    chan.workBatchQueue.getLast? = some last.last ∧
      chan.workBatchQueue.dropLast = before.flatMap FusedBatch.batches ++ last.init := by
  have queue : chan.workBatchQueue = before.flatMap FusedBatch.batches ++ last.init ++ [last.last] := by
    rw [channel.queue, flatMap_append, flatMap_singleton, FusedBatch.batches, append_assoc]
  rw [queue]
  exact ⟨getLast?_concat, dropLast_concat⟩

/-- The tail takes a work exactly if its group does. -/
theorem ChannelOf.openTail_eq (channel : ChannelOf config chan fused) (call : WorkCall) :
    (chan.openTail config call = none ∧ ∀ last, fused.getLast? = some last → ¬ Joins config last.works call) ∨
      ∃ before last, fused = before ++ [last] ∧ Joins config last.works call ∧
        chan.openTail config call = some last.last := by
  rcases eq_nil_or_concat fused with rfl | ⟨before, last, rfl⟩
  · refine .inl ⟨?_, by simp⟩
    simp [WipChannel.openTail, channel.queue]
  · rw [concat_eq_append] at channel ⊢
    have decided := needsNewBatch_iff call (channel.wip last getLast?_concat) (channel.uniform last (by simp))
      last.works_ne_nil
    rw [WipChannel.openTail, channel.tail.1, Option.filter_some]
    by_cases joins : Joins config last.works call
    · refine .inr ⟨before, last, rfl, joins, ?_⟩
      rw [decided.mpr joins]
      rfl
    · refine .inl ⟨?_, fun other isLast => ?_⟩
      · rw [Bool.eq_true_of_not_eq_false (mt decided.mp joins)]
        rfl
      · obtain rfl : last = other := by simpa using isLast
        exact joins

/-- One more work: it is fused with the last group or starts a group. -/
theorem ChannelOf.addWork (channel : ChannelOf config chan fused)
    (above : ∀ batch ∈ fused, ∀ work ∈ batch.works, work.workOffset < call.workOffset) :
    ∃ fused', ChannelOf config (chan.addWork config call).1 fused' ∧
      fused'.flatMap FusedBatch.works = fused.flatMap FusedBatch.works ++ [call] := by
  rcases channel.openTail_eq call with ⟨closed, refused⟩ | ⟨before, last, rfl, joins, isOpen⟩
  · refine ⟨fused ++ [.single call], ⟨?_, ?_, ?_⟩, by simp [FusedBatch.single]⟩
    · simp [WipChannel.addWork, closed, WipChannel.openBatch, channel.queue, FusedBatch.batches, FusedBatch.single,
        freshBatch]
    · intro last isLast
      obtain rfl : FusedBatch.single call = last := by simpa using isLast
      have blank : WipOf (chan.openBatch call).wipBatch [] := ⟨rfl, rfl, rfl, by simp⟩
      simpa [WipChannel.addWork, closed, FusedBatch.single] using blank.count call
    · rw [map_append]
      refine channel.greedy.start fun group isLast => ?_
      rw [getLast?_map, Option.map_eq_some_iff] at isLast
      obtain ⟨last, isLast, rfl⟩ := isLast
      exact refused last isLast
  · have below := above last (by simp)
    have greedy := channel.greedy
    have wip := (channel.wip last getLast?_concat).count call
    rw [map_append] at greedy
    obtain ⟨added, named, sum⟩ : ∃ added : FusedBatch, added.works = last.works ++ [call] ∧
        (chan.addWork config call).1.workBatchQueue = before.flatMap FusedBatch.batches ++ added.batches ∧
        (chan.addWork config call).1.wipBatch = chan.wipBatch.count call := by
      simp only [WipChannel.addWork, isOpen, channel.tail.2, FusedBatch.relative_offset below]
      by_cases near : needsExtension (call.workOffset - last.last.offsetBase) call.workType.size = false
      · refine ⟨.nameBy joins below near, rfl, ?_, ?_⟩ <;> simp [near, FusedBatch.batches, FusedBatch.nameBy]
      · refine ⟨last.extendBy call joins, rfl, ?_, ?_⟩ <;>
          simp [Bool.eq_true_of_not_eq_false near, FusedBatch.batches, FusedBatch.extendBy, freshBatch]
    refine ⟨before ++ [added], ⟨?_, fun other isLast => ?_, ?_⟩, ?_⟩
    · rw [sum.1, flatMap_append, flatMap_singleton]
    · obtain rfl : added = other := by simpa using isLast
      rw [sum.2, named]
      exact wip
    · rw [map_append, map_singleton, named]
      exact greedy.grow joins
    · simp [named]

/-- A work is fused or not by its own channel; the others are left alone. -/
theorem addWorks_channel (config : BatchConfig) (calls : List WorkCall) (c : Nat) :
    (addWorks config calls).channels c =
      (calls.filter (·.channelId = c)).foldl (fun chan call => (chan.addWork config call).1) .empty := by
  induction calls using reverseRecOn with
  | nil => rfl
  | append_singleton calls call ih =>
    rw [addWorks] at ih ⊢
    rw [foldl_append, filter_append, foldl_append, ← ih, foldl_cons, ncclAddWorkBatchToPlan]
    by_cases here : call.channelId = c
    · subst here
      simp
    · simp [here, Function.update_of_ne (Ne.symm here)]

/-- The works of a channel, grouped greedily, are what its queue names. -/
theorem channelOf_foldl (config : BatchConfig) (calls : List WorkCall)
    (increasing : calls.Pairwise (·.workOffset < ·.workOffset)) :
    ∃ fused, ChannelOf config (calls.foldl (fun chan call => (chan.addWork config call).1) .empty) fused ∧
      fused.flatMap FusedBatch.works = calls := by
  induction calls using reverseRecOn with
  | nil => exact ⟨[], ⟨rfl, by simp, .nil⟩, rfl⟩
  | append_singleton calls call ih =>
    obtain ⟨earlier, -, across⟩ := pairwise_append.mp increasing
    obtain ⟨fused, channel, listed⟩ := ih earlier
    have above : ∀ batch ∈ fused, ∀ work ∈ batch.works, work.workOffset < call.workOffset := by
      intro batch member work workMember
      refine across work ?_ call (mem_singleton_self _)
      rw [← listed]
      exact mem_flatMap.mpr ⟨batch, member, workMember⟩
    obtain ⟨fused', channel', listed'⟩ := channel.addWork above
    refine ⟨fused', ?_, by rw [listed', listed]⟩
    rw [foldl_append]
    exact channel'

/-- Works that follow each other in a channel at increasing offsets. -/
def OffsetsIncrease (calls : List WorkCall) : Prop :=
  calls.Pairwise fun call later => call.channelId = later.channelId → call.workOffset < later.workOffset

theorem OffsetsIncrease.channel (increasing : OffsetsIncrease calls) (c : Nat) :
    (calls.filter (·.channelId = c)).Pairwise (·.workOffset < ·.workOffset) := by
  refine (increasing.filter _).imp_of_mem fun {call later} member member' less => less ?_
  rw [mem_filter, decide_eq_true_eq] at member member'
  rw [member.2, member'.2]

/-- The queue of a channel names the works added for it. -/
theorem addWorks_fused (config : BatchConfig) (increasing : OffsetsIncrease calls) (c : Nat) :
    ∃ fused, ChannelOf config ((addWorks config calls).channels c) fused ∧
      fused.flatMap FusedBatch.works = calls.filter (·.channelId = c) := by
  rw [addWorks_channel]
  exact channelOf_foldl config _ (increasing.channel c)

end NcclCore
