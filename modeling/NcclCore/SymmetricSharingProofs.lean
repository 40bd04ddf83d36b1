import NcclCore.SymmetricRangesProofs

/-! Blocks that share a work visit together what they would visit one by one, as long as
all of them take part. A block whose predecessor seems to have ended with the work takes
no part, and the fraction of the predecessor rounds up to the whole work only with more
channels than `nMaxChannels` can count. -/
namespace NcclCore.SymBatch
open SymmetricSchedProofs Lib
open SymDevWorkArgs hiding nElts
variable {batch : SymBatch} {args : SymDevWorkArgs} {work block element : Nat}

/-! ### Blocks that share a work -/

section
variable (layout : batch.Layout args)
include layout

/-- The block looks at the work unless the block before ended with it. -/
theorem Layout.mem_rangeWorks_succ_iff (isBlock : block + 1 < args.nBlocks) :
    work ∈ rangeWorks (batch.range args (block + 1)) ↔
      ((args.workRange block).workHi < work ∨
        (args.workRange block).workHi = work ∧ (args.workRange block).fracHi + 1 ≠ 2 ^ 16) ∧
        work ≤ (args.workRange (block + 1)).workHi := by
  rw [mem_rangeWorks, getWorkRange_workHi]
  by_cases whole : (args.workRange block).fracHi + 1 = 2 ^ 16
  · rw [(getWorkRange_whole _ whole (layout.workHi_lt (by omega))).1]
    omega
  · rw [(getWorkRange_part _ whole).1]
    omega

end

/-- The block is among those that share a work. -/
abbrev Shares (devWork : SymDevWork) (block : Nat) : Prop :=
  devWork.sChannelId ≤ block ∧ block < devWork.sChannelId + devWork.nChannels

/-- The blocks that share a work: they are launched, and all or none of them look at it. -/
structure SharedBy (batch : SymBatch) (args : SymDevWorkArgs) (work : Nat) (devWork : SymDevWork) : Prop where
  some : 0 < devWork.nChannels
  launched : devWork.sChannelId + devWork.nChannels ≤ args.nBlocks
  reached : ∀ block, Shares devWork block → work ≤ (args.workRange block).workHi
  together : ∀ block block', Shares devWork block → Shares devWork block' →
    work ∈ rangeWorks (batch.range args block) → work ∈ rangeWorks (batch.range args block')

/-- With at most 256 channels, the part of a work in a channel that shares it is large
enough to be seen in the fraction. -/
theorem share_visible {nMaxChannels cellPerChannel total last lastCells cellsOfWork : Nat}
    (few : nMaxChannels ≤ 256) (capacity : total ≤ nMaxChannels * cellPerChannel)
    (tight : nMaxChannels * (cellPerChannel - 1) < total) (part : cellsOfWork ≤ total)
    (isBlock : block ≤ last) (isLast : last < nMaxChannels) (some : 0 < lastCells)
    (within : last * cellPerChannel + lastCells ≤ total)
    (shares : block = last → cellPerChannel ≤ lastCells + 1 ∨ last * cellPerChannel + lastCells = total) :
    cellsOfWork ≤ 2 ^ 16 * (last * cellPerChannel + lastCells - block * cellPerChannel) := by
  have most : nMaxChannels * cellPerChannel ≤ 256 * cellPerChannel := Nat.mul_le_mul_right _ few
  rcases isBlock.lt_or_eq with before | rfl
  · have : (block + 1) * cellPerChannel ≤ last * cellPerChannel := Nat.mul_le_mul_right _ before
    rw [Nat.succ_mul] at this
    omega
  · rcases shares rfl with full | whole
    · omega
    · have slack : block * cellPerChannel ≤ (nMaxChannels - 1) * cellPerChannel := Nat.mul_le_mul_right _ (by omega)
      rw [Nat.sub_mul] at slack
      rw [Nat.mul_sub] at tight
      omega

theorem Layout.sharedBy (layout : batch.Layout args) (found : batch.all[work]? = some task)
    (placed : Placed batch.cells batch.cellPerChannel batch.headTask.nMaxChannels work task devWork) :
    SharedBy batch args work devWork := by
  have few : batch.headTask.nMaxChannels ≤ 256 := by
    have bits := batch.headTask.channelBits
    omega
  obtain ⟨channel, offset, last, lastCells, here, bound, ends, some, most, shared⟩ := placed.shared (by omega)
  have isWork : work < batch.cells.length := by
    have := (List.getElem?_eq_some_iff.mp found).1
    simpa [cells] using this
  have cell := batch.cells_pos isWork
  have length := start_succ batch.cells work
  have within := start_le_sum batch.cells (work + 1)
  have complete := layout.complete
  have isBlock : last < args.nBlocks :=
    Nat.lt_of_mul_lt_mul_right (show last * batch.cellPerChannel < args.nBlocks * batch.cellPerChannel by omega)
  have order : channel ≤ last := by
    have : channel * batch.cellPerChannel < (last + 1) * batch.cellPerChannel := by
      rw [Nat.succ_mul]
      omega
    exact Nat.lt_succ_iff.mp (Nat.lt_of_mul_lt_mul_right this)
  obtain ⟨notBefore, notBehind⟩ : channel ≤ firstSharing channel offset last ∧
      firstSharing channel offset last ≤ last := by
    unfold firstSharing
    split <;> omega
  have isFirst := shared.sChannelId
  -- the channels from the first on, the last of them at most `last`
  have number : 0 < devWork.nChannels ∧ devWork.sChannelId + devWork.nChannels ≤ last + 1 := by
    rcases notBehind.lt_or_eq with before | same
    · rcases shared.several before with without | ⟨all, -⟩ <;> omega
    · have := shared.alone same
      omega
  have reached : ∀ block, Shares devWork block → work ≤ (args.workRange block).workHi := by
    rintro block ⟨lower, upper⟩
    have stop := layout.ends block (by omega)
    have behind : (channel + 1) * batch.cellPerChannel ≤ (block + 1) * batch.cellPerChannel :=
      Nat.mul_le_mul_right _ (by omega)
    have inside := stop.inside
    rw [Nat.succ_mul] at behind
    by_contra early
    have mono : start batch.cells ((args.workRange block).workHi + 1) ≤ start batch.cells work :=
      start_mono (by omega)
    omega
  refine ⟨number.1, by omega, reached, fun block block' shares shares' looks => ?_⟩
  rcases notBehind.lt_or_eq with before | same
  · cases block' with
    | zero =>
      rw [mem_rangeWorks]
      exact ⟨Nat.zero_le _, reached 0 shares'⟩
    | succ block' =>
      refine (layout.mem_rangeWorks_succ_iff (by omega)).mpr ⟨?_, reached _ shares'⟩
      have stop := layout.ends block' (by omega)
      have early : (block' + 1) * batch.cellPerChannel ≤ last * batch.cellPerChannel :=
        Nat.mul_le_mul_right _ (by omega)
      rw [Nat.min_eq_left (by omega)] at stop
      have after := stop.after
      rcases Nat.lt_trichotomy (args.workRange block').workHi work with sooner | rfl | later
      · exact .inl sooner
      · refine .inr ⟨rfl, ?_⟩
        have part : cellsOf batch.cells (args.workRange block').workHi ≤ batch.cells.sum := by omega
        apply stop.frac_ne
        rw [ends]
        refine share_visible few batch.sum_le batch.lt_sum part (by omega)
          (isBlock.trans_le layout.enough) some (by omega) fun atLast => ?_
        rcases shared.several before with without | ⟨-, full | whole⟩
        · omega
        · exact .inl full
        · exact .inr (by omega)
      · have mono : start batch.cells (work + 1) ≤ start batch.cells (args.workRange block').workHi := start_mono later
        omega
  · have alone := shared.alone same
    obtain rfl : block = block' := by omega
    exact looks

/-- The range that is shared is what the blocks that share it have between their cuts. -/
theorem Layout.fused_iff (layout : batch.Layout args) (shared : SharedBy batch args work devWork)
    (sameElts : devWork.nElts = args.nElts work) (inside : element < args.nElts work)
    (looks : work ∈ rangeWorks (batch.range args devWork.sChannelId)) :
    ((args.getWorkRangeFused batch.headTask.datatype block work devWork).indexLo ≤ element ∧
      element < (args.getWorkRangeFused batch.headTask.datatype block work devWork).indexHi) ↔
    batch.cut args devWork.sChannelId ≤ batch.position work element ∧
      batch.position work element < batch.cut args (devWork.sChannelId + devWork.nChannels) := by
  have some := shared.some
  have launched := shared.launched
  apply and_congr
  · cases first : devWork.sChannelId with
    | zero => simp [getWorkRangeFused, first, cut]
    | succ before =>
      rw [first] at looks
      have stop := layout.ends before (by omega)
      have small := stop.fracHi_lt
      rw [cut, layout.position_le_iff inside (indexHi_le _ before), getWorkRange_workHi, getWorkRange_indexHi]
      rcases ((layout.mem_rangeWorks_succ_iff (by omega)).mp looks).1 with sooner | ⟨same, less⟩
      · simp [getWorkRangeFused, first, sooner, sooner.ne]
      · have frac : ((args.workRange before).fracHi + 1) % 2 ^ 16 = (args.workRange before).fracHi + 1 :=
          Nat.mod_eq_of_lt (by omega)
        simp only [getWorkRangeFused, first, same, Nat.succ_pos, Nat.add_sub_cancel, and_self, if_true, frac,
          lt_irrefl, false_or, true_and, min_le_iff]
        omega
  · obtain ⟨last, isLast⟩ : ∃ last, devWork.sChannelId + devWork.nChannels = last + 1 :=
      ⟨devWork.sChannelId + devWork.nChannels - 1, by omega⟩
    have reached := shared.reached last ⟨by omega, by omega⟩
    rw [isLast, ← layout.ends_iff inside, getWorkRange_workHi, getWorkRange_indexHi]
    simp only [getWorkRangeFused, isLast, Nat.add_sub_cancel, sameElts, reached, true_and]
    by_cases same : (args.workRange last).workHi = work
    · simp [same]
    · have all := @nElts_le_indexAt args batch.headTask.datatype work
      rw [if_neg same, show (0x10000 : Nat) = 2 ^ 16 from rfl, min_eq_right all]
      exact ⟨fun _ same' => absurd same'.symm same, fun _ => inside⟩

theorem exists_visits_forEachWork_iff (datatype : DataType) (isWork : args.works[work]? = some devWork) :
    (∃ call ∈ args.forEachWork datatype block, call.Visits turn work element) ↔
      work ∈ rangeWorks (args.getWorkRange datatype block) ∧
        if Shares devWork block then
          (args.getWorkRangeFused datatype block work devWork).Visits turn work element
        else (args.ownCall (args.getWorkRange datatype block) work).Visits turn work element := by
  have isWork' : args.works[work]?.getD ⟨0, 0, 0⟩ = devWork := by rw [isWork, Option.getD_some]
  simp only [forEachWork, List.mem_map]
  constructor
  · rintro ⟨_, ⟨other, member, rfl⟩, visits⟩
    obtain rfl : other = work := by
      split at visits <;> exact visits.1
    refine ⟨member, ?_⟩
    rw [isWork'] at visits
    split
    next inGroup => rwa [if_pos inGroup] at visits
    next outside => rwa [if_neg outside] at visits
  · rintro ⟨member, visits⟩
    refine ⟨_, ⟨work, member, rfl⟩, ?_⟩
    rw [isWork']
    split
    next inGroup => rwa [if_pos inGroup] at visits
    next outside => rwa [if_neg outside] at visits

theorem Layout.coveredOnce_forEachWork (layout : batch.Layout args) (turns : TakesTurns turn)
    (isWork : args.works[work]? = some devWork) (shared : SharedBy batch args work devWork) :
    CoveredOnce args.nBlocks (args.nElts work) fun block element =>
      ∃ call ∈ args.forEachWork batch.headTask.datatype block, call.Visits turn work element := by
  have some := shared.some
  have launched := shared.launched
  have sameElts : devWork.nElts = args.nElts work := by simp [SymDevWorkArgs.nElts, isWork]
  constructor
  · intro element inside
    obtain ⟨own, ⟨isOwn, between⟩, unique⟩ := layout.exists_block inside
    have group := layout.between_iff shared.launched isOwn between.1 between.2
    -- a block that does not share the work is the one whose cuts the element lies between
    have apart : ∀ {block}, block < args.nBlocks →
        work ∈ rangeWorks (batch.range args block) →
        (args.ownCall (batch.range args block) work).Visits turn work element →
        block = own := fun isBlock looks visits =>
      unique _ ⟨isBlock, (layout.ownCall_iff isBlock inside).mp ⟨looks, (visits_ownCall_iff turns).mp visits⟩⟩
    have looksFirst : ∀ {block}, Shares devWork block → work ∈ rangeWorks (batch.range args block) →
        work ∈ rangeWorks (batch.range args devWork.sChannelId) :=
      fun shares looks => shared.together _ _ shares ⟨le_rfl, by omega⟩ looks
    obtain ⟨looksOwn, ownVisits⟩ := (layout.ownCall_iff isOwn inside).mpr between
    by_cases inGroup : Shares devWork own
    · let call := args.getWorkRangeFused batch.headTask.datatype own work devWork
      have range : call.indexLo ≤ element ∧ element < call.indexHi :=
        (layout.fused_iff shared sameElts inside (looksFirst inGroup looksOwn)).mpr (group.mpr inGroup)
      have isTurn := turns devWork.nChannels (call.indexHi - call.indexLo) (element - call.indexLo) some
      let chosen := devWork.sChannelId + turn devWork.nChannels (call.indexHi - call.indexLo) (element - call.indexLo)
      have upper : chosen < devWork.sChannelId + devWork.nChannels := Nat.add_lt_add_left isTurn _
      have lower : devWork.sChannelId ≤ chosen := le_self_add
      refine ⟨chosen, ⟨by omega, (exists_visits_forEachWork_iff _ isWork).mpr ⟨?_, ?_⟩⟩, ?_⟩
      · exact shared.together own chosen inGroup ⟨lower, upper⟩ looksOwn
      · rw [if_pos ⟨lower, upper⟩]
        exact ⟨rfl, range.1, range.2, (Nat.add_sub_cancel_left _ _).symm⟩
      · rintro other ⟨isOther, visits⟩
        obtain ⟨looksOther, visits⟩ := (exists_visits_forEachWork_iff _ isWork).mp visits
        split at visits
        next otherIn =>
          have sameTurn : turn devWork.nChannels (call.indexHi - call.indexLo) (element - call.indexLo) =
            other - devWork.sChannelId := visits.2.2.2
          omega
        next otherOut => exact absurd (apart isOther looksOther visits ▸ inGroup) otherOut
    · refine ⟨own, ⟨isOwn, (exists_visits_forEachWork_iff _ isWork).mpr ⟨looksOwn, ?_⟩⟩, ?_⟩
      · rw [if_neg inGroup]
        exact (visits_ownCall_iff turns).mpr ownVisits
      · rintro other ⟨isOther, visits⟩
        obtain ⟨looksOther, visits⟩ := (exists_visits_forEachWork_iff _ isWork).mp visits
        split at visits
        next otherIn =>
          have range := (layout.fused_iff shared sameElts inside (looksFirst otherIn looksOther)).mp
            ⟨visits.2.1, visits.2.2.1⟩
          exact absurd (group.mp range) inGroup
        next otherOut => exact apart isOther looksOther visits
  · intro block element _ visits
    obtain ⟨member, visits⟩ := (exists_visits_forEachWork_iff _ isWork).mp visits
    split at visits
    · exact visits.2.2.1.trans_le ((min_le_right _ _).trans_eq sameElts)
    · exact visits.2.2.1.trans_le (ownCall_indexHi_le member)

section
variable (layout : batch.Layout args)
include layout

theorem Layout.fused_le (shared : SharedBy batch args work devWork) (sameElts : devWork.nElts = args.nElts work) :
    (args.getWorkRangeFused batch.headTask.datatype block work devWork).indexLo ≤
      (args.getWorkRangeFused batch.headTask.datatype block work devWork).indexHi := by
  have some := shared.some
  have launched := shared.launched
  simp only [getWorkRangeFused, sameElts]
  split
  next begun =>
    obtain ⟨later, rfl⟩ := begun
    have isBlock : devWork.sChannelId - 1 < args.nBlocks := by omega
    have nonempty := layout.nElts_pos isBlock
    refine le_min (indexAt_mono _ ?_) (indexAt_le _ nonempty (Nat.mod_lt _ (by decide)))
    split
    next same =>
      have order : devWork.sChannelId - 1 < devWork.sChannelId + devWork.nChannels - 1 := by omega
      rcases layout.lt_or_le order (by omega) with sooner | ⟨-, less⟩
      · omega
      · exact (Nat.mod_le _ _).trans (Nat.succ_le_succ less)
    next other => exact le_of_lt (Nat.mod_lt _ (by decide))
  next => simp

end

/-! ### Parts of 16 bytes -/

section
variable (nB16 nParts : Nat)

/-- Where a part begins, in packs of 16 bytes. -/
def beginB16 (part : Nat) : Nat := part * (nB16 / nParts) + min part (nB16 % nParts)

theorem beginB16_succ (part : Nat) : beginB16 nB16 nParts (part + 1) =
    beginB16 nB16 nParts part + (nB16 / nParts + if part < nB16 % nParts then 1 else 0) := by
  unfold beginB16
  rw [Nat.succ_mul]
  split <;> omega

theorem beginB16_nParts {nParts : Nat} (positive : 0 < nParts) : beginB16 nB16 nParts nParts = nB16 := by
  have small := Nat.mod_lt nB16 positive
  have split := Nat.div_add_mod nB16 nParts
  unfold beginB16
  omega

end

/-- The last part begins inside. -/
theorem beginB16_mul_le {nParts nElts eltPerB16 : Nat} (positive : 0 < nParts) (pack : 0 < eltPerB16)
    (fits : eltPerB16 ∣ nElts ∨ nParts ≤ divUp nElts eltPerB16) :
    beginB16 (divUp nElts eltPerB16) nParts (nParts - 1) * eltPerB16 ≤ nElts := by
  have step := beginB16_succ (divUp nElts eltPerB16) nParts (nParts - 1)
  rw [Nat.sub_add_cancel positive, beginB16_nParts _ positive] at step
  have below := divUp_mul_lt (x := nElts) pack
  rcases fits with ⟨packs, rfl⟩ | many
  · have most : divUp (eltPerB16 * packs) eltPerB16 ≤ packs := (divUp_le_iff pack).mpr (by rw [mul_comm])
    have inside := le_self_add.trans (step.symm.trans_le most)
    rw [mul_comm eltPerB16 packs] at inside ⊢
    exact Nat.mul_le_mul_right _ inside
  · have each := Nat.div_pos many positive
    have fewer : beginB16 (divUp nElts eltPerB16) nParts (nParts - 1) + 1 ≤ divUp nElts eltPerB16 := by omega
    have scaled := Nat.mul_le_mul_right eltPerB16 fewer
    rw [Nat.succ_mul] at scaled
    omega

/-- Where a part begins and the one behind the last, in elements. -/
def partCut (datatype : DataType) (nParts nElts part : Nat) : Nat :=
  if part < nParts then (partitionElts datatype nParts part nElts).1 else nElts

theorem partitionElts_end (isPart : part < nParts) (isSize : nElts < 2 ^ 64)
    (fits : 16 / ncclTypeSize datatype ∣ nElts ∨ nParts ≤ divUp nElts (16 / ncclTypeSize datatype)) :
    (partitionElts datatype nParts part nElts).1 + (partitionElts datatype nParts part nElts).2 =
      partCut datatype nParts nElts (part + 1) := by
  have pack : 0 < 16 / ncclTypeSize datatype := by cases datatype <;> decide
  by_cases isLast : part + 1 < nParts
  · have step := beginB16_succ (divUp nElts (16 / ncclTypeSize datatype)) nParts part
    simp only [partCut, if_pos isLast, partitionElts, if_pos (show part < nParts - 1 by omega)]
    rw [← add_mul]
    exact congrArg (· * _) step.symm
  · obtain rfl : part = nParts - 1 := by omega
    have inside := beginB16_mul_le (show 0 < nParts by omega) pack fits
    simp only [partCut, if_neg isLast, partitionElts, lt_irrefl, if_false]
    unfold beginB16 at inside
    omega

/-- With fewer packs than parts, the pack that is cut short is not in the last part. -/
theorem partitionElts_lastPack (isPacks : divUp nElts (16 / ncclTypeSize datatype) = packs) (nonempty : 0 < packs)
    (few : packs < nParts) : partitionElts datatype nParts (packs - 1) nElts =
      ((packs - 1) * (16 / ncclTypeSize datatype), 16 / ncclTypeSize datatype) := by
  simp [partitionElts, isPacks, Nat.div_eq_of_lt few, Nat.mod_eq_of_lt few, nonempty,
    show packs - 1 < nParts - 1 by omega]

/-- The parts fit exactly if the packs come out even or there is one for each part. -/
theorem partitionElts_coveredOnce_iff (datatype : DataType) (positive : 0 < nParts) (isSize : nElts < 2 ^ 64) :
    CoveredOnce nParts nElts (InPart datatype nParts nElts) ↔
    16 / ncclTypeSize datatype ∣ nElts ∨ nParts ≤ divUp nElts (16 / ncclTypeSize datatype) := by
  have pack : 0 < 16 / ncclTypeSize datatype := by cases datatype <;> decide
  constructor
  · rintro ⟨-, inside⟩
    by_contra neither
    obtain ⟨uneven, few⟩ := not_or.mp neither
    have enough := le_divUp_mul (x := nElts) pack
    have nonempty : 0 < divUp nElts (16 / ncclTypeSize datatype) := by
      refine divUp_pos pack (Nat.pos_of_ne_zero ?_)
      rintro rfl
      exact uneven (Nat.dvd_zero _)
    generalize isPacks : divUp nElts _ = packs at *
    have lastPack := partitionElts_lastPack isPacks nonempty (not_le.mp few)
    generalize 16 / ncclTypeSize datatype = eltPerB16 at *
    have scaled := Nat.sub_mul packs 1 eltPerB16
    have overrun := inside (packs - 1) (packs * eltPerB16 - 1) (by omega) (by simp only [InPart, lastPack]; omega)
    exact uneven ⟨packs, by rw [Nat.mul_comm]; omega⟩
  · intro fits
    have stop : ∀ {part}, part < nParts → (partitionElts datatype nParts part nElts).1 +
        (partitionElts datatype nParts part nElts).2 = partCut datatype nParts nElts (part + 1) :=
      fun isPart => partitionElts_end isPart isSize fits
    have begin_ : ∀ {part}, part < nParts → (partitionElts datatype nParts part nElts).1 =
        partCut datatype nParts nElts part := fun isPart => (if_pos isPart).symm
    have ordered : ∀ part, 0 ≤ part → part < nParts →
        partCut datatype nParts nElts part ≤ partCut datatype nParts nElts (part + 1) := by
      intro part _ isPart
      rw [← begin_ isPart, ← stop isPart]
      exact le_self_add
    have last : partCut datatype nParts nElts nParts = nElts := if_neg (lt_irrefl _)
    have first : partCut datatype nParts nElts 0 = 0 := by simp [partCut, positive, partitionElts]
    constructor
    · intro element below
      obtain ⟨part, ⟨⟨-, isPart⟩, between⟩, unique⟩ := existsUnique_piece ordered (Nat.zero_le nParts)
        (first.trans_le (Nat.zero_le element)) (last.symm ▸ below)
      refine ⟨part, ⟨isPart, ?_⟩, ?_⟩
      · exact ⟨(begin_ isPart).trans_le between.1, between.2.trans_eq (stop isPart).symm⟩
      · rintro other ⟨isOther, since, upTo⟩
        exact unique other ⟨⟨Nat.zero_le _, isOther⟩, (begin_ isOther).symm.trans_le since, upTo.trans_eq (stop isOther)⟩
    · rintro part element isPart ⟨-, upTo : _ < _ + _⟩
      have most := cut_le_of_le ordered (Nat.zero_le (part + 1)) isPart le_rfl
      rw [stop isPart] at upTo
      omega

/-! ### The batch -/

/-- The scheduler places every batch, with at most `nMaxChannels` blocks. The blocks visit
every element of every work once if they work on their own, and also if they share works,
in whatever way they take turns. Parts of packs cover a range exactly if the packs come out
even or there is one for each part. -/
theorem symmetric_work_covered_once (batch : SymBatch) :
    ∃ args, ncclSymmetricTaskScheduler batch.headTask (batch.tasks ++ batch.rest) = .ok (args, batch.rest) ∧
      args.nBlocks ≤ batch.headTask.nMaxChannels ∧ args.works.map (·.nElts) = batch.all.map (·.count) ∧
      (∀ turn, TakesTurns turn → ∀ work, work < args.works.length →
        CoveredOnce args.nBlocks (args.nElts work) (fun block element =>
          ∃ call ∈ args.forEachWorkNoFusion batch.headTask.datatype block, call.Visits turn work element) ∧
        CoveredOnce args.nBlocks (args.nElts work) fun block element =>
          ∃ call ∈ args.forEachWork batch.headTask.datatype block, call.Visits turn work element) ∧
      (∀ block, block < args.nBlocks →
        (∀ call ∈ args.forEachWorkNoFusion batch.headTask.datatype block, call.indexLo ≤ call.indexHi) ∧
        ∀ call ∈ args.forEachWork batch.headTask.datatype block, call.indexLo ≤ call.indexHi) ∧
      ∀ nParts nElts, 0 < nParts → nElts < 2 ^ 64 →
        (CoveredOnce nParts nElts (InPart batch.headTask.datatype nParts nElts) ↔
          16 / ncclTypeSize batch.headTask.datatype ∣ nElts ∨
            nParts ≤ divUp nElts (16 / ncclTypeSize batch.headTask.datatype)) := by
  obtain ⟨args, run, layout⟩ := batch.scheduler_layout
  have sharing : ∀ work, work < args.works.length →
      ∃ devWork, args.works[work]? = some devWork ∧ SharedBy batch args work devWork := by
    intro work isWork
    obtain ⟨task, found⟩ : ∃ task, batch.all[work]? = some task :=
      ⟨_, List.getElem?_eq_getElem (layout.length ▸ isWork)⟩
    obtain ⟨devWork, isDevWork, placed⟩ := layout.works work task found
    exact ⟨devWork, isDevWork, layout.sharedBy found placed⟩
  refine ⟨args, run, layout.enough, ?_, ?_, ?_, fun nParts nElts positive isSize =>
    partitionElts_coveredOnce_iff _ positive isSize⟩
  · exact layout.map_nElts
  · intro turn turns work isWork
    obtain ⟨devWork, isDevWork, shared⟩ := sharing work isWork
    exact ⟨layout.coveredOnce_noFusion turns work, layout.coveredOnce_forEachWork turns isDevWork shared⟩
  · intro block isBlock
    constructor
    · intro call member
      obtain ⟨work, looks, rfl⟩ := List.mem_map.mp member
      exact layout.ownCall_le isBlock looks
    · intro call member
      obtain ⟨work, looks, rfl⟩ := List.mem_map.mp member
      have isWork : work < args.works.length := by
        have upper := (mem_rangeWorks.mp looks).2
        have isWork := (layout.ends block isBlock).isWork
        rw [getWorkRange_workHi] at upper
        rw [layout.length]
        simp only [cells, List.length_map] at isWork
        omega
      obtain ⟨devWork, isDevWork, shared⟩ := sharing work isWork
      simp only [isDevWork, Option.getD_some]
      split
      · exact layout.fused_le shared (by simp [SymDevWorkArgs.nElts, isDevWork])
      · exact layout.ownCall_le isBlock looks

/-- Five elements of four bytes are two packs and make no four parts: the last part begins
behind the elements and has all but three of 2^64 of them. -/
theorem short_packs_wrap : partitionElts .float32 4 3 5 = (8, 2 ^ 64 - 3) ∧
    ¬ CoveredOnce 4 5 (InPart .float32 4 5) := by
  refine ⟨by decide, fun covered => ?_⟩
  have even := (partitionElts_coveredOnce_iff _ (by decide) (by decide)).mp covered
  exact absurd even (by decide)

end NcclCore.SymBatch
