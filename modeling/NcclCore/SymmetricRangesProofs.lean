import NcclCore.SymmetricSchedProofs
import NcclCore.Lib.Cuts

/-! What the blocks read out of a layout. Counted over all works of the batch, each block
has the elements between its own end and that of the block before, so every element is
visited once when no work is shared. -/
namespace NcclCore.SymDevWorkArgs
open SymmetricSchedProofs
variable {args : SymDevWorkArgs} (datatype : DataType) {work frac : Nat}

theorem indexAt_mono (le : frac ≤ frac') : args.indexAt datatype work frac ≤ args.indexAt datatype work frac' := by
  exact Nat.mul_le_mul_right _ (Nat.div_le_div_right (Nat.mul_le_mul_right _ le))

@[simp] theorem indexAt_zero : args.indexAt datatype work 0 = 0 := by
  simp [indexAt]

/-- The whole work. -/
theorem nElts_le_indexAt : args.nElts work ≤ args.indexAt datatype work (2 ^ 16) := by
  rw [indexAt, Nat.mul_div_cancel_left _ (by decide)]
  exact le_divUp_mul (eltPerCell_pos _)

/-- A smaller fraction leaves out the last cell. -/
theorem indexAt_le (some : 0 < args.nElts work) (less : frac < 2 ^ 16) :
    args.indexAt datatype work frac ≤ args.nElts work := by
  have positive := eltPerCell_pos datatype
  have below := divUp_mul_lt (x := args.nElts work) positive
  have fewer : frac * divUp (args.nElts work) (eltPerCell datatype) / 2 ^ 16 + 1 ≤
      divUp (args.nElts work) (eltPerCell datatype) := by
    rw [Nat.succ_le_iff, Nat.div_lt_iff_lt_mul (by decide), mul_comm _ (2 ^ 16)]
    exact Nat.mul_lt_mul_of_pos_right less (divUp_pos positive some)
  have scaled := Nat.mul_le_mul_right (eltPerCell datatype) fewer
  rw [Nat.succ_mul] at scaled
  unfold indexAt
  omega

theorem getWorkRange_workHi (block : Nat) : (args.getWorkRange datatype block).workHi = (args.workRange block).workHi :=
  rfl

theorem getWorkRange_indexHi (block : Nat) : (args.getWorkRange datatype block).indexHi =
    min (args.indexAt datatype (args.workRange block).workHi ((args.workRange block).fracHi + 1))
      (args.nElts (args.workRange block).workHi) :=
  rfl

theorem indexHi_le (block : Nat) : (args.getWorkRange datatype block).indexHi ≤
    args.nElts (args.getWorkRange datatype block).workHi :=
  min_le_right ..

theorem getWorkRange_zero : (args.getWorkRange datatype 0).workLo = 0 ∧ (args.getWorkRange datatype 0).indexLo = 0 := by
  simp [getWorkRange]

/-- The block before ended with its work. -/
theorem getWorkRange_whole (whole : (args.workRange block).fracHi + 1 = 2 ^ 16)
    (numbered : (args.workRange block).workHi + 1 < 2 ^ 16) :
    (args.getWorkRange datatype (block + 1)).workLo = (args.workRange block).workHi + 1 ∧
      (args.getWorkRange datatype (block + 1)).indexLo = 0 := by
  have same : (args.workRange block).fracHi + 1 = 0x10000 := whole
  simpa [getWorkRange, same] using numbered

/-- The block before ended inside a work. -/
theorem getWorkRange_part (less : (args.workRange block).fracHi + 1 ≠ 2 ^ 16) :
    (args.getWorkRange datatype (block + 1)).workLo = (args.workRange block).workHi ∧
      (args.getWorkRange datatype (block + 1)).indexLo =
        args.indexAt datatype (args.workRange block).workHi ((args.workRange block).fracHi + 1) := by
  have other : ¬ (args.workRange block).fracHi + 1 = 0x10000 := less
  simp [getWorkRange, other]

end NcclCore.SymDevWorkArgs

namespace NcclCore.SymBatch
open SymmetricSchedProofs Lib SymDevWorkArgs
variable {batch : SymBatch} {args : SymDevWorkArgs} {work block element : Nat}

/-- The elements of the works. -/
def counts (batch : SymBatch) : List Nat := batch.all.map (·.count)

/-- The elements before an element of a work, over the whole batch. -/
def position (batch : SymBatch) (work element : Nat) : Nat := start batch.counts work + element

/-- The range of a block. -/
abbrev range (batch : SymBatch) (args : SymDevWorkArgs) (block : Nat) : WorkRange :=
  args.getWorkRange batch.headTask.datatype block

/-- The elements that end before this block. -/
def cut (batch : SymBatch) (args : SymDevWorkArgs) : Nat → Nat
  | 0 => 0
  | block + 1 => batch.position (batch.range args block).workHi (batch.range args block).indexHi

section
variable (layout : batch.Layout args)
include layout

theorem Layout.map_nElts : args.works.map (·.nElts) = batch.all.map (·.count) := by
  apply List.ext_getElem?
  intro work
  rw [List.getElem?_map, List.getElem?_map]
  cases found : batch.all[work]? with
  | none =>
    have beyond := List.getElem?_eq_none_iff.mp found
    rw [List.getElem?_eq_none (by rw [layout.length]; exact beyond)]
    rfl
  | some task =>
    obtain ⟨devWork, isWork, placed⟩ := layout.works work task found
    simp [isWork, placed.nElts]

theorem Layout.nElts_eq (work : Nat) : args.nElts work = cellsOf batch.counts work := by
  unfold nElts cellsOf counts
  rw [List.getD_eq_getElem?_getD, ← layout.map_nElts, List.getElem?_map]

theorem Layout.cells_eq (work : Nat) :
    divUp (args.nElts work) (eltPerCell batch.headTask.datatype) = cellsOf batch.cells work := by
  have positive := eltPerCell_pos batch.headTask.datatype
  rw [layout.nElts_eq]
  unfold cellsOf counts cells
  rw [List.getD_eq_getElem?_getD, List.getD_eq_getElem?_getD, List.getElem?_map, List.getElem?_map]
  cases batch.all[work]? with
  | none =>
    apply Nat.div_eq_of_lt
    simp only [Option.map_none, Option.getD_none]
    omega
  | some => rfl

theorem Layout.position_succ (work : Nat) : batch.position (work + 1) 0 = batch.position work (args.nElts work) := by
  rw [layout.nElts_eq]
  exact start_succ batch.counts work

/-- Positions are ordered by work first, and by element in a work. -/
theorem Layout.position_le_iff (inside : element < args.nElts work) (within : element' ≤ args.nElts work') :
    batch.position work' element' ≤ batch.position work element ↔
      work' < work ∨ work' = work ∧ element' ≤ element := by
  have next := layout.position_succ work
  have next' := layout.position_succ work'
  unfold position at *
  rcases lt_trichotomy work' work with before | rfl | behind
  · have := show start batch.counts (work' + 1) ≤ start batch.counts work from start_mono before
    omega
  · omega
  · have := show start batch.counts (work + 1) ≤ start batch.counts work' from start_mono behind
    omega

/-! ### Where a block begins and ends -/

theorem Layout.workHi_lt (isBlock : block < args.nBlocks) : (args.workRange block).workHi + 1 < 2 ^ 16 := by
  have isWork := (layout.ends block isBlock).isWork
  have numbered := batch.numbered
  rw [batch.cells_length] at isWork
  omega

/-- The block has elements of the work from this one on. -/
theorem Layout.begins_iff (isBlock : block < args.nBlocks) (inside : element < args.nElts work) :
    ((batch.range args block).workLo ≤ work ∧
        (work = (batch.range args block).workLo →
          (batch.range args block).indexLo ≤ element)) ↔
      batch.cut args block ≤ batch.position work element := by
  cases block with
  | zero =>
    obtain ⟨workLo, indexLo⟩ := @getWorkRange_zero args batch.headTask.datatype
    simp [workLo, indexLo, cut]
  | succ block =>
    rw [cut, layout.position_le_iff inside (indexHi_le _ block)]
    simp only [getWorkRange_workHi, getWorkRange_indexHi]
    by_cases whole : (args.workRange block).fracHi + 1 = 2 ^ 16
    · obtain ⟨workLo, indexLo⟩ := getWorkRange_whole batch.headTask.datatype whole (layout.workHi_lt (by omega))
      have all : args.nElts (args.workRange block).workHi ≤ _ := nElts_le_indexAt batch.headTask.datatype
      rw [workLo, indexLo, whole]
      constructor
      · exact fun ⟨behind, _⟩ => .inl behind
      · rintro (behind | ⟨rfl, beyond⟩)
        · exact ⟨behind, fun _ => Nat.zero_le _⟩
        · omega
    · obtain ⟨workLo, indexLo⟩ := getWorkRange_part batch.headTask.datatype whole
      rw [workLo, indexLo]
      constructor
      · rintro ⟨le, since⟩
        rcases le.lt_or_eq with before | rfl
        · exact .inl before
        · exact .inr ⟨rfl, (Nat.min_le_left _ _).trans (since rfl)⟩
      · rintro (before | ⟨rfl, since⟩)
        · exact ⟨before.le, fun same => by omega⟩
        · refine ⟨le_rfl, fun _ => ?_⟩
          rcases min_le_iff.mp since with le | beyond
          · exact le
          · omega

theorem Layout.ends_iff (inside : element < args.nElts work) :
    (work ≤ (batch.range args block).workHi ∧
        (work = (batch.range args block).workHi →
          element < (batch.range args block).indexHi)) ↔
      batch.position work element < batch.cut args (block + 1) := by
  rw [cut, range, ← not_le (b := batch.position work element), layout.position_le_iff inside (indexHi_le _ block)]
  omega

/-! ### Every element is in one block -/

/-- A later block ends in a later work, or further on in the same. -/
theorem Layout.lt_or_le (order : block < block') (isBlock : block' < args.nBlocks) :
    (args.workRange block).workHi < (args.workRange block').workHi ∨
      (args.workRange block).workHi = (args.workRange block').workHi ∧
        (args.workRange block).fracHi ≤ (args.workRange block').fracHi := by
  have within := layout.nonempty block' isBlock
  have positive := batch.cellPerChannel_pos
  have behind : (block + 1) * batch.cellPerChannel ≤ block' * batch.cellPerChannel := Nat.mul_le_mul_right _ order
  have stops : min ((block + 1) * batch.cellPerChannel) batch.cells.sum <
      min ((block' + 1) * batch.cellPerChannel) batch.cells.sum := by
    rw [Nat.succ_mul block']
    omega
  exact (layout.ends block (by omega)).lt_or_le stops (layout.ends block' isBlock)

theorem Layout.cut_le_cut (block : Nat) (_ : 0 ≤ block) (isBlock : block < args.nBlocks) :
    batch.cut args block ≤ batch.cut args (block + 1) := by
  cases block with
  | zero => exact Nat.zero_le _
  | succ block =>
    have next := layout.position_succ (args.workRange block).workHi
    simp only [cut, range, getWorkRange_workHi]
    rcases layout.lt_or_le (Nat.lt_succ_self block) isBlock with sooner | ⟨same, less⟩
    · have mono : start batch.counts ((args.workRange block).workHi + 1) ≤
          start batch.counts (args.workRange (block + 1)).workHi := start_mono sooner
      have most := @indexHi_le args batch.headTask.datatype block
      rw [getWorkRange_workHi] at most
      unfold position at next ⊢
      omega
    · simp only [getWorkRange_indexHi, position, same]
      have mono := @indexAt_mono args batch.headTask.datatype (args.workRange (block + 1)).workHi _ _
        (Nat.succ_le_succ less)
      exact Nat.add_le_add_left (min_le_min_right _ mono) _

theorem Layout.cut_mono (le : block ≤ block') (launched : block' ≤ args.nBlocks) :
    batch.cut args block ≤ batch.cut args block' :=
  cut_le_of_le layout.cut_le_cut (Nat.zero_le _) le launched

/-- Several blocks in a row have what the one block has that is among them. -/
theorem Layout.between_iff (launched : first + number ≤ args.nBlocks) (isBlock : block < args.nBlocks)
    (since : batch.cut args block ≤ point) (upTo : point < batch.cut args (block + 1)) :
    (batch.cut args first ≤ point ∧ point < batch.cut args (first + number)) ↔
      first ≤ block ∧ block < first + number := by
  constructor
  · rintro ⟨after, before⟩
    constructor
    · by_contra early
      have := layout.cut_mono (show block + 1 ≤ first by omega) (by omega)
      omega
    · by_contra late
      have := layout.cut_mono (show first + number ≤ block by omega) (by omega)
      omega
  · rintro ⟨after, before⟩
    have := layout.cut_mono after (by omega)
    have := layout.cut_mono (show block + 1 ≤ first + number by omega) launched
    omega

theorem Layout.nBlocks_pos : 0 < args.nBlocks := by
  have complete := layout.complete
  have some := batch.sum_pos
  by_contra none
  rw [show args.nBlocks = 0 by omega] at complete
  omega

/-- The last block ends with the last work. -/
theorem Layout.cut_nBlocks : batch.cut args args.nBlocks = batch.counts.sum := by
  obtain ⟨last, isLast⟩ : ∃ last, args.nBlocks = last + 1 := ⟨args.nBlocks - 1, by have := layout.nBlocks_pos; omega⟩
  have ends := layout.ends last (by omega)
  have complete := layout.complete
  rw [isLast] at complete
  rw [min_eq_right complete] at ends
  have inside := ends.inside
  have most := start_le_sum batch.cells ((args.workRange last).workHi + 1)
  have length := start_succ batch.cells (args.workRange last).workHi
  have isEnd : (args.workRange last).workHi + 1 = batch.cells.length := by
    have isWork := ends.isWork
    by_contra other
    have more := batch.cells_pos (show (args.workRange last).workHi + 1 < batch.cells.length by omega)
    have further := start_le_sum batch.cells ((args.workRange last).workHi + 1 + 1)
    rw [start_succ] at further
    omega
  have whole : (args.workRange last).fracHi + 1 = 2 ^ 16 := by
    rw [ends.frac, show batch.cells.sum - start batch.cells (args.workRange last).workHi =
      cellsOf batch.cells (args.workRange last).workHi by omega]
    exact divUp_whole ends.cells_pos
  have sameLength : batch.cells.length = batch.counts.length := by simp [cells, counts]
  simp only [isLast, cut, getWorkRange_workHi, getWorkRange_indexHi, whole,
    min_eq_right (nElts_le_indexAt _), ← layout.position_succ]
  rw [position, isEnd, sameLength, start_length, add_zero]

theorem Layout.exists_block (inside : element < args.nElts work) :
    ∃! block, block < args.nBlocks ∧ batch.cut args block ≤ batch.position work element ∧
      batch.position work element < batch.cut args (block + 1) := by
  have below : batch.position work element < batch.cut args args.nBlocks := by
    have next := layout.position_succ work
    have most := start_le_sum batch.counts (work + 1)
    rw [layout.cut_nBlocks]
    unfold position at next ⊢
    omega
  simpa using existsUnique_piece layout.cut_le_cut (Nat.zero_le _) (Nat.zero_le _) below

end

theorem mem_rangeWorks {range : WorkRange} :
    work ∈ rangeWorks range ↔ range.workLo ≤ work ∧ work ≤ range.workHi := by
  rw [rangeWorks, List.mem_range'_1]
  omega

/-- Each element of a range falls to one of the blocks that share it. -/
def TakesTurns (turn : (nBlocks nElts element : Nat) → Nat) : Prop :=
  ∀ nBlocks nElts element, 0 < nBlocks → turn nBlocks nElts element < nBlocks

section
variable (layout : batch.Layout args) (turns : TakesTurns turn)
include layout

/-- The part of a work a block has to itself is what lies between the cuts. -/
theorem Layout.ownCall_iff (isBlock : block < args.nBlocks) (inside : element < args.nElts work) :
    (work ∈ rangeWorks (batch.range args block) ∧
      (args.ownCall (batch.range args block) work).indexLo ≤ element ∧
      element < (args.ownCall (batch.range args block) work).indexHi) ↔
    batch.cut args block ≤ batch.position work element ∧
      batch.position work element < batch.cut args (block + 1) := by
  rw [← layout.begins_iff isBlock inside, ← layout.ends_iff inside, mem_rangeWorks]
  simp only [ownCall]
  constructor
  · rintro ⟨⟨lower, upper⟩, since, upTo⟩
    refine ⟨⟨lower, fun same => ?_⟩, upper, fun same => ?_⟩
    · rwa [if_neg (by omega)] at since
    · rwa [if_neg (by omega)] at upTo
  · rintro ⟨⟨lower, since⟩, upper, upTo⟩
    refine ⟨⟨lower, upper⟩, ?_, ?_⟩
    · split
      · exact Nat.zero_le _
      · exact since (by omega)
    · split
      · exact inside
      · exact upTo (by omega)

end

/-! ### Blocks on their own -/

section
variable (turns : TakesTurns turn)
include turns

theorem visits_ownCall_iff {range : WorkRange} :
    (args.ownCall range work).Visits turn work element ↔
      (args.ownCall range work).indexLo ≤ element ∧ element < (args.ownCall range work).indexHi := by
  have alone : turn 1 ((args.ownCall range work).indexHi - (args.ownCall range work).indexLo)
      (element - (args.ownCall range work).indexLo) = 0 := Nat.lt_one_iff.mp (turns 1 _ _ one_pos)
  constructor
  · rintro ⟨-, since, upTo, -⟩
    exact ⟨since, upTo⟩
  · rintro ⟨since, upTo⟩
    exact ⟨rfl, since, upTo, alone⟩

theorem exists_visits_noFusion_iff (datatype : DataType) :
    (∃ call ∈ args.forEachWorkNoFusion datatype block, call.Visits turn work element) ↔
      work ∈ rangeWorks (args.getWorkRange datatype block) ∧
        (args.ownCall (args.getWorkRange datatype block) work).indexLo ≤ element ∧
        element < (args.ownCall (args.getWorkRange datatype block) work).indexHi := by
  simp only [forEachWorkNoFusion, List.mem_map]
  constructor
  · rintro ⟨_, ⟨other, member, rfl⟩, visits⟩
    obtain rfl : other = work := visits.1
    exact ⟨member, (visits_ownCall_iff turns).mp visits⟩
  · rintro ⟨member, visits⟩
    exact ⟨_, ⟨work, member, rfl⟩, (visits_ownCall_iff turns).mpr visits⟩

end

theorem ownCall_indexHi_le (member : work ∈ rangeWorks (args.getWorkRange datatype block)) :
    (args.ownCall (args.getWorkRange datatype block) work).indexHi ≤ args.nElts work := by
  have upper := (mem_rangeWorks.mp member).2
  simp only [ownCall]
  split
  · exact le_rfl
  · obtain rfl : work = (args.getWorkRange datatype block).workHi := by omega
    exact indexHi_le datatype block

theorem Layout.coveredOnce_noFusion (layout : batch.Layout args) (turns : TakesTurns turn) (work : Nat) :
    CoveredOnce args.nBlocks (args.nElts work) fun block element =>
      ∃ call ∈ args.forEachWorkNoFusion batch.headTask.datatype block, call.Visits turn work element := by
  constructor
  · intro element inside
    obtain ⟨block, ⟨isBlock, between⟩, unique⟩ := layout.exists_block inside
    refine ⟨block, ⟨isBlock, ?_⟩, ?_⟩
    · exact (exists_visits_noFusion_iff turns _).mpr ((layout.ownCall_iff isBlock inside).mpr between)
    · rintro other ⟨isOther, visits⟩
      have own := (exists_visits_noFusion_iff turns _).mp visits
      exact unique other ⟨isOther, (layout.ownCall_iff isOther inside).mp own⟩
  · intro block element _ visits
    obtain ⟨member, -, upTo⟩ := (exists_visits_noFusion_iff turns _).mp visits
    exact upTo.trans_le (ownCall_indexHi_le member)

/-! ### Ranges are not reversed -/

variable (layout : batch.Layout args)
include layout

theorem Layout.nElts_pos (isBlock : block < args.nBlocks) : 0 < args.nElts (args.workRange block).workHi := by
  have cells := (layout.ends block isBlock).cells_pos
  rw [← layout.cells_eq] at cells
  by_contra none
  rw [show args.nElts (args.workRange block).workHi = 0 by omega] at cells
  have positive := eltPerCell_pos batch.headTask.datatype
  have := (divUp_le_iff (x := 0) positive).mpr (show 0 ≤ 0 * eltPerCell batch.headTask.datatype from Nat.zero_le _)
  omega

theorem Layout.ownCall_le (isBlock : block < args.nBlocks)
    (member : work ∈ rangeWorks (batch.range args block)) :
    (args.ownCall (batch.range args block) work).indexLo ≤
      (args.ownCall (batch.range args block) work).indexHi := by
  obtain ⟨lower, upper⟩ := mem_rangeWorks.mp member
  simp only [ownCall, range] at lower upper ⊢
  by_cases later : (args.getWorkRange batch.headTask.datatype block).workLo < work
  · rw [if_pos later]
    exact Nat.zero_le _
  rw [if_neg later]
  cases block with
  | zero =>
    rw [(@getWorkRange_zero args batch.headTask.datatype).2]
    exact Nat.zero_le _
  | succ block =>
    by_cases whole : (args.workRange block).fracHi + 1 = 2 ^ 16
    · rw [(getWorkRange_whole _ whole (layout.workHi_lt (by omega))).2]
      exact Nat.zero_le _
    · obtain ⟨workLo, indexLo⟩ := getWorkRange_part batch.headTask.datatype whole
      have small := (layout.ends block (by omega)).fracHi_lt
      have most : args.indexAt batch.headTask.datatype (args.workRange block).workHi _ ≤ _ :=
        indexAt_le _ (layout.nElts_pos (by omega)) (show (args.workRange block).fracHi + 1 < 2 ^ 16 by omega)
      obtain rfl : work = (args.workRange block).workHi := by omega
      rw [indexLo]
      split
      · exact most
      next last =>
        rw [getWorkRange_workHi] at last upper
        rcases layout.lt_or_le (show block < block + 1 by omega) isBlock with sooner | ⟨same, less⟩
        · omega
        · rw [getWorkRange_indexHi, ← same]
          exact le_min (indexAt_mono _ (Nat.succ_le_succ less)) most

end NcclCore.SymBatch
