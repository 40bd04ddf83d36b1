import NcclCore.SymmetricSched

/-! Where the scheduler puts the works. In cells, the works of a batch lie behind one
another, and channel `c` has the cells from `c * cellPerChannel` on. The entry of a
channel names the work its last cell belongs to, and the share of that work up to there.
The channels that share a work are those it begins, with or without its last one. -/
namespace NcclCore.SymmetricSchedProofs
open List Function

/-! ### Works in cells -/

section
variable {cells : List Nat} {work : Nat}

/-- The cells before a work. -/
def start (cells : List Nat) (work : Nat) : Nat := (cells.take work).sum

/-- The cells of a work. -/
def cellsOf (cells : List Nat) (work : Nat) : Nat := cells.getD work 0

theorem start_succ (cells : List Nat) (work : Nat) : start cells (work + 1) = start cells work + cellsOf cells work := by
  unfold start cellsOf
  rw [take_add_one]
  cases found : cells[work]? with
  | none | some => simp [found]

theorem start_mono (le : work ≤ work') : start cells work ≤ start cells work' := by
  induction le with
  | refl => exact le_rfl
  | step _ ih => exact ih.trans (by rw [start_succ]; omega)

theorem start_length : start cells cells.length = cells.sum := by
  rw [start, take_length]

theorem start_le_sum (cells : List Nat) (work : Nat) : start cells work ≤ cells.sum := by
  rcases Nat.le_total work cells.length with within | beyond
  · exact (start_mono within).trans_eq start_length
  · rw [start, take_of_length_le beyond]

end

/-- The share of a work up to a cell inside it. -/
theorem share_bounds (after : start cells work < stop) (inside : stop ≤ start cells (work + 1)) :
    0 < cellsOf cells work ∧
      0 < divUp (2 ^ 16 * (stop - start cells work)) (cellsOf cells work) ∧
      divUp (2 ^ 16 * (stop - start cells work)) (cellsOf cells work) ≤ 2 ^ 16 := by
  rw [start_succ] at inside
  have positive : 0 < cellsOf cells work := by omega
  refine ⟨positive, divUp_pos positive (by omega), ?_⟩
  rw [divUp_le_iff positive]
  exact Nat.mul_le_mul_left _ (by omega)

/-- The entry of a channel that ends at cell `stop`. -/
structure EndsAt (cells : List Nat) (range : ChannelWorkRange) (stop : Nat) : Prop where
  isWork : range.workHi < cells.length
  after : start cells range.workHi < stop
  inside : stop ≤ start cells (range.workHi + 1)
  frac : range.fracHi + 1 = divUp (2 ^ 16 * (stop - start cells range.workHi)) (cellsOf cells range.workHi)

variable {cells : List Nat} {range : ChannelWorkRange}

section
variable (ends : EndsAt cells range stop)
include ends

theorem EndsAt.cells_pos : 0 < cellsOf cells range.workHi :=
  (share_bounds ends.after ends.inside).1

theorem EndsAt.fracHi_lt : range.fracHi < 2 ^ 16 := by
  rw [Nat.lt_iff_add_one_le, ends.frac]
  exact (share_bounds ends.after ends.inside).2.2

/-- What is left of the work is large enough to be seen in the fraction. -/
theorem EndsAt.frac_ne (visible : cellsOf cells range.workHi ≤ 2 ^ 16 * (start cells (range.workHi + 1) - stop)) :
    range.fracHi + 1 ≠ 2 ^ 16 := by
  have inside := ends.inside
  have length := start_succ cells range.workHi
  have less : divUp (2 ^ 16 * (stop - start cells range.workHi)) (cellsOf cells range.workHi) ≤ 2 ^ 16 - 1 := by
    rw [divUp_le_iff ends.cells_pos]
    omega
  rw [ends.frac]
  omega

/-- A channel that ends later ends in a later work, or further on in the same. -/
theorem EndsAt.lt_or_le {range' : ChannelWorkRange} (order : stop < stop') (ends' : EndsAt cells range' stop') :
    range.workHi < range'.workHi ∨ range.workHi = range'.workHi ∧ range.fracHi ≤ range'.fracHi := by
  rcases lt_trichotomy range.workHi range'.workHi with before | same | behind
  · exact .inl before
  · refine .inr ⟨same, ?_⟩
    have mono : divUp (2 ^ 16 * (stop - start cells range.workHi)) (cellsOf cells range.workHi) ≤
        divUp (2 ^ 16 * (stop' - start cells range.workHi)) (cellsOf cells range.workHi) := by
      rw [divUp_le_iff ends.cells_pos]
      exact (Nat.mul_le_mul_left _ (by omega)).trans (le_divUp_mul ends.cells_pos)
    have frac := ends.frac
    have frac' := ends'.frac
    rw [← same] at frac'
    omega
  · have mono : start cells (range'.workHi + 1) ≤ start cells range.workHi := start_mono behind
    have := ends.after
    have := ends'.inside
    omega

end

/-- All cells before cell `offset` of a channel are taken. -/
structure Filled (cells : List Nat) (cellPerChannel : Nat) (fill : SymFill) (channel offset : Nat) : Prop where
  curChannel : fill.curChannel = channel
  remainCell : fill.remainCell = cellPerChannel - offset
  fresh : fill.curChannelWork = 0 ↔ offset = 0
  bound : offset < cellPerChannel
  before : ∀ earlier, earlier < channel → EndsAt cells (fill.workRange earlier) ((earlier + 1) * cellPerChannel)
  current : offset ≠ 0 → EndsAt cells (fill.workRange channel) (channel * cellPerChannel + offset)

/-- All cells before a cell are taken. -/
def FilledTo (cells : List Nat) (cellPerChannel : Nat) (fill : SymFill) (stop : Nat) : Prop :=
  ∃ channel offset, channel * cellPerChannel + offset = stop ∧ Filled cells cellPerChannel fill channel offset

section
variable {fill : SymFill}

/-- The fraction that is written for a boundary inside a work. -/
theorem endsAt_of_inside (stop : Nat) (isWork : work < cells.length) (numbered : cells.length < 2 ^ 16)
    (after : start cells work < stop) (inside : stop ≤ start cells (work + 1)) :
    EndsAt cells ⟨work % 2 ^ 16,
      (divUp (2 ^ 16 * (stop - start cells work)) (cellsOf cells work) - 1) % 2 ^ 16⟩ stop := by
  have small : work % 2 ^ 16 = work := Nat.mod_eq_of_lt (by omega)
  obtain ⟨-, some, most⟩ := share_bounds after inside
  rw [small]
  exact ⟨isWork, after, inside, by dsimp only; omega⟩

theorem divUp_whole (positive : 0 < x) : divUp (2 ^ 16 * x) x = 2 ^ 16 := by
  apply le_antisymm
  · rw [divUp_le_iff positive]
  · by_contra below
    have := (divUp_le_iff positive).mp (show divUp (2 ^ 16 * x) x ≤ 2 ^ 16 - 1 by omega)
    omega

/-- The fraction at the end of a work. -/
theorem endsAt_end (isWork : work < cells.length) (numbered : cells.length < 2 ^ 16)
    (nonempty : 0 < cellsOf cells work) :
    EndsAt cells ⟨work % 2 ^ 16, (0x10000 - 1) % 2 ^ 16⟩ (start cells (work + 1)) := by
  have inside := endsAt_of_inside (start cells (work + 1)) isWork numbered (by rw [start_succ]; omega) le_rfl
  rwa [start_succ, Nat.add_sub_cancel_left, divUp_whole nonempty, ← start_succ] at inside

theorem Filled.stay (filled : Filled cells cellPerChannel fill channel offset) (fits : cellLeft < fill.remainCell)
    (some : 0 < cellLeft)
    (ends : EndsAt cells ⟨work % 2 ^ 16, fracHi % 2 ^ 16⟩ (channel * cellPerChannel + (offset + cellLeft))) :
    Filled cells cellPerChannel { fill.withRange work fracHi with
      remainCell := (fill.withRange work fracHi).remainCell - cellLeft
      curChannelWork := (fill.withRange work fracHi).curChannelWork + 1 } channel (offset + cellLeft) := by
  have remainCell := filled.remainCell
  refine ⟨filled.curChannel, ?_, by simp; omega, by omega, ?_, ?_⟩
  · simp only [SymFill.withRange]
    omega
  · intro earlier before
    have other : earlier ≠ fill.curChannel := by rw [filled.curChannel]; omega
    simp only [SymFill.withRange, update_of_ne other]
    exact filled.before earlier before
  · intro _
    simp only [SymFill.withRange, filled.curChannel, update_self]
    exact ends

theorem Filled.next (filled : Filled cells cellPerChannel fill channel offset)
    (ends : EndsAt cells ⟨work % 2 ^ 16, fracHi % 2 ^ 16⟩ ((channel + 1) * cellPerChannel)) :
    Filled cells cellPerChannel ((fill.withRange work fracHi).nextChannel cellPerChannel) (channel + 1) 0 := by
  have positive : 0 < cellPerChannel := by have := filled.bound; omega
  refine ⟨congrArg (· + 1) filled.curChannel, rfl, by simp [SymFill.nextChannel], positive,
    ?_, fun absurd => (absurd rfl).elim⟩
  intro earlier before
  simp only [SymFill.nextChannel, SymFill.withRange, filled.curChannel]
  by_cases here : earlier = channel
  · subst here
    rw [update_self]
    exact ends
  · rw [update_of_ne here]
    exact filled.before earlier (by omega)

end

/-! ### The channels of a work -/

/-- The first channel of those that share a work: the one it begins in, unless another
work is there and this one goes on behind. -/
def firstSharing (channel offset last : Nat) : Nat :=
  if offset = 0 ∨ last = channel then channel else channel + 1

/-- What a work has counted when the channels before `channel` are done. -/
def Counted (first channel : Nat) (devWork : SymDevWork) : Prop :=
  devWork.nChannels = channel - first ∧ (first < channel → devWork.sChannelId = first)

/-- The channels a work that ends in channel `last` is shared by. Its last channel can be
left out, and is not left out only if the work about fills it or is the last of all. -/
structure Shared (cellPerChannel first last lastCells : Nat) (isLast : Prop) (devWork : SymDevWork) : Prop where
  sChannelId : devWork.sChannelId = first
  alone : first = last → devWork.nChannels = 1
  several : first < last → devWork.nChannels = last - first ∨
    devWork.nChannels = last - first + 1 ∧ (cellPerChannel ≤ lastCells + 1 ∨ isLast)

section
variable {fill : SymFill}

theorem le_remainCell_iff (filled : Filled cells cellPerChannel fill channel offset)
    (reaches : channel * cellPerChannel + offset + cellLeft = last * cellPerChannel + lastCells)
    (some : 0 < lastCells) (most : lastCells ≤ cellPerChannel) (order : channel ≤ last) :
    cellLeft ≤ fill.remainCell ↔ channel = last := by
  have remainCell := filled.remainCell
  have bound := filled.bound
  constructor
  · intro fits
    by_contra other
    have behind : (channel + 1) * cellPerChannel ≤ last * cellPerChannel := Nat.mul_le_mul_right _ (by omega)
    rw [Nat.succ_mul] at behind
    omega
  · rintro rfl
    omega

theorem claimChannel_spec (queueEmpty : Bool) (devWork : SymDevWork)
    (filled : Filled cells cellPerChannel fill channel offset)
    (reaches : channel * cellPerChannel + offset + cellLeft = last * cellPerChannel + lastCells)
    (some : 0 < lastCells) (most : lastCells ≤ cellPerChannel) (order : channel ≤ last)
    (whole : offset ≠ 0 → cellLeft = taskCell)
    (begins : (offset = 0 ∧ first ≤ channel) ∨ first = firstSharing channel offset last) :
    ∃ devWork', claimChannel fill taskCell cellLeft queueEmpty devWork = .ok devWork' ∧
      devWork'.nElts = devWork.nElts ∧
      (last < 2 ^ 16 - 1 → Counted first channel devWork →
        (channel < last → Counted first (channel + 1) devWork') ∧
        (channel = last → Shared cellPerChannel first last lastCells (queueEmpty = true) devWork')) := by
  have remainCell := filled.remainCell
  have fits := le_remainCell_iff filled reaches some most order
  have cell : (fill.remainCell - cellLeft) * symKernelCellSize ≤ 2 ^ 10 ↔ fill.remainCell ≤ cellLeft + 1 := by
    unfold symKernelCellSize
    omega
  unfold claimChannel
  by_cases fresh : offset = 0
  · have notBehind : first ≤ channel := by
      rcases begins with ⟨-, le⟩ | rfl
      · exact le
      · simp [firstSharing, fresh]
    rw [if_pos (filled.fresh.mpr fresh)]
    by_cases none : devWork.nChannels = 0
    · rw [if_pos none]
      refine ⟨_, rfl, rfl, fun small ⟨number, _⟩ => ?_⟩
      have here : channel % 2 ^ 16 = channel := Nat.mod_eq_of_lt (by omega)
      have isFirst : channel = first := by omega
      simp only [Counted, filled.curChannel, here]
      refine ⟨fun _ => ⟨by omega, fun _ => isFirst⟩, fun atLast => ⟨isFirst, fun _ => rfl, fun _ => ?_⟩⟩
      omega
    · rw [if_neg none]
      by_cases atLast : channel = last
      · rw [if_pos (fits.mpr atLast)]
        by_cases fused : ((fill.remainCell - cellLeft) * symKernelCellSize ≤ 2 ^ 10 || queueEmpty) = true
        · rw [if_pos fused]
          refine ⟨_, rfl, rfl, fun small ⟨number, begun⟩ => ⟨fun before => absurd atLast (by omega), fun _ => ?_⟩⟩
          refine ⟨begun (by omega), fun same => absurd number (by omega), fun _ => .inr ⟨by simp only; omega, ?_⟩⟩
          · simp only [Bool.or_eq_true, decide_eq_true_eq, cell] at fused
            rcases fused with full | empty
            · subst atLast
              exact .inl (by omega)
            · exact .inr empty
        · rw [if_neg fused]
          refine ⟨_, rfl, rfl, fun small ⟨number, begun⟩ => ⟨fun before => absurd atLast (by omega), fun _ => ?_⟩⟩
          exact ⟨begun (by omega), fun same => absurd number (by omega), fun _ => .inl (by omega)⟩
      · rw [if_neg (fun le => atLast (fits.mp le))]
        exact ⟨_, rfl, rfl, fun small ⟨number, begun⟩ =>
          ⟨fun _ => ⟨by simp only; omega, fun _ => begun (by omega)⟩, fun here => absurd here atLast⟩⟩
  · have isFirst : first = firstSharing channel offset last := by
      rcases begins with ⟨zero, -⟩ | same
      · exact absurd zero fresh
      · exact same
    rw [if_neg (fun zero => fresh (filled.fresh.mp zero)), if_neg (not_not.mpr (whole fresh)), ← whole fresh]
    by_cases atLast : channel = last
    · rw [if_pos (fits.mpr atLast)]
      refine ⟨_, rfl, rfl, fun small counted => ⟨fun before => absurd atLast (by omega), fun _ => ?_⟩⟩
      have here : channel % 2 ^ 16 = channel := Nat.mod_eq_of_lt (by omega)
      have same : first = channel := by simp [isFirst, firstSharing, atLast]
      exact ⟨by simp only [filled.curChannel, here, same], fun _ => rfl, fun before => absurd same (by omega)⟩
    · rw [if_neg (fun le => atLast (fits.mp le))]
      have behind : first = channel + 1 := by simp [isFirst, firstSharing, fresh, Ne.symm atLast]
      exact ⟨_, rfl, rfl, fun small ⟨number, _⟩ =>
        ⟨fun _ => ⟨by omega, fun before => by omega⟩, fun here => absurd here atLast⟩⟩

/-- One task is put on the channels: all cells up to its end are taken. -/
theorem fillChannels_spec (isWork : work < cells.length) (numbered : cells.length < 2 ^ 16)
    (nonempty : 0 < cellsOf cells work) (ends : start cells (work + 1) = last * cellPerChannel + lastCells)
    (some : 0 < lastCells) (most : lastCells ≤ cellPerChannel) (queueEmpty : Bool) (devWork : SymDevWork)
    (filled : Filled cells cellPerChannel fill channel offset) (left : 0 < cellLeft)
    (reaches : channel * cellPerChannel + offset + cellLeft = start cells (work + 1)) (order : channel ≤ last)
    (room : last < channel + channelsLeft) (begun : start cells work ≤ channel * cellPerChannel + offset)
    (whole : offset ≠ 0 → cellLeft = cellsOf cells work)
    (begins : (offset = 0 ∧ first ≤ channel) ∨ first = firstSharing channel offset last) :
    ∃ fill' devWork', fillChannels cellPerChannel work (cellsOf cells work) queueEmpty channelsLeft cellLeft fill
        devWork = .ok (fill', devWork') ∧
      FilledTo cells cellPerChannel fill' (start cells (work + 1)) ∧ devWork'.nElts = devWork.nElts ∧
      (last < 2 ^ 16 - 1 → Counted first channel devWork →
        Shared cellPerChannel first last lastCells (queueEmpty = true) devWork') := by
  induction channelsLeft generalizing channel offset cellLeft fill devWork with
  | zero => omega
  | succ channelsLeft ih =>
    have remainCell := filled.remainCell
    have bound := filled.bound
    have fits := le_remainCell_iff filled (reaches.trans ends) some most order
    obtain ⟨claimed, claim, sameElts, counts⟩ := claimChannel_spec queueEmpty devWork filled
      (reaches.trans ends) some most order whole begins
    unfold fillChannels
    simp only [claim, Except.bind, bind, pure, Except.pure]
    have atEnd := endsAt_end isWork numbered nonempty
    by_cases atLast : channel = last
    · have here : channel * cellPerChannel + (offset + cellLeft) = start cells (work + 1) := by omega
      by_cases within : cellLeft < fill.remainCell
      · rw [if_pos within]
        exact ⟨_, _, rfl, ⟨channel, offset + cellLeft, here, filled.stay within left (here ▸ atEnd)⟩, sameElts,
          fun small counted => (counts small counted).2 atLast⟩
      · have exact : cellLeft = fill.remainCell := by
          omega
        rw [if_neg within, if_pos exact]
        have boundary : start cells (work + 1) = (channel + 1) * cellPerChannel := by
          rw [Nat.succ_mul]
          omega
        exact ⟨_, _, rfl, ⟨channel + 1, 0, boundary.symm, filled.next (boundary ▸ atEnd)⟩, sameElts,
          fun small counted => (counts small counted).2 atLast⟩
    · have beyond : ¬ cellLeft ≤ fill.remainCell := fun le => atLast (fits.mp le)
      rw [if_neg (by omega), if_neg (by omega)]
      have next : (channel + 1) * cellPerChannel = channel * cellPerChannel + cellPerChannel := Nat.succ_mul ..
      have length := start_succ cells work
      have share : cellsOf cells work - (cellLeft - fill.remainCell) =
          (channel + 1) * cellPerChannel - start cells work := by omega
      have cut := endsAt_of_inside ((channel + 1) * cellPerChannel) isWork numbered (by omega) (by omega)
      have reaches' : (channel + 1) * cellPerChannel + 0 + (cellLeft - fill.remainCell) = start cells (work + 1) := by
        omega
      have notBehind : first ≤ channel + 1 := by
        rcases begins with ⟨-, le⟩ | rfl
        · omega
        · unfold firstSharing
          split <;> omega
      rw [share]
      obtain ⟨fill', devWork', run, reached, same, shared⟩ := ih claimed (filled.next cut) (by omega) reaches'
        (by omega) (by omega) (by omega) (fun zero => absurd rfl zero) (.inl ⟨rfl, notBehind⟩)
      refine ⟨fill', devWork', run, reached, same.trans sameElts, fun small counted => ?_⟩
      exact shared small ((counts small counted).1 (by omega))

end

/-! ### The batch -/

/-- How a work of the batch was placed. -/
structure Placed (cells : List Nat) (cellPerChannel nMaxChannels work : Nat) (task : SymTask) (devWork : SymDevWork) :
    Prop where
  nElts : devWork.nElts = task.count
  shared : nMaxChannels < 2 ^ 16 → ∃ channel offset last lastCells,
    start cells work = channel * cellPerChannel + offset ∧ offset < cellPerChannel ∧
      start cells (work + 1) = last * cellPerChannel + lastCells ∧ 0 < lastCells ∧ lastCells ≤ cellPerChannel ∧
      Shared cellPerChannel (firstSharing channel offset last) last lastCells
        (start cells (work + 1) = cells.sum) devWork

section
variable {fill : SymFill}

/-- The channel that has the last cell before `stop`, and its cells up to there. -/
theorem exists_last_channel (positive : 0 < cellPerChannel) (some : 0 < stop) :
    ∃ last lastCells, stop = last * cellPerChannel + lastCells ∧ 0 < lastCells ∧ lastCells ≤ cellPerChannel := by
  refine ⟨(stop - 1) / cellPerChannel, (stop - 1) % cellPerChannel + 1, ?_, Nat.succ_pos _, Nat.mod_lt _ positive⟩
  have split := Nat.div_add_mod' (stop - 1) cellPerChannel
  omega

theorem placeTask (task : SymTask) (isWork : work < cells.length) (numbered : cells.length < 2 ^ 16)
    (capacity : cells.sum ≤ nMaxChannels * cellPerChannel) (cell : 0 < cellsOf cells work) (queueEmpty : Bool)
    (atEnd : queueEmpty = true → start cells (work + 1) = cells.sum)
    (filled : FilledTo cells cellPerChannel fill (start cells work)) :
    ∃ fill' devWork, fillChannels cellPerChannel work (cellsOf cells work) queueEmpty
        (nMaxChannels - fill.curChannel) (cellsOf cells work) fill (ncclSymkMakeDevWork task) = .ok (fill', devWork) ∧
      FilledTo cells cellPerChannel fill' (start cells (work + 1)) ∧
      Placed cells cellPerChannel nMaxChannels work task devWork := by
  obtain ⟨channel, offset, here, filled⟩ := filled
  have bound := filled.bound
  have length := start_succ cells work
  obtain ⟨last, lastCells, ends, some, most⟩ :=
    exists_last_channel (show 0 < cellPerChannel by omega) (show 0 < start cells (work + 1) by omega)
  have isLast : last < nMaxChannels := by
    have : last * cellPerChannel < nMaxChannels * cellPerChannel := by
      have := start_le_sum cells (work + 1)
      omega
    exact Nat.lt_of_mul_lt_mul_right this
  have order : channel ≤ last := by
    have : channel * cellPerChannel < (last + 1) * cellPerChannel := by
      rw [Nat.succ_mul]
      omega
    exact Nat.lt_succ_iff.mp (Nat.lt_of_mul_lt_mul_right this)
  have room : last < channel + (nMaxChannels - fill.curChannel) := by
    rw [filled.curChannel]
    omega
  obtain ⟨fill', devWork, run, reached, nElts, shared⟩ :=
    fillChannels_spec isWork numbered cell ends some most queueEmpty
    (ncclSymkMakeDevWork task) filled cell (by omega) order room (by omega) (fun _ => rfl) (.inr rfl)
  refine ⟨fill', devWork, run, reached, nElts, fun small => ?_⟩
  have notBefore : channel ≤ firstSharing channel offset last := by
    unfold firstSharing
    split <;> omega
  have counted : Counted (firstSharing channel offset last) channel (ncclSymkMakeDevWork task) :=
    ⟨by simp only [ncclSymkMakeDevWork]; omega, fun before => absurd notBefore (by omega)⟩
  have result := shared (by omega) counted
  refine ⟨channel, offset, last, lastCells, here.symm, bound, ends, some, most, result.sChannelId, result.alone, ?_⟩
  intro before
  rcases result.several before with without | ⟨with_, full | empty⟩
  · exact .inl without
  · exact .inr ⟨with_, .inl full⟩
  · exact .inr ⟨with_, .inr (atEnd empty)⟩

end

section
variable {tasks : List SymTask}

theorem getElem?_of_drop_eq_cons {list tail : List α} (drop : list.drop index = item :: tail) :
    list[index]? = some item ∧ list.drop (index + 1) = tail := by
  constructor
  · have first : (list.drop index)[0]? = some item := by rw [drop]; rfl
    rwa [getElem?_drop] at first
  · rw [← drop_drop, drop, drop_succ_cons, drop_zero]

/-- The works so far are placed. -/
def PlacedSoFar (cells : List Nat) (cellPerChannel nMaxChannels : Nat) (tasks : List SymTask) (works : List SymDevWork) :
    Prop :=
  ∀ work task, work < works.length → tasks[work]? = some task → ∃ devWork, works[work]? = some devWork ∧
    Placed cells cellPerChannel nMaxChannels work task devWork

theorem PlacedSoFar.snoc (placed : PlacedSoFar cells cellPerChannel nMaxChannels tasks works)
    (isTask : tasks[works.length]? = some task)
    (new : Placed cells cellPerChannel nMaxChannels works.length task devWork) :
    PlacedSoFar cells cellPerChannel nMaxChannels tasks (works ++ [devWork]) := by
  intro work other below found
  rw [length_append, length_singleton] at below
  by_cases early : work < works.length
  · obtain ⟨old, isOld, oldPlaced⟩ := placed work other early found
    exact ⟨old, by rw [getElem?_append_left early, isOld], oldPlaced⟩
  · obtain rfl : work = works.length := by omega
    obtain rfl : task = other := Option.some.inj (isTask.symm.trans found)
    exact ⟨devWork, getElem?_concat_length, new⟩

/-- The loop over the batch places every work and stops behind the last. -/
theorem scheduleTasks_spec (positive : 0 < cellCount) (isCells : cells = tasks.map (divUp ·.count cellCount))
    (numbered : cells.length < 2 ^ 16) (counts : ∀ task ∈ tasks, 0 < task.count)
    (capacity : cells.sum ≤ nMaxChannels * cellPerChannel) (oneKernel : ∀ task ∈ tasks, task.devFuncId = devFuncId)
    (rest : List SymTask) (marked : lastTask.isSymLast = true) (works : List SymDevWork) {fill : SymFill}
    (unmarked : ∀ task ∈ init, task.isSymLast = false) (remaining : tasks.drop works.length = init ++ [lastTask])
    (placed : PlacedSoFar cells cellPerChannel nMaxChannels tasks works)
    (filled : FilledTo cells cellPerChannel fill (start cells works.length)) :
    ∃ fill' works', scheduleTasks cellCount cellPerChannel nMaxChannels devFuncId (init ++ lastTask :: rest) fill works =
        .ok (rest, fill', works') ∧
      FilledTo cells cellPerChannel fill' cells.sum ∧ works'.length = tasks.length ∧
      ∀ work task, tasks[work]? = some task → ∃ devWork, works'[work]? = some devWork ∧
        Placed cells cellPerChannel nMaxChannels work task devWork := by
  have cellOf : ∀ {work task}, tasks[work]? = some task → work < cells.length ∧
      cellsOf cells work = divUp task.count cellCount ∧ 0 < cellsOf cells work := by
    intro work task found
    have isCell : cellsOf cells work = divUp task.count cellCount := by
      simp [cellsOf, isCells, found]
    refine ⟨?_, isCell, ?_⟩
    · rw [isCells, length_map]
      exact (List.getElem?_eq_some_iff.mp found).1
    · rw [isCell]
      exact divUp_pos positive (counts task (mem_of_getElem? found))
  induction init generalizing works fill with
  | nil =>
    obtain ⟨found, behind⟩ := getElem?_of_drop_eq_cons remaining
    obtain ⟨isWork, isCell, some⟩ := cellOf found
    have all : works.length + 1 = tasks.length := by
      have := drop_eq_nil_iff.mp behind
      have := (List.getElem?_eq_some_iff.mp found).1
      omega
    have whole : start cells (works.length + 1) = cells.sum := by
      rw [all, ← start_length, isCells, length_map]
    obtain ⟨fill', devWork, run, reached, new⟩ := placeTask lastTask isWork numbered capacity some
      rest.isEmpty (fun _ => whole) filled
    refine ⟨fill', works ++ [devWork], ?_, whole ▸ reached, by simp [all], ?_⟩
    · rw [isCell] at run
      have same := oneKernel _ (mem_of_getElem? found)
      simp [scheduleTasks, same, run, marked, bind, Except.bind, pure, Except.pure]
    · intro work task isTask
      refine placed.snoc found new work task ?_ isTask
      have := (List.getElem?_eq_some_iff.mp isTask).1
      rw [length_append, length_singleton]
      omega
  | cons task init ih =>
    obtain ⟨found, behind⟩ := getElem?_of_drop_eq_cons remaining
    obtain ⟨isWork, isCell, some⟩ := cellOf found
    obtain ⟨fill', devWork, run, filled', new⟩ := placeTask task isWork numbered capacity
      some (init ++ lastTask :: rest).isEmpty (fun empty => by simp at empty) filled
    have notFull : fill'.curChannel ≠ nMaxChannels := by
      obtain ⟨next, tail, isNext⟩ : ∃ next tail, init ++ [lastTask] = next :: tail := exists_cons_of_ne_nil (by simp)
      obtain ⟨-, -, more⟩ := cellOf (getElem?_of_drop_eq_cons (behind.trans isNext)).1
      have length := start_succ cells (works.length + 1)
      have within := start_le_sum cells (works.length + 1 + 1)
      obtain ⟨channel', offset', here', inChannel⟩ := filled'
      rw [inChannel.curChannel]
      rintro rfl
      omega
    have snoc : (works ++ [devWork]).length = works.length + 1 := by simp
    obtain ⟨fill'', works', runs, reached, length, result⟩ := ih (works ++ [devWork])
      (fun other member => unmarked other (mem_cons_of_mem _ member)) (snoc ▸ behind)
      (placed.snoc found new) (snoc ▸ filled')
    rw [isCell] at run
    refine ⟨fill'', works', ?_, reached, length, result⟩
    rw [← runs]
    have same := oneKernel _ (mem_of_getElem? found)
    simp [scheduleTasks, same, run, unmarked task mem_cons_self, notFull, bind, Except.bind]

end

theorem alignUp_eq_divUp_mul (x a : Nat) : alignUp x a = divUp x a * a := by
  have split := Nat.div_add_mod' (x + a - 1) a
  unfold alignUp divUp
  omega

theorem batchCount_eq (rest : List SymTask) (oneKernel : ∀ task ∈ init ++ [lastTask], task.devFuncId = devFuncId)
    (unmarked : ∀ task ∈ init, task.isSymLast = false) (marked : lastTask.isSymLast = true) :
    batchCount cellCount devFuncId (init ++ lastTask :: rest) =
      ((init ++ [lastTask]).map (divUp ·.count cellCount)).sum * cellCount := by
  induction init with
  | nil => simp [batchCount, oneKernel lastTask (by simp), marked, alignUp_eq_divUp_mul]
  | cons task init ih =>
    have tail := ih (fun other member => oneKernel other (mem_cons_of_mem _ member))
      (fun other member => unmarked other (mem_cons_of_mem _ member))
    simp [batchCount, oneKernel task mem_cons_self, unmarked task mem_cons_self, tail, alignUp_eq_divUp_mul, add_mul]

theorem eltPerCell_pos (datatype : DataType) : 0 < eltPerCell datatype := by
  cases datatype <;> decide

end NcclCore.SymmetricSchedProofs

namespace NcclCore.SymBatch
open SymmetricSchedProofs
variable (batch : SymBatch)

/-- The tasks of the batch. -/
def all : List SymTask := batch.headTask :: batch.tasks

/-- The cells of the works. -/
def cells : List Nat := batch.all.map (divUp ·.count (eltPerCell batch.headTask.datatype))

/-- The cells of a channel: as few as are enough. -/
def cellPerChannel : Nat := divUp batch.cells.sum batch.headTask.nMaxChannels

theorem cells_length : batch.cells.length = batch.tasks.length + 1 := by
  simp [cells, all]

theorem cells_pos (isWork : work < batch.cells.length) : 0 < cellsOf batch.cells work := by
  rw [cellsOf, List.getD_eq_getElem?_getD, List.getElem?_eq_getElem isWork]
  simp only [cells, List.getElem_map, Option.getD_some]
  exact divUp_pos (eltPerCell_pos _) (batch.positive _ (List.getElem_mem _))

theorem sum_pos : 0 < batch.cells.sum := by
  have isWork : 0 < batch.cells.length := by simp [cells_length]
  have first := batch.cells_pos isWork
  have length := start_succ batch.cells 0
  have within := start_le_sum batch.cells 1
  rw [zero_add] at length
  omega

theorem cellPerChannel_pos : 0 < batch.cellPerChannel := divUp_pos batch.channels batch.sum_pos

theorem sum_le : batch.cells.sum ≤ batch.headTask.nMaxChannels * batch.cellPerChannel := by
  rw [mul_comm]
  exact le_divUp_mul batch.channels

/-- One cell less for each channel is not enough. -/
theorem lt_sum : batch.headTask.nMaxChannels * (batch.cellPerChannel - 1) < batch.cells.sum := by
  by_contra enough
  have := (divUp_le_iff batch.channels).mpr (show batch.cells.sum ≤ (batch.cellPerChannel - 1) * _ by
    rw [mul_comm]
    exact not_lt.mp enough)
  have positive := batch.cellPerChannel_pos
  unfold cellPerChannel at this positive
  omega

/-- Dividing elements by channels and then by cells rounds up only once. -/
theorem divUp_divUp_eq : divUp (divUp (batch.cells.sum * eltPerCell batch.headTask.datatype)
    batch.headTask.nMaxChannels) (eltPerCell batch.headTask.datatype) = batch.cellPerChannel := by
  have positive := eltPerCell_pos batch.headTask.datatype
  apply eq_of_forall_ge_iff
  intro bound
  rw [divUp_le_iff positive, divUp_le_iff batch.channels, cellPerChannel, divUp_le_iff batch.channels,
    Nat.mul_right_comm]
  exact Nat.mul_le_mul_right_iff positive

/-- What the scheduler leaves: where each block ends, and how each work is shared. -/
structure Layout (args : SymDevWorkArgs) : Prop where
  enough : args.nBlocks ≤ batch.headTask.nMaxChannels
  nonempty : ∀ block, block < args.nBlocks → block * batch.cellPerChannel < batch.cells.sum
  complete : batch.cells.sum ≤ args.nBlocks * batch.cellPerChannel
  ends : ∀ block, block < args.nBlocks →
    EndsAt batch.cells (args.workRange block) (min ((block + 1) * batch.cellPerChannel) batch.cells.sum)
  length : args.works.length = batch.all.length
  works : ∀ work task, batch.all[work]? = some task → ∃ devWork, args.works[work]? = some devWork ∧
    Placed batch.cells batch.cellPerChannel batch.headTask.nMaxChannels work task devWork

/-- The last channel counts if it has any cell. -/
theorem layout_of_filled (filled : FilledTo batch.cells batch.cellPerChannel fill batch.cells.sum)
    (length : works.length = batch.all.length)
    (placed : ∀ work task, batch.all[work]? = some task → ∃ devWork, works[work]? = some devWork ∧
      Placed batch.cells batch.cellPerChannel batch.headTask.nMaxChannels work task devWork) :
    batch.Layout ⟨if fill.remainCell < batch.cellPerChannel then fill.curChannel + 1 else fill.curChannel,
      fill.workRange, works⟩ := by
  obtain ⟨channel, offset, here, filled⟩ := filled
  have bound := filled.bound
  have capacity := batch.sum_le
  have isRemain : fill.remainCell < batch.cellPerChannel ↔ offset ≠ 0 := by
    rw [filled.remainCell]
    omega
  have early : ∀ {block}, block < channel → (block + 1) * batch.cellPerChannel ≤ channel * batch.cellPerChannel :=
    fun before => Nat.mul_le_mul_right _ before
  have atBoundary : ∀ block, block < channel → EndsAt batch.cells (fill.workRange block)
      (min ((block + 1) * batch.cellPerChannel) batch.cells.sum) := by
    intro block before
    rw [min_eq_left (by have := early before; omega)]
    exact filled.before block before
  by_cases exact : offset = 0
  · subst exact
    simp only [isRemain, ne_eq, not_true, if_false, filled.curChannel]
    refine ⟨?_, ?_, by simp only; omega, atBoundary, length, placed⟩
    · exact Nat.le_of_mul_le_mul_right (by simp only; omega) bound
    · intro block before
      exact here ▸ Nat.mul_lt_mul_of_pos_right before bound
  · simp only [isRemain, ne_eq, exact, not_false_eq_true, if_true, filled.curChannel]
    refine ⟨?_, ?_, ?_, ?_, length, placed⟩
    · exact Nat.lt_of_mul_lt_mul_right (show channel * batch.cellPerChannel < _ * batch.cellPerChannel by omega)
    · intro block before
      have : block * batch.cellPerChannel ≤ channel * batch.cellPerChannel :=
        Nat.mul_le_mul_right _ (Nat.lt_succ_iff.mp before)
      omega
    · rw [Nat.succ_mul]
      omega
    · intro block before
      by_cases early : block < channel
      · exact atBoundary block early
      · obtain rfl : block = channel := by simp only at before; omega
        rw [min_eq_right (by rw [Nat.succ_mul]; omega), ← here]
        exact filled.current exact

theorem scheduler_layout : ∃ args, ncclSymmetricTaskScheduler batch.headTask (batch.tasks ++ batch.rest) =
    .ok (args, batch.rest) ∧ batch.Layout args := by
  obtain ⟨init, last, isAll, unmarked, marked⟩ := batch.marked
  have oneKernel : ∀ task ∈ batch.headTask :: batch.tasks, task.devFuncId = batch.headTask.devFuncId :=
    List.forall_mem_cons.mpr ⟨rfl, batch.oneKernel⟩
  have queue : batch.headTask :: (batch.tasks ++ batch.rest) = init ++ last :: batch.rest := by
    rw [← List.cons_append, isAll, List.append_assoc, List.singleton_append]
  have total : batchCount (eltPerCell batch.headTask.datatype) batch.headTask.devFuncId
      (init ++ last :: batch.rest) = batch.cells.sum * eltPerCell batch.headTask.datatype := by
    rw [batchCount_eq batch.rest (isAll ▸ oneKernel) unmarked marked, ← isAll]
    rfl
  have isCells : batch.cells = batch.all.map (divUp ·.count (eltPerCell batch.headTask.datatype)) := rfl
  have first : Filled batch.cells batch.cellPerChannel ⟨0, 0, batch.cellPerChannel, fun _ => ⟨0, 0⟩⟩ 0 0 :=
    ⟨rfl, rfl, Iff.rfl, batch.cellPerChannel_pos, nofun, fun zero => absurd rfl zero⟩
  obtain ⟨fill, works, run, filled, length, placed⟩ :=
    scheduleTasks_spec (eltPerCell_pos _) isCells (by rw [cells_length]; exact batch.numbered) batch.positive
      batch.sum_le oneKernel batch.rest marked [] unmarked isAll (fun _ _ below => absurd below (Nat.not_lt_zero _))
      ⟨0, 0, by simp [start], first⟩
  refine ⟨⟨if fill.remainCell < batch.cellPerChannel then fill.curChannel + 1 else fill.curChannel,
    fill.workRange, works⟩, ?_, batch.layout_of_filled filled length placed⟩
  simp [ncclSymmetricTaskScheduler, queue, total, divUp_divUp_eq, run, bind, Except.bind, pure, Except.pure]

end NcclCore.SymBatch
