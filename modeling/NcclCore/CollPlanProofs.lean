import NcclCore.CollPlan
import NcclCore.Lib.Cuts

/-! Every collective a plan takes by continuous byte distribution gets channels
of its kind and counts that add up. The invariant of the second pass is about
its cursor: it stands on a channel of the current kind, and that channel still
has traffic to give unless it is the last one. -/
namespace NcclCore.CollPlanProofs
open Function Option

/-! ## Checked arithmetic -/

theorem checkedSub_eq (le : y ≤ x) : checkedSub x y = some (x - y) := if_pos le

theorem checkedDiv_eq (positive : 0 < y) : checkedDiv x y = some (x / y) :=
  if_neg (pos_iff_ne_zero.mp positive)

theorem checkedMod_eq (positive : 0 < y) : checkedMod x y = some (x % y) :=
  if_neg (pos_iff_ne_zero.mp positive)

theorem checkedDivUp_eq (positive : 0 < y) : checkedDivUp x y = some (divUp x y) :=
  if_neg (pos_iff_ne_zero.mp positive)

theorem asInt_eq (bound : x < 2 ^ 31) : asInt x = some x := if_pos bound

/-! ## The cells of a task -/

/-- What the split needs of the cells: they cover the task, the last one is not
superfluous, and their traffic stays within a fixed multiple of what the first
pass accounted for. -/
structure ShapeOk (count traffic : Nat) (shape : CellShape) : Prop where
  cells : 0 < shape.cells
  cell : 0 < shape.trafficPerCell
  covered : count ≤ shape.cells * shape.elementsPerCell
  tight : shape.cells * shape.elementsPerCell < count + shape.elementsPerCell
  weight : shape.cells * shape.trafficPerCell ≤ 545 * max minTrafficPerChannel traffic

variable {comm : CollComm}

theorem funcTraffic_pos (comm : CollComm) (func : CollFunc) : 0 < ncclFuncTrafficPerByte func comm.nRanks := by
  have := comm.someRank
  cases func <;> simp [ncclFuncTrafficPerByte, this]

theorem trafficPerByte_bounds (task : CollTask comm) :
    0 < task.trafficPerByte ∧ task.trafficPerByte ≤ ncclFuncTrafficPerByte task.func comm.nRanks * 4 := by
  have := funcTraffic_pos comm task.func
  unfold CollTask.trafficPerByte
  split <;> omega

variable {count traffic : Nat}

/-- The traffic of the cells, from that of the elements and one cell's rounding. -/
private theorem cells_weight (some_count : 0 < count) (some_size : 0 < elementSize)
    (most : trafficPerByte ≤ traffic * 4) (weighted : count * (elementSize * (traffic * 4)) ≤ 32 * trafficBytes)
    (cellTraffic : cellSize * trafficPerByte < minTrafficPerChannel + 16 * trafficPerByte)
    (rounded : cells * cellSize < count * elementSize + cellSize) :
    cells * (cellSize * trafficPerByte) ≤ 545 * max minTrafficPerChannel trafficBytes := by
  have payload : count * elementSize * trafficPerByte ≤ 32 * trafficBytes := by
    calc count * elementSize * trafficPerByte ≤ count * elementSize * (traffic * 4) := Nat.mul_le_mul_left _ most
      _ = count * (elementSize * (traffic * 4)) := mul_assoc _ _ _
      _ ≤ 32 * trafficBytes := weighted
  have single : trafficPerByte ≤ 32 * trafficBytes := by
    calc trafficPerByte ≤ count * elementSize * trafficPerByte :=
          Nat.le_mul_of_pos_left _ (mul_pos some_count some_size)
      _ ≤ 32 * trafficBytes := payload
  have total : cells * (cellSize * trafficPerByte) ≤
      count * elementSize * trafficPerByte + cellSize * trafficPerByte := by
    calc cells * (cellSize * trafficPerByte) = cells * cellSize * trafficPerByte := (mul_assoc _ _ _).symm
      _ ≤ (count * elementSize + cellSize) * trafficPerByte := Nat.mul_le_mul_right _ rounded.le
      _ = count * elementSize * trafficPerByte + cellSize * trafficPerByte := add_mul _ _ _
  omega

theorem cellShape_ok (task : CollTask comm) :
    ∃ shape, task.cellShape = some shape ∧ ShapeOk task.count task.trafficBytes shape := by
  obtain ⟨traffic, most⟩ := trafficPerByte_bounds task
  obtain ⟨packed, word⟩ : ncclTypeSize task.datatype ∣ 16 := by cases task.datatype <;> decide
  have size : 0 < ncclTypeSize task.datatype := by cases task.datatype <;> decide
  have inner : divUp minTrafficPerChannel task.trafficPerByte * task.trafficPerByte <
      minTrafficPerChannel + task.trafficPerByte := divUp_mul_lt traffic
  have innerPos : 0 < divUp minTrafficPerChannel task.trafficPerByte := divUp_pos traffic (by decide)
  have innerLe : divUp minTrafficPerChannel task.trafficPerByte ≤ 32768 :=
    (divUp_le_iff traffic).mpr (Nat.le_mul_of_pos_right _ traffic)
  simp only [CollTask.cellShape, checkedDivUp_eq traffic, bind_eq_bind, bind_some]
  generalize divUp minTrafficPerChannel task.trafficPerByte = perByte at inner innerPos innerLe ⊢
  have blocks : 0 < divUp perByte 16 := divUp_pos (by decide) innerPos
  have outer : divUp perByte 16 * 16 < perByte + 16 := divUp_mul_lt (by decide)
  rw [checkedDivUp_eq (by decide)]
  generalize divUp perByte 16 = blocksPerCell at blocks outer ⊢
  have divided : blocksPerCell * 16 / ncclTypeSize task.datatype = blocksPerCell * packed := by
    rw [word, mul_left_comm, Nat.mul_div_cancel_left _ size]
  have whole : blocksPerCell * packed * ncclTypeSize task.datatype = blocksPerCell * 16 := by
    rw [mul_assoc, mul_comm packed, ← word]
  have small : blocksPerCell * packed < 2 ^ 31 := by
    have : blocksPerCell * packed ≤ blocksPerCell * 16 := by
      rw [← whole]
      exact Nat.le_mul_of_pos_right _ size
    omega
  have cellPos : 0 < blocksPerCell * 16 := by omega
  simp only [bind_some, checkedDiv_eq size, divided, asInt_eq small, checkedDivUp_eq cellPos]
  refine ⟨_, rfl, divUp_pos cellPos (mul_pos task.someCount size), mul_pos cellPos traffic, ?_, ?_, ?_⟩
  · apply Nat.le_of_mul_le_mul_right _ size
    rw [mul_assoc, whole]
    exact le_divUp_mul cellPos
  · apply Nat.lt_of_mul_lt_mul_right (a := ncclTypeSize task.datatype)
    rw [mul_assoc, add_mul, whole]
    exact divUp_mul_lt cellPos
  · refine cells_weight task.someCount size most task.weighted ?_ (divUp_mul_lt cellPos)
    have : blocksPerCell * 16 * task.trafficPerByte ≤ (perByte + 15) * task.trafficPerByte :=
      Nat.mul_le_mul_right _ (by omega)
    rw [add_mul] at this
    omega

/-! ## The split -/

/-- A split that uses the channels from `channelId` on, none of them in vain. -/
structure SplitOk (nMax channelId cells : Nat) (split : CellSplit) : Prop where
  start : split.channelId = channelId
  lo : 0 < split.cellsLo
  total : split.cellsLo + split.nMidChannels * split.cellsPerChannel + split.cellsHi = cells
  mid : split.nMidChannels ≠ 0 → 0 < split.cellsPerChannel ∧ 0 < split.cellsHi
  fits : channelId + channelsUsed split.cellsLo split.nMidChannels split.cellsHi ≤ nMax

theorem SplitOk.no_mid (splitOk : SplitOk nMax channelId cells split) (top : split.cellsHi = 0) :
    split.nMidChannels = 0 := by
  by_contra mid
  have := (splitOk.mid mid).2
  omega

/-- Where the cursor may stand before a task is placed. -/
structure Standing (nMax trafficPerChannel channelId currentTraffic : Nat) : Prop where
  share : 0 < trafficPerChannel
  inside : channelId < nMax
  vacant : currentTraffic < trafficPerChannel ∨ channelId + 1 = nMax

/-- The quotient that is stored in an `int` is small: the cells of one task
cannot need many more channels than the traffic was divided by. -/
private theorem mid_fits_int (cellsLo : Nat) (share : traffic ≤ 128 * trafficPerChannel)
    (positive : 0 < trafficPerChannel)
    (enough : cellsPerChannel = cells ∨ trafficPerChannel ≤ cellsPerChannel * trafficPerCell)
    (weight : cells * trafficPerCell ≤ 545 * traffic) : (cells - cellsLo) / cellsPerChannel < 2 ^ 31 := by
  have most : (cells - cellsLo) / cellsPerChannel ≤ cells / cellsPerChannel := Nat.div_le_div_right (Nat.sub_le _ _)
  rcases enough with all | enough
  · have : cells / cellsPerChannel ≤ 1 := Nat.div_le_of_le_mul (by omega)
    omega
  · have bounded : cells / cellsPerChannel * trafficPerChannel ≤ 69760 * trafficPerChannel := by
      calc cells / cellsPerChannel * trafficPerChannel
          ≤ cells / cellsPerChannel * (cellsPerChannel * trafficPerCell) := Nat.mul_le_mul_left _ enough
        _ = cells / cellsPerChannel * cellsPerChannel * trafficPerCell := (mul_assoc _ _ _).symm
        _ ≤ cells * trafficPerCell := Nat.mul_le_mul_right _ (Nat.div_mul_le_self _ _)
        _ ≤ 545 * traffic := weight
        _ ≤ 69760 * trafficPerChannel := by omega
    have := Nat.le_of_mul_le_mul_right bounded positive
    omega

/-- The split before the number of channels is limited. -/
structure TrafficSplit (nMax channelId cells : Nat) (split : CellSplit) : Prop where
  start : split.channelId = channelId
  lo : 0 < split.cellsLo
  perChannel : 0 < split.cellsPerChannel
  total : split.cellsLo + split.nMidChannels * split.cellsPerChannel + split.cellsHi = cells
  lastChannel : channelId + 1 = nMax → split.cellsLo = cells

variable {nMax channelId currentTraffic : Nat}

section
variable (standing : Standing nMax trafficPerChannel channelId currentTraffic) (shapeOk : ShapeOk count traffic shape)
include standing shapeOk

private theorem leastCells_ok :
    ∃ cellsLo, leastCells nMax trafficPerChannel channelId currentTraffic shape = some cellsLo ∧
      0 < cellsLo ∧ cellsLo ≤ shape.cells ∧ (channelId + 1 = nMax → cellsLo = shape.cells) := by
  have cells := shapeOk.cells
  by_cases last : channelId + 1 = nMax
  · exact ⟨shape.cells, if_pos last, cells, le_rfl, fun _ => rfl⟩
  · have vacant := standing.vacant.resolve_right last
    have fitting : 0 < divUp (trafficPerChannel - currentTraffic) shape.trafficPerCell :=
      divUp_pos shapeOk.cell (by omega)
    refine ⟨min shape.cells (divUp (trafficPerChannel - currentTraffic) shape.trafficPerCell), ?_,
      by omega, by omega, fun same => absurd same last⟩
    simp only [leastCells, last, ↓reduceIte, checkedSub_eq vacant.le, checkedDivUp_eq shapeOk.cell,
      bind_eq_bind, bind_some]
    rfl

/-- What follows the least channel is divided by what a channel gets. -/
theorem splitByTraffic_ok (share : max minTrafficPerChannel traffic ≤ 128 * trafficPerChannel) :
    ∃ split, splitByTraffic nMax trafficPerChannel channelId currentTraffic shape = some split ∧
      leastCells nMax trafficPerChannel channelId currentTraffic shape = some split.cellsLo ∧
      split.cellsPerChannel = min shape.cells (divUp trafficPerChannel shape.trafficPerCell) ∧
      split.nMidChannels = (shape.cells - split.cellsLo) / split.cellsPerChannel ∧
      split.cellsHi = (shape.cells - split.cellsLo) % split.cellsPerChannel ∧
      TrafficSplit nMax channelId shape.cells split := by
  have full := divUp_pos shapeOk.cell standing.share
  have whole : trafficPerChannel ≤ divUp trafficPerChannel shape.trafficPerCell * shape.trafficPerCell :=
    le_divUp_mul shapeOk.cell
  obtain ⟨cellsLo, chosen, lo, le, lastChannel⟩ := leastCells_ok standing shapeOk
  simp only [splitByTraffic, checkedDivUp_eq shapeOk.cell, bind_eq_bind, bind_some, chosen, checkedSub_eq le]
  generalize divUp trafficPerChannel shape.trafficPerCell = fitting at full whole ⊢
  have enough : min shape.cells fitting = shape.cells ∨
      trafficPerChannel ≤ min shape.cells fitting * shape.trafficPerCell := by
    rcases Nat.le_total shape.cells fitting with few | many
    · exact Or.inl (min_eq_left few)
    · rw [min_eq_right many]
      exact Or.inr whole
  have perChannel : 0 < min shape.cells fitting := by
    omega
  generalize min shape.cells fitting = cellsPerChannel at enough perChannel ⊢
  have small := mid_fits_int cellsLo share standing.share enough shapeOk.weight
  have total := Nat.div_add_mod (shape.cells - cellsLo) cellsPerChannel
  simp only [checkedDiv_eq perChannel, bind_some, asInt_eq small, checkedMod_eq perChannel]
  refine ⟨_, rfl, rfl, rfl, rfl, rfl, rfl, lo, perChannel, ?_, lastChannel⟩
  rw [mul_comm] at total
  simp only
  omega

end

variable {split : CellSplit}

/-- The overflow branch runs only with at least one channel behind the first,
and then there is a cell for each channel it spreads over. -/
theorem splitOverflow_ok (inside : channelId < nMax) (traffic : TrafficSplit nMax channelId cells split)
    (overflow : nMax < channelId + channelsUsed split.cellsLo split.nMidChannels split.cellsHi) :
    ∃ spread, splitOverflow nMax cells split = some spread ∧ SplitOk nMax channelId cells spread ∧
      channelId + channelsUsed spread.cellsLo spread.nMidChannels spread.cellsHi = nMax := by
  have lo := traffic.lo
  have total := traffic.total
  have many : split.nMidChannels ≤ split.nMidChannels * split.cellsPerChannel :=
    Nat.le_mul_of_pos_right _ traffic.perChannel
  have room : channelId + 2 ≤ nMax := by
    by_contra tight
    have lastOnly : split.cellsLo = cells := traffic.lastChannel (by omega)
    have : channelsUsed split.cellsLo split.nMidChannels split.cellsHi = 1 := by
      have noMid : split.nMidChannels = 0 := by omega
      have noHi : split.cellsHi = 0 := by omega
      simp [channelsUsed, noMid, noHi, pos_iff_ne_zero.mp lo]
    omega
  obtain ⟨spare, rfl⟩ := Nat.exists_eq_add_of_le room
  have enough : spare + 1 ≤ cells - split.cellsLo := by
    have : channelsUsed split.cellsLo split.nMidChannels split.cellsHi ≤ 1 + split.nMidChannels + split.cellsHi := by
      unfold channelsUsed
      split <;> split <;> omega
    omega
  have perChannel := Nat.div_pos enough (Nat.succ_pos _)
  have shared := Nat.div_add_mod (cells - split.cellsLo) (spare + 1)
  rw [add_mul] at shared
  have several : 0 < spare + 1 := Nat.succ_pos spare
  have difference : channelId + 2 + spare - (channelId + 2) = spare := by omega
  simp only [splitOverflow, traffic.start, checkedSub_eq room, difference,
    checkedSub_eq (show split.cellsLo ≤ cells by omega), checkedDiv_eq several,
      checkedMod_eq several, bind_eq_bind, bind_some]
  have all : channelId + channelsUsed split.cellsLo spare
      ((cells - split.cellsLo) / (spare + 1) + (cells - split.cellsLo) % (spare + 1)) = channelId + 2 + spare := by
    have : (cells - split.cellsLo) / (spare + 1) + (cells - split.cellsLo) % (spare + 1) ≠ 0 := by omega
    simp only [channelsUsed, pos_iff_ne_zero.mp lo, this, ne_eq, not_false_eq_true, ↓reduceIte]
    omega
  refine ⟨_, rfl, ⟨rfl, lo, ?_, fun _ => ⟨perChannel, ?_⟩, all.le⟩, all⟩
  · simp only
    omega
  · simp only
    omega

theorem normalizeSplit_ok (start : split.channelId = channelId) (lo : 0 < split.cellsLo)
    (perChannel : split.nMidChannels ≠ 0 → 0 < split.cellsPerChannel)
    (total : split.cellsLo + split.nMidChannels * split.cellsPerChannel + split.cellsHi = cells)
    (fits : channelId + channelsUsed split.cellsLo split.nMidChannels split.cellsHi ≤ nMax) :
    SplitOk nMax channelId cells (normalizeSplit split) := by
  have lo' := pos_iff_ne_zero.mp lo
  by_cases trade : split.cellsHi = 0 ∧ split.nMidChannels ≠ 0
  · obtain ⟨hi, mid⟩ := trade
    obtain ⟨fewer, more⟩ := Nat.exists_eq_succ_of_ne_zero mid
    have positive := perChannel mid
    simp only [normalizeSplit, hi, mid, ne_eq, not_false_eq_true, and_self, ↓reduceIte, lo']
    rw [more, Nat.succ_mul] at total
    simp only [channelsUsed, hi, more, lo', ne_eq, not_true_eq_false, not_false_eq_true, ↓reduceIte] at fits
    refine ⟨start, lo, ?_, fun _ => ⟨positive, positive⟩, ?_⟩
    · simp only [more, Nat.succ_sub_one]
      omega
    · simp only [channelsUsed, more, lo', pos_iff_ne_zero.mp positive, ne_eq, not_false_eq_true, ↓reduceIte,
        Nat.succ_sub_one]
      omega
  · simp only [normalizeSplit, trade, lo', ↓reduceIte]
    refine ⟨start, lo, total, fun mid => ⟨perChannel mid, ?_⟩, fits⟩
    by_contra hi
    exact trade ⟨by omega, mid⟩

theorem splitCells_ok
    (standing : Standing nMax trafficPerChannel channelId currentTraffic) (shapeOk : ShapeOk count traffic shape)
    (share : max minTrafficPerChannel traffic ≤ 128 * trafficPerChannel) :
    ∃ split, splitCells nMax trafficPerChannel channelId currentTraffic shape = some split ∧
      SplitOk nMax channelId shape.cells split := by
  obtain ⟨split, chosen, -, -, -, -, ok⟩ := splitByTraffic_ok standing shapeOk share
  simp only [splitCells, chosen, bind_eq_bind, bind_some]
  by_cases overflow : nMax < channelId + channelsUsed split.cellsLo split.nMidChannels split.cellsHi
  · obtain ⟨spread, spreads, spreadOk, -⟩ := splitOverflow_ok standing.inside ok overflow
    simp only [overflow, ↓reduceIte, spreads, bind_some]
    exact ⟨_, rfl, normalizeSplit_ok spreadOk.start spreadOk.lo (fun mid => (spreadOk.mid mid).1) spreadOk.total
      spreadOk.fits⟩
  · simp only [overflow, ↓reduceIte]
    exact ⟨_, rfl, normalizeSplit_ok ok.start ok.lo (fun _ => ok.perChannel) ok.total (by omega)⟩

/-! ## The counts -/

/-- Where the range of a channel ends. -/
def partEnd (work : DevWorkColl) (channel : Nat) : Nat :=
  (ncclCollCbdPart work channel).1 + (ncclCollCbdPart work channel).2

/-- The work of a task of `count` elements on channels below `nMax`: the counts
add up, also by the sum the device forms, and the ranges of the channels from
`channelLo` to `channelHi` follow one another from the first element to the
last, so that every element lies in exactly one of them. -/
structure CbdExact (nMax count : Nat) (work : DevWorkColl) : Prop where
  ordered : work.channelLo ≤ work.channelHi
  inside : work.channelHi < nMax
  single : work.channelLo = work.channelHi → work.countLo = count
  several : work.channelLo < work.channelHi →
    work.countLo + (work.channelHi - work.channelLo - 1) * work.countMid + work.countHi = count
  deviceTotal : cbdCount work = count
  first : (ncclCollCbdPart work work.channelLo).1 = 0
  consecutive : ∀ channel, work.channelLo ≤ channel → channel < work.channelHi →
    partEnd work channel = (ncclCollCbdPart work (channel + 1)).1
  last : partEnd work work.channelHi = count
  unique : ∀ element < count, ∃! channel, (work.channelLo ≤ channel ∧ channel < work.channelHi + 1) ∧
    (ncclCollCbdPart work channel).1 ≤ element ∧ element < partEnd work channel

/-- The counts of a split before the ranges are looked at. -/
structure CountsOk (count : Nat) (split : CellSplit) (work : DevWorkColl) : Prop where
  channelLo : work.channelLo = split.channelId
  channelHi : work.channelHi + 1 = split.channelId + channelsUsed work.countLo split.nMidChannels split.cellsHi
  lo : 0 < work.countLo
  hi : work.countHi = 0 ↔ split.cellsHi = 0
  mid : split.nMidChannels = 0 → work.countMid = 0
  total : work.countLo + split.nMidChannels * work.countMid + work.countHi = count

theorem cbdWork_ok (shapeOk : ShapeOk count traffic shape) (splitOk : SplitOk nMax channelId shape.cells split) :
    ∃ work, cbdWork count shape split = some work ∧ CountsOk count split work := by
  have tight := shapeOk.tight
  have covered := shapeOk.covered
  simp only [cbdWork, checkedSub_eq covered, bind_eq_bind, bind_some]
  generalize shape.elementsPerCell = perCell at tight covered ⊢
  have lo : perCell ≤ split.cellsLo * perCell := Nat.le_mul_of_pos_left _ splitOk.lo
  have total : split.cellsLo * perCell + split.nMidChannels * (split.cellsPerChannel * perCell) +
      split.cellsHi * perCell = shape.cells * perCell := by
    rw [← splitOk.total, add_mul, add_mul, mul_assoc]
  have middle : split.nMidChannels * (if split.nMidChannels ≠ 0 then split.cellsPerChannel * perCell else 0) =
      split.nMidChannels * (split.cellsPerChannel * perCell) := by
    by_cases none : split.nMidChannels = 0
    · simp [none]
    · simp [none]
  have noMid : split.nMidChannels = 0 →
      (if split.nMidChannels ≠ 0 then split.cellsPerChannel * perCell else 0) = 0 := by
    intro none
    simp [none]
  by_cases top : split.cellsHi = 0
  · have none := splitOk.no_mid top
    simp only [top, none, zero_mul, add_zero] at total
    have trimmed : shape.cells * perCell - count ≤ split.cellsLo * perCell := by omega
    have positive : 0 < split.cellsLo * perCell - (shape.cells * perCell - count) := by
      omega
    have one : channelsUsed (split.cellsLo * perCell - (shape.cells * perCell - count))
        split.nMidChannels split.cellsHi = 1 := by
      simp [channelsUsed, top, none, pos_iff_ne_zero.mp positive]
    simp only [top, zero_mul, ne_eq, not_true_eq_false, ↓reduceIte, checkedSub_eq trimmed, map_some,
      bind_some] at one ⊢
    rw [one]
    refine ⟨_, rfl, rfl, ?_, positive, ?_, noMid, ?_⟩
    · simp only [top, one]
      omega
    · simp [top]
    · simp only [none, zero_mul]
      omega
  · have hi : perCell ≤ split.cellsHi * perCell := Nat.le_mul_of_pos_left _ (Nat.pos_of_ne_zero top)
    have trimmed : shape.cells * perCell - count ≤ split.cellsHi * perCell := by omega
    have present : split.cellsHi * perCell ≠ 0 := by omega
    have used : 1 ≤ split.channelId + channelsUsed (split.cellsLo * perCell) split.nMidChannels split.cellsHi := by
      simp only [channelsUsed, top, ne_eq, not_false_eq_true, ↓reduceIte]
      omega
    simp only [present, ne_eq, not_false_eq_true, ↓reduceIte, checkedSub_eq trimmed, map_some, bind_some]
    rw [checkedSub_eq used]
    refine ⟨_, rfl, rfl, ?_, by simp only; omega, ?_, noMid, ?_⟩
    · simp only
      omega
    · simp only [top, iff_false]
      omega
    · simp only [middle]
      omega

/-! ## The ranges of the channels -/

private theorem cbdPart_lo (work : DevWorkColl) : ncclCollCbdPart work work.channelLo = (0, work.countLo) := if_pos rfl

private theorem cbdPart_offset (lower : work.channelLo < channel) :
    (ncclCollCbdPart work channel).1 = work.countLo + (channel - work.channelLo - 1) * work.countMid := by
  by_cases top : channel = work.channelHi
  · simp [ncclCollCbdPart, top, show work.channelHi ≠ work.channelLo by omega]
  · simp [ncclCollCbdPart, top, show channel ≠ work.channelLo by omega]

private theorem cbdPart_consecutive (channel : Nat) (lower : work.channelLo ≤ channel) (upper : channel < work.channelHi) :
    partEnd work channel = (ncclCollCbdPart work (channel + 1)).1 := by
  rw [partEnd, cbdPart_offset (show work.channelLo < channel + 1 by omega)]
  rcases Nat.eq_or_lt_of_le lower with rfl | after
  · simp [cbdPart_lo]
  · have mid : (ncclCollCbdPart work channel).2 = work.countMid := by
      simp [ncclCollCbdPart, show channel ≠ work.channelLo by omega, show channel ≠ work.channelHi by omega]
    obtain ⟨steps, rfl⟩ := Nat.exists_eq_add_of_lt after
    rw [cbdPart_offset after, mid, show work.channelLo + steps + 1 - work.channelLo - 1 = steps by omega,
      show work.channelLo + steps + 1 + 1 - work.channelLo - 1 = steps + 1 by omega, Nat.succ_mul, add_assoc]

/-- Consecutive ranges from the first element to the last hold every element
exactly once. -/
private theorem cbdPart_unique (ordered : work.channelLo ≤ work.channelHi)
    (last : partEnd work work.channelHi = count) (bound : element < count) :
    ∃! channel, (work.channelLo ≤ channel ∧ channel < work.channelHi + 1) ∧
      (ncclCollCbdPart work channel).1 ≤ element ∧ element < partEnd work channel := by
  let cut : Nat → Nat := fun channel => if channel ≤ work.channelHi then (ncclCollCbdPart work channel).1 else count
  have start : ∀ channel, channel < work.channelHi + 1 → cut channel = (ncclCollCbdPart work channel).1 :=
    fun channel upper => if_pos (Nat.le_of_lt_succ upper)
  have stop : ∀ channel, work.channelLo ≤ channel → channel < work.channelHi + 1 →
      cut (channel + 1) = partEnd work channel := by
    intro channel lower upper
    by_cases top : channel = work.channelHi
    · subst top
      exact (if_neg (Nat.not_succ_le_self _)).trans last.symm
    · rw [start _ (by omega)]
      exact (cbdPart_consecutive channel lower (by omega)).symm
  have increasing : ∀ channel, work.channelLo ≤ channel → channel < work.channelHi + 1 →
      cut channel ≤ cut (channel + 1) := by
    intro channel lower upper
    rw [start _ upper, stop _ lower upper]
    exact le_self_add
  have lowest : cut work.channelLo ≤ element := by
    rw [start _ (by omega), cbdPart_lo]
    exact Nat.zero_le _
  have highest : element < cut (work.channelHi + 1) := by
    rw [stop _ ordered (lt_add_one _), last]
    exact bound
  have pieces := Lib.existsUnique_piece increasing (by omega) lowest highest
  refine (existsUnique_congr fun channel => and_congr_right fun inside => ?_).mp pieces
  rw [start _ inside.2, stop _ inside.1 inside.2]

theorem cbdExact_of_counts (splitOk : SplitOk nMax channelId cells split) (counts : CountsOk count split work) :
    CbdExact nMax count work := by
  have lo := pos_iff_ne_zero.mp counts.lo
  have channelHi := counts.channelHi
  have fits := splitOk.fits
  have total := counts.total
  have start := counts.channelLo
  rw [splitOk.start] at channelHi start
  simp only [channelsUsed, lo, pos_iff_ne_zero.mp splitOk.lo, ne_eq, not_false_eq_true, ↓reduceIte] at channelHi fits
  by_cases top : split.cellsHi = 0
  · have none := splitOk.no_mid top
    have noHi := counts.hi.mpr top
    have noMid := counts.mid none
    simp only [top, none, not_true_eq_false, ↓reduceIte] at channelHi fits
    have one : work.channelHi = work.channelLo := by omega
    simp only [none, noHi, zero_mul, add_zero] at total
    have last : partEnd work work.channelHi = count := by
      rw [one, partEnd, cbdPart_lo]
      simpa using total
    refine ⟨by omega, by omega, fun _ => total, by omega, ?_, by rw [cbdPart_lo], ?_, last,
      fun element bound => cbdPart_unique (by omega) last bound⟩
    · simp [cbdCount, noMid, noHi, total]
    · intro channel lower upper
      omega
  · simp only [top, not_false_eq_true, ↓reduceIte] at channelHi fits
    have middle : work.channelHi - work.channelLo - 1 = split.nMidChannels := by omega
    have last : partEnd work work.channelHi = count := by
      have share : (ncclCollCbdPart work work.channelHi).2 = work.countHi := by
        simp [ncclCollCbdPart, show work.channelHi ≠ work.channelLo by omega]
      rw [partEnd, cbdPart_offset (by omega), share, middle]
      exact total
    refine ⟨by omega, by omega, by omega, fun _ => by rw [middle]; exact total, ?_, by rw [cbdPart_lo],
      cbdPart_consecutive, last, fun element bound => cbdPart_unique (by omega) last bound⟩
    have exact : ((work.channelHi : Int) - work.channelLo - 1) = (split.nMidChannels : Int) := by omega
    simp only [cbdCount, exact, ← total]
    push_cast
    ring

/-! ## The two passes -/

/-- What the first pass guarantees a task it has accepted. -/
structure Accounted (estimate : CollEstimate) (task : CollTask comm) : Prop where
  channels : 0 < estimate.nChannels task.kind ∧ estimate.nChannels task.kind ≤ 64
  traffic : max minTrafficPerChannel task.trafficBytes ≤ estimate.trafficBytes task.kind

theorem cappedChannels_pos (task : CollTask comm) : 0 < task.cappedChannels := by
  have := task.someMinCTA
  have := task.someMaxCTA
  have nvls := task.someNvlsCTA
  simp only [CollTask.cappedChannels]
  split
  next nvlsCTAs _ chosen =>
    have : nvlsCTAs ≠ 0 := fun zero => nvls (by rw [chosen, zero])
    omega
  · omega

theorem nMaxChannels_bounds (task : CollTask comm) :
    0 < comm.nMaxChannels task.kind ∧ comm.nMaxChannels task.kind ≤ 64 := by
  have := comm.someChannel
  have := comm.nvlsBound
  have available := task.nvlsAvailable
  generalize task.kind = kind at available ⊢
  obtain ⟨isCollnet, isNvls⟩ := kind
  cases isNvls with
  | false => cases isCollnet <;> exact ⟨comm.someChannel, comm.channelsBound⟩
  | true =>
    have some_nvls := available rfl
    cases isCollnet <;> simp only [CollComm.nMaxChannels] <;> omega

/-- Accepting a task never takes anything from the tasks accepted before. -/
structure Grows (comm : CollComm) (before after : CollEstimate) : Prop where
  traffic : ∀ kind, before.trafficBytes kind ≤ after.trafficBytes kind
  channels : ∀ kind, before.nChannels kind ≤ after.nChannels kind
  limit : ∀ kind, after.nChannels kind ≤ comm.nMaxChannels kind

variable {estimate : CollEstimate}

theorem add_grows (task : CollTask comm)
    (limit : ∀ kind, estimate.nChannels kind ≤ comm.nMaxChannels kind) : Grows comm estimate (estimate.add task) := by
  refine ⟨fun kind => ?_, fun kind => ?_, fun kind => ?_⟩ <;> have := limit kind <;>
    by_cases same : kind = task.kind
  · subst same; simp [CollEstimate.add]
  · simp [CollEstimate.add, update_of_ne same]
  · subst same
    simp only [CollEstimate.add, update_self]
    omega
  · simp [CollEstimate.add, update_of_ne same]
  · subst same
    simp only [CollEstimate.add, update_self]
    omega
  · simpa [CollEstimate.add, update_of_ne same] using this

theorem accounted_add (task : CollTask comm)
    (grows : Grows comm (estimate.add task) after) : Accounted after task := by
  have channels := grows.channels task.kind
  have traffic := grows.traffic task.kind
  have limit := grows.limit task.kind
  have := nMaxChannels_bounds task
  have := cappedChannels_pos task
  simp only [CollEstimate.add, update_self] at channels traffic
  exact ⟨by omega, by omega⟩

theorem Grows.refl (limit : ∀ kind, estimate.nChannels kind ≤ comm.nMaxChannels kind) :
    Grows comm estimate estimate :=
  ⟨fun _ => le_rfl, fun _ => le_rfl, limit⟩

theorem Grows.trans (first : Grows comm before between)
    (second : Grows comm between after) : Grows comm before after :=
  ⟨fun kind => (first.traffic kind).trans (second.traffic kind),
    fun kind => (first.channels kind).trans (second.channels kind), second.limit⟩

/-- The tasks the first pass counts are the first ones of the queue, and it has
accounted for each of them. -/
theorem estimateColls_accounts (testBudget : Nat → Nat → Bool) (tasks : List (CollTask comm))
    (estimate : CollEstimate) (workBytes : Nat) (limit : ∀ kind, estimate.nChannels kind ≤ comm.nMaxChannels kind) :
    Grows comm estimate (estimateColls testBudget estimate workBytes tasks) ∧
      ∃ accepted, (estimateColls testBudget estimate workBytes tasks).nPlanColls = estimate.nPlanColls + accepted ∧
        ∀ task ∈ tasks.take accepted, Accounted (estimateColls testBudget estimate workBytes tasks) task := by
  induction tasks generalizing estimate workBytes with
  | nil => exact ⟨Grows.refl limit, 0, rfl, by simp⟩
  | cons task rest ih =>
    have grows := add_grows task limit
    simp only [estimateColls]
    split
    · exact ⟨Grows.refl limit, 0, rfl, by simp⟩
    · split
      · exact ⟨Grows.refl limit, 0, rfl, by simp⟩
      · split
        · refine ⟨grows, 1, rfl, fun other member => ?_⟩
          rw [List.take_succ_cons, List.take_zero, List.mem_singleton] at member
          subst member
          exact accounted_add other (Grows.refl grows.limit)
        · obtain ⟨later, accepted, counted, accounted⟩ := ih (estimate.add task) (workBytes + task.workSize) grows.limit
          refine ⟨grows.trans later, accepted + 1, ?_, fun other member => ?_⟩
          · rw [counted]
            simp only [CollEstimate.add]
            omega
          · rw [List.take_succ_cons, List.mem_cons] at member
            rcases member with rfl | member
            · exact accounted_add other later
            · exact accounted other member

/-- The cursor of the second pass: it stands on a channel of the kind it last
saw, and hands out that kind's share. -/
def CursorOk (comm : CollComm) (estimate : CollEstimate) (cursor : CollCursor) : Prop :=
  ∀ kind, cursor.kindPrev = some kind →
    cursor.trafficPerChannel = divUp (estimate.trafficBytes kind / estimate.nChannels kind) 16 * 16 ∧
      Standing (comm.nMaxChannels kind) cursor.trafficPerChannel cursor.channelId cursor.currentTraffic

variable {task : CollTask comm}

theorem share_large (accounted : Accounted estimate task) :
    max minTrafficPerChannel task.trafficBytes ≤
      128 * (divUp (estimate.trafficBytes task.kind / estimate.nChannels task.kind) 16 * 16) := by
  have least : minTrafficPerChannel = 32768 := rfl
  have traffic := accounted.traffic
  have quotient : estimate.trafficBytes task.kind / 64 ≤
      estimate.trafficBytes task.kind / estimate.nChannels task.kind :=
    Nat.div_le_div_left accounted.channels.2 accounted.channels.1
  have rounded := le_divUp_mul (x := estimate.trafficBytes task.kind / estimate.nChannels task.kind)
    (show 0 < 16 by decide)
  omega

section
variable (ok : CursorOk comm estimate cursor)
include ok

theorem enter_ok (accounted : Accounted estimate task) :
    ∃ entered, cursor.enter estimate task.kind = some entered ∧ entered.kindPrev = some task.kind ∧
      CursorOk comm estimate entered := by
  by_cases same : cursor.kindPrev = some task.kind
  · exact ⟨cursor, if_pos same, same, ok⟩
  · simp only [CollCursor.enter, same, ↓reduceIte, checkedDiv_eq accounted.channels.1, bind_eq_bind, bind_some]
    refine ⟨_, rfl, rfl, ?_⟩
    rintro kind ⟨⟩
    have share := share_large accounted
    have least : minTrafficPerChannel = 32768 := rfl
    have positive : 0 < divUp (estimate.trafficBytes task.kind / estimate.nChannels task.kind) 16 * 16 := by omega
    exact ⟨rfl, ⟨positive, (nMaxChannels_bounds task).1, Or.inl positive⟩⟩

/-- Wherever a task ends, the last step of `advance` leaves a full channel
behind if there is a next one. -/
private theorem leave_full_channel (current : cursor.kindPrev = some kind)
    (inside : channelId < comm.nMaxChannels kind) (currentTraffic : Nat) :
    CursorOk comm estimate
      (if cursor.trafficPerChannel ≤ currentTraffic ∧ channelId + 1 ≠ comm.nMaxChannels kind then
        { cursor with channelId := channelId + 1, currentTraffic := 0 }
      else { cursor with channelId, currentTraffic }) := by
  obtain ⟨share, standing⟩ := ok kind current
  split
  next full =>
    rintro other same
    obtain rfl : kind = other := some.inj (current.symm.trans same)
    exact ⟨share, standing.share, by simp only; omega, Or.inl standing.share⟩
  next room =>
    rintro other same
    obtain rfl : kind = other := some.inj (current.symm.trans same)
    refine ⟨share, standing.share, inside, ?_⟩
    simp only
    omega

theorem advance_ok (current : cursor.kindPrev = some task.kind)
    (splitOk : SplitOk (comm.nMaxChannels task.kind) cursor.channelId shape.cells split)
    (counts : CountsOk task.count split work) :
    CursorOk comm estimate (cursor.advance (comm.nMaxChannels task.kind) shape split work) := by
  obtain ⟨-, standing⟩ := ok task.kind current
  have inside := (cbdExact_of_counts splitOk counts).inside
  have top := counts.channelHi
  unfold CollCursor.advance
  by_cases hi : work.countHi = 0
  · have none := splitOk.no_mid (counts.hi.mp hi)
    simp only [hi, none, ne_eq, not_true_eq_false, ↓reduceIte]
    exact leave_full_channel ok current (splitOk.start ▸ standing.inside) _
  · simp only [hi, ne_eq, not_false_eq_true, ↓reduceIte]
    exact leave_full_channel ok current (by omega) _

end

/-- A collnet task takes the first channels, as many as its cap; a task placed by continuous byte
distribution is partitioned exactly. -/
def PlacedExact (placed : PlacedColl comm) : Prop :=
  if placed.task.kind.isCollnet then placed.work = ⟨0, placed.task.cappedChannels - 1, 0, 0, 0⟩
  else CbdExact (comm.nMaxChannels placed.task.kind) placed.task.count placed.work

/-- The outcome of the second pass: behind what was placed before it has placed the first of these tasks. -/
def PlacesExactly (placed : List (PlacedColl comm)) (tasks : List (CollTask comm))
    (result : Option (List (PlacedColl comm))) : Prop :=
  ∃ plan, result = some plan ∧ (∃ taken, plan.map PlacedColl.task = placed.map PlacedColl.task ++ tasks.take taken) ∧
    ∀ item ∈ plan, PlacedExact item

variable (testBudget : Nat → Nat → Bool) (nWorkBatches : List (PlacedColl comm) → Nat) (tasks : List (CollTask comm))

theorem placeColls_exact (estimate : CollEstimate) (nPlanColls : Nat) (cursor : CollCursor)
    (workBytes : Nat) (placed : List (PlacedColl comm)) (ok : CursorOk comm estimate cursor)
    (accounted : ∀ task ∈ tasks.take nPlanColls, Accounted estimate task) (done : ∀ item ∈ placed, PlacedExact item) :
    PlacesExactly placed tasks
      (placeColls testBudget nWorkBatches estimate nPlanColls cursor workBytes placed tasks) := by
  induction tasks generalizing nPlanColls cursor workBytes placed with
  | nil =>
    cases nPlanColls <;> exact ⟨placed, rfl, ⟨0, by simp⟩, done⟩
  | cons task rest ih =>
    cases nPlanColls with
    | zero => exact ⟨placed, rfl, ⟨0, by simp⟩, done⟩
    | succ nPlanColls =>
      simp only [List.take_succ_cons, List.forall_mem_cons] at accounted
      obtain ⟨accountedHere, accountedLater⟩ := accounted
      obtain ⟨entered, enters, current, enteredOk⟩ := enter_ok ok accountedHere
      have stop : PlacesExactly placed (task :: rest) (some placed) := ⟨placed, rfl, ⟨0, by simp⟩, done⟩
      -- both paths go on with one more item, and differ in the cursor they leave
      have next : ∀ (after : CollCursor) (work : DevWorkColl), CursorOk comm estimate after →
          PlacedExact ⟨task, work⟩ → PlacesExactly placed (task :: rest) (placeColls testBudget nWorkBatches estimate
            nPlanColls after (workBytes + task.workSize) (placed ++ [⟨task, work⟩]) rest) := by
        intro after work afterOk exact
        obtain ⟨plan, placesRest, ⟨taken, order⟩, all⟩ := ih nPlanColls after (workBytes + task.workSize)
          (placed ++ [⟨task, work⟩]) afterOk accountedLater (by
            intro item member
            rcases List.mem_append.mp member with old | new
            · exact done item old
            · rw [List.mem_singleton.mp new]
              exact exact)
        exact ⟨plan, placesRest, ⟨taken + 1, by simpa using order⟩, all⟩
      simp only [placeColls, enters, bind_eq_bind, bind_some]
      by_cases collnet : task.kind.isCollnet = true
      · simp only [collnet, ↓reduceIte]
        split
        · exact stop
        · exact next entered _ enteredOk (by simp [PlacedExact, collnet])
      · obtain ⟨share, standing⟩ := enteredOk task.kind current
        obtain ⟨shape, shapes, shapeOk⟩ := cellShape_ok task
        obtain ⟨split, splits, splitOk⟩ := splitCells_ok standing shapeOk (share ▸ share_large accountedHere)
        obtain ⟨work, counted, counts⟩ := cbdWork_ok shapeOk splitOk
        simp only [collnet, shapes, splits, counted, bind_some, Bool.false_eq_true, ↓reduceIte]
        split
        · exact stop
        · exact next _ work (advance_ok enteredOk current splitOk counts)
            (by simpa [PlacedExact, collnet] using cbdExact_of_counts splitOk counts)

theorem scheduleColls_exact :
    PlacesExactly [] tasks (scheduleCollTasksToPlan testBudget nWorkBatches tasks) := by
  obtain ⟨-, accepted, counted, accounted⟩ :=
    estimateColls_accounts testBudget tasks ⟨0, fun _ => 0, fun _ => 0⟩ 0 (fun _ => Nat.zero_le _)
  rw [Nat.zero_add] at counted
  rw [← counted] at accounted
  have start : CursorOk comm (estimateColls testBudget ⟨0, fun _ => 0, fun _ => 0⟩ 0 tasks) ⟨none, 0, 0, 0⟩ := by
    rintro kind ⟨⟩
  exact placeColls_exact testBudget nWorkBatches tasks _ _ ⟨none, 0, 0, 0⟩ 0 [] start accounted (by simp)

/-- Scheduling collectives never divides by zero, subtracts below zero or
overflows an `int`; the plan takes the first tasks of the queue in order, and
partitions exactly every one it distributes continuously. -/
theorem coll_partition_exact :
    ∃ plan, scheduleCollTasksToPlan testBudget nWorkBatches tasks = some plan ∧
      (∃ taken, plan.map PlacedColl.task = tasks.take taken) ∧
      ∀ placed ∈ plan, placed.task.kind.isCollnet = false →
        CbdExact (comm.nMaxChannels placed.task.kind) placed.task.count placed.work := by
  obtain ⟨plan, scheduled, order, exact⟩ := scheduleColls_exact testBudget nWorkBatches tasks
  refine ⟨plan, scheduled, by simpa using order, fun placed member continuous => ?_⟩
  simpa [PlacedExact, continuous] using exact placed member

end NcclCore.CollPlanProofs
