import NcclCore.CollPlanProofs

/-! A collective with a configuration of its own is alone in its plan. It gets as many
channels as its cells need, at what a channel gets of its traffic; both are rounded, and
the share is rounded down before it is rounded up to 16 bytes. -/
namespace NcclCore.CollPlanProofs
open Option
variable {comm : CollComm} {task : CollTask comm} {nMax count traffic trafficPerChannel : Nat}

/-- The bytes of a cell. -/
def cellSize (task : CollTask comm) : Nat := divUp (divUp minTrafficPerChannel task.trafficPerByte) 16 * 16

/-- What a channel gets of the traffic of a task that is alone. -/
def isolatedShare (task : CollTask comm) : Nat :=
  divUp (max minTrafficPerChannel task.trafficBytes / min task.cappedChannels (comm.nMaxChannels task.kind)) 16 * 16

/-- The cells that hold this share. -/
def isolatedCells (task : CollTask comm) : Nat := divUp (isolatedShare task) (cellSize task * task.trafficPerByte)

theorem cellShape_eq (shapes : task.cellShape = some shape) :
    shape.cells = divUp (task.count * ncclTypeSize task.datatype) (cellSize task) ∧
      shape.trafficPerCell = cellSize task * task.trafficPerByte ∧ 0 < cellSize task := by
  have positive := (trafficPerByte_bounds task).1
  have some_ : 0 < cellSize task := mul_pos (divUp_pos (by decide) (divUp_pos positive (by decide))) (by decide)
  simp only [CollTask.cellShape, checkedDivUp_eq positive, checkedDivUp_eq (show 0 < 16 by decide), bind_eq_bind,
    bind_some, bind_eq_some_iff] at shapes
  obtain ⟨quotient, -, elementsPerCell, -, cells, isCells, isShape⟩ := shapes
  cases isShape
  cases (checkedDivUp_eq some_).symm.trans isCells
  exact ⟨rfl, rfl, some_⟩

/-! ### The number of channels -/

theorem channelsUsed_of_lo (some_ : 0 < lo) :
    channelsUsed lo nMidChannels hi = 1 + nMidChannels + if hi ≠ 0 then 1 else 0 := by
  rw [channelsUsed, if_pos (pos_iff_ne_zero.mp some_)]

/-- Full channels and one for the rest. -/
theorem used_le_iff (positive : 0 < perChannel) (le : perChannel ≤ cells) :
    channelsUsed perChannel ((cells - perChannel) / perChannel) ((cells - perChannel) % perChannel) ≤ bound ↔
      cells ≤ bound * perChannel := by
  obtain ⟨left, rfl⟩ := Nat.exists_eq_add_of_le le
  have shared := Nat.div_add_mod' left perChannel
  have small := Nat.mod_lt left positive
  rw [channelsUsed_of_lo positive, Nat.add_sub_cancel_left]
  generalize left / perChannel = full at shared ⊢
  generalize left % perChannel = rest at shared small ⊢
  have last : (if rest ≠ 0 then 1 else 0) * perChannel = if rest ≠ 0 then perChannel else 0 := by
    split <;> simp
  constructor
  · intro few
    refine le_trans ?_ (Nat.mul_le_mul_right perChannel few)
    rw [add_mul, add_mul]
    split <;> omega
  · intro covers
    by_contra many
    have fewer : bound * perChannel ≤ (full + if rest ≠ 0 then 1 else 0) * perChannel :=
      Nat.mul_le_mul_right perChannel (by omega)
    rw [add_mul] at fewer
    split at fewer <;> omega

theorem used_normalize (lo : 0 < split.cellsLo) (perChannel : split.nMidChannels ≠ 0 → 0 < split.cellsPerChannel) :
    channelsUsed (normalizeSplit split).cellsLo (normalizeSplit split).nMidChannels (normalizeSplit split).cellsHi =
      channelsUsed split.cellsLo split.nMidChannels split.cellsHi := by
  have some_ := pos_iff_ne_zero.mp lo
  by_cases trade : split.cellsHi = 0 ∧ split.nMidChannels ≠ 0
  · have full := pos_iff_ne_zero.mp (perChannel trade.2)
    simp only [normalizeSplit, trade, some_, channelsUsed, full, ne_eq, not_true_eq_false, not_false_eq_true, and_self,
      ↓reduceIte]
    omega
  · simp [normalizeSplit, trade, some_]

/-- The first task of a plan gets as many channels as it needs, or all. -/
theorem used_start (standing : Standing nMax trafficPerChannel 0 0) (shapeOk : ShapeOk count traffic shape)
    (share : max minTrafficPerChannel traffic ≤ 128 * trafficPerChannel)
    (splits : splitCells nMax trafficPerChannel 0 0 shape = some split) (some_ : 0 < bound) :
    channelsUsed split.cellsLo split.nMidChannels split.cellsHi ≤ bound ↔
      nMax ≤ bound ∨ shape.cells ≤ bound * divUp trafficPerChannel shape.trafficPerCell := by
  obtain ⟨first, chosen, least, perChannel, mid, hi, ok⟩ := splitByTraffic_ok standing shapeOk share
  -- before the number of channels is limited
  have needed : channelsUsed first.cellsLo first.nMidChannels first.cellsHi ≤ bound ↔
      nMax ≤ 1 ∨ shape.cells ≤ bound * divUp trafficPerChannel shape.trafficPerCell := by
    have inside := standing.inside
    rw [mid, hi]
    by_cases single : 0 + 1 = nMax
    · rw [ok.lastChannel single, Nat.sub_self, Nat.zero_div, channelsUsed_of_lo shapeOk.cells]
      exact iff_of_true some_ (.inl (by omega))
    · rw [leastCells, if_neg single] at least
      simp only [checkedSub, checkedDivUp_eq shapeOk.cell, Nat.zero_le, ↓reduceIte, Nat.sub_zero, bind_eq_bind,
        bind_some, pure_def, some.injEq, ← perChannel] at least
      rw [← least, used_le_iff ok.perChannel (perChannel ▸ Nat.min_le_left _ _), perChannel]
      rcases Nat.le_total shape.cells (divUp trafficPerChannel shape.trafficPerCell) with few | many
      · rw [Nat.min_eq_left few]
        have one := Nat.le_mul_of_pos_left shape.cells some_
        exact iff_of_true one (.inr (few.trans (Nat.le_mul_of_pos_left _ some_)))
      · rw [Nat.min_eq_right many, or_iff_right (by omega)]
  simp only [splitCells, chosen, bind_eq_bind, bind_some] at splits
  by_cases overflow : nMax < 0 + channelsUsed first.cellsLo first.nMidChannels first.cellsHi
  · obtain ⟨spread, spreads, spreadOk, all⟩ := splitOverflow_ok standing.inside ok overflow
    simp only [overflow, ↓reduceIte, spreads, bind_some] at splits
    cases splits
    rw [used_normalize spreadOk.lo fun mid => (spreadOk.mid mid).1]
    omega
  · simp only [overflow, ↓reduceIte] at splits
    cases splits
    rw [used_normalize ok.lo fun _ => ok.perChannel]
    omega

/-! ### The plan -/

/-- The first pass, when it has taken one task. -/
def isolatedEstimate (task : CollTask comm) : CollEstimate := CollEstimate.add ⟨0, fun _ => 0, fun _ => 0⟩ task

theorem isolated_accounted (task : CollTask comm) : Accounted (isolatedEstimate task) task :=
  accounted_add task (Grows.refl (add_grows task fun _ => Nat.zero_le _).limit)

theorem enter_isolated (task : CollTask comm) :
    CollCursor.enter ⟨none, 0, 0, 0⟩ (isolatedEstimate task) task.kind =
      some ⟨some task.kind, isolatedShare task, 0, 0⟩ := by
  have channels := (isolated_accounted task).channels.1
  simp only [isolatedEstimate, CollEstimate.add, Function.update_self, zero_add] at channels
  simp [CollCursor.enter, isolatedEstimate, CollEstimate.add, checkedDiv_eq channels, isolatedShare]

/-- A task that is alone in its plan keeps to its cap exactly if it is distributed by the
collnet algorithm, if there are no more channels, or if the cells that its share is rounded
to, on as many channels as the cap allows, hold all its bytes. -/
theorem isolated_cap_iff (task : CollTask comm) (rest : List (CollTask comm)) (testBudget : Nat → Nat → Bool)
    (nWorkBatches : List (PlacedColl comm) → Nat) (isolated : task.aggIsolate = true) :
    ∃ plan, scheduleCollTasksToPlan testBudget nWorkBatches (task :: rest) = some plan ∧
      ((∀ nBatches bytes, testBudget nBatches bytes = true) → plan ≠ []) ∧
      ∀ placed ∈ plan, placed.task = task ∧
        (placed.work.channelHi - placed.work.channelLo + 1 ≤ task.cappedChannels ↔
          task.kind.isCollnet = true ∨ comm.nMaxChannels task.kind ≤ task.cappedChannels ∨
            task.count * ncclTypeSize task.datatype ≤
              task.cappedChannels * isolatedCells task * cellSize task) := by
  have capped := cappedChannels_pos task
  have alone : estimateColls testBudget ⟨0, fun _ => 0, fun _ => 0⟩ 0 (task :: rest) =
      if testBudget 0 task.workSize then isolatedEstimate task else ⟨0, fun _ => 0, fun _ => 0⟩ := by
    cases room : testBudget 0 task.workSize <;>
      simp [estimateColls, isolated, room, divUp, isolatedEstimate]
  simp only [scheduleCollTasksToPlan, alone]
  cases room : testBudget 0 task.workSize with
  | false => exact ⟨[], rfl, fun always => absurd (always 0 task.workSize) (by simp [room]), by simp⟩
  | true =>
    have one : (isolatedEstimate task).nPlanColls = 1 := rfl
    simp only [↓reduceIte, one, placeColls, enter_isolated, bind_eq_bind, bind_some]
    by_cases collnet : task.kind.isCollnet = true
    · simp only [collnet, ↓reduceIte]
      split
      next refused =>
        exact ⟨[], rfl, fun always => by simp [always] at refused, by simp⟩
      · refine ⟨_, rfl, by simp, fun placed member => ?_⟩
        obtain rfl := List.mem_singleton.mp member
        refine ⟨rfl, iff_of_true ?_ (.inl trivial)⟩
        simp only
        omega
    · have start : CursorOk comm (isolatedEstimate task) ⟨none, 0, 0, 0⟩ := by
        rintro kind ⟨⟩
      obtain ⟨entered, enters, current, ok⟩ := enter_ok start (isolated_accounted task)
      cases (enter_isolated task).symm.trans enters
      obtain ⟨isShare, standing⟩ := ok task.kind current
      have share := isShare ▸ share_large (isolated_accounted task)
      obtain ⟨shape, shapes, shapeOk⟩ := cellShape_ok task
      obtain ⟨split, splits, splitOk⟩ := splitCells_ok standing shapeOk share
      obtain ⟨work, counted, counts⟩ := cbdWork_ok shapeOk splitOk
      have used := used_start standing shapeOk share splits capped
      obtain ⟨isCells, isCell, some_⟩ := cellShape_eq shapes
      rw [isCells, isCell, divUp_le_iff some_] at used
      simp only [collnet, Bool.false_eq_true, ↓reduceIte, shapes, splits, counted, bind_some]
      split
      next refused =>
        exact ⟨[], rfl, fun always => by simp [always] at refused, by simp⟩
      · refine ⟨_, rfl, by simp, fun placed member => ?_⟩
        obtain rfl := List.mem_singleton.mp member
        have channels : work.channelHi - work.channelLo + 1 =
            channelsUsed split.cellsLo split.nMidChannels split.cellsHi := by
          have first : split.channelId = 0 := splitOk.start
          have last := counts.channelHi
          rw [channelsUsed_of_lo counts.lo, ← channelsUsed_of_lo splitOk.lo] at last
          rw [counts.channelLo]
          omega
        rw [channels, used]
        exact ⟨rfl, (false_or _).symm ▸ Iff.rfl⟩

/-- A broadcast of three cells and one byte, with at most three of four channels. -/
def cappedBroadcast : CollTask ⟨2, 4, 0, by decide, by decide, by decide, by decide⟩ where
  func := .broadcast
  datatype := .int8
  count := 98305
  isLL := false
  kind := ⟨false, false⟩
  trafficBytes := 98305
  nMaxChannels := 3
  minCTAs := 1
  maxCTAs := 3
  nvlsCTAs := none
  aggIsolate := true
  workSize := 128

/-- A third of the traffic is rounded down to one cell, and the last byte takes a fourth channel. -/
theorem capped_broadcast_four_channels :
    cappedBroadcast.aggIsolate = true ∧ cappedBroadcast.cappedChannels = 3 ∧
      scheduleCollTasksToPlan (fun _ _ => true) (fun _ => 0) [cappedBroadcast] =
        some [⟨cappedBroadcast, ⟨0, 3, 32768, 32768, 1⟩⟩] := ⟨rfl, rfl, rfl⟩

theorem capped_broadcast_iff :
    ∃ plan, scheduleCollTasksToPlan (fun _ _ => true) (fun _ => 0) [cappedBroadcast] = some plan ∧ plan ≠ [] ∧
      ∀ placed ∈ plan, ¬ placed.work.channelHi - placed.work.channelLo + 1 ≤ 3 := by
  obtain ⟨plan, scheduled, nonempty, all⟩ := isolated_cap_iff cappedBroadcast [] (fun _ _ => true) (fun _ => 0) rfl
  refine ⟨plan, scheduled, nonempty fun _ _ => rfl, fun placed member => ?_⟩
  exact fun fits => absurd ((all placed member).2.mp fits) (by decide)

/-! ### The channels exist -/

/-- What the tuner and the resolved limits promise of a task. -/
structure TunedWithin (task : CollTask comm) : Prop where
  some_ : 0 < task.nMaxChannels
  tuned : task.nMaxChannels ≤ comm.nMaxChannels task.kind
  limits : task.minCTAs ≤ task.maxCTAs
  maxChannels : task.maxCTAs ≤ 64

/-- The cap can pass the channels of the task's kind only by the lower limit. -/
theorem capped_le_iff (within : TunedWithin task) :
    task.cappedChannels ≤ comm.nMaxChannels task.kind ↔
      task.minCTAs ≤ comm.nMaxChannels task.kind ∨
        task.kind.isNvls = true ∧ ∃ nvlsCTAs ∈ task.nvlsCTAs, nvlsCTAs ≤ comm.nMaxChannels task.kind := by
  have tuned := within.tuned
  have limits := within.limits
  unfold CollTask.cappedChannels
  cases nvls : task.kind.isNvls with
  | false => simp; omega
  | true => cases nvlsCTAs : task.nvlsCTAs <;> simp <;> omega

/-- Every task that gets a place gets channels that exist, except a collnet task whose least
number of CTAs exceeds the channels of its kind and is not cut down by an NVLS limit. -/
theorem channels_exist_iff (testBudget : Nat → Nat → Bool) (nWorkBatches : List (PlacedColl comm) → Nat)
    (tasks : List (CollTask comm)) (within : ∀ task ∈ tasks, TunedWithin task) :
    ∃ plan, scheduleCollTasksToPlan testBudget nWorkBatches tasks = some plan ∧
      ∀ placed ∈ plan,
        (placed.work.channelLo ≤ placed.work.channelHi ∧
            placed.work.channelHi < comm.nMaxChannels placed.task.kind ↔
          placed.task.kind.isCollnet = false ∨ placed.task.minCTAs ≤ comm.nMaxChannels placed.task.kind ∨
            placed.task.kind.isNvls = true ∧
              ∃ nvlsCTAs ∈ placed.task.nvlsCTAs, nvlsCTAs ≤ comm.nMaxChannels placed.task.kind) := by
  obtain ⟨plan, scheduled, ⟨taken, order⟩, exact⟩ := scheduleColls_exact testBudget nWorkBatches tasks
  refine ⟨plan, scheduled, fun placed member => ?_⟩
  have isTask : placed.task ∈ tasks :=
    List.mem_of_mem_take (order ▸ List.mem_map_of_mem (f := PlacedColl.task) member)
  have work := exact placed member
  unfold PlacedExact at work
  cases collnet : placed.task.kind.isCollnet with
  | false =>
    rw [collnet] at work
    exact iff_of_true ⟨work.ordered, work.inside⟩ (.inl rfl)
  | true =>
    rw [collnet] at work
    have some_ := cappedChannels_pos placed.task
    rw [← capped_le_iff (within _ isTask), or_iff_right (by decide), work]
    simp only
    omega

/-- An allreduce on two channels that is to use four CTAs at least. -/
def wideCollnet : CollTask ⟨2, 2, 0, by decide, by decide, by decide, by decide⟩ where
  func := .allReduce
  datatype := .int8
  count := 1024
  isLL := false
  kind := ⟨true, false⟩
  trafficBytes := 2048
  nMaxChannels := 2
  minCTAs := 4
  maxCTAs := 64
  nvlsCTAs := none
  aggIsolate := true
  workSize := 128

theorem wideCollnet_within : TunedWithin wideCollnet := ⟨by decide, by decide, by decide, by decide⟩

/-- It is placed on the channels 0 to 3, of which 2 and 3 do not exist. -/
theorem wide_collnet_leaves_channels :
    TunedWithin wideCollnet ∧
      scheduleCollTasksToPlan (fun _ _ => true) (fun _ => 0) [wideCollnet] = some [⟨wideCollnet, ⟨0, 3, 0, 0, 0⟩⟩] :=
  ⟨wideCollnet_within, rfl⟩

theorem wide_collnet_channels_iff :
    ∃ plan, scheduleCollTasksToPlan (fun _ _ => true) (fun _ => 0) [wideCollnet] = some plan ∧
      ∀ placed ∈ plan, placed.task = wideCollnet → ¬ placed.work.channelHi < 2 := by
  obtain ⟨plan, scheduled, all⟩ :=
    channels_exist_iff (fun _ _ => true) (fun _ => 0) [wideCollnet] (by simpa using wideCollnet_within)
  refine ⟨plan, scheduled, fun placed member isTask inside => ?_⟩
  cases scheduled
  obtain rfl := List.mem_singleton.mp member
  exact absurd ((all _ member).mp ⟨by decide, inside⟩) (by simp [wideCollnet, CollComm.nMaxChannels])

end NcclCore.CollPlanProofs
