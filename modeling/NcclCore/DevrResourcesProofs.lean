import NcclCore.DevrResources
import NcclCore.Lib.Placing
import NcclCore.Lib.Digits

/-! The resources of a device communicator lie apart in its window, and the shadows of its
signals too, exactly if there is room for the contexts that were added. -/
namespace NcclCore.DevrResourcesProofs
open Lib List

/-- An alignment that a buffer can ask for, or none where no buffer is named. -/
def Alignable (rr : DevResourceRequirements) : Prop :=
  (∃ k, rr.bufferAlign = 2 ^ k) ∨ (rr.bufferAlign = 0 ∧ rr.outBufferHandle = false)

theorem max_two_pow (k : Nat) : max 128 (2 ^ k) = 2 ^ max 7 k := by
  rcases Nat.le_total k 7 with small | large
  · rw [Nat.max_eq_left small, Nat.max_eq_left (Nat.pow_le_pow_right (by decide) small : 2 ^ k ≤ 2 ^ 7)]
  · rw [Nat.max_eq_right large, Nat.max_eq_right (Nat.pow_le_pow_right (by decide) large : 2 ^ 7 ≤ 2 ^ k)]

theorem Alignable.dvd_max (alignable : Alignable rr) : 128 ∣ max 128 rr.bufferAlign := by
  rcases alignable with ⟨k, is⟩ | ⟨is, -⟩
  · rw [is, max_two_pow]
    exact Nat.pow_dvd_pow 2 (le_max_left 7 k)
  · rw [is]
    decide

theorem Alignable.align_dvd (alignable : Alignable rr) (named : rr.outBufferHandle = true) :
    rr.bufferAlign ∣ max 128 rr.bufferAlign := by
  rcases alignable with ⟨k, is⟩ | ⟨-, unnamed⟩
  · rw [is, max_two_pow]
    exact Nat.pow_dvd_pow 2 (le_max_right 7 k)
  · rw [named] at unnamed
    cases unnamed

/-- The buffers, signals and counters of the places, between the totals before and behind them. -/
structure Laid (first : DevResourceTotals) (places : List DevResourcePlace) (last : DevResourceTotals) : Prop where
  aligned : ∀ place ∈ places, place.req.outBufferHandle → place.req.bufferAlign ∣ place.bufferOffset
  buffers : Placed first.bufSizeTotal
    (places.map fun place => (place.bufferOffset, place.req.bufferSize)) last.bufSizeTotal
  signals : Placed first.ginSignalTotal (places.map fun place => (place.ginSignalStart, place.req.ginSignalCount))
    last.ginSignalTotal
  counters : Placed first.ginCounterTotal (places.map fun place => (place.ginCounterStart, place.req.ginCounterCount))
    last.ginCounterTotal

section
variable (totals : DevResourceTotals)
include totals

theorem bufferStart_dvd (alignable : Alignable rr) :
    totals.bufferStart rr / 128 * 128 = totals.bufferStart rr :=
  Nat.div_mul_cancel (alignable.dvd_max.trans (dvd_alignUp _ _))

theorem laid_layout (alignable : ∀ rr ∈ reqs, Alignable rr) :
    Laid totals (totals.layout reqs).1 (totals.layout reqs).2 := by
  induction reqs generalizing totals with
  | nil => exact ⟨forall_mem_nil _, le_rfl, le_rfl, le_rfl⟩
  | cons rr rest ih =>
    have later := ih (totals.add rr) fun rr member => alignable rr (.tail _ member)
    have offset := bufferStart_dvd totals (alignable rr (.head _))
    refine ⟨forall_mem_cons.mpr ⟨fun named => ?_, later.aligned⟩, ?_, ⟨le_rfl, later.signals⟩, le_rfl, later.counters⟩
    · rw [DevResourcePlace.bufferOffset, offset]
      exact ((alignable rr (.head _)).align_dvd named).trans (dvd_alignUp _ _)
    · simp only [DevResourceTotals.layout, map_cons, Placed, DevResourcePlace.bufferOffset, offset]
      exact ⟨le_alignUp _ (by omega), later.buffers⟩

theorem layout_reqs (reqs : List DevResourceRequirements) :
    (totals.layout reqs).1.map DevResourcePlace.req = reqs := by
  induction reqs generalizing totals with
  | nil => rfl
  | cons rr rest ih => exact congrArg (rr :: ·) (ih (totals.add rr))

/-- Without signals and counters in the list the totals stay. -/
theorem layout_totals_of_none (none : ∀ rr ∈ reqs, rr.ginSignalCount = 0 ∧ rr.ginCounterCount = 0) :
    (totals.layout reqs).2.ginSignalTotal = totals.ginSignalTotal ∧
      (totals.layout reqs).2.ginCounterTotal = totals.ginCounterTotal := by
  induction reqs generalizing totals with
  | nil => exact ⟨rfl, rfl⟩
  | cons rr rest ih =>
    obtain ⟨signals, counters⟩ := none rr (.head _)
    obtain ⟨later_signals, later_counters⟩ := ih (totals.add rr) fun rr member => none rr (.tail _ member)
    simp only [DevResourceTotals.layout]
    rw [later_signals, later_counters, DevResourceTotals.add, signals, counters]
    exact ⟨rfl, rfl⟩

end

section
variable {comm : DevrComm}

theorem mem_resReqs (member : rr ∈ comm.resReqs reqs requested) :
    rr ∈ reqs.resourceRequirementsList ∨
      (∃ ranks, rr = ncclCftBarrierCreateRequirement ranks reqs.cftBarrierCount) ∨
      (∃ ranks nBarriers, rr = ncclLsaBarrierCreateRequirement ranks nBarriers) ∨
      ∃ ranks nBarriers, rr = ncclGinBarrierCreateRequirement ranks nBarriers ∧
        nBarriers ≤ max reqs.barrierCount (max reqs.railGinBarrierCount reqs.worldGinBarrierCount) := by
  simp only [DevrComm.resReqs, mem_append, mem_cons, not_mem_nil, or_false] at member
  rcases member with ((multimem | cft) | internal) | user
  · split at multimem
    · exact .inr (.inl ⟨_, mem_singleton.mp multimem⟩)
    · cases multimem
  · split at cft
    · exact .inr (.inl ⟨_, mem_singleton.mp cft⟩)
    · cases cft
  · rcases internal with is | is | is | is | is | is
    · exact .inr (.inr (.inr ⟨_, _, is, by omega⟩))
    · exact .inr (.inr (.inr ⟨_, _, is, by omega⟩))
    · exact .inr (.inr (.inl ⟨_, _, is⟩))
    · exact .inr (.inr (.inr ⟨_, _, is, by split <;> omega⟩))
    · exact .inr (.inr (.inr ⟨_, _, is, by omega⟩))
    · exact .inr (.inr (.inl ⟨_, _, is⟩))
  · exact .inl user

theorem alignable_resReqs (powers : ∀ rr ∈ reqs.resourceRequirementsList, ∃ k, rr.bufferAlign = 2 ^ k) :
    ∀ rr ∈ comm.resReqs reqs requested, Alignable rr := by
  intro rr member
  rcases mem_resReqs member with user | ⟨ranks, rfl⟩ | ⟨ranks, nBarriers, rfl⟩ | ⟨ranks, nBarriers, rfl, -⟩
  · exact .inl (powers rr user)
  · exact .inl ⟨4, rfl⟩
  · exact .inl ⟨2, rfl⟩
  · exact .inr ⟨rfl, rfl⟩

/-- Without GIN resources the list has no signals and no counters. -/
theorem resReqs_of_not_requested (none : ncclGinResourcesRequested reqs = false) :
    ∀ rr ∈ comm.resReqs reqs requested, rr.ginSignalCount = 0 ∧ rr.ginCounterCount = 0 := by
  simp only [ncclGinResourcesRequested, Bool.or_eq_false_iff, decide_eq_false_iff_not, not_lt, Nat.le_zero,
    any_eq_false, Bool.or_eq_true, decide_eq_true_eq, not_or] at none
  obtain ⟨⟨⟨⟨⟨-, -⟩, barriers⟩, rail⟩, world⟩, user_none⟩ := none
  intro rr member
  rcases mem_resReqs member with user | ⟨ranks, rfl⟩ | ⟨ranks, nBarriers, rfl⟩ | ⟨ranks, nBarriers, rfl, bound⟩
  · exact user_none rr user
  · exact ⟨rfl, rfl⟩
  · exact ⟨rfl, rfl⟩
  · have zero : nBarriers = 0 := by omega
    exact ⟨by rw [zero]; exact zero_mul _, rfl⟩

end

/-- Two ranges share no number. -/
def Disjoint (start size start' size' : Int) : Prop :=
  ∀ x, ¬ ((start ≤ x ∧ x < start + size) ∧ start' ≤ x ∧ x < start' + size')

theorem disjoint_of_le {start size start' size' : Nat} (before : start + size ≤ start') :
    Disjoint start size start' size' := fun _ both => by omega

/-- The resources are apart and within their bounds, in a window that begins at `base`. -/
structure Apart (base : Nat) (reqs : DevCommRequirements) (devComm : DevComm) : Prop where
  aligned : ∀ place ∈ devComm.places, place.req.outBufferHandle →
    place.req.bufferAlign ∣ base + place.bufferOffset
  inside : ∀ place ∈ devComm.places, place.req.outBufferHandle →
    place.bufferOffset + place.req.bufferSize ≤ devComm.windowSize
  buffers : devComm.places.Pairwise fun a b => a.req.outBufferHandle → b.req.outBufferHandle →
    Disjoint a.bufferOffset a.req.bufferSize b.bufferOffset b.req.bufferSize
  signals : devComm.places.Pairwise fun a b => a.req.outGinSignalStart → b.req.outGinSignalStart →
    Disjoint a.ginSignalStart a.req.ginSignalCount b.ginSignalStart b.req.ginSignalCount
  signalsWithin : ∀ place ∈ devComm.places, place.req.outGinSignalStart →
    reqs.ginSignalCount ≤ place.ginSignalStart ∧
      place.ginSignalStart + place.req.ginSignalCount ≤ devComm.ginSignalCount
  counters : devComm.places.Pairwise fun a b => a.req.outGinCounterStart → b.req.outGinCounterStart →
    Disjoint a.ginCounterStart a.req.ginCounterCount b.ginCounterStart b.req.ginCounterCount
  countersWithin : ∀ place ∈ devComm.places, place.req.outGinCounterStart →
    reqs.ginCounterCount ≤ place.ginCounterStart ∧
      place.ginCounterStart + place.req.ginCounterCount ≤ devComm.ginCounterCount
  shadowsInside : ∀ contextIndex < devComm.ginContextCount, ∀ signal < devComm.ginSignalCount,
    0 ≤ signalShadow devComm contextIndex signal ∧
      signalShadow devComm contextIndex signal + 8 ≤ devComm.windowSize
  shadowsOutside : ∀ contextIndex < devComm.ginContextCount, ∀ signal < devComm.ginSignalCount,
    ∀ place ∈ devComm.places, place.req.outBufferHandle →
      Disjoint (signalShadow devComm contextIndex signal) 8 place.bufferOffset place.req.bufferSize
  shadowsApart : ∀ contextIndex < devComm.ginContextCount, ∀ signal < devComm.ginSignalCount,
    ∀ contextIndex' < devComm.ginContextCount, ∀ signal' < devComm.ginSignalCount,
      (contextIndex, signal) ≠ (contextIndex', signal') →
      Disjoint (signalShadow devComm contextIndex signal) 8 (signalShadow devComm contextIndex' signal') 8

theorem intMul_of_small (small : x * y < 2 ^ 31) : intMul x y = (x * y : Nat) := bmod_of_small small

/-- The place of a shadow word among all of them, if they can be numbered. -/
theorem signalShadow_eq {devComm : DevComm} (few : devComm.ginContextCount * devComm.ginSignalCount < 2 ^ 31)
    (context : contextIndex < devComm.ginContextCount) (signal : Nat) : signalShadow devComm contextIndex signal =
      (devComm.ginSignalShadows + (contextIndex * devComm.ginSignalCount + signal) * 8 : Nat) := by
  have small : contextIndex * devComm.ginSignalCount < 2 ^ 31 :=
    (Nat.mul_le_mul_right _ context.le).trans_lt few
  simp only [signalShadow, ncclGinInitCommon, intMul_of_small small]
  omega

section
variable {comm : DevrComm}

theorem created_cases (created : ncclDevrCommCreateInternal comm reqs = .ok devComm) :
    devComm = comm.devComm reqs ∧
      (reqs.requestedConnectionType = .none → ncclGinResourcesRequested reqs = false) := by
  simp only [ncclDevrCommCreateInternal] at created
  iterate 5 (split at created; · cases created)
  next enabled _ _ _ _ =>
  cases created
  exact ⟨rfl, fun none => Bool.not_eq_true _ ▸ fun requested => enabled ⟨requested, none⟩⟩

/-- Without GIN both totals are zero. -/
theorem laid_totals_of_none (none : ncclGinResourcesRequested reqs = false) :
    (comm.laid reqs).2.ginSignalTotal = 0 ∧ (comm.laid reqs).2.ginCounterTotal = 0 := by
  obtain ⟨signals, counters⟩ := layout_totals_of_none ⟨0, reqs.ginSignalCount, reqs.ginCounterCount⟩
    (resReqs_of_not_requested none : ∀ rr ∈ comm.resReqs reqs reqs.requestedConnectionType, _)
  simp only [ncclGinResourcesRequested, Bool.or_eq_false_iff, decide_eq_false_iff_not, not_lt, Nat.le_zero] at none
  exact ⟨signals.trans none.1.1.1.1.1, counters.trans none.1.1.1.1.2⟩

theorem devComm_counts (enabled : reqs.requestedConnectionType = .none → ncclGinResourcesRequested reqs = false) :
    (comm.devComm reqs).ginSignalCount = (comm.laid reqs).2.ginSignalTotal ∧
      (comm.devComm reqs).ginCounterCount = (comm.laid reqs).2.ginCounterTotal := by
  by_cases none : reqs.requestedConnectionType = .none
  · have zero : (comm.laid reqs).2.ginSignalTotal = 0 ∧ (comm.laid reqs).2.ginCounterTotal = 0 :=
      laid_totals_of_none (enabled none)
    simp [DevrComm.devComm, none, zero]
  · simp [DevrComm.devComm, none]

/-- The bytes up to the shadows of the contexts that were asked for. -/
def reserved (comm : DevrComm) (reqs : DevCommRequirements) : Nat :=
  comm.shadowsOffset reqs + reqs.ginContextCount * (comm.laid reqs).2.ginSignalTotal * 8

/-- The totals fit their types: the shadow words of all contexts an `int`, the window a
`size_t`. -/
structure TotalsFit (comm : DevrComm) (reqs : DevCommRequirements) : Prop where
  words : roundUp reqs.ginContextCount comm.ginCommCount * (comm.laid reqs).2.ginSignalTotal < 2 ^ 31
  bytes : alignUp (reserved comm reqs) comm.granularity < 2 ^ 64

variable (fit : TotalsFit comm reqs) (granularity : 0 < comm.granularity) (connections : 0 < comm.ginCommCount)
include fit granularity connections

theorem windowSize_eq : (comm.devComm reqs).windowSize = alignUp (reserved comm reqs) comm.granularity := by
  have few : reqs.ginContextCount * (comm.laid reqs).2.ginSignalTotal < 2 ^ 31 :=
    (Nat.mul_le_mul_right _ (le_alignUp _ connections)).trans_lt fit.words
  have bytes := fit.bytes
  have small := (le_alignUp (reserved comm reqs) granularity).trans_lt bytes
  have total : (comm.shadowsOffset reqs : Int) + (reqs.ginContextCount * (comm.laid reqs).2.ginSignalTotal : Nat) * 8 =
      reserved comm reqs := by
    rw [reserved]
    omega
  simp only [DevrComm.devComm, intMul_of_small few, total]
  have whole : ((reserved comm reqs : Int) % 2 ^ 64).toNat = reserved comm reqs := by omega
  rw [whole, Nat.mod_eq_of_lt bytes]

theorem shadows_le_window : (comm.devComm reqs).ginSignalShadows ≤ (comm.devComm reqs).windowSize := by
  rw [windowSize_eq fit granularity connections]
  exact (Nat.le_add_right ..).trans (le_alignUp _ granularity)

/-- There is room for all shadows exactly if those of the added contexts fit in the padding. -/
theorem room_iff (enabled : reqs.requestedConnectionType = .none → ncclGinResourcesRequested reqs = false) :
    (comm.devComm reqs).ginContextCount * (comm.devComm reqs).ginSignalCount < 2 ^ 31 ∧
    ((comm.devComm reqs).ginSignalShadows +
        (comm.devComm reqs).ginContextCount * (comm.devComm reqs).ginSignalCount * 8 ≤ (comm.devComm reqs).windowSize ↔
      (roundUp reqs.ginContextCount comm.ginCommCount - reqs.ginContextCount) * (comm.laid reqs).2.ginSignalTotal * 8 ≤
        alignUp (reserved comm reqs) comm.granularity - reserved comm reqs) := by
  have least := le_alignUp (reserved comm reqs) granularity
  have words := fit.words
  have order : reqs.ginContextCount * (comm.laid reqs).2.ginSignalTotal ≤
      roundUp reqs.ginContextCount comm.ginCommCount * (comm.laid reqs).2.ginSignalTotal :=
    Nat.mul_le_mul_right _ (le_alignUp _ connections)
  have shadows : (comm.devComm reqs).ginSignalShadows = comm.shadowsOffset reqs := rfl
  rw [windowSize_eq fit granularity connections, (devComm_counts enabled).1, shadows, Nat.sub_mul]
  by_cases none : reqs.requestedConnectionType = .none
  · have zero : (comm.laid reqs).2.ginSignalTotal = 0 := (laid_totals_of_none (enabled none)).1
    simp only [reserved, zero, mul_zero, zero_mul, add_zero] at least ⊢
    omega
  · have contexts : (comm.devComm reqs).ginContextCount = roundUp reqs.ginContextCount comm.ginCommCount := if_pos none
    rw [contexts]
    rw [reserved] at *
    omega

end

section
variable {devComm : DevComm} (few : devComm.ginContextCount * devComm.ginSignalCount < 2 ^ 31)
include few

/-- All shadow words are in the window exactly if the last one is. -/
theorem shadows_inside_iff (window : devComm.ginSignalShadows ≤ devComm.windowSize) :
    (∀ contextIndex < devComm.ginContextCount, ∀ signal < devComm.ginSignalCount,
      0 ≤ signalShadow devComm contextIndex signal ∧
        signalShadow devComm contextIndex signal + 8 ≤ devComm.windowSize) ↔
    devComm.ginSignalShadows + devComm.ginContextCount * devComm.ginSignalCount * 8 ≤ devComm.windowSize := by
  constructor
  · intro inside
    rcases eq_zero_or_pos devComm.ginContextCount with none | contexts
    · simpa [none] using window
    rcases eq_zero_or_pos devComm.ginSignalCount with none | signals
    · simpa [none] using window
    have last := (inside (devComm.ginContextCount - 1) (by omega) (devComm.ginSignalCount - 1) (by omega)).2
    rw [signalShadow_eq few (by omega)] at last
    obtain ⟨contexts', is⟩ : ∃ c, devComm.ginContextCount = c + 1 := ⟨_, (Nat.sub_add_cancel contexts).symm⟩
    rw [is, Nat.add_sub_cancel] at last
    rw [is, Nat.add_one_mul]
    omega
  · intro room contextIndex context signal inside
    have := digits_lt context inside
    rw [signalShadow_eq few context]
    omega

theorem Laid.apart_iff (laid : Laid ⟨0, reqs.ginSignalCount, reqs.ginCounterCount⟩ devComm.places
      ⟨devComm.ginSignalShadows, devComm.ginSignalCount, devComm.ginCounterCount⟩)
    (window : devComm.ginSignalShadows ≤ devComm.windowSize) (base : Nat) :
    Apart base reqs devComm ↔
      devComm.ginSignalShadows + devComm.ginContextCount * devComm.ginSignalCount * 8 ≤ devComm.windowSize ∧
      ∀ place ∈ devComm.places, place.req.outBufferHandle → place.req.bufferAlign ∣ base := by
  constructor
  · intro apart
    refine ⟨(shadows_inside_iff few window).mp apart.shadowsInside, fun place member named => ?_⟩
    exact (Nat.dvd_add_left (laid.aligned place member named)).mp (apart.aligned place member named)
  · rintro ⟨room, aligned⟩
    have before : ∀ place ∈ devComm.places,
        place.bufferOffset + place.req.bufferSize ≤ devComm.ginSignalShadows := fun place member =>
      (laid.buffers.bounds (mem_map_of_mem member)).2
    refine ⟨?_, ?_, ?_, ?_, ?_, ?_, ?_, (shadows_inside_iff few window).mpr room, ?_, ?_⟩
    · intro place member named
      exact Nat.dvd_add (aligned place member named) (laid.aligned place member named)
    · intro place member _
      exact le_trans (before place member) window
    · exact (pairwise_map.mp laid.buffers.apart).imp fun ordered _ _ => disjoint_of_le ordered
    · exact (pairwise_map.mp laid.signals.apart).imp fun ordered _ _ => disjoint_of_le ordered
    · intro place member _
      exact laid.signals.bounds (mem_map_of_mem member)
    · exact (pairwise_map.mp laid.counters.apart).imp fun ordered _ _ => disjoint_of_le ordered
    · intro place member _
      exact laid.counters.bounds (mem_map_of_mem member)
    · intro contextIndex context signal _ place member _ x both
      have := before place member
      rw [signalShadow_eq few context] at both
      omega
    · intro contextIndex context signal inside contextIndex' context' signal' inside' different x both
      rw [signalShadow_eq few context, signalShadow_eq few context'] at both
      exact different (Prod.mk.injEq .. ▸ (digits_inj inside inside').mp (by omega))

end

end NcclCore.DevrResourcesProofs
